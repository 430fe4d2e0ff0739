import InterBase.Lex
import InterBase.Vax
import InterBase.Library.Memory

namespace InterBase

open Memory

/-- The `nod_desc` of a constant, with the part of it that its type uses and what `dsc_address`
points to. -/
inductive NodDesc where
  | long (dscScale : Int) (value : Int)
  | int64 (dscScale : Int) (value : BitVec 64)
  | double (dscScale : Int) (strData : List UInt8)
  | text (dscTtype : UInt16) (dscLength : Nat) (strData : List UInt8)
deriving Repr, DecidableEq

def ttypeDynamic : UInt16 := 127

/-- `10 * value + (*p - '0')` in a `UINT64`. -/
def nextValue (value : BitVec 64) (c : UInt8) : BitVec 64 :=
  10 * value + BitVec.ofNat 64 (c.toNat - 48)

/-- `while (isdigit (*p))` before the point: the value, and the string from `p` on. -/
def wholeLoop : List UInt8 → BitVec 64 → BitVec 64 × List UInt8
  | [], value => (value, [])
  | c :: p, value => if isDigit c then wholeLoop p (nextValue value c) else (value, c :: p)

/-- `while (isdigit (*p))` after the point, with `dsc_scale--` in an `SCHAR`. -/
def fractionLoop : List UInt8 → BitVec 64 → Int → BitVec 64 × Int
  | [], value, scale => (value, scale)
  | c :: p, value, scale =>
    if isDigit c then fractionLoop p (nextValue value c) (schar (toSchar (scale - 1)))
    else (value, scale)

def makeSint64 (strData : List UInt8) : NodDesc :=
  match wholeLoop strData 0 with
  | (value, []) => .int64 0 value
  | (value, c :: p) =>
    if c = 46 then
      let (value, scale) := fractionLoop p value 0
      .int64 scale value
    else .int64 0 value

/-- `MAKE_constant` with the flag that the grammar has for each token. A symbol is no constant. -/
def makeConstant : Token → Option NodDesc
  | .string s => some (.text ttypeDynamic (ushort s.length) s)
  | .symbol _ => none
  | .number n => some (.long 0 n)
  | .number64bit s => some (makeSint64 s)
  | .scaledint s => some (makeSint64 s)
  | .float s => some (.double (schar (toSchar s.length)) s)

/-- The type that the introducer of a string is resolved to. -/
def pass1Constant (introducer : Option UInt16) : NodDesc → NodDesc
  | .text dscTtype dscLength strData => .text (introducer.getD dscTtype) dscLength strData
  | desc => desc

section

-- What lies in memory after the last character of a string block.
variable (trash : Nat → UInt8)

def blrLiteral : UInt8 := 21
def blrLong : UInt8 := 8
def blrText2 : UInt8 := 15
def blrInt64 : UInt8 := 16
def blrDouble : UInt8 := 27

/-- `STUFF_WORD`: `stuff_word` gets the value as a `USHORT`. -/
def stuffWord (word : Int) : List UInt8 := [toSchar word, toSchar (word / 256)]

/-- `if (l) do STUFF (*p++); while (--l);` -/
def stuffBytes (strData : List UInt8) (l : Nat) : List UInt8 :=
  (List.range l).map fun i => strData[i]?.getD (trash (i - strData.length))

def genDescriptor : NodDesc → List UInt8
  | .text dscTtype dscLength _ => blrText2 :: (stuffWord dscTtype.toNat ++ stuffWord dscLength)
  | .long dscScale _ => [blrLong, toSchar dscScale]
  | .int64 dscScale _ => [blrInt64, toSchar dscScale]
  | .double _ _ => [blrDouble]

/-- `gen_constant`: `none` is the error for `9223372036854775808` without a minus sign. -/
def genConstant (negateValue : Bool) (desc : NodDesc) : Option (List UInt8) :=
  match desc with
  | .long _ value =>
    let value := if negateValue then -value else value
    some (blrLiteral :: (genDescriptor desc ++ stuffWord value ++ stuffWord (value / 65536)))
  | .double dscScale strData =>
    let l := (dscScale % 65536).toNat
    if negateValue then
      some (blrLiteral :: (genDescriptor desc ++ stuffWord (l + 1) ++ 45 :: stuffBytes trash strData l))
    else some (blrLiteral :: (genDescriptor desc ++ stuffWord l ++ stuffBytes trash strData l))
  | .int64 dscScale value =>
    let i64value := value.toInt
    if !negateValue ∧ i64value = -9223372036854775808 then none
    else
      let i64value := if negateValue then (-value).toInt else i64value
      if -2147483648 ≤ i64value ∧ i64value ≤ 2147483647 then
        some (blrLiteral :: blrLong :: toSchar dscScale ::
          (stuffWord i64value ++ stuffWord (i64value / 65536)))
      else
        some (blrLiteral :: blrInt64 :: toSchar dscScale ::
          (stuffWord i64value ++ stuffWord (i64value / 65536) ++
            stuffWord (i64value / 4294967296) ++ stuffWord (i64value / 281474976710656)))
  | .text _ l strData => some (blrLiteral :: (genDescriptor desc ++ stuffBytes trash strData l))

end

/-- The request that is being compiled: the BLR in memory and where `csb_running` points. -/
structure Csb where
  csbBlr : Nat → UInt8
  csbRunning : Int

namespace Csb

def blrByte (csb : Csb) : UInt8 × Csb :=
  (csb.csbBlr csb.csbRunning.toNat, { csb with csbRunning := csb.csbRunning + 1 })

/-- `par_word`. -/
def blrWord (csb : Csb) : Nat × Csb :=
  let (low, csb) := csb.blrByte
  let (high, csb) := csb.blrByte
  (high.toNat * 256 + low.toNat, csb)

def advance (csb : Csb) (l : Int) : Csb := { csb with csbRunning := csb.csbRunning + l }

end Csb

/-- The descriptors that `PAR_desc` reads for the literals of `gen_constant`. -/
inductive LitDesc where
  | text (dscTtype dscLength : Nat)
  | long (dscScale : Int)
  | int64 (dscScale : Int)
  | double
deriving Repr, DecidableEq

/-- `PAR_desc`, with the other types left out. -/
def parDesc (csb : Csb) : Option (LitDesc × Csb) :=
  let (op, csb) := csb.blrByte
  if op = blrText2 then
    let (dscTtype, csb) := csb.blrWord
    let (dscLength, csb) := csb.blrWord
    some (.text dscTtype dscLength, csb)
  else if op = blrLong then
    let (dscScale, csb) := csb.blrByte
    some (.long (schar dscScale), csb)
  else if op = blrInt64 then
    let (dscScale, csb) := csb.blrByte
    some (.int64 (schar dscScale), csb)
  else if op = blrDouble then some (.double, csb)
  else none

/-- The value of a literal node. The value of a `numeric` is what `CVT_get_numeric` makes of the
characters that it is handed. -/
inductive Literal where
  | text (dscTtype : Nat) (litData : List UInt8)
  | long (dscScale : Int) (litData : Int)
  | int64 (dscScale : Int) (litData : Int)
  | numeric (string : List UInt8)
deriving Repr, DecidableEq

/-- The rounds of `do *p++ = *q++; while (--count)` for an `SSHORT` that may be negative. -/
def copyRounds (count : Int) : Nat := (count % 65536).toNat

/-- `par_literal`. `refuses` holds of the characters for which `CVT_get_numeric` posts an error. -/
def parLiteral (refuses : List UInt8 → Bool) (csb : Csb) : Option (Literal × Csb) :=
  match parDesc csb with
  | none => none
  | some (.text dscTtype dscLength, csb) =>
    let l := sshort dscLength
    some (.text dscTtype (slice csb.csbBlr csb.csbRunning.toNat (copyRounds l)), csb.advance l)
  | some (.long dscScale, csb) =>
    let value := vaxInteger (slice csb.csbBlr csb.csbRunning.toNat 4)
    some (.long dscScale value, csb.advance 4)
  | some (.int64 dscScale, csb) =>
    let value := vaxInteger (slice csb.csbBlr csb.csbRunning.toNat 8)
    some (.int64 dscScale value, csb.advance 8)
  | some (.double, csb) =>
    let (word, csb) := csb.blrWord
    let string := slice csb.csbBlr csb.csbRunning.toNat word
    if refuses string then none else some (.numeric string, csb.advance (sshort word))

/-- From the text of a statement to the BLR of its literal: `yylex`, `MAKE_constant`,
`pass1_constant` and `gen_constant`. -/
def literalBlr (trash : Nat → UInt8) (introducer : Option UInt16) (negateValue : Bool)
    (statement : List UInt8) : Option (List UInt8) :=
  match yylex sqlDialectV6 statement with
  | none => none
  | some (token, _) =>
    match makeConstant token with
    | none => none
    | some desc => genConstant trash negateValue (pass1Constant introducer desc)

end InterBase
