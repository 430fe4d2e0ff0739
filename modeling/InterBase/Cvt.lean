import InterBase.Library.Rounding
import InterBase.Machine

namespace InterBase.Cvt

open Rounding

/-- What a conversion ends in when it does not return; `err` does not come back. -/
inductive CvtError where
  | arithExcept
  | conversionError
deriving Repr, DecidableEq

/-- The parts of a value that an `SSHORT`, an `SLONG` and an `SINT64` keep. -/
def toSshort (v : Int) : Int := v.bmod 65536

def toSlong (v : Int) : Int := v.bmod 4294967296

def toSint64 (v : Int) : Int := v.bmod 18446744073709551616

def longMin : Int := -2147483648
def longMax : Int := 2147483647
def int64Min : Int := -9223372036854775808
def int64Max : Int := 9223372036854775807

/-- `LONG_LIMIT` and `INT64_LIMIT`, the largest values that can be multiplied by 10. -/
def longLimit : Int := 2 ^ 30 / 5

def int64Limit : Int := 2 ^ 62 / 5

def shortLimit : Int := 2 ^ 14 / 5

section

/-- `DIGIT (c)`. -/
def isDecimal (c : UInt8) : Bool := 48 ≤ c && c ≤ 57

/-- `c - '0'`. -/
def digitOf (c : UInt8) : Nat := c.toNat - 48

/-- The two types that `decompose` is called for. -/
inductive IntType where
  | long
  | int64
deriving Repr, DecidableEq

def IntType.lowerLimit : IntType → Int
  | long => longMin
  | int64 => int64Min

def IntType.upperLimit : IntType → Int
  | long => longMax
  | int64 => int64Max

/-- What `decompose` and `CVT_get_numeric` keep of the characters they have read. -/
structure Mantissa where
  value : Int
  digitSeen : Bool
  scale : Int
  fraction : Bool
  sign : Int
deriving Repr, DecidableEq

def noDigits : Mantissa := ⟨0, false, 0, false, 0⟩

/-- One more digit would overflow the value. -/
def wouldOverflow (limitBy10 : Int) (m : Mantissa) (c : UInt8) : Prop :=
  limitBy10 ≤ m.value ∧
    (limitBy10 < m.value ∨ (56 < c ∧ m.sign = -1) ∨ (55 < c ∧ m.sign ≠ -1))

instance (limitBy10 : Int) (m : Mantissa) (c : UInt8) : Decidable (wouldOverflow limitBy10 m c) :=
  inferInstanceAs (Decidable (_ ∧ _))

def takeDigit (m : Mantissa) (c : UInt8) : Mantissa :=
  { m with
    digitSeen := true
    value := toSint64 (m.value * 10 + c.toNat - 48)
    scale := if m.fraction then toSshort (m.scale - 1) else m.scale }

/-- The characters up to an exponent, and those from its letter on. -/
def decomposeLoop (limitBy10 : Int) :
    List UInt8 → Mantissa → Except CvtError (Mantissa × List UInt8)
  | [], m => .ok (m, [])
  | c :: p, m =>
    if c = 44 then decomposeLoop limitBy10 p m
    else if isDecimal c then
      if wouldOverflow limitBy10 m c then .error .arithExcept
      else decomposeLoop limitBy10 p (takeDigit m c)
    else if c = 46 then
      if m.fraction then .error .conversionError
      else decomposeLoop limitBy10 p { m with fraction := true }
    else if c = 45 ∧ ¬ m.digitSeen ∧ m.sign = 0 ∧ ¬ m.fraction then
      decomposeLoop limitBy10 p { m with sign := -1 }
    else if c = 43 ∧ ¬ m.digitSeen ∧ m.sign = 0 ∧ ¬ m.fraction then
      decomposeLoop limitBy10 p { m with sign := 1 }
    else if c = 101 ∨ c = 69 then .ok (m, c :: p)
    else if c ≠ 32 then .error .conversionError
    else decomposeLoop limitBy10 p m

structure Exponent where
  digitSeen : Bool
  exp : Int
  sign : Int
deriving Repr, DecidableEq

def exponentLoop : List UInt8 → Exponent → Except CvtError Exponent
  | [], x => .ok x
  | c :: p, x =>
    if isDecimal c then
      let exp := toSshort (x.exp * 10 + c.toNat - 48)
      if shortLimit ≤ exp then .error .arithExcept
      else exponentLoop p { x with digitSeen := true, exp := exp }
    else if c = 45 ∧ ¬ x.digitSeen ∧ x.sign = 0 then exponentLoop p { x with sign := -1 }
    else if c = 43 ∧ ¬ x.digitSeen ∧ x.sign = 0 then exponentLoop p { x with sign := 1 }
    else if c ≠ 32 then .error .conversionError
    else exponentLoop p x

/-- If there's still something left, there must be an explicit exponent. -/
def addExponent (scale : Int) : List UInt8 → Except CvtError Int
  | [] => .ok scale
  | _ :: p =>
    match exponentLoop p ⟨false, 0, 0⟩ with
    | .error e => .error e
    | .ok x =>
      if ¬ x.digitSeen then .error .conversionError
      else if x.sign = -1 then .ok (toSshort (scale - x.exp))
      else .ok (toSshort (scale + x.exp))

/-- The value and the scale. -/
def decompose (dtype : IntType) (string : List UInt8) : Except CvtError (Int × Int) :=
  match decomposeLoop (dtype.upperLimit / 10) string noDigits with
  | .error e => .error e
  | .ok (m, p) =>
    if ¬ m.digitSeen then .error .conversionError
    else
      let value := if m.sign = -1 ∧ m.value ≠ dtype.lowerLimit then toSint64 (-m.value) else m.value
      match addExponent m.scale p with
      | .error e => .error e
      | .ok scale =>
        match dtype with
        | .long => .ok (toSlong value, scale)
        | .int64 => .ok (value, scale)

/-- The loop of `CVT_get_numeric`, which leaves the rest of the characters when the next digit would
overflow the value, too. -/
def numericLoop : List UInt8 → Mantissa → Except CvtError (Mantissa × List UInt8)
  | [], m => .ok (m, [])
  | c :: p, m =>
    if isDecimal c then
      if wouldOverflow int64Limit { m with digitSeen := true } c then
        .ok ({ m with digitSeen := true }, c :: p)
      else numericLoop p (takeDigit m c)
    else if c = 46 then
      if m.fraction then .error .conversionError
      else numericLoop p { m with fraction := true }
    else if c = 45 ∧ ¬ m.digitSeen ∧ m.sign = 0 ∧ ¬ m.fraction then
      numericLoop p { m with sign := -1 }
    else if c = 43 ∧ ¬ m.digitSeen ∧ m.sign = 0 ∧ ¬ m.fraction then
      numericLoop p { m with sign := 1 }
    else if c = 101 ∨ c = 69 then .ok (m, c :: p)
    else if c ≠ 32 then .error .conversionError
    else numericLoop p m

/-- The result of `CVT_get_numeric`; a double is that of `CVT_get_double` for the whole string. -/
inductive Numeric where
  | double
  | long (value scale : Int)
  | int64 (value scale : Int)
deriving Repr, DecidableEq

def cvtGetNumeric (string : List UInt8) : Except CvtError Numeric :=
  match numericLoop string noDigits with
  | .error e => .error e
  | .ok (m, p) =>
    if ¬ m.digitSeen then .error .conversionError
    else if p ≠ [] ∨ (m.value < 0 ∧ m.sign ≠ -1) then .ok .double
    else if m.value ≤ longMax ∧ 0 ≤ m.value then
      .ok (.long (toSlong (if m.sign = -1 then toSint64 (-m.value) else m.value)) m.scale)
    else if m.sign = -1 ∧ toSint64 (-m.value) = longMin then .ok (.long longMin m.scale)
    else .ok (.int64 (if m.sign = -1 then toSint64 (-m.value) else m.value) m.scale)

end

section

/-- The value of an exact numeric descriptor. -/
inductive ExactValue where
  | short (v : Int16)
  | long (v : Int32)
  | int64 (v : Int64)
deriving DecidableEq

def ExactValue.toInt : ExactValue → Int
  | short v => v.toInt
  | long v => v.toInt
  | int64 v => v.toInt

/-- A descriptor of an exact numeric, or of a string with the characters that `CVT_make_string` has
found. -/
inductive Dsc where
  | exact (dscScale : Int8) (value : ExactValue)
  | text (string : List UInt8)
deriving DecidableEq

/-- `do { if (scale == 1) fraction = value % 10; value /= 10; } while (--scale)`, with the scale one
more than the number: the value and the fraction. -/
def scaleDown : Nat → Int → Int × Int
  | 0, value => (value.tdiv 10, value.tmod 10)
  | scale + 1, value => scaleDown scale (value.tdiv 10)

/-- The fraction rounds the value. -/
def roundFraction (keep : Int → Int) (value fraction : Int) : Int :=
  if 4 < fraction then keep (value + 1)
  else if fraction < -4 then keep (value - 1)
  else value

/-- `do value /= 10; while (--scale)`. -/
def cutDown : Nat → Int → Int
  | 0, value => value.tdiv 10
  | scale + 1, value => cutDown scale (value.tdiv 10)

/-- `do { if (value > limit || value < -limit) err; value *= 10; } while (++scale)`, with the scale
less than zero by the number. -/
def scaleUp (keep : Int → Int) (limit : Int) : Nat → Int → Except CvtError Int
  | 0, value => .ok value
  | scale + 1, value =>
    if limit < value ∨ value < -limit then .error .arithExcept
    else scaleUp keep limit scale (keep (value * 10))

/-- Last, but not least, adjust for scale. -/
def adjustScale (keep : Int → Int) (limit : Int) (isExact : Bool) (scale value : Int) :
    Except CvtError Int :=
  if 0 < scale then
    if isExact then
      let (value, fraction) := scaleDown (scale.toNat - 1) value
      .ok (roundFraction keep value fraction)
    else .ok (cutDown (scale.toNat - 1) value)
  else if scale < 0 then scaleUp keep limit (-scale).toNat value
  else .ok value

/-- The value of an int64 source is scaled before its range is checked. -/
def getLongInt64 (scale value : Int) : Except CvtError Int :=
  match adjustScale toSint64 int64Limit true scale value with
  | .error e => .error e
  | .ok value =>
    if longMax < value ∨ value < longMin then .error .arithExcept else .ok (toSlong value)

def cvtGetLong (desc : Dsc) (scale : Int) : Except CvtError Int :=
  match desc with
  | .exact dscScale (.short v) =>
    adjustScale toSlong longLimit true (toSshort (scale - dscScale.toInt)) v.toInt
  | .exact dscScale (.long v) =>
    adjustScale toSlong longLimit true (toSshort (scale - dscScale.toInt)) v.toInt
  | .exact dscScale (.int64 v) => getLongInt64 (toSshort (scale - dscScale.toInt)) v.toInt
  | .text string =>
    match decompose .long string with
    | .error e => .error e
    | .ok (value, exponent) =>
      adjustScale toSlong longLimit false (toSshort (scale - exponent)) value

def cvtGetInt64 (desc : Dsc) (scale : Int) : Except CvtError Int :=
  match desc with
  | .exact dscScale value =>
    adjustScale toSint64 int64Limit true (toSshort (scale - dscScale.toInt)) value.toInt
  | .text string =>
    match decompose .int64 string with
    | .error e => .error e
    | .ok (value, exponent) =>
      adjustScale toSint64 int64Limit false (toSshort (scale - exponent)) value

end

end InterBase.Cvt
