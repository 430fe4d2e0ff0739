import InterBase.SortKeyField

namespace InterBase

open Memory BigEndian

inductive XdrOp where
  | encode
  | decode
deriving Repr, DecidableEq

inductive XdrFault where
  /-- Memory outside of the message is read or written. -/
  | outside
  /-- The stream has no more bytes: the routine returns `FALSE`. -/
  | ended
deriving Repr, DecidableEq

/-- The kinds of fields that `xdr_datum` maps. -/
inductive XdrDtype where
  | text
  | varying
  | cstring
  | short
  | sqlTime
  | sqlDate
  | long
  | real
  | double
  | timestamp
  | int64
  | array
  | quad
  | blob
deriving Repr, DecidableEq

structure XdrDsc where
  dscDtype : XdrDtype
  dscLength : Nat
  dscAddress : Nat
  length_lt : dscLength < 65536

structure Fmt where
  fmtLength : Nat
  fmtDesc : List XdrDsc
  length_lt : fmtLength < 65536

/-- One end of the line: how it stores numbers, whether it is built with `SWAP_DOUBLE`, and what lies
in memory that nobody has set. -/
structure XdrPort where
  order : ByteOrder
  swapDouble : Bool
  portSymmetric : Bool
  trash : Nat → UInt8

structure Xdr where
  xOp : XdrOp
  stream : List UInt8
  message : Nat → UInt8

/-- The bytes of a number as they lie in memory. -/
def numberBytes (order : ByteOrder) (k n : Nat) : List UInt8 :=
  match order with
  | .vax => (bigEndian k n).reverse
  | .nonVax => bigEndian k n

/-- A `USHORT` or the bits of an `SSHORT` widened to an `SLONG`, as its 32 bits. -/
def signExtend (n : Nat) : Nat := if n < 32768 then n else n + 4294901760

/-- `(4 - len) & 3`. -/
def padding (len : Nat) : Nat := (4294967300 - len) % 4

namespace Xdr

def putbytes (bytes : List UInt8) (xdrs : Xdr) : Xdr := { xdrs with stream := xdrs.stream ++ bytes }

def getbytes (count : Nat) (xdrs : Xdr) : Except XdrFault (List UInt8 × Xdr) :=
  if count ≤ xdrs.stream.length then
    .ok (xdrs.stream.take count, { xdrs with stream := xdrs.stream.drop count })
  else .error .ended

def putlong (n : Nat) (xdrs : Xdr) : Xdr := xdrs.putbytes (bigEndian 4 n)

def getlong (xdrs : Xdr) : Except XdrFault (Nat × Xdr) := do
  let (bytes, xdrs) ← xdrs.getbytes 4
  return (value bytes, xdrs)

end Xdr

section

variable (port : XdrPort) (size : Nat)

/-- Whether a message of `size` bytes has the `count` bytes from `p` on. -/
def inMessage (p count : Nat) : Bool := count == 0 || decide (p + count ≤ size)

def fetch (p count : Nat) (xdrs : Xdr) : Except XdrFault (List UInt8) :=
  if inMessage size p count then .ok (slice xdrs.message p count) else .error .outside

def store (p : Nat) (bytes : List UInt8) (xdrs : Xdr) : Except XdrFault Xdr :=
  if inMessage size p bytes.length then .ok { xdrs with message := write xdrs.message p bytes }
  else .error .outside

def xdrOpaque (p len : Nat) (xdrs : Xdr) : Except XdrFault Xdr :=
  let l := padding len
  match xdrs.xOp with
  | .encode => do
    let bytes ← fetch size p len xdrs
    let xdrs := xdrs.putbytes bytes
    if l ≠ 0 then
      return xdrs.putbytes ((List.range l).map fun i => port.trash (xdrs.stream.length + i))
    return xdrs
  | .decode =>
    if inMessage size p len then do
      let (bytes, xdrs) ← xdrs.getbytes len
      let xdrs ← store size p bytes xdrs
      if l ≠ 0 then
        let (_, xdrs) ← xdrs.getbytes l
        return xdrs
      return xdrs
    else .error .outside

def xdrShort (p : Nat) (xdrs : Xdr) : Except XdrFault Xdr :=
  match xdrs.xOp with
  | .encode => do
    let bytes ← fetch size p 2 xdrs
    return xdrs.putlong (signExtend (number port.order bytes))
  | .decode => do
    let (temp, xdrs) ← xdrs.getlong
    store size p (numberBytes port.order 2 temp) xdrs

def xdrLong (p : Nat) (xdrs : Xdr) : Except XdrFault Xdr :=
  match xdrs.xOp with
  | .encode => do
    let bytes ← fetch size p 4 xdrs
    return xdrs.putlong (number port.order bytes)
  | .decode => do
    let (temp, xdrs) ← xdrs.getlong
    store size p (numberBytes port.order 4 temp) xdrs

def xdrFloat (p : Nat) (xdrs : Xdr) : Except XdrFault Xdr := xdrLong port size p xdrs

/-- Eight bytes by way of `temp_long`, of which the second half goes first when `swap` is set. -/
def xdrTempLongs (swap : Bool) (p : Nat) (xdrs : Xdr) : Except XdrFault Xdr :=
  match xdrs.xOp with
  | .encode => do
    let temp ← fetch size p 8 xdrs
    let tempLong0 := number port.order (temp.take 4)
    let tempLong1 := number port.order (temp.drop 4)
    if swap then
      return (xdrs.putlong tempLong1).putlong tempLong0
    return (xdrs.putlong tempLong0).putlong tempLong1
  | .decode => do
    let (first, xdrs) ← xdrs.getlong
    let (second, xdrs) ← xdrs.getlong
    if swap then
      store size p (numberBytes port.order 4 second ++ numberBytes port.order 4 first) xdrs
    else
      store size p (numberBytes port.order 4 first ++ numberBytes port.order 4 second) xdrs

def xdrDouble (p : Nat) (xdrs : Xdr) : Except XdrFault Xdr :=
  xdrTempLongs port size port.swapDouble p xdrs

def xdrHyper (p : Nat) (xdrs : Xdr) : Except XdrFault Xdr :=
  xdrTempLongs port size (port.order == .vax) p xdrs

def xdrQuad (p : Nat) (xdrs : Xdr) : Except XdrFault Xdr := do
  let xdrs ← xdrLong port size p xdrs
  xdrLong port size (p + 4) xdrs

def xdrVarying (p dscLength : Nat) (xdrs : Xdr) : Except XdrFault Xdr := do
  let xdrs ← xdrShort port size p xdrs
  let varyLength := number port.order (slice xdrs.message p 2)
  xdrOpaque port size (p + 2) (min (ushort (dscLength + 65534)) varyLength) xdrs

/-- The branch of `xdr_datum` for `dtype_cstring`; `n` is an `SSHORT` and held by its bits. -/
def xdrTerminated (p dscLength : Nat) (xdrs : Xdr) : Except XdrFault Xdr :=
  match xdrs.xOp with
  | .encode =>
    let length := strlen xdrs.message p (size - p)
    if p + length < size then
      let n := ushort (min length (ulong (dscLength + 4294967295)))
      xdrOpaque port size p (signExtend n) (xdrs.putlong (signExtend n))
    else .error .outside
  | .decode => do
    let (temp, xdrs) ← xdrs.getlong
    let n := ushort temp
    let xdrs ← xdrOpaque port size p (signExtend n) xdrs
    -- a negative `n` has not come back from `xdr_opaque`
    store size (p + n) [0] xdrs

def xdrDatum (desc : XdrDsc) (xdrs : Xdr) : Except XdrFault Xdr :=
  let p := desc.dscAddress
  match desc.dscDtype with
  | .text => xdrOpaque port size p desc.dscLength xdrs
  | .varying => xdrVarying port size p desc.dscLength xdrs
  | .cstring => xdrTerminated port size p desc.dscLength xdrs
  | .short => xdrShort port size p xdrs
  | .sqlTime => xdrLong port size p xdrs
  | .sqlDate => xdrLong port size p xdrs
  | .long => xdrLong port size p xdrs
  | .real => xdrFloat port size p xdrs
  | .double => xdrDouble port size p xdrs
  | .timestamp => do
    let xdrs ← xdrLong port size p xdrs
    xdrLong port size (p + 4) xdrs
  | .int64 => xdrHyper port size p xdrs
  | .array => xdrQuad port size p xdrs
  | .quad => xdrQuad port size p xdrs
  | .blob => xdrQuad port size p xdrs

def xdrData : List XdrDsc → Xdr → Except XdrFault Xdr
  | [], xdrs => .ok xdrs
  | desc :: rest, xdrs => do
    let xdrs ← xdrDatum port size desc xdrs
    xdrData rest xdrs

def xdrMessage (format : Fmt) (xdrs : Xdr) : Except XdrFault Xdr :=
  if port.portSymmetric then xdrOpaque port format.fmtLength 0 format.fmtLength xdrs
  else xdrData port format.fmtLength format.fmtDesc xdrs

end

/-- A counted string; its block is held by the bytes in it. -/
structure CString where
  cstrLength : Nat
  cstrAllocated : Nat
  cstrAddress : Option (List UInt8)

def freeCstring (cstring : CString) : CString :=
  { cstring with cstrAddress := none, cstrAllocated := 0 }

/-- The block that `ALLR_alloc` gives holds anything. -/
def allocCstring (port : XdrPort) (cstring : CString) : CString :=
  if cstring.cstrLength = 0 then cstring
  else
    let cstring :=
      if cstring.cstrAllocated < cstring.cstrLength ∧ cstring.cstrAllocated ≠ 0 then
        freeCstring cstring
      else cstring
    match cstring.cstrAddress with
    | some _ => cstring
    | none =>
      { cstring with
        cstrAddress := some ((List.range cstring.cstrLength).map port.trash)
        cstrAllocated := cstring.cstrLength }

def xdrCstring (port : XdrPort) (cstring : CString) (xdrs : Xdr) :
    Except XdrFault (CString × Xdr) :=
  match xdrs.xOp with
  | .encode => do
    let xdrs := xdrs.putlong (signExtend cstring.cstrLength)
    let block := cstring.cstrAddress.getD []
    if cstring.cstrLength ≤ block.length then
      let xdrs := xdrs.putbytes (block.take cstring.cstrLength)
      return (cstring, xdrs.putbytes (List.replicate (padding cstring.cstrLength) 0))
    else .error .outside
  | .decode => do
    let (temp, xdrs) ← xdrs.getlong
    let cstring := allocCstring port { cstring with cstrLength := ushort temp }
    let block := cstring.cstrAddress.getD []
    if cstring.cstrLength ≤ block.length then
      let (bytes, xdrs) ← xdrs.getbytes cstring.cstrLength
      let (_, xdrs) ← xdrs.getbytes (padding cstring.cstrLength)
      return ({ cstring with
        cstrAddress := cstring.cstrAddress.map fun _ => bytes ++ block.drop cstring.cstrLength }, xdrs)
    else .error .outside

end InterBase
