import InterBase.XdrRoundTrip

namespace InterBase

namespace BurpSlice

open Memory BigEndian

/-- What ends a backup or a restore before its time. -/
inductive Stop where
  /-- Memory outside of its block is read or written. -/
  | outside
  /-- Message 238: the system memory is exhausted. -/
  | memory
  /-- A division by the length of an element. -/
  | divide
deriving Repr, DecidableEq

/-- A machine that gbak runs on; `link` is what `MISC_alloc_burp` keeps in front of a block. -/
structure Port extends XdrPort where
  link : Nat
  link_cases : link = 4 ∨ link = 8

/-- A block of memory. -/
structure Area where
  size : Nat
  bytes : Nat → UInt8

def Area.fetch (p count : Nat) (area : Area) : Except Stop (List UInt8) :=
  if inMessage area.size p count then .ok (slice area.bytes p count) else .error .outside

def Area.store (p : Nat) (bytes : List UInt8) (area : Area) : Except Stop Area :=
  if inMessage area.size p bytes.length then .ok { area with bytes := write area.bytes p bytes }
  else .error .outside

/-- `BURP_ALLOC`, which takes a `ULONG` and calls `gds__alloc`, which takes an `SLONG`. -/
def burpAlloc (port : Port) (size : Nat) : Except Stop Area :=
  let size := ulong (size + port.link)
  if 0 < slong size then .ok ⟨size - port.link, fun _ => 0⟩ else .error .memory

structure Lstring where
  lstrLength : Nat
  lstrAllocated : Nat
  lstrAddress : Option Area

/-- The block of a string; a null pointer has no byte behind it. -/
def Lstring.area (string : Lstring) : Area := string.lstrAddress.getD ⟨0, fun _ => 0⟩

/-- The types of an element that `xdr_datum` has a branch for. -/
inductive Dtype where
  | text
  | varying
  | cstring
  | short
  | sqlDate
  | sqlTime
  | long
  | real
  | double
  | timestamp
  | quad
  | blob
  | int64
deriving Repr, DecidableEq

/-- The lengths that an element of a type may have. -/
def Dtype.Takes (length : Nat) : Dtype → Prop
  | .text | .cstring => True
  | .varying => 2 ≤ length
  | .short => length = 2
  | .sqlDate | .sqlTime | .long | .real => length = 4
  | .double | .timestamp | .quad | .blob | .int64 => length = 8

/-- The descriptor of an element as `SDL_info` finds it. -/
structure Dsc where
  dscDtype : Dtype
  dscLength : Nat
  length_lt : dscLength < 65536
  takes : dscDtype.Takes dscLength

/-- A stream in memory. `xPublic` is the string whose block is at `xBase`; `data` is the block with the
elements, and `xPrivate` is counted from `xBase`. -/
structure Xdr where
  xOp : XdrOp
  lstrLength : Nat
  lstrAllocated : Nat
  xBase : Area
  xPrivate : Nat
  xHandy : Int
  data : Area

section

variable (port : Port)

/-- The new length is kept in an `SSHORT`. -/
def expandBuffer (xdrs : Xdr) : Except Stop Xdr := do
  let length := sshort (((xdrs.xPrivate : Int) + xdrs.xHandy + 1024) % 65536).toNat
  let lstrLength := (length % 4294967296).toNat
  let new ← burpAlloc port lstrLength
  let old ← xdrs.xBase.fetch 0 xdrs.xPrivate
  let new ← new.store 0 old
  return { xdrs with
    lstrLength := lstrLength
    lstrAllocated := lstrLength
    xBase := new
    xHandy := xdrs.xHandy + 1024 }

/-- `*xdrs->x_private++ = *buff++`. -/
def putbyte (b : UInt8) (xdrs : Xdr) : Except Stop Xdr := do
  let xBase ← xdrs.xBase.store xdrs.xPrivate [b]
  return { xdrs with xBase := xBase, xPrivate := xdrs.xPrivate + 1 }

def putAll : List UInt8 → Xdr → Except Stop Xdr
  | [], xdrs => .ok xdrs
  | b :: rest, xdrs => do
    let xdrs ← putbyte b xdrs
    putAll rest xdrs

def putEach : List UInt8 → Xdr → Except Stop Xdr
  | [], xdrs => .ok xdrs
  | b :: rest, xdrs => do
    let xdrs ← if xdrs.xHandy ≤ 0 then expandBuffer port xdrs else .ok xdrs
    let xdrs ← putbyte b { xdrs with xHandy := xdrs.xHandy - 1 }
    putEach rest xdrs

/-- A negative count goes on for four gigabytes. -/
def putbytes (buff : List UInt8) (bytecount : Int) (xdrs : Xdr) : Except Stop Xdr :=
  if bytecount ≠ 0 ∧ bytecount ≤ xdrs.xHandy then
    if bytecount < 0 then .error .outside
    else putAll (buff.take bytecount.toNat) { xdrs with xHandy := xdrs.xHandy - bytecount }
  else putEach port (buff.take bytecount.toNat) xdrs

def getEach : Nat → Xdr → Except Stop (List UInt8 × Xdr)
  | 0, xdrs => .ok ([], xdrs)
  | bytecount + 1, xdrs => do
    let xdrs ← if xdrs.xHandy = 0 then expandBuffer port xdrs else .ok xdrs
    let first ← xdrs.xBase.fetch xdrs.xPrivate 1
    let (rest, xdrs) ← getEach bytecount
      { xdrs with xPrivate := xdrs.xPrivate + 1, xHandy := xdrs.xHandy - 1 }
    return (first ++ rest, xdrs)

def getbytes (bytecount : Int) (xdrs : Xdr) : Except Stop (List UInt8 × Xdr) :=
  if bytecount ≠ 0 ∧ bytecount ≤ xdrs.xHandy then
    if bytecount < 0 then .error .outside
    else do
      let bytes ← xdrs.xBase.fetch xdrs.xPrivate bytecount.toNat
      return (bytes, { xdrs with
        xPrivate := xdrs.xPrivate + bytecount.toNat
        xHandy := xdrs.xHandy - bytecount })
  else getEach port bytecount.toNat xdrs

def putlong (n : Nat) (xdrs : Xdr) : Except Stop Xdr := putbytes port (bigEndian 4 n) 4 xdrs

def getlong (xdrs : Xdr) : Except Stop (Nat × Xdr) := do
  let (bytes, xdrs) ← getbytes port 4 xdrs
  return (value bytes, xdrs)

/-- What comes in is stored with the elements. -/
def Xdr.store (p : Nat) (bytes : List UInt8) (xdrs : Xdr) : Except Stop Xdr := do
  let data ← xdrs.data.store p bytes
  return { xdrs with data := data }

def xdrOpaque (p : Nat) (len : Int) (xdrs : Xdr) : Except Stop Xdr :=
  let l := ((4 - len) % 4).toNat
  match xdrs.xOp with
  | .encode => do
    let bytes ← xdrs.data.fetch p len.toNat
    let xdrs ← putbytes port bytes len xdrs
    if l ≠ 0 then
      let trash := (List.range l).map fun i => port.trash (xdrs.xPrivate + i)
      putbytes port trash l xdrs
    else return xdrs
  | .decode => do
    let (bytes, xdrs) ← getbytes port len xdrs
    let xdrs ← xdrs.store p bytes
    if l ≠ 0 then
      let (_, xdrs) ← getbytes port l xdrs
      return xdrs
    else return xdrs

def xdrShort (p : Nat) (xdrs : Xdr) : Except Stop Xdr :=
  match xdrs.xOp with
  | .encode => do
    let bytes ← xdrs.data.fetch p 2
    putlong port (signExtend (number port.order bytes)) xdrs
  | .decode => do
    let (temp, xdrs) ← getlong port xdrs
    xdrs.store p (numberBytes port.order 2 temp)

def xdrLong (p : Nat) (xdrs : Xdr) : Except Stop Xdr :=
  match xdrs.xOp with
  | .encode => do
    let bytes ← xdrs.data.fetch p 4
    putlong port (number port.order bytes) xdrs
  | .decode => do
    let (temp, xdrs) ← getlong port xdrs
    xdrs.store p (numberBytes port.order 4 temp)

def xdrFloat (p : Nat) (xdrs : Xdr) : Except Stop Xdr := xdrLong port p xdrs

/-- Eight bytes by way of `temp_long`, of which the second half goes first when `swap` is set. -/
def xdrTempLongs (swap : Bool) (p : Nat) (xdrs : Xdr) : Except Stop Xdr :=
  match xdrs.xOp with
  | .encode => do
    let temp ← xdrs.data.fetch p 8
    let tempLong0 := number port.order (temp.take 4)
    let tempLong1 := number port.order (temp.drop 4)
    if swap then
      let xdrs ← putlong port tempLong1 xdrs
      putlong port tempLong0 xdrs
    else
      let xdrs ← putlong port tempLong0 xdrs
      putlong port tempLong1 xdrs
  | .decode => do
    let (first, xdrs) ← getlong port xdrs
    let (second, xdrs) ← getlong port xdrs
    if swap then
      xdrs.store p (numberBytes port.order 4 second ++ numberBytes port.order 4 first)
    else xdrs.store p (numberBytes port.order 4 first ++ numberBytes port.order 4 second)

def xdrDouble (p : Nat) (xdrs : Xdr) : Except Stop Xdr := xdrTempLongs port port.swapDouble p xdrs

def xdrHyper (p : Nat) (xdrs : Xdr) : Except Stop Xdr :=
  xdrTempLongs port (port.order == .vax) p xdrs

def xdrQuad (p : Nat) (xdrs : Xdr) : Except Stop Xdr := do
  let xdrs ← xdrLong port p xdrs
  xdrLong port (p + 4) xdrs

/-- The branch of `xdr_datum` for `dtype_varying`. -/
def xdrVarying (p dscLength : Nat) (xdrs : Xdr) : Except Stop Xdr := do
  let xdrs ← xdrShort port p xdrs
  let varyLength ← xdrs.data.fetch p 2
  xdrOpaque port (p + 2) (min ((dscLength : Int) - 2) (number port.order varyLength)) xdrs

/-- The branch of `xdr_datum` for `dtype_cstring`. `strlen` goes on behind the element where it holds
no terminator, and `MIN` cuts that off. -/
def xdrTerminated (p dscLength : Nat) (xdrs : Xdr) : Except Stop Xdr :=
  match xdrs.xOp with
  | .encode => do
    let length := ushort (strlen xdrs.data.bytes p (dscLength - 1))
    let xdrs ← putlong port (signExtend length) xdrs
    xdrOpaque port p (sshort length) xdrs
  | .decode => do
    let (temp, xdrs) ← getlong port xdrs
    let n := sshort (ushort temp)
    let xdrs ← xdrOpaque port p n xdrs
    -- a negative `n` has not come back from `xdr_opaque`
    xdrs.store (p + n.toNat) [0]

def xdrDatum (desc : Dsc) (p : Nat) (xdrs : Xdr) : Except Stop Xdr :=
  match desc.dscDtype with
  | .text => xdrOpaque port p desc.dscLength xdrs
  | .varying => xdrVarying port p desc.dscLength xdrs
  | .cstring => xdrTerminated port p desc.dscLength xdrs
  | .short => xdrShort port p xdrs
  | .sqlDate | .sqlTime | .long => xdrLong port p xdrs
  | .real => xdrFloat port p xdrs
  | .double => xdrDouble port p xdrs
  | .timestamp => do
    let xdrs ← xdrLong port p xdrs
    xdrLong port (p + 4) xdrs
  | .quad | .blob => xdrQuad port p xdrs
  | .int64 => xdrHyper port p xdrs

def xdrElements (desc : Dsc) : Nat → Nat → Xdr → Except Stop Xdr
  | 0, _, xdrs => .ok xdrs
  | n + 1, p, xdrs => do
    let xdrs ← xdrDatum port desc p xdrs
    xdrElements desc n (p + desc.dscLength) xdrs

/-- `n = slice->lstr_length / desc->dsc_length`, and the loop over the elements. -/
def xdrArray (desc : Dsc) (slice : Lstring) (xdrs : Xdr) : Except Stop (Lstring × Xdr) :=
  if desc.dscLength = 0 then .error .divide
  else do
    let n := slice.lstrLength / desc.dscLength
    let xdrs ← xdrElements port desc n 0 { xdrs with data := slice.area }
    return ({ slice with lstrAddress := some xdrs.data }, xdrs)

/-- The block that a slice is read into. -/
def allocSlice (slice : Lstring) : Except Stop Lstring :=
  let slice :=
    if slice.lstrAllocated < slice.lstrLength ∧ slice.lstrAllocated ≠ 0 then
      { slice with lstrAddress := none }
    else slice
  match slice.lstrAddress with
  | some _ => .ok slice
  | none => do
    let data ← burpAlloc port slice.lstrLength
    return { slice with lstrAddress := some data, lstrAllocated := slice.lstrLength }

def xdrSlice (desc : Dsc) (slice : Lstring) (xdrs : Xdr) : Except Stop (Lstring × Xdr) :=
  match xdrs.xOp with
  | .encode => do
    let xdrs ← putlong port slice.lstrLength xdrs
    xdrArray port desc slice xdrs
  | .decode => do
    let (length, xdrs) ← getlong port xdrs
    let slice := { slice with lstrLength := length }
    if length = 0 then return (slice, xdrs)
    let slice ← allocSlice port slice
    xdrArray port desc slice xdrs

def xdrInit (buffer slice : Lstring) (op : XdrOp) : Xdr where
  xOp := op
  lstrLength := buffer.lstrLength
  lstrAllocated := buffer.lstrAllocated
  xBase := buffer.area
  xPrivate := 0
  xHandy := slong buffer.lstrLength
  data := slice.area

/-- The length of what was written or read, the buffer and the slice. -/
def canSlice (desc : Dsc) (buffer slice : Lstring) (op : XdrOp) :
    Except Stop (Nat × Lstring × Lstring) := do
  let (slice, xdrs) ← xdrSlice port desc slice (xdrInit buffer slice op)
  return (xdrs.xPrivate, ⟨xdrs.lstrLength, xdrs.lstrAllocated, some xdrs.xBase⟩, slice)

/-- `xdr_buffer.lstr_length` in `put_array`. -/
def xdrBufferLength (fieldLength : Nat) (ranges : List (Int × Int)) : Nat :=
  ranges.foldl
    (fun length range => ((length : Int) * (range.2 - range.1 + 1) % 4294967296).toNat)
    (ushort fieldLength + 3)

/-- The part of `put_array` that turns a slice into what `PUT_BLOCK` writes. -/
def putSlice (desc : Dsc) (buffer slice : Lstring) : Except Stop (List UInt8) := do
  let (returnLength, buffer, _) ← canSlice port desc buffer slice .encode
  buffer.area.fetch 0 returnLength

/-- The part of `get_array` that turns what `GET_BLOCK` reads back into a slice. -/
def getSlice (desc : Dsc) (returnLength : Nat) (block : List UInt8) : Except Stop Lstring := do
  let buffer ← burpAlloc port returnLength
  let area ← burpAlloc port block.length
  let area ← area.store 0 block
  let (_, _, slice) ← canSlice port desc ⟨block.length, block.length, some area⟩
    ⟨returnLength, returnLength, some buffer⟩ .decode
  return slice

end

end BurpSlice

end InterBase
