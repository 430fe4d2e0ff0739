import InterBase.Library.BigEndian
import InterBase.Library.Memory
import InterBase.Machine

namespace InterBase

open Memory BigEndian

/-- The two variants of `diddle_key`: for machines that store numbers low byte first, as the VAX
does, and for the others. -/
inductive ByteOrder where
  | vax
  | nonVax
deriving Repr, DecidableEq

inductive SkdDtype where
  | long
  | ulong
  | short
  | ushort
  | text
  | float
  | double
  | quad
  | timestamp1
  | bytes
  | dFloat
  | varying
  | cstring
  | sqlTime
  | sqlDate
  | timestamp2
  | int64
deriving Repr, DecidableEq

structure Skd where
  skdDtype : SkdDtype
  skdDescending : Bool
  skdBinary : Bool
  skdLength : Nat
  skdOffset : Nat
  skdVaryOffset : Nat

/-- `ROUNDUP (n, sizeof (SLONG))`. -/
def roundupLong (n : Nat) : Nat := (n + 3) / 4 * 4

/-- The `n` of `diddle_key`: how many bytes of the record the key takes. -/
def Skd.size (order : ByteOrder) (key : Skd) : Nat :=
  match order with
  | .vax => ushort (roundupLong key.skdLength)
  | .nonVax => key.skdLength

def Skd.fillChar (key : Skd) : UInt8 := if key.skdBinary then 0 else 32

def readUshort (order : ByteOrder) (record : Nat → UInt8) (a : Nat) : Nat :=
  match order with
  | .vax => (record a).toNat + 256 * (record (a + 1)).toNat
  | .nonVax => 256 * (record a).toNat + (record (a + 1)).toNat

def ushortBytes (order : ByteOrder) (n : Nat) : List UInt8 :=
  match order with
  | .vax => [UInt8.ofNat n, UInt8.ofNat (n / 256)]
  | .nonVax => [UInt8.ofNat (n / 256), UInt8.ofNat n]

/-- `strlen (p)`, as far as a `USHORT` counts. -/
def strlen (record : Nat → UInt8) (p : Nat) : Nat → Nat
  | 0 => 0
  | limit + 1 => if record p = 0 then 0 else strlen record (p + 1) limit + 1

/-- Stash embedded control info for non-fixed data types in the sort record and zap it so that it
doesn't interfere with collation. -/
def stash (order : ByteOrder) (scbSorted : Bool) (key : Skd) (record : Nat → UInt8) :
    Nat → UInt8 :=
  let p := key.skdOffset
  let n := key.size order
  match key.skdDtype with
  | .varying =>
    let l := readUshort order record p
    let record :=
      if scbSorted then record
      else
        write (write record key.skdVaryOffset (ushortBytes order l)) (p + 2 + l)
          (List.replicate (ushort (n + 131072 - 2 - l)) key.fillChar)
    write record p (ushortBytes order 0)
  | .cstring =>
    if scbSorted then write record (p + readUshort order record key.skdVaryOffset) [key.fillChar]
    else
      let l := strlen record p 65535
      write (write record key.skdVaryOffset (ushortBytes order l)) (p + l)
        (List.replicate (ushort (n + 65536 - l)) key.fillChar)
  | _ => record

/-- Flatter but don't complement control info for non-fixed data types when restoring the data. -/
def unstash (order : ByteOrder) (key : Skd) (record : Nat → UInt8) : Nat → UInt8 :=
  let l := readUshort order record key.skdVaryOffset
  match key.skdDtype with
  | .varying => write record key.skdOffset (ushortBytes order l)
  | .cstring => write record (key.skdOffset + l) [0]
  | _ => record

/-- `p [i] ^= 1 << 7`. -/
def flipSign (i : Nat) (field : List UInt8) : List UInt8 := field.modify i (· ^^^ 128)

/-- `p [i] >> 7`. -/
def signAt (i : Nat) (field : List UInt8) : Bool := 128 ≤ (field.getD i 0).toNat

/-- The sign of a floating number at byte `i`: whether it is flipped or the rest is complemented
depends on the sign, encoded or not. -/
def diddleFloat (direction complement : Bool) (i : Nat) (field : List UInt8) : List UInt8 × Bool :=
  let flag := if direction || !complement then direction else true
  if flag ^^ signAt i field then (flipSign i field, complement) else (field, !complement)

/-- `SWAP_LONGS (lwp [0], lwp [1], lw)`. -/
def swapLongs (field : List UInt8) : List UInt8 :=
  (field.drop 4).take 4 ++ field.take 4 ++ field.drop 8

/-- The loop `while (--longs >= 0)` that reverses the bytes of every longword. -/
def reverseLongs : List UInt8 → List UInt8
  | c0 :: c1 :: c2 :: c3 :: rest => c3 :: c2 :: c1 :: c0 :: reverseLongs rest
  | rest => rest

/-- The switch of the VAX variant, with what becomes of `complement`. -/
def diddleVax (direction : Bool) (key : Skd) (field : List UInt8) : List UInt8 × Bool :=
  let complement := key.skdDescending
  match key.skdDtype with
  | .timestamp1 | .timestamp2 | .sqlTime | .sqlDate => (flipSign 3 field, complement)
  | .ulong | .ushort => (field, complement)
  | .text | .bytes | .cstring | .varying => (reverseLongs field, complement)
  | .short => (flipSign 1 field, complement)
  | .long => (flipSign 3 field, complement)
  | .quad => (flipSign 7 field, complement)
  | .int64 =>
    let field := if direction then field else swapLongs field
    let field := flipSign 7 field
    (if direction then swapLongs field else field, complement)
  | .double =>
    let field := if direction then field else swapLongs field
    let switched := diddleFloat direction complement 7 field
    (if direction then swapLongs switched.1 else switched.1, switched.2)
  | .float => diddleFloat direction complement 3 field
  | .dFloat => (field, complement)

/-- The switch of the non-VAX variant. -/
def diddleNonVax (direction : Bool) (key : Skd) (field : List UInt8) : List UInt8 × Bool :=
  let complement := key.skdDescending
  match key.skdDtype with
  | .ulong | .ushort | .bytes | .sqlTime | .varying | .cstring | .text => (field, complement)
  | .dFloat | .float | .double => diddleFloat direction complement 0 field
  | .long | .short | .quad | .timestamp1 | .timestamp2 | .sqlDate | .int64 =>
    (flipSign 0 field, complement)

/-- `if (complement && n) do *p++ ^= -1; while (--n)`. -/
def complemented (switched : List UInt8 × Bool) : List UInt8 :=
  if switched.2 then switched.1.map (~~~ ·) else switched.1

/-- One key of a record, without the control info of the non-fixed data types. -/
def diddleField (order : ByteOrder) (direction : Bool) (key : Skd) (field : List UInt8) :
    List UInt8 :=
  match order with
  | .vax => complemented (diddleVax direction key field)
  | .nonVax => complemented (diddleNonVax direction key field)

def diddleOne (order : ByteOrder) (scbSorted direction : Bool) (record : Nat → UInt8) (key : Skd) :
    Nat → UInt8 :=
  let record := if direction then stash order scbSorted key record else record
  let field := slice record key.skdOffset (key.size order)
  let record := write record key.skdOffset (diddleField order direction key field)
  if direction then record else unstash order key record

/-- Perform transformation between the natural form of a record and a form that can be sorted in
unsigned comparison order. -/
def diddleKey (order : ByteOrder) (description : List Skd) (scbSorted direction : Bool)
    (record : Nat → UInt8) : Nat → UInt8 :=
  description.foldl (diddleOne order scbSorted direction) record

/-- A longword of a record. -/
def longword (order : ByteOrder) (record : Nat → UInt8) (k : Nat) : Nat :=
  match order with
  | .vax => value (slice record (4 * k) 4).reverse
  | .nonVax => value (slice record (4 * k) 4)

/-- `scb_key_length`, from the last key of the description. -/
def scbKeyLength (description : List Skd) : Nat :=
  match description.getLast? with
  | some key => roundupLong (key.skdOffset + key.skdLength) / 4
  | none => 0

/-- The longwords that are compared. -/
def keyLongs (order : ByteOrder) (description : List Skd) (record : Nat → UInt8) : List Nat :=
  (List.range (scbKeyLength description)).map (longword order record)

end InterBase
