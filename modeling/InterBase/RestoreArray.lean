import InterBase.Library.RowMajor
import InterBase.Machine

namespace InterBase

namespace RestoreArray

open RowMajor

/-- The types of an array's elements, as far as `get_array` tells them apart. -/
inductive FldType where
  | text
  | varying
  | short
  | long
  | quad
  | int64
  /-- A type that is described by its code alone. -/
  | other (blr : UInt8)
deriving Repr, DecidableEq

def lowerByte (n : Int) : UInt8 := UInt8.ofNat (n % 256).toNat

def stuffWord (n : Int) : List UInt8 := [lowerByte n, lowerByte (n / 256)]

def stuffLong (n : Int) : List UInt8 := stuffWord n ++ stuffWord (n / 65536)

/-- A byte count and the name. -/
def stuffString (name : List UInt8) : List UInt8 := lowerByte name.length :: name

/-- A field with an array. `RDB$FIELD_LENGTH` is a `SMALLINT`, the bounds are `SLONG`s, and the engine
keeps an array in one block whose length is an `SLONG`. -/
structure Fld where
  relName : List UInt8
  fldName : List UInt8
  fldType : FldType
  fldLength : Nat
  fldScale : Int
  fldCharacterSetId : Int
  fldRanges : List (Int × Int)
  length_pos : 0 < fldLength
  length_lt : fldLength < 32768
  dimensions_pos : 0 < fldRanges.length
  dimensions_le : fldRanges.length ≤ 16
  solid : Solid fldRanges
  bounds : ∀ r ∈ fldRanges, -2147483648 ≤ r.1 ∧ r.2 < 2147483648
  total : (cells fldRanges).length * (fldLength + if fldType = .varying then 2 else 0) < 2147483648

/-- `fld_length`, and the counter of a varying string. -/
def Fld.fieldLength (field : Fld) : Nat :=
  ushort (field.fldLength + if field.fldType = .varying then 2 else 0)

def sdlType (field : Fld) : List UInt8 :=
  match field.fldType with
  | .text => 15 :: stuffWord field.fldCharacterSetId ++ stuffWord field.fldLength
  | .varying => 38 :: stuffWord field.fldCharacterSetId ++ stuffWord field.fldLength
  | .short => [7, lowerByte field.fldScale]
  | .long => [8, lowerByte field.fldScale]
  | .quad => [9, lowerByte field.fldScale]
  | .int64 => [16, lowerByte field.fldScale]
  | .other blr => [blr]

def sdlHeader (field : Fld) : List UInt8 :=
  [1, 6, 1] ++ sdlType field ++ 2 :: stuffString field.relName ++ 4 :: stuffString field.fldName

/-- `gds__sdl_do2`: a loop over a dimension, from `gds__sdl_long_integer` to another. -/
def sdlDo2 (count : Nat) (range : Int × Int) : List UInt8 :=
  [34, lowerByte count] ++ 11 :: stuffLong range.1 ++ 11 :: stuffLong range.2

/-- `gds__sdl_element`, the subscripts and `gds__sdl_eoc`. -/
def sdlTrailer (dimensions : Nat) : List UInt8 :=
  [36, 1, 8, 0, lowerByte dimensions] ++
    (List.range dimensions).flatMap (fun count => [7, lowerByte count]) ++ [255]

def sdlLoops (rect : List (Int × Int)) : List UInt8 :=
  (rect.zipIdx.map fun (range, count) => sdlDo2 count range).flatten

/-- The description of a slice: a loop for each dimension around one element. -/
def sdl (field : Fld) (rect : List (Int × Int)) : List UInt8 :=
  sdlHeader field ++ sdlLoops rect ++ sdlTrailer field.fldRanges.length

/-- What has been stuffed when a dimension turns out to be empty. -/
def sdlPartial (field : Fld) (rect : List (Int × Int)) (lower : Int) : List UInt8 :=
  sdlHeader field ++ sdlLoops rect ++ [34, lowerByte rect.length] ++ 11 :: stuffLong lower ++ [11]

/-- The size of `blr_buffer`. -/
def blrBufferSize : Nat := 200

/-- Memory outside of `blr_buffer` is written. -/
inductive Stop where
  | outside
deriving Repr, DecidableEq

/-- A call of `isc_put_slice`: the loops of its description, the length and the place of its data in
the buffer, and whether the buffer was filled from the backup just before. -/
structure Put where
  rect : List (Int × Int)
  sdl : List UInt8
  sliceLength : Int
  dataAt : Int
  reads : Bool

/-- The number of elements in the dimensions that are left, in an `int`. -/
def divisor (ranges : List (Int × Int)) : Int :=
  ranges.foldl (fun divisor range => slong (divisor * (range.2 - range.1 + 1))) 1

def lastElementDim : List (Int × Int) → Int → List Int
  | [], _ => []
  | range :: ranges, elementsRemaining =>
    let last := slong ((elementsRemaining - 1).tdiv (divisor ranges) + range.1)
    last :: lastElementDim ranges
      (slong (elementsRemaining - (last - range.1) * divisor ranges))

/-- The bounds of the dimension behind this one, when the two are written in one slice. -/
def merges (dimensions currentDim count : Nat) : List (Int × Int) → List Int → Option (Int × Int)
  | next :: _, last :: _ =>
    if currentDim + 2 = dimensions ∧ count + 2 = dimensions ∧ last = next.2 then
      some (next.1, last)
    else none
  | _, _ => none

/-- The bounds of a dimension, or nothing when `dont_write` is set. -/
def bounds (dimensions currentDim count : Nat) (range : Int × Int) (last : Int) :
    Option (Int × Int) :=
  if currentDim = count then
    let upper := if currentDim + 1 = dimensions then last else slong (last - 1)
    if upper < range.1 then none else some (range.1, upper)
  else if currentDim < count then some range
  else some (last, last)

/-- What comes of the loop over the dimensions. -/
inductive Chopped where
  | write (rect : List (Int × Int)) (elementsWritten : Int) (merged : Bool)
  | dontWrite (rect : List (Int × Int)) (lower : Int)

example : lastElementDim [(1, 3), (1, 4)] 7 = [2, 3] := by
  rw [lastElementDim]
  rfl

/-- The loop over the dimensions; `rect` holds the bounds of those before `count`. -/
def chop (dimensions currentDim : Nat) : Nat → List (Int × Int) → List Int → List (Int × Int) →
    Int → Chopped
  | count, range :: ranges, last :: lasts, rect, elementsWritten =>
    match merges dimensions currentDim count ranges lasts with
    | some next =>
      let elementsWritten := slong (elementsWritten * (last - range.1 + 1))
      .write (rect ++ [(range.1, last), next]) (slong (elementsWritten * (next.2 - next.1 + 1))) true
    | none =>
      match bounds dimensions currentDim count range last with
      | none => .dontWrite rect range.1
      | some (lower, upper) =>
        chop dimensions currentDim (count + 1) ranges lasts (rect ++ [(lower, upper)])
          (slong (elementsWritten * (upper - lower + 1)))
  | _, _, _, rect, elementsWritten => .write rect elementsWritten false

example : chop 2 0 0 [(1, 3), (1, 4)] [2, 4] [] 1 = .write [(1, 2), (1, 4)] 8 true := by
  rw [chop, merges]
  rfl

/-- The loop over `current_dim`, which takes no more rounds than there are dimensions. -/
def rounds (field : Fld) (lasts : List Int) : Nat → Nat → Int → Except Stop (List Put)
  | 0, _, _ => .ok []
  | fuel + 1, currentDim, dataAt =>
    if currentDim < field.fldRanges.length then
      match chop field.fldRanges.length currentDim 0 field.fldRanges lasts [] 1 with
      | .dontWrite rect lower =>
        if blrBufferSize < (sdlPartial field rect lower).length then .error .outside
        else rounds field lasts fuel (currentDim + 1) dataAt
      | .write rect elementsWritten merged =>
        if blrBufferSize < (sdl field rect).length then .error .outside
        else do
          let sliceLength := slong (elementsWritten * field.fldLength)
          let currentDim := if merged then currentDim + 2 else currentDim + 1
          let puts ← rounds field lasts fuel currentDim (slong (dataAt + sliceLength))
          return ⟨rect, sdl field rect, sliceLength, dataAt, dataAt == 0⟩ :: puts
    else .ok []

/-- `slice_length` from the ranges that the backup holds. -/
def fileLength (field : Fld) (ranges : List (Int × Int)) : Int :=
  ranges.foldl (fun length range => slong (length * (range.2 - range.1 + 1))) field.fieldLength

/-- The calls of `isc_put_slice` for a value of `returnLength` bytes that was backed up with `ranges`,
one for each dimension of the field. -/
def getArray (field : Fld) (ranges : List (Int × Int)) (returnLength : Int) :
    Except Stop (List Put) :=
  if returnLength ≠ fileLength field ranges then
    let elementsRemaining := returnLength.tdiv field.fieldLength
    rounds field (lastElementDim field.fldRanges elementsRemaining) field.fldRanges.length 0 0
  else if blrBufferSize < (sdl field ranges).length then .error .outside
  else .ok [⟨ranges, sdl field ranges, returnLength, 0, true⟩]

/-- The calls write the first `n` elements of the array, each from its own bytes of the buffer, which
is filled once. -/
structure Tiles (field : Fld) (n : Nat) (puts : List Put) : Prop where
  apart : puts.Pairwise fun a b => (cells a.rect).Disjoint (cells b.rect)
  cover : ∀ cell, (∃ put ∈ puts, cell ∈ cells put.rect) ↔ cell ∈ (cells field.fldRanges).take n
  own : ∀ put ∈ puts, ∀ (k : Nat) (cell : List Int), (cells put.rect)[k]? = some cell →
    ∃ j : Nat, (cells field.fldRanges)[j]? = some cell ∧
      put.dataAt + k * field.fieldLength = j * field.fieldLength
  length : ∀ put ∈ puts, put.sliceLength = (cells put.rect).length * field.fieldLength
  filled : ∀ i put, puts[i]? = some put → (put.reads = true ↔ i = 0)

end RestoreArray

end InterBase
