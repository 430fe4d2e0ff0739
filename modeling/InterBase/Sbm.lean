import InterBase.Machine

namespace InterBase

/-- The bits of a segment, in `BUNCH_SEGMENT` longwords. -/
abbrev Bms := Nat → BitVec 32

inductive SbmState where
  | empty
  | singular
  | plural
deriving Repr, DecidableEq

/-- A bitmap whose slots point to `σ`: a root with buckets, or a bucket with segments.
`sbmSegments` are the slots that are allocated. -/
structure Sbm (σ : Type) where
  sbmState : SbmState
  sbmCount : Nat
  sbmHighWater : Nat
  sbmNumber : Nat
  sbmSegments : List (Option σ)

abbrev SbmBucket := Sbm Bms

abbrev SbmRoot := Sbm SbmBucket

/-- `BITS_SEGMENT`. -/
def bitsSegment : Nat := 1024

/-- `1 << BUCKET_BITS`. -/
def bitsBucket : Nat := 32768

def bunchBucket : Nat := 32

/-- Which of two operands. -/
inductive Operand where
  | first
  | second
deriving Repr, DecidableEq

def bmsTest (segment : Bms) (relative : Nat) : Bool :=
  segment (relative / 32) &&& 1#32 <<< (relative % 32) != 0#32

def bmsSet (segment : Bms) (relative : Nat) : Bms := fun bunch =>
  if bunch = relative / 32 then segment bunch ||| 1#32 <<< (relative % 32) else segment bunch

def bmsClear (segment : Bms) (relative : Nat) : Bool × Bms :=
  if bmsTest segment relative then
    (true, fun bunch =>
      if bunch = relative / 32 then segment bunch &&& ~~~(1#32 <<< (relative % 32))
      else segment bunch)
  else (false, segment)

/- The functions below are those of the source with what they do at a slot as a parameter, since
roots and buckets take the same branches. Nothing stands for an access behind the slots that are
allocated, or for a loop without end. -/

section

variable {σ : Type} (size : Nat)

def mapTest (testSlot : σ → Nat → Option Bool) (bitmap : Sbm σ) (number : Nat) : Option Bool :=
  match bitmap.sbmState with
  | .empty => some false
  | .singular => some (number == bitmap.sbmNumber)
  | .plural =>
    let slot := ushort (number / size)
    if bitmap.sbmHighWater < slot then some false
    else
      match bitmap.sbmSegments[slot]? with
      | none => none
      | some none => some false
      | some (some s) => testSlot s (number % size)

def mapClear (clearSlot : σ → Nat → Option (Bool × σ)) (bitmap : Sbm σ) (number : Nat) :
    Option (Bool × Sbm σ) :=
  match bitmap.sbmState with
  | .empty => some (false, bitmap)
  | .singular =>
    if number = bitmap.sbmNumber then some (true, { bitmap with sbmState := .empty })
    else some (false, bitmap)
  | .plural =>
    let slot := ushort (number / size)
    if bitmap.sbmHighWater < slot then some (false, bitmap)
    else
      match bitmap.sbmSegments[slot]? with
      | none => none
      | some none => some (false, bitmap)
      | some (some s) =>
        (clearSlot s (number % size)).map fun r =>
          (r.1, { bitmap with sbmSegments := bitmap.sbmSegments.set slot (some r.2) })

/-- Setting a bit in the slot that the number belongs to. -/
def mapPut (fresh : σ) (setSlot : σ → Nat → Option σ) (vector : Sbm σ) (number : Nat) :
    Option (Sbm σ) :=
  let slot := ushort (number / size)
  match vector.sbmSegments[slot]? with
  | none => none
  | some none =>
    (setSlot fresh (number % size)).map fun s =>
      { vector with
        sbmSegments := vector.sbmSegments.set slot (some s)
        sbmHighWater := if vector.sbmHighWater < slot then slot else vector.sbmHighWater }
  | some (some s) =>
    (setSlot s (number % size)).map fun s =>
      { vector with sbmSegments := vector.sbmSegments.set slot (some s) }

/-- `extend` makes sure that the vector is long enough for a slot. -/
def mapSet (extend : Sbm σ → Nat → Option (Sbm σ)) (fresh : σ) (setSlot : σ → Nat → Option σ)
    (vector : Sbm σ) (number : Nat) : Option (Sbm σ) :=
  let put (vector : Sbm σ) (number : Nat) :=
    (extend vector (ushort (number / size))).bind (mapPut size fresh setSlot · number)
  match vector.sbmState with
  | .empty => some { vector with sbmState := .singular, sbmNumber := number }
  | .plural => put vector number
  | .singular =>
    (put vector number).bind fun vector => put { vector with sbmState := .plural } vector.sbmNumber

end

section

variable {σ : Type}

/-- A loop over the first slots of two maps. -/
def mergeSlots (merge : Option σ → Option σ → Option (Option σ × Option σ)) :
    Nat → List (Option σ) → List (Option σ) → Option (List (Option σ) × List (Option σ))
  | 0, slots1, slots2 => some (slots1, slots2)
  | n + 1, x :: slots1, y :: slots2 =>
    (merge x y).bind fun r =>
      (mergeSlots merge n slots1 slots2).map fun s => (r.1 :: s.1, r.2 :: s.2)
  | _ + 1, _, _ => none

/-- Which operand is the result, if any, and what becomes of both. -/
def mapAnd (test : Sbm σ → Nat → Option Bool)
    (andSlot : Option σ → Option σ → Option (Option σ × Option σ)) (map1 map2 : Sbm σ) :
    Option (Option Operand × Sbm σ × Sbm σ) :=
  if map1.sbmState = .empty ∨ map2.sbmState = .empty then some (none, map1, map2)
  else if map1.sbmState = .singular then
    (test map2 map1.sbmNumber).map fun r => (if r then some .first else none, map1, map2)
  else if map2.sbmState = .singular then
    (test map1 map2.sbmNumber).map fun r => (if r then some .second else none, map1, map2)
  else if map2.sbmHighWater < map1.sbmHighWater then
    (mergeSlots andSlot (map2.sbmHighWater + 1) map2.sbmSegments map1.sbmSegments).map fun r =>
      (some .second, { map1 with sbmSegments := r.2 }, { map2 with sbmSegments := r.1 })
  else
    (mergeSlots andSlot (map1.sbmHighWater + 1) map1.sbmSegments map2.sbmSegments).map fun r =>
      (some .first, { map1 with sbmSegments := r.1 }, { map2 with sbmSegments := r.2 })

def mapOr (set : Sbm σ → Nat → Option (Sbm σ))
    (orSlot : Option σ → Option σ → Option (Option σ × Option σ)) (map1 map2 : Sbm σ) :
    Option (Operand × Sbm σ × Sbm σ) :=
  if map1.sbmState = .empty then some (.second, map1, map2)
  else if map2.sbmState = .empty then some (.first, map1, map2)
  else if map1.sbmState = .singular then
    (set map2 map1.sbmNumber).map fun map2 => (.second, map1, map2)
  else if map2.sbmState = .singular then
    (set map1 map2.sbmNumber).map fun map1 => (.first, map1, map2)
  else if map1.sbmHighWater < map2.sbmHighWater then
    (mergeSlots orSlot (map1.sbmHighWater + 1) map2.sbmSegments map1.sbmSegments).map fun r =>
      (.second, { map1 with sbmSegments := r.2 }, { map2 with sbmSegments := r.1 })
  else
    (mergeSlots orSlot (map2.sbmHighWater + 1) map1.sbmSegments map2.sbmSegments).map fun r =>
      (.first, { map1 with sbmSegments := r.1 }, { map2 with sbmSegments := r.2 })

end

/-- A segment as `clear_segment` or the allocator leaves it. -/
def clearSegment : Bms := fun _ => 0#32

def clearBucket : SbmBucket := ⟨.empty, bunchBucket, 0, 0, List.replicate bunchBucket none⟩

def bucketTest : SbmBucket → Nat → Option Bool :=
  mapTest bitsSegment fun segment relative => some (bmsTest segment relative)

def bucketClear : SbmBucket → Nat → Option (Bool × SbmBucket) :=
  mapClear bitsSegment fun segment relative => some (bmsClear segment relative)

def bucketSet : SbmBucket → Nat → Option SbmBucket :=
  mapSet bitsSegment (fun bucket _ => some bucket) clearSegment fun segment relative =>
    some (bmsSet segment relative)

def andSegment : Option Bms → Option Bms → Option (Option Bms × Option Bms)
  | none, segment2 => some (none, segment2)
  | some _, none => some (none, none)
  | some b1, some b2 => some (some fun j => b1 j &&& b2 j, some b2)

def bucketAnd : SbmBucket → SbmBucket → Option (Option Operand × SbmBucket × SbmBucket) :=
  mapAnd bucketTest andSegment

def orSegment : Option Bms → Option Bms → Option (Option Bms × Option Bms)
  | segment1, none => some (segment1, none)
  | none, some b2 => some (some b2, none)
  | some b1, some b2 => some (some fun j => b1 j ||| b2 j, some b2)

def bucketOr : SbmBucket → SbmBucket → Option (Operand × SbmBucket × SbmBucket) :=
  mapOr bucketSet orSegment

/-- The doubling loop of `SBM_set`, which does not end from zero. -/
def doubleEnd (slot last : Nat) : Option Nat :=
  if last = 0 then none
  else if last * 2 ≤ slot then doubleEnd slot (last * 2)
  else some (last * 2)
termination_by slot + 1 - last

/-- How many slots a vector of `count` slots is extended to. -/
def vectorEnd (maxTail count slot : Nat) : Option Nat :=
  if maxTail ≤ slot then some (slot + 5) else (doubleEnd slot count).map (min · maxTail)

/-- `ALL_extend`, if the vector is too short; `sbm_count` is a `USHORT`. -/
def sbmExtend (maxTail : Nat) (vector : SbmRoot) (slot : Nat) : Option SbmRoot :=
  if vector.sbmCount ≤ slot then
    (vectorEnd maxTail vector.sbmCount slot).map fun last =>
      { vector with
        sbmSegments := vector.sbmSegments.take last ++
          List.replicate (last - vector.sbmSegments.length) none
        sbmCount := ushort last }
  else some vector

def rootTest : SbmRoot → Nat → Option Bool := mapTest bitsBucket bucketTest

def rootClear : SbmRoot → Nat → Option (Bool × SbmRoot) := mapClear bitsBucket bucketClear

def rootSet (maxTail : Nat) : SbmRoot → Nat → Option SbmRoot :=
  mapSet bitsBucket (sbmExtend maxTail) clearBucket bucketSet

/-- A bucket without a counterpart moves to the other map; one that comes out empty is reset. -/
def andBucket : Option SbmBucket → Option SbmBucket → Option (Option SbmBucket × Option SbmBucket)
  | none, bucket2 => some (none, bucket2)
  | some b1, none => some (none, some b1)
  | some b1, some b2 =>
    (bucketAnd b1 b2).map fun
      | (none, _, b2) => (none, some b2)
      | (some .first, b1, b2) => (some b1, some b2)
      | (some .second, b1, b2) => (some b2, some b1)

def rootAnd : SbmRoot → SbmRoot → Option (Option Operand × SbmRoot × SbmRoot) :=
  mapAnd rootTest andBucket

def orBucket : Option SbmBucket → Option SbmBucket → Option (Option SbmBucket × Option SbmBucket)
  | bucket1, none => some (bucket1, none)
  | none, some b2 => some (some b2, none)
  | some b1, some b2 =>
    (bucketOr b1 b2).map fun
      | (.first, b1, b2) => (some b1, some b2)
      | (.second, b1, b2) => (some b2, some b1)

def rootOr (maxTail : Nat) : SbmRoot → SbmRoot → Option (Operand × SbmRoot × SbmRoot) :=
  mapOr (rootSet maxTail) orBucket

def sbmTest : Option SbmRoot → Nat → Option Bool
  | none, _ => some false
  | some bitmap, number => rootTest bitmap number

def sbmClear : Option SbmRoot → Nat → Option (Bool × Option SbmRoot)
  | none, _ => some (false, none)
  | some bitmap, number => (rootClear bitmap number).map fun r => (r.1, some r.2)

def sbmSet (maxTail : Nat) : Option SbmRoot → Nat → Option (Option SbmRoot)
  | none, number => some (some ⟨.singular, 5, 0, number, List.replicate 5 none⟩)
  | some vector, number => (rootSet maxTail vector number).map some

def sbmAnd : Option SbmRoot → Option SbmRoot →
    Option (Option Operand × Option SbmRoot × Option SbmRoot)
  | some map1, some map2 => (rootAnd map1 map2).map fun r => (r.1, some r.2.1, some r.2.2)
  | bitmap1, bitmap2 => some (none, bitmap1, bitmap2)

def sbmOr (maxTail : Nat) : Option SbmRoot → Option SbmRoot →
    Option (Operand × Option SbmRoot × Option SbmRoot)
  | none, bitmap2 => some (.second, none, bitmap2)
  | bitmap1, none => some (.first, bitmap1, none)
  | some map1, some map2 => (rootOr maxTail map1 map2).map fun r => (r.1, some r.2.1, some r.2.2)

end InterBase
