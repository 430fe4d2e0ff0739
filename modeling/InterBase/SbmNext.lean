import InterBase.Sbm

namespace InterBase

inductive RseGetMode where
  | forward
  | backward
deriving Repr, DecidableEq

def bitsUp (test : BitVec 32) (bit : Nat) : Option Nat :=
  if bit < 32 then
    if test &&& 1#32 <<< bit != 0#32 then some bit else bitsUp test (bit + 1)
  else none
termination_by 32 - bit

def bunchesUp (segment : Bms) (bunch bit : Nat) : Option Nat :=
  if bunch < 32 then
    match if segment bunch = 0#32 then none else bitsUp (segment bunch) bit with
    | some bit => some (bunch * 32 + bit)
    | none => bunchesUp segment (bunch + 1) 0
  else none
termination_by 32 - bunch

def bitsDown (test : BitVec 32) (bit : Nat) : Option Nat :=
  if test &&& 1#32 <<< bit != 0#32 then some bit
  else
    match bit with
    | 0 => none
    | bit + 1 => bitsDown test bit

def bunchesDown (segment : Bms) (bunch bit : Nat) : Option Nat :=
  match if segment bunch = 0#32 then none else bitsDown (segment bunch) bit with
  | some bit => some (bunch * 32 + bit)
  | none =>
    match bunch with
    | 0 => none
    | bunch + 1 => bunchesDown segment bunch 31

/-- The search in one segment; -1 is the end that it starts from. -/
def segmentNext (mode : RseGetMode) (segment : Bms) (relative : Int) : Option (Option Nat × Bms) :=
  match mode with
  | .forward =>
    let start := if relative = -1 then 0 else relative.toNat
    some (bunchesUp segment (start / 32) (start % 32), segment)
  | .backward =>
    let start := if relative = -1 then bitsSegment - 1 else relative.toNat
    some (bunchesDown segment (start / 32) (start % 32), segment)

section

variable {σ : Type}

/-- `for (; slot > 0; --slot) if (bitmap->sbm_segments [slot]) break;`. -/
def lastUsed (slots : List (Option σ)) : Nat → Nat
  | 0 => 0
  | slot + 1 => if slots[slot + 1]?.join.isSome then slot + 1 else lastUsed slots slot

/-- The map without what a slot points to, and the slot that the scan goes on from. -/
def freeSlot (bitmap : Sbm σ) (slot : Nat) : Sbm σ × Nat :=
  let slots := bitmap.sbmSegments.set slot none
  if slot = bitmap.sbmHighWater then
    let slot := lastUsed slots slot
    ({ bitmap with sbmSegments := slots, sbmHighWater := slot }, slot)
  else ({ bitmap with sbmSegments := slots }, slot)

theorem freeSlot_measure (bitmap : Sbm σ) (slots : List (Option σ)) {slot : Nat}
    (h : slot ≤ bitmap.sbmHighWater) :
    (freeSlot { bitmap with sbmSegments := slots } slot).1.sbmHighWater + 1 -
      ((freeSlot { bitmap with sbmSegments := slots } slot).2 + 1) <
        bitmap.sbmHighWater + 1 - slot := by
  rw [freeSlot]
  dsimp only
  split
  next =>
    dsimp only
    omega
  next =>
    dsimp only
    omega

/-- The slots upwards. What is empty from end to end is freed, if `garbageCollect` says that the
search in a slot started at its beginning. -/
def slotsUp (size : Nat) (next : σ → Int → Option (Option Nat × σ)) (bitmap : Sbm σ) (slot : Nat)
    (relative : Int) (garbageCollect : Bool) : Option (Option Nat × Sbm σ) :=
  if slot ≤ bitmap.sbmHighWater then
    match bitmap.sbmSegments[slot]? with
    | none => none
    | some none => slotsUp size next bitmap (slot + 1) (-1) true
    | some (some s) =>
      match next s relative with
      | none => none
      | some (some found, s) =>
        some (some (slot * size + found),
          { bitmap with sbmSegments := bitmap.sbmSegments.set slot (some s) })
      | some (none, s) =>
        if garbageCollect then
          let freed :=
            freeSlot { bitmap with sbmSegments := bitmap.sbmSegments.set slot (some s) } slot
          slotsUp size next freed.1 (freed.2 + 1) (-1) true
        else
          slotsUp size next { bitmap with sbmSegments := bitmap.sbmSegments.set slot (some s) }
            (slot + 1) (-1) true
  else some (none, bitmap)
termination_by bitmap.sbmHighWater + 1 - slot
decreasing_by
  · omega
  · exact freeSlot_measure _ _ (by assumption)
  · omega

/-- The slots downwards. -/
def slotsDown (size : Nat) (next : σ → Int → Option (Option Nat × σ)) (bitmap : Sbm σ) (slot : Nat)
    (relative : Int) : Option (Option Nat × Sbm σ) :=
  let below (bitmap : Sbm σ) : Option (Option Nat × Sbm σ) :=
    match slot with
    | 0 => some (none, bitmap)
    | slot + 1 => slotsDown size next bitmap slot (-1)
  match bitmap.sbmSegments[slot]? with
  | none => none
  | some none => below bitmap
  | some (some s) =>
    match next s relative with
    | none => none
    | some (some found, s) =>
      some (some (slot * size + found),
        { bitmap with sbmSegments := bitmap.sbmSegments.set slot (some s) })
    | some (none, s) =>
      below { bitmap with sbmSegments := bitmap.sbmSegments.set slot (some s) }

/-- Empty and singular bitmaps; `plural` does the others. -/
def mapNext (plural : Sbm σ → Int → Option (Option Nat × Sbm σ)) (mode : RseGetMode)
    (bitmap : Sbm σ) (number : Int) : Option (Option Nat × Sbm σ) :=
  match bitmap.sbmState with
  | .empty => some (none, bitmap)
  | .singular =>
    if mode = .forward ∧ bitmap.sbmNumber ≤ number then some (none, bitmap)
    else if mode = .backward ∧ number ≤ bitmap.sbmNumber ∧ number ≠ -1 then some (none, bitmap)
    else some (some bitmap.sbmNumber, bitmap)
  | .plural => plural bitmap number

end

/-- In a bucket the search includes the number it starts from; -1 is either end. -/
def bucketNext (mode : RseGetMode) : SbmBucket → Int → Option (Option Nat × SbmBucket) :=
  mapNext
    (fun bitmap number =>
      match mode with
      | .forward =>
        let number := if number = -1 then 0 else number.toNat
        let relative := number % bitsSegment
        slotsUp bitsSegment (segmentNext .forward) bitmap (number / bitsSegment) relative
          (relative == 0)
      | .backward =>
        let number :=
          if number = -1 then bitmap.sbmHighWater * bitsSegment + (bitsSegment - 1)
          else number.toNat
        slotsDown bitsSegment (segmentNext .backward) bitmap (number / bitsSegment)
          (number % bitsSegment : Nat))
    mode

/-- In a root the search excludes the number it starts from. -/
def rootNext (mode : RseGetMode) : SbmRoot → Int → Option (Option Nat × SbmRoot) :=
  mapNext
    (fun bitmap number =>
      match mode with
      | .forward =>
        let number := slong (number + 1)
        let slot := if number = -1 then (bitmap.sbmHighWater : Int) else number / bitsBucket
        let relative := if number = -1 then -1 else number % bitsBucket
        let relative := if relative = 0 then -1 else relative
        if slot < 0 then some (none, bitmap)
        else slotsUp bitsBucket (bucketNext .forward) bitmap slot.toNat relative (relative == -1)
      | .backward =>
        if number = 0 then some (none, bitmap)
        else
          let number := if 0 < number then number - 1 else number
          let slot := if number = -1 then (bitmap.sbmHighWater : Int) else number / bitsBucket
          let relative := if number = -1 then -1 else number % bitsBucket
          if slot < 0 ∨ bitmap.sbmHighWater < slot then some (none, bitmap)
          else slotsDown bitsBucket (bucketNext .backward) bitmap slot.toNat relative)
    mode

/-- The next number, if there is one, and the bitmap after empty parts of it have been freed. -/
def sbmNext (mode : RseGetMode) : Option SbmRoot → Int → Option (Option Nat × Option SbmRoot)
  | none, _ => some (none, none)
  | some bitmap, number => (rootNext mode bitmap number).map fun r => (r.1, some r.2)

end InterBase
