import InterBase.Library.Search
import InterBase.SbmAlgebra
import InterBase.SbmNext

namespace InterBase

open Search

theorem bitsUp_spec (test : BitVec 32) (bit : Nat) :
    First (fun j => test.getLsbD j && decide (bit ≤ j)) 32 (bitsUp test bit) := by
  fun_induction bitsUp test bit with
  | case1 bit hlt hset =>
    rw [and_bit hlt] at hset
    exact ⟨hlt, by simp [hset], fun j hj => by simp [Nat.not_le.mpr hj]⟩
  | case2 bit hlt hset ih =>
    rw [and_bit hlt] at hset
    refine ih.congr fun j hj => ?_
    by_cases he : j = bit
    · simp [he, hset]
    · have hiff : bit + 1 ≤ j ↔ bit ≤ j := by omega
      simp [hiff]
  | case3 bit hge =>
    intro j hj
    have hlt : ¬bit ≤ j := by omega
    simp [hlt]

theorem bitsDown_spec (test : BitVec 32) {bit : Nat} (h : bit < 32) :
    Last (fun j => test.getLsbD j && decide (j ≤ bit)) 32 (bitsDown test bit) := by
  induction bit with
  | zero =>
    rw [bitsDown, and_bit h]
    split
    next hset =>
      exact ⟨h, by simp [hset], fun j hj _ => by simp [Nat.not_le.mpr hj]⟩
    next hset =>
      intro j hj
      by_cases he : j = 0
      · simp only [he, (Bool.not_eq_true _).mp hset, Bool.false_and]
      · simp [he]
  | succ bit ih =>
    rw [bitsDown, and_bit h]
    split
    next hset =>
      exact ⟨h, by simp [hset], fun j hj _ => by simp [Nat.not_le.mpr hj]⟩
    next hset =>
      refine (ih (by omega)).congr fun j hj => ?_
      by_cases he : j = bit + 1
      · simp [he, hset]
      · have hiff : j ≤ bit + 1 ↔ j ≤ bit := by omega
        simp [hiff]

/-- A longword of a segment. -/
theorem bmsTest_bunch (segment : Bms) (bunch : Nat) {j : Nat} (h : j < 32) :
    bmsTest segment (bunch * 32 + j) = (segment bunch).getLsbD j := by
  rw [bmsTest_eq, show (bunch * 32 + j) / 32 = bunch by omega,
    show (bunch * 32 + j) % 32 = j by omega]

theorem bunchUp_spec (segment : Bms) (bunch bit : Nat) :
    First (fun j => bmsTest segment (bunch * 32 + j) && decide (bunch * 32 + bit ≤ bunch * 32 + j)) 32
      (if segment bunch = 0#32 then none else bitsUp (segment bunch) bit) := by
  have hsame : ∀ j < 32, ((segment bunch).getLsbD j && decide (bit ≤ j)) =
      (bmsTest segment (bunch * 32 + j) && decide (bunch * 32 + bit ≤ bunch * 32 + j)) := by
    intro j hj
    rw [bmsTest_bunch segment bunch hj]
    simp
  refine First.congr ?_ hsame
  split
  next hzero =>
    intro j hj
    simp [hzero]
  next => exact bitsUp_spec _ _

theorem bunchesUp_spec (segment : Bms) (bunch bit : Nat) (h : bit < 32) :
    First (fun j => bmsTest segment j && decide (bunch * 32 + bit ≤ j)) bitsSegment
      (bunchesUp segment bunch bit) := by
  fun_induction bunchesUp segment bunch bit with
  | case1 bunch bit hlt found hfound =>
    have hblock := bunchUp_spec segment bunch bit
    rw [dite_eq_ite] at hfound
    rw [hfound] at hblock
    refine First.found (fun j hj => ?_) hblock (by simp only [bitsSegment]; omega)
    have hlow : ¬bunch * 32 + bit ≤ j := by omega
    simp [hlow]
  | case2 bunch bit hlt hnone ih =>
    have hblock := bunchUp_spec segment bunch bit
    rw [dite_eq_ite] at hnone
    rw [hnone] at hblock
    have hbelow : ∀ j < bunch * 32 + 32,
        (bmsTest segment j && decide (bunch * 32 + bit ≤ j)) = false :=
      First.passed (fun j hj => by
        have hlow : ¬bunch * 32 + bit ≤ j := by omega
        simp [hlow]) hblock
    refine (ih (by omega)).congr fun j hj => ?_
    by_cases hpassed : j < bunch * 32 + 32
    · have hlow : ¬(bunch + 1) * 32 + 0 ≤ j := by omega
      simp only [hbelow j hpassed, hlow, decide_false, Bool.and_false]
    · have hhigh : (bunch + 1) * 32 + 0 ≤ j := by omega
      have hhigh' : bunch * 32 + bit ≤ j := by omega
      simp only [hhigh, hhigh']
  | case3 bunch bit hge =>
    intro j hj
    simp only [bitsSegment] at hj
    have hlow : ¬bunch * 32 + bit ≤ j := by omega
    simp [hlow]

theorem bunchDown_spec (segment : Bms) (bunch : Nat) {bit : Nat} (h : bit < 32) :
    Last (fun j => bmsTest segment (bunch * 32 + j) && decide (bunch * 32 + j ≤ bunch * 32 + bit)) 32
      (if segment bunch = 0#32 then none else bitsDown (segment bunch) bit) := by
  have hsame : ∀ j < 32, ((segment bunch).getLsbD j && decide (j ≤ bit)) =
      (bmsTest segment (bunch * 32 + j) && decide (bunch * 32 + j ≤ bunch * 32 + bit)) := by
    intro j hj
    rw [bmsTest_bunch segment bunch hj]
    simp
  refine Last.congr ?_ hsame
  split
  next hzero =>
    intro j hj
    simp [hzero]
  next => exact bitsDown_spec _ h

theorem bunchesDown_spec (segment : Bms) (bunch bit : Nat) (inside : bunch < 32) (h : bit < 32) :
    Last (fun j => bmsTest segment j && decide (j ≤ bunch * 32 + bit)) bitsSegment
      (bunchesDown segment bunch bit) := by
  have habove (bunch bit : Nat) (h : bit < 32) (j : Nat) (hj : bunch * 32 + 32 ≤ j) :
      (bmsTest segment j && decide (j ≤ bunch * 32 + bit)) = false := by
    have hhigh : ¬j ≤ bunch * 32 + bit := by omega
    simp [hhigh]
  induction bunch generalizing bit with
  | zero =>
    have hblock := bunchDown_spec segment 0 h
    rw [bunchesDown]
    split
    next found hfound =>
      rw [hfound] at hblock
      exact Last.found (fun j hj _ => habove 0 bit h j hj) hblock (by decide)
    next hnone =>
      rw [hnone] at hblock
      exact fun j hj => Last.passed (fun j hj _ => habove 0 bit h j hj) hblock j (by omega) hj
  | succ bunch ih =>
    have hblock := bunchDown_spec segment (bunch + 1) h
    rw [bunchesDown]
    split
    next found hfound =>
      rw [hfound] at hblock
      exact Last.found (fun j hj _ => habove (bunch + 1) bit h j hj) hblock
        (by simp only [bitsSegment]; omega)
    next hnone =>
      rw [hnone] at hblock
      have hpassed : ∀ j, (bunch + 1) * 32 ≤ j → j < bitsSegment →
          (bmsTest segment j && decide (j ≤ (bunch + 1) * 32 + bit)) = false :=
        Last.passed (fun j hj _ => habove (bunch + 1) bit h j hj) hblock
      refine (ih 31 (by omega) (by decide)).congr fun j hj => ?_
      by_cases hlow : j < (bunch + 1) * 32
      · have hle : j ≤ bunch * 32 + 31 := by omega
        have hle' : j ≤ (bunch + 1) * 32 + bit := by omega
        simp [hle, hle']
      · have hgt : ¬j ≤ bunch * 32 + 31 := by omega
        rw [hpassed j (by omega) hj]
        simp [hgt]

section

variable {σ : Type} {size least most bound : Nat} {sound : σ → Prop} {holds : σ → Nat → Bool}
variable {alone : σ → Bool} {visible : σ → Int → Nat → Bool} {next : σ → Int → Option (Option Nat × σ)}
variable {bitmap bitmap' : Sbm σ} {slot : Nat}

/-- The members of what a slot points to, if it is `alone`. -/
def aloneHolds (holds : σ → Nat → Bool) (alone : σ → Bool) (s : σ) (j : Nat) : Bool :=
  holds s j && alone s

/-- A map that has been searched: parts of it may have been freed. -/
structure Sbm.Kept (size least most : Nat) (sound : σ → Prop) (holds : σ → Nat → Bool)
    (alone : σ → Bool) (bitmap bitmap' : Sbm σ) : Prop where
  slots : bitmap'.Slots least most sound
  state : bitmap'.sbmState = bitmap.sbmState
  number : bitmap'.sbmNumber = bitmap.sbmNumber
  members : ∀ n,
    slotsHold size holds bitmap'.sbmSegments n = slotsHold size holds bitmap.sbmSegments n
  lone : ∀ n, slotsHold size (aloneHolds holds alone) bitmap'.sbmSegments n =
    slotsHold size (aloneHolds holds alone) bitmap.sbmSegments n

/-- What the search in one slot does; `visible` are the members that it can end at. -/
def Searches (direction : (Nat → Bool) → Nat → Option Nat → Prop) (size : Nat) (sound : σ → Prop)
    (holds : σ → Nat → Bool) (alone : σ → Bool) (visible : σ → Int → Nat → Bool)
    (next : σ → Int → Option (Option Nat × σ)) : Prop :=
  ∀ (s : σ) (relative : Int), sound s → -1 ≤ relative → relative < (size : Int) →
    ∃ r s', next s relative = some (r, s') ∧ sound s' ∧ (∀ j < size, holds s' j = holds s j) ∧
      alone s' = alone s ∧ direction (visible s relative) size r

theorem Sbm.Kept.refl (h : bitmap.Slots least most sound) :
    bitmap.Kept size least most sound holds alone bitmap :=
  ⟨h, rfl, rfl, fun _ => rfl, fun _ => rfl⟩

theorem Sbm.Kept.trans {bitmap'' : Sbm σ} (h : bitmap.Kept size least most sound holds alone bitmap')
    (h' : bitmap'.Kept size least most sound holds alone bitmap'') :
    bitmap.Kept size least most sound holds alone bitmap'' :=
  ⟨h'.slots, h'.state.trans h.state, h'.number.trans h.number,
    fun n => (h'.members n).trans (h.members n), fun n => (h'.lone n).trans (h.lone n)⟩

theorem slotsHold_set_slot {x : Option σ} (pos : 0 < size) (inside : slot < bitmap.sbmSegments.length)
    (same : ∀ j < size, slotHolds holds x j =
      slotHolds holds (slotAt bitmap.sbmSegments slot) j) (n : Nat) :
    slotsHold size holds (bitmap.sbmSegments.set slot x) n =
      slotsHold size holds bitmap.sbmSegments n := by
  rw [slotsHold, slotsHold, slotAt_set inside]
  split
  next he => rw [same _ (Nat.mod_lt n pos), he]
  next => rfl

/-- A slot is written back after the search in it. -/
theorem Sbm.Slots.kept_set {s s' : σ} (h : bitmap.Slots least most sound) (pos : 0 < size)
    (at_slot : slotAt bitmap.sbmSegments slot = some s) (hs : sound s')
    (same : ∀ j < size, holds s' j = holds s j) (state : alone s' = alone s) : bitmap.Kept size least most sound holds alone
      { bitmap with sbmSegments := bitmap.sbmSegments.set slot (some s') } := by
  have hused := h.covered slot s at_slot
  have hhigh := h.high
  have hin : slot < bitmap.sbmSegments.length := by
    rw [h.allocated]
    omega
  refine ⟨h.set hs hused (Nat.le_refl _) h.high, rfl, rfl,
    slotsHold_set_slot pos hin fun j hj => ?_, slotsHold_set_slot pos hin fun j hj => ?_⟩
  · rw [at_slot]
    exact same j hj
  · rw [at_slot, slotHolds, slotHolds, aloneHolds, aloneHolds, same j hj, state]

theorem lastUsed_spec (slots : List (Option σ)) (slot : Nat) :
    lastUsed slots slot ≤ slot ∧
      ∀ i, lastUsed slots slot < i → i ≤ slot → slotAt slots i = none := by
  induction slot with
  | zero => exact ⟨Nat.le_refl _, fun i hi hi' => by simp only [lastUsed] at hi; omega⟩
  | succ slot ih =>
    rw [lastUsed]
    split
    next => exact ⟨Nat.le_refl _, fun i hi hi' => by omega⟩
    next hnone =>
      refine ⟨Nat.le_succ_of_le ih.1, fun i hi hi' => ?_⟩
      by_cases he : i = slot + 1
      · rw [he, slotAt, ← Option.not_isSome_iff_eq_none]
        exact hnone
      · exact ih.2 i hi (by omega)

/-- Freeing a slot without members; behind the last slot the search is at its end. -/
theorem freeSlot_spec (h : bitmap.Slots least most sound) (pos : 0 < size)
    (used : slot ≤ bitmap.sbmHighWater)
    (empty : ∀ j < size, slotHolds holds (slotAt bitmap.sbmSegments slot) j = false) :
    bitmap.Kept size least most sound holds alone (freeSlot bitmap slot).1 ∧
      ((freeSlot bitmap slot).2 = slot ∨
        (freeSlot bitmap slot).2 = (freeSlot bitmap slot).1.sbmHighWater ∧
          slot = bitmap.sbmHighWater) := by
  have hhigh := h.high
  have hin : slot < bitmap.sbmSegments.length := by
    rw [h.allocated]
    omega
  have hholds : ∀ n, slotsHold size holds (bitmap.sbmSegments.set slot none) n =
      slotsHold size holds bitmap.sbmSegments n :=
    slotsHold_set_slot pos hin fun j hj => (empty j hj).symm
  have halone : ∀ n, slotsHold size (aloneHolds holds alone) (bitmap.sbmSegments.set slot none) n =
      slotsHold size (aloneHolds holds alone) bitmap.sbmSegments n := by
    refine slotsHold_set_slot pos hin fun j hj => ?_
    have hj := empty j hj
    cases hs : slotAt bitmap.sbmSegments slot with
    | none => rfl
    | some s =>
      rw [hs, slotHolds] at hj
      rw [slotHolds, slotHolds, aloneHolds, hj, Bool.false_and]
  have hset (i : Nat) (s : σ) (hs : slotAt (bitmap.sbmSegments.set slot none) i = some s) :
      slotAt bitmap.sbmSegments i = some s ∧ i ≠ slot := by
    rw [slotAt_set hin] at hs
    split at hs
    next => cases hs
    next hne => exact ⟨hs, hne⟩
  have hlength : (bitmap.sbmSegments.set slot none).length = bitmap.sbmCount :=
    List.length_set.trans h.allocated
  rw [freeSlot]
  split
  next hlast =>
    obtain ⟨hle, hnone⟩ := lastUsed_spec (bitmap.sbmSegments.set slot none) slot
    refine ⟨⟨⟨hlength, h.long, h.short, ?_, fun i s hs => ?_, fun i s hs => ?_⟩, rfl, rfl, hholds, halone⟩,
      Or.inr ⟨rfl, hlast⟩⟩
    · dsimp only
      omega
    · by_contra hgt
      have hcovered := h.covered i s (hset i s hs).1
      rw [hnone i (Nat.not_le.mp hgt) (by omega)] at hs
      cases hs
    · exact h.slots i s (hset i s hs).1
  next hlast =>
    exact ⟨⟨⟨hlength, h.long, h.short, h.high, fun i s hs => h.covered i s (hset i s hs).1,
      fun i s hs => h.slots i s (hset i s hs).1⟩, rfl, rfl, hholds, halone⟩, Or.inl rfl⟩

/-- The members from a slot on, in the slot itself those that are visible. -/
def membersUp (size : Nat) (holds : σ → Nat → Bool) (visible : σ → Int → Nat → Bool)
    (slots : List (Option σ)) (slot : Nat) (relative : Int) (n : Nat) : Bool :=
  decide (slot * size ≤ n) &&
    if n / size = slot then slotHolds (visible · relative) (slotAt slots slot) (n % size)
    else slotsHold size holds slots n

/-- Behind a slot there are no members above the high water mark. -/
theorem membersUp_above (h : bitmap.Slots least most sound) (pos : 0 < size)
    (above : bitmap.sbmHighWater < slot) (relative : Int) (n : Nat) :
    membersUp size holds visible bitmap.sbmSegments slot relative n = false := by
  rw [membersUp]
  by_cases hn : slot * size ≤ n
  · have hdiv : slot ≤ n / size := (Nat.le_div_iff_mul_le pos).mpr hn
    rw [slotsHold, h.slot_above above, h.slot_above (by omega)]
    simp [slotHolds]
  · simp [hn]

/-- The members behind a slot, when the search in it has found nothing. -/
theorem membersUp_succ (pos : 0 < size) (whole : ∀ s j, visible s (-1) j = holds s j)
    {slots slots' : List (Option σ)} {relative : Int}
    (same : ∀ n, slotsHold size holds slots' n = slotsHold size holds slots n)
    (passed : ∀ j < slot * size + size, membersUp size holds visible slots slot relative j = false)
    (n : Nat) : membersUp size holds visible slots' (slot + 1) (-1) n =
      membersUp size holds visible slots slot relative n := by
  have hnext : (slot + 1) * size = slot * size + size := Nat.succ_mul _ _
  by_cases hn : slot * size + size ≤ n
  · have hdiv : slot + 1 ≤ n / size := (Nat.le_div_iff_mul_le pos).mpr (by omega)
    rw [membersUp, membersUp, decide_eq_true (by omega), decide_eq_true (by omega),
      if_neg (by omega : ¬n / size = slot), ← same n]
    split
    next he =>
      rw [slotsHold, he]
      cases slotAt slots' (slot + 1) with
      | none => rfl
      | some s => simp [slotHolds, whole]
    next => rfl
  · rw [passed n (by omega), membersUp, decide_eq_false (by omega), Bool.false_and]

theorem Sbm.Slots.slot_inside (h : bitmap.Slots least most sound)
    (used : slot < bitmap.sbmCount) (within : most * size ≤ bound) :
    slot * size + size ≤ bound := by
  have hshort := h.short
  have hmul : (slot + 1) * size ≤ most * size := Nat.mul_le_mul_right size (by omega)
  rw [Nat.succ_mul] at hmul
  omega

theorem slotsUp_spec (search : Searches First size sound holds alone visible next) (pos : 0 < size)
    (whole : ∀ s j, visible s (-1) j = holds s j) (h : bitmap.Slots least most sound)
    (slot : Nat) (relative : Int) (gc : Bool) (low : -1 ≤ relative) (inside : relative < size)
    (fresh : gc = true → ∀ s, ∀ j < size, visible s relative j = holds s j)
    (within : most * size ≤ bound) :
    ∃ r bitmap', slotsUp size next bitmap slot relative gc = some (r, bitmap') ∧
      bitmap.Kept size least most sound holds alone bitmap' ∧
      First (membersUp size holds visible bitmap.sbmSegments slot relative) bound r := by
  induction hm : bitmap.sbmHighWater + 1 - slot using Nat.strongRecOn
    generalizing bitmap slot relative gc with
  | ind m ih =>
  have hone : (-1 : Int) < size := by omega
  have hwhole : true = true → ∀ s, ∀ j < size, visible s (-1) j = holds s j :=
    fun _ s j _ => whole s j
  rw [slotsUp]
  split
  next hle =>
    have hhigh := h.high
    have hfit := h.slot_inside (by omega : slot < bitmap.sbmCount) within
    have hbelow : ∀ j < slot * size,
        membersUp size holds visible bitmap.sbmSegments slot relative j = false := by
      intro j hj
      rw [membersUp, decide_eq_false (by omega), Bool.false_and]
    have hblock (j : Nat) (hj : j < size) :
        membersUp size holds visible bitmap.sbmSegments slot relative (slot * size + j) =
          slotHolds (visible · relative) (slotAt bitmap.sbmSegments slot) j := by
      have hdiv : (slot * size + j) / size = slot := by
        rw [Nat.mul_comm, Nat.mul_add_div pos, Nat.div_eq_of_lt hj, Nat.add_zero]
      have hmod : (slot * size + j) % size = j := by
        rw [Nat.mul_comm, Nat.mul_add_mod, Nat.mod_eq_of_lt hj]
      rw [membersUp, hdiv, hmod, if_pos rfl, decide_eq_true (by omega), Bool.true_and]
    rw [slotAt_of_lt (by rw [h.allocated]; omega)]
    cases hs : slotAt bitmap.sbmSegments slot with
    | none =>
      obtain ⟨r, bitmap', hloop, hkept, hfirst⟩ :=
        ih (bitmap.sbmHighWater + 1 - (slot + 1)) (by omega) h (slot + 1) (-1) true
          (Int.le_refl (-1)) hone hwhole rfl
      refine ⟨r, bitmap', hloop, hkept, hfirst.congr fun n _ => ?_⟩
      refine membersUp_succ pos whole (fun _ => rfl) (First.passed hbelow fun j hj => ?_) n
      exact (hblock j hj).trans (by rw [hs, slotHolds])
    | some s =>
      dsimp only
      obtain ⟨found, s', hnext, hsound, hsame, hstate, hfirst⟩ :=
        search s relative (h.slots slot s hs) low inside
      have hstored := h.kept_set pos hs hsound hsame hstate
      have hsearch : First (fun j => membersUp size holds visible bitmap.sbmSegments slot relative
          (slot * size + j)) size found := by
        refine hfirst.congr fun j hj => ?_
        rw [hblock j hj, hs]
        rfl
      rw [hnext]
      cases found with
      | some k => exact ⟨_, _, rfl, hstored, First.found hbelow hsearch hfit⟩
      | none =>
        have hpassed := First.passed hbelow hsearch
        dsimp only
        split
        next hgc =>
          -- nothing in the slot at all: it is freed
          have hempty : ∀ j < size, slotHolds holds
              (slotAt (bitmap.sbmSegments.set slot (some s')) slot) j = false := by
            intro j hj
            rw [slotAt_set (by rw [h.allocated]; omega), if_pos rfl, slotHolds, hsame j hj,
              ← fresh hgc s j hj]
            exact hfirst j hj
          obtain ⟨hfreed, hplace⟩ := freeSlot_spec hstored.slots pos hle hempty
          have hmeasure := freeSlot_measure bitmap (bitmap.sbmSegments.set slot (some s')) hle
          obtain ⟨r, bitmap', hloop, hkept, hrest⟩ := ih _ (hm ▸ hmeasure) hfreed.slots _ (-1)
            true (Int.le_refl (-1)) hone hwhole rfl
          refine ⟨r, bitmap', hloop, (hstored.trans hfreed).trans hkept, hrest.congr fun n _ => ?_⟩
          rcases hplace with hplace | ⟨hplace, hlast⟩
          · rw [hplace]
            exact membersUp_succ pos whole (hstored.trans hfreed).members hpassed n
          · rw [hplace, membersUp_above hfreed.slots pos (Nat.lt_succ_self _)]
            have hend := membersUp_succ pos whole (fun _ => rfl) hpassed n
            rw [← hend, membersUp_above h pos (by dsimp only at hlast; omega)]
        next hgc =>
          obtain ⟨r, bitmap', hloop, hkept, hrest⟩ :=
            ih (bitmap.sbmHighWater + 1 - (slot + 1)) (by omega) hstored.slots (slot + 1) (-1)
              true (Int.le_refl (-1)) hone hwhole rfl
          refine ⟨r, bitmap', hloop, hstored.trans hkept, hrest.congr fun n _ => ?_⟩
          exact membersUp_succ pos whole hstored.members hpassed n
  next hgt =>
    exact ⟨none, bitmap, rfl, .refl h, fun n _ => membersUp_above h pos (by omega) relative n⟩

/-- The members down from a slot, in the slot itself those that are visible. -/
def membersDown (size : Nat) (holds : σ → Nat → Bool) (visible : σ → Int → Nat → Bool)
    (slots : List (Option σ)) (slot : Nat) (relative : Int) (n : Nat) : Bool :=
  decide (n < slot * size + size) &&
    if n / size = slot then slotHolds (visible · relative) (slotAt slots slot) (n % size)
    else slotsHold size holds slots n

/-- The members in front of a slot, when the search in it has found nothing. -/
theorem membersDown_pred (pos : 0 < size) (whole : ∀ s j, visible s (-1) j = holds s j)
    {slots slots' : List (Option σ)} {relative : Int}
    (same : ∀ n, slotsHold size holds slots' n = slotsHold size holds slots n)
    (passed : ∀ j, (slot + 1) * size ≤ j → j < bound →
      membersDown size holds visible slots (slot + 1) relative j = false)
    {n : Nat} (hn : n < bound) : membersDown size holds visible slots' slot (-1) n =
      membersDown size holds visible slots (slot + 1) relative n := by
  have hnext : (slot + 1) * size = slot * size + size := Nat.succ_mul _ _
  by_cases hlow : n < slot * size + size
  · have hdiv : n / size < slot + 1 := (Nat.div_lt_iff_lt_mul pos).mpr (by omega)
    rw [membersDown, membersDown, decide_eq_true hlow, decide_eq_true (by omega),
      if_neg (by omega : ¬n / size = slot + 1), ← same n]
    split
    next he =>
      rw [slotsHold, he]
      cases slotAt slots' slot with
      | none => rfl
      | some s => simp [slotHolds, whole]
    next => rfl
  · rw [passed n (by omega) hn, membersDown, decide_eq_false hlow, Bool.false_and]

theorem membersDown_above (slots : List (Option σ)) (slot : Nat) (relative : Int) (n : Nat)
    (above : slot * size + size ≤ n) (_ : n < bound) :
    membersDown size holds visible slots slot relative n = false := by
  rw [membersDown, decide_eq_false (by omega), Bool.false_and]

theorem membersDown_slot (pos : 0 < size) (slots : List (Option σ)) (slot : Nat) (relative : Int)
    {j : Nat} (hj : j < size) : membersDown size holds visible slots slot relative (slot * size + j) =
      slotHolds (visible · relative) (slotAt slots slot) j := by
  have hdiv : (slot * size + j) / size = slot := by
    rw [Nat.mul_comm, Nat.mul_add_div pos, Nat.div_eq_of_lt hj, Nat.add_zero]
  have hmod : (slot * size + j) % size = j := by
    rw [Nat.mul_comm, Nat.mul_add_mod, Nat.mod_eq_of_lt hj]
  rw [membersDown, hdiv, hmod, if_pos rfl, decide_eq_true (by omega), Bool.true_and]

/-- The search downwards in one slot: it ends there, or it goes on in front of the slot. -/
theorem slotsDown_slot (search : Searches Last size sound holds alone visible next) (pos : 0 < size)
    (h : bitmap.Slots least most sound) {relative : Int} (low : -1 ≤ relative)
    (inside : relative < size) (used : slot < bitmap.sbmCount) :
    ∃ r bitmap', bitmap.Kept size least most sound holds alone bitmap' ∧
      bitmap'.sbmCount = bitmap.sbmCount ∧
      Last (fun j => membersDown size holds visible bitmap.sbmSegments slot relative
        (slot * size + j)) size r ∧
      slotsDown size next bitmap slot relative =
        match r, slot with
        | some found, slot => some (some (slot * size + found), bitmap')
        | none, 0 => some (none, bitmap')
        | none, slot + 1 => slotsDown size next bitmap' slot (-1) := by
  have hsame : ∀ j < size, slotHolds (visible · relative) (slotAt bitmap.sbmSegments slot) j =
      membersDown size holds visible bitmap.sbmSegments slot relative (slot * size + j) :=
    fun j hj => (membersDown_slot pos _ slot relative hj).symm
  cases hs : slotAt bitmap.sbmSegments slot with
  | none =>
    refine ⟨none, bitmap, .refl h, rfl, fun j hj => ?_, ?_⟩
    · exact (hsame j hj).symm.trans (by rw [hs, slotHolds])
    · rw [slotsDown.eq_def, slotAt_of_lt (by rw [h.allocated]; omega), hs]
      cases slot <;> rfl
  | some s =>
    obtain ⟨found, s', hnext, hsound, hkeep, hstate, hlast⟩ :=
      search s relative (h.slots slot s hs) low inside
    refine ⟨found, _, h.kept_set pos hs hsound hkeep hstate, rfl, hlast.congr fun j hj => ?_, ?_⟩
    · rw [← hsame j hj, hs, slotHolds]
    · rw [slotsDown.eq_def, slotAt_of_lt (by rw [h.allocated]; omega), hs]
      dsimp only
      rw [hnext]
      cases found with
      | none => cases slot <;> rfl
      | some found => rfl

theorem slotsDown_spec (search : Searches Last size sound holds alone visible next) (pos : 0 < size)
    (whole : ∀ s j, visible s (-1) j = holds s j) (h : bitmap.Slots least most sound)
    (slot : Nat) (relative : Int) (low : -1 ≤ relative) (inside : relative < size)
    (used : slot < bitmap.sbmCount) (within : most * size ≤ bound) :
    ∃ r bitmap', slotsDown size next bitmap slot relative = some (r, bitmap') ∧
      bitmap.Kept size least most sound holds alone bitmap' ∧
      Last (membersDown size holds visible bitmap.sbmSegments slot relative) bound r := by
  induction slot generalizing bitmap relative with
  | zero =>
    obtain ⟨r, bitmap', hkept, -, hlast, hloop⟩ :=
      slotsDown_slot search pos h low inside used
    have hfit := h.slot_inside used within
    refine ⟨r.map (0 * size + ·), bitmap', ?_, hkept, ?_⟩
    · rw [hloop]
      cases r <;> rfl
    · cases r with
      | some found => exact Last.found (membersDown_above _ 0 relative) hlast hfit
      | none =>
        exact fun j hj => Last.passed (membersDown_above _ 0 relative) hlast j (by omega) hj
  | succ slot ih =>
    obtain ⟨r, bitmap', hkept, hcount, hlast, hloop⟩ :=
      slotsDown_slot search pos h low inside used
    have hfit := h.slot_inside used within
    cases r with
    | some found =>
      exact ⟨_, bitmap', hloop, hkept, Last.found (membersDown_above _ _ relative) hlast hfit⟩
    | none =>
      obtain ⟨r, bitmap'', hrest, hkept', hlast'⟩ :=
        ih hkept.slots (-1) (Int.le_refl (-1)) (by omega) (by omega)
      refine ⟨r, bitmap'', hloop.trans hrest, hkept.trans hkept', hlast'.congr fun n hn => ?_⟩
      refine membersDown_pred pos whole hkept.members (fun j hj hj' => ?_) hn
      exact Last.passed (membersDown_above _ _ relative) hlast j hj hj'

end

end InterBase
