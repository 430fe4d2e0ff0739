import InterBase.SbmScan

namespace InterBase

open Search

section

variable {σ : Type} {size : Nat} {holds : σ → Nat → Bool} {alone : σ → Bool}
variable {slots : List (Option σ)}

/-- Upwards from `relative` on; what is singular leaves `relative` itself out. -/
def visibleUp (holds : σ → Nat → Bool) (alone : σ → Bool) (s : σ) (relative : Int) (j : Nat) :
    Bool :=
  holds s j && decide (relative ≤ j) && !(alone s && decide ((j : Int) = relative))

/-- Downwards from `relative` on, or from the end. -/
def visibleDown (holds : σ → Nat → Bool) (alone : σ → Bool) (s : σ) (relative : Int) (j : Nat) :
    Bool :=
  holds s j && decide (relative = -1 ∨ j ≤ relative) && !(alone s && decide ((j : Int) = relative))

theorem visibleUp_whole (s : σ) (j : Nat) : visibleUp holds alone s (-1) j = holds s j := by
  have hle : (-1 : Int) ≤ j := by omega
  have hne : (j : Int) ≠ -1 := by omega
  simp [visibleUp, hle, hne]

theorem visibleDown_whole (s : σ) (j : Nat) : visibleDown holds alone s (-1) j = holds s j := by
  have hne : (j : Int) ≠ -1 := by omega
  simp [visibleDown, hne]

theorem membersUp_whole (slot n : Nat) :
    membersUp size holds (visibleUp holds alone) slots slot (-1) n =
      (slotsHold size holds slots n && decide (slot * size ≤ n)) := by
  rw [membersUp, Bool.and_comm]
  congr 1
  split
  next he =>
    rw [slotsHold, he]
    cases slotAt slots slot with
    | none => rfl
    | some s => exact visibleUp_whole s _
  next => rfl

theorem membersDown_whole (slot n : Nat) :
    membersDown size holds (visibleDown holds alone) slots slot (-1) n =
      (slotsHold size holds slots n && decide (n < slot * size + size)) := by
  rw [membersDown, Bool.and_comm]
  congr 1
  split
  next he =>
    rw [slotsHold, he]
    cases slotAt slots slot with
    | none => rfl
    | some s => exact visibleDown_whole s _
  next => rfl

theorem membersUp_from (pos : 0 < size) (number n : Nat) :
    membersUp size holds (visibleUp holds alone) slots (number / size) (number % size : Nat) n =
      (slotsHold size holds slots n && decide (number ≤ n) &&
        !(slotsHold size (aloneHolds holds alone) slots n && decide (n = number))) := by
  have hnumber := Nat.div_add_mod' number size
  have hn := Nat.div_add_mod' n size
  have hmod := Nat.mod_lt n pos
  rw [membersUp]
  split
  next he =>
    have hle : (number % size : Nat) ≤ ((n % size : Nat) : Int) ↔ number ≤ n := by
      rw [he] at hn
      omega
    have heq : ((n % size : Nat) : Int) = (number % size : Nat) ↔ n = number := by
      rw [he] at hn
      omega
    have hslot : number / size * size ≤ n := by
      rw [he] at hn
      omega
    rw [slotsHold, slotsHold, he, decide_eq_true hslot, Bool.true_and]
    cases slotAt slots (number / size) with
    | none => rfl
    | some s =>
      simp only [slotHolds, visibleUp, aloneHolds, hle, heq]
      cases holds s (n % size) <;> simp
  next hne =>
    have hiff : number / size * size ≤ n ↔ number ≤ n := by
      rw [← Nat.le_div_iff_mul_le pos]
      constructor
      · intro hle
        have hlt : number / size < n / size := by omega
        have := (Nat.div_lt_iff_lt_mul pos).mp hlt
        omega
      · exact fun hle => Nat.div_le_div_right hle
    have hnum : n ≠ number := fun he => hne (he ▸ rfl)
    simp [hiff, hnum, Bool.and_comm]

theorem membersDown_from (pos : 0 < size) (number n : Nat) :
    membersDown size holds (visibleDown holds alone) slots (number / size) (number % size : Nat) n =
      (slotsHold size holds slots n && decide (n ≤ number) &&
        !(slotsHold size (aloneHolds holds alone) slots n && decide (n = number))) := by
  have hnumber := Nat.div_add_mod' number size
  have hn := Nat.div_add_mod' n size
  have hmod := Nat.mod_lt n pos
  rw [membersDown]
  split
  next he =>
    have hle : (((number % size : Nat) : Int) = -1 ∨ ((n % size : Nat) : Int) ≤ (number % size : Nat))
        ↔ n ≤ number := by
      rw [he] at hn
      omega
    have heq : ((n % size : Nat) : Int) = (number % size : Nat) ↔ n = number := by
      rw [he] at hn
      omega
    have hslot : n < number / size * size + size := by
      rw [he] at hn
      omega
    rw [slotsHold, slotsHold, he, decide_eq_true hslot, Bool.true_and]
    cases slotAt slots (number / size) with
    | none => rfl
    | some s =>
      simp only [slotHolds, visibleDown, aloneHolds, hle, heq]
      cases holds s (n % size) <;> simp
  next hne =>
    have hiff : n < number / size * size + size ↔ n ≤ number := by
      rw [← Nat.succ_mul, ← Nat.div_lt_iff_lt_mul pos]
      constructor
      · intro hlt
        have hlt' : n / size < number / size := by omega
        have := (Nat.div_lt_iff_lt_mul pos).mp hlt'
        omega
      · intro hle
        have := Nat.div_le_div_right (c := size) hle
        omega
    have hnum : n ≠ number := fun he => hne (he ▸ rfl)
    simp [hiff, hnum, Bool.and_comm]

end

theorem segment_searchesUp : Searches First bitsSegment (fun _ => True) bmsTest (fun _ => false)
    (visibleUp bmsTest fun _ => false) (segmentNext .forward) := by
  intro segment relative _ low inside
  refine ⟨_, segment, rfl, trivial, fun _ _ => rfl, rfl, ?_⟩
  have hstart := fun start : Nat =>
    bunchesUp_spec segment (start / 32) (start % 32) (Nat.mod_lt start (by decide : 0 < 32))
  refine (hstart _).congr fun j hj => ?_
  rw [Nat.div_add_mod', visibleUp, Bool.false_and, Bool.not_false, Bool.and_true]
  congr 2
  split
  next he => simp only [he, eq_iff_iff]; omega
  next hne => simp only [eq_iff_iff]; omega

theorem segment_searchesDown : Searches Last bitsSegment (fun _ => True) bmsTest (fun _ => false)
    (visibleDown bmsTest fun _ => false) (segmentNext .backward) := by
  intro segment relative _ low inside
  refine ⟨_, segment, rfl, trivial, fun _ _ => rfl, rfl, ?_⟩
  have hstart := fun (start : Nat) (h : start < bitsSegment) =>
    bunchesDown_spec segment (start / 32) (start % 32)
      (by simp only [bitsSegment] at h; omega) (Nat.mod_lt start (by decide : 0 < 32))
  refine (hstart _ ?_).congr fun j hj => ?_
  · split
    next => decide
    next => omega
  · have hlast : j ≤ bitsSegment - 1 := Nat.le_pred_of_lt hj
    rw [Nat.div_add_mod', visibleDown, Bool.false_and, Bool.not_false, Bool.and_true]
    congr 2
    split
    next he => simp [he, hlast]
    next hne => simp only [eq_iff_iff]; omega

def Sbm.single {σ : Type} (bitmap : Sbm σ) : Bool := bitmap.sbmState == .singular

section

variable {σ : Type} {size least most limit bound : Nat} {sound : σ → Prop} {holds : σ → Nat → Bool}
variable {alone : σ → Bool} {bitmap bitmap' : Sbm σ}

theorem Sbm.Kept.toSound (h : bitmap.Kept size least most sound holds alone bitmap')
    (number : bitmap.sbmNumber < limit) (plural : bitmap.sbmState = .plural) :
    bitmap'.Sound least most limit sound :=
  ⟨h.slots, fun hne => absurd (h.state.trans plural) hne, h.number ▸ number⟩

theorem Sbm.Kept.mem (h : bitmap.Kept size least most sound holds alone bitmap') (n : Nat) :
    bitmap'.mem size holds n = bitmap.mem size holds n := by
  rw [Sbm.mem, Sbm.mem, h.state, h.number, h.members n]

theorem Sbm.Kept.single (h : bitmap.Kept size least most sound holds alone bitmap') :
    bitmap'.single = bitmap.single := by
  rw [Sbm.single, Sbm.single, h.state]

theorem Sbm.Slots.hold_above (h : bitmap.Slots least most sound) (pos : 0 < size) {n : Nat}
    (above : bitmap.sbmHighWater * size + size ≤ n) :
    slotsHold size holds bitmap.sbmSegments n = false := by
  have hdiv : bitmap.sbmHighWater + 1 ≤ n / size := by
    rw [Nat.le_div_iff_mul_le pos, Nat.succ_mul]
    exact above
  rw [slotsHold, h.slot_above hdiv, slotHolds]

/-- Empty and singular bitmaps. -/
theorem mapNext_kept (alone : σ → Bool) (direction : (Nat → Bool) → Nat → Option Nat → Prop)
    (visible : Nat → Bool) {plural : Sbm σ → Int → Option (Option Nat × Sbm σ)} {mode : RseGetMode}
    {number : Int} (h : bitmap.Sound least most limit sound)
    (empty : bitmap.sbmState = .empty → direction visible bound none)
    (singular : bitmap.sbmState = .singular → direction visible bound
      (if mode = .forward ∧ bitmap.sbmNumber ≤ number then none
        else if mode = .backward ∧ number ≤ bitmap.sbmNumber ∧ number ≠ -1 then none
        else some bitmap.sbmNumber))
    (others : bitmap.sbmState = .plural → ∃ r bitmap', plural bitmap number = some (r, bitmap') ∧
      bitmap.Kept size least most sound holds alone bitmap' ∧ direction visible bound r) :
    ∃ r bitmap', mapNext plural mode bitmap number = some (r, bitmap') ∧
      bitmap'.Sound least most limit sound ∧
      bitmap.Kept size least most sound holds alone bitmap' ∧ direction visible bound r := by
  cases hstate : bitmap.sbmState with
  | empty =>
    exact ⟨none, bitmap, by rw [mapNext, hstate], h, .refl h.toSlots, empty hstate⟩
  | singular =>
    refine ⟨_, bitmap, ?_, h, .refl h.toSlots, singular hstate⟩
    rw [mapNext, hstate]
    dsimp only
    split
    next => rfl
    next => split <;> rfl
  | plural =>
    obtain ⟨r, bitmap', hnext, hkept, hr⟩ := others hstate
    exact ⟨r, bitmap', by rw [mapNext, hstate]; exact hnext, hkept.toSound h.number hstate,
      hkept, hr⟩

theorem mapNext_searches (direction : (Nat → Bool) → Nat → Option Nat → Prop)
    {visible : Nat → Bool} {r : Option (Option Nat × Sbm σ)}
    (h : ∃ found bitmap', r = some (found, bitmap') ∧ bitmap'.Sound least most limit sound ∧
      bitmap.Kept size least most sound holds alone bitmap' ∧ direction visible bound found) :
    ∃ found bitmap', r = some (found, bitmap') ∧ bitmap'.Sound least most limit sound ∧
      (∀ j < bound, bitmap'.mem size holds j = bitmap.mem size holds j) ∧
      bitmap'.single = bitmap.single ∧ direction visible bound found := by
  obtain ⟨found, bitmap', hnext, hsound, hkept, hfound⟩ := h
  exact ⟨found, bitmap', hnext, hsound, fun j _ => hkept.mem j, hkept.single, hfound⟩

end

theorem Sbm.single_plural {σ : Type} {bitmap : Sbm σ} (h : bitmap.sbmState = .plural) :
    bitmap.single = false := by
  rw [Sbm.single, h]
  rfl

theorem slotsHold_alone {σ : Type} (size : Nat) (holds : σ → Nat → Bool)
    (slots : List (Option σ)) (n : Nat) :
    slotsHold size (aloneHolds holds fun _ => false) slots n = false := by
  rw [slotsHold]
  cases slotAt slots (n / size) with
  | none => rfl
  | some s => exact Bool.and_false _

theorem bucket_slots_within : bunchBucket * bitsSegment ≤ bitsBucket := by decide

/-- The end of a singular bitmap, for each direction. -/
theorem ended_forward (number : Int) (own : Nat) :
    (if RseGetMode.forward = .forward ∧ (own : Int) ≤ number then none
      else if RseGetMode.forward = .backward ∧ number ≤ own ∧ number ≠ -1 then none
      else some own) = if (own : Int) ≤ number then none else some own := by
  simp

theorem ended_backward (number : Int) (own : Nat) :
    (if RseGetMode.backward = .forward ∧ (own : Int) ≤ number then none
      else if RseGetMode.backward = .backward ∧ number ≤ own ∧ number ≠ -1 then none
      else some own) = if number ≤ own ∧ number ≠ -1 then none else some own := by
  simp

theorem bucket_searchesUp : Searches First bitsBucket SbmBucket.Sound SbmBucket.mem Sbm.single
    (visibleUp SbmBucket.mem Sbm.single) (bucketNext .forward) := by
  intro bucket relative h low inside
  refine mapNext_searches First (mapNext_kept (fun _ => false) First _ h (fun hempty j hj => ?_)
    (fun hsingular => ?_) fun hplural => ?_)
  · rw [visibleUp, SbmBucket.mem, Sbm.mem_empty hempty, Bool.false_and, Bool.false_and]
  · rw [ended_forward]
    refine First.only h.number fun j hj => ?_
    rw [visibleUp, SbmBucket.mem, Sbm.mem_singular hsingular, Sbm.single, hsingular]
    by_cases he : j = bucket.sbmNumber
    · subst he
      rw [Bool.eq_iff_iff]
      simp
      omega
    · rw [beq_false_of_ne he, Bool.false_and, Bool.false_and, Bool.false_and]
  · dsimp only
    generalize hstart : (if relative = -1 then 0 else relative.toNat) = start
    have hmod := Nat.mod_lt start bitsSegment_pos
    have hfresh : (start % bitsSegment == 0) = true → ∀ s, ∀ j < bitsSegment,
        visibleUp bmsTest (fun _ => false) s (start % bitsSegment : Nat) j = bmsTest s j := by
      intro hgc s j _
      rw [eq_of_beq hgc]
      simp [visibleUp]
    obtain ⟨r, bucket', hslots, hkept, hfirst⟩ := slotsUp_spec segment_searchesUp
      bitsSegment_pos visibleUp_whole h.toSlots (start / bitsSegment) (start % bitsSegment : Nat)
      (start % bitsSegment == 0) (by omega) (by omega) hfresh bucket_slots_within
    refine ⟨r, bucket', hslots, hkept, hfirst.congr fun j hj => ?_⟩
    rw [membersUp_from bitsSegment_pos, slotsHold_alone, visibleUp, SbmBucket.mem,
      Sbm.mem_plural hplural, Sbm.single_plural hplural]
    have hiff : start ≤ j ↔ relative ≤ j := by
      split at hstart <;> omega
    simp [hiff]

theorem bucket_searchesDown : Searches Last bitsBucket SbmBucket.Sound SbmBucket.mem Sbm.single
    (visibleDown SbmBucket.mem Sbm.single) (bucketNext .backward) := by
  intro bucket relative h low inside
  refine mapNext_searches Last (mapNext_kept (fun _ => false) Last _ h (fun hempty j hj => ?_)
    (fun hsingular => ?_) fun hplural => ?_)
  · rw [visibleDown, SbmBucket.mem, Sbm.mem_empty hempty, Bool.false_and, Bool.false_and]
  · rw [ended_backward]
    refine Last.only h.number fun j hj => ?_
    rw [visibleDown, SbmBucket.mem, Sbm.mem_singular hsingular, Sbm.single, hsingular]
    by_cases he : j = bucket.sbmNumber
    · subst he
      rw [Bool.eq_iff_iff]
      simp
      omega
    · rw [beq_false_of_ne he, Bool.false_and, Bool.false_and, Bool.false_and]
  · dsimp only
    generalize hstart : (if relative = -1 then bucket.sbmHighWater * bitsSegment + (bitsSegment - 1)
      else relative.toNat) = start
    have hmod := Nat.mod_lt start bitsSegment_pos
    have hinside : start < bitsBucket := by
      have hfit := h.slot_inside h.high bucket_slots_within
      split at hstart
      next =>
        have hlast : bitsSegment - 1 < bitsSegment := by decide
        omega
      next => omega
    have hcount : start / bitsSegment < bucket.sbmCount :=
      Nat.lt_of_lt_of_le ((Nat.div_lt_iff_lt_mul bitsSegment_pos).mpr hinside) h.long
    obtain ⟨r, bucket', hslots, hkept, hlast⟩ := slotsDown_spec segment_searchesDown
      bitsSegment_pos visibleDown_whole h.toSlots (start / bitsSegment)
      (start % bitsSegment : Nat) (by omega) (by omega) hcount bucket_slots_within
    refine ⟨r, bucket', hslots, hkept, hlast.congr fun j hj => ?_⟩
    rw [membersDown_from bitsSegment_pos, slotsHold_alone, visibleDown, SbmBucket.mem,
      Sbm.mem_plural hplural, Sbm.single_plural hplural]
    simp only [Bool.false_and, Bool.not_false, Bool.and_true]
    by_cases hend : relative = -1
    · rw [if_pos hend] at hstart
      simp only [hend, true_or, decide_true, Bool.and_true]
      by_cases hle : j ≤ start
      · rw [decide_eq_true hle, Bool.and_true]
      · have hlast : 1 ≤ bitsSegment := bitsSegment_pos
        rw [h.toSlots.hold_above bitsSegment_pos (by omega), Bool.false_and]
    · rw [if_neg hend] at hstart
      have hiff : j ≤ start ↔ relative = -1 ∨ (j : Int) ≤ relative := by omega
      simp only [hiff]

/-- A member in a singular bucket. -/
def SbmRoot.lone (root : SbmRoot) (n : Nat) : Bool :=
  root.sbmState == .plural &&
    slotsHold bitsBucket (aloneHolds SbmBucket.mem Sbm.single) root.sbmSegments n

section

variable {root root' : SbmRoot} {number : Int}

theorem root_slots_within : 65536 * bitsBucket ≤ maxNumber := by decide

theorem Sbm.Kept.loneRoot (h : root.Kept bitsBucket 1 65536 SbmBucket.Sound SbmBucket.mem
    Sbm.single root') (n : Nat) : root'.lone n = root.lone n := by
  rw [SbmRoot.lone, SbmRoot.lone, h.state, h.lone n]

theorem SbmRoot.lone_plural (h : root.sbmState = .plural) (n : Nat) : root.lone n =
    slotsHold bitsBucket (aloneHolds SbmBucket.mem Sbm.single) root.sbmSegments n := by
  rw [SbmRoot.lone, h]
  rfl

theorem rootNext_forward (h : root.Sound) (low : -1 ≤ number) (high : number < maxNumber) :
    ∃ r root', rootNext .forward root number = some (r, root') ∧ root'.Sound ∧
      root.Kept bitsBucket 1 65536 SbmBucket.Sound SbmBucket.mem Sbm.single root' ∧
      First (fun m => root.mem m && decide (number < m) &&
        !(root.lone m && decide ((m : Int) = number + 1 ∧ m % bitsBucket ≠ 0))) maxNumber r := by
  refine mapNext_kept Sbm.single First _ h (fun hempty j hj => ?_) (fun hsingular => ?_)
    fun hplural => ?_
  · rw [SbmRoot.mem, Sbm.mem_empty hempty, Bool.false_and, Bool.false_and]
  · rw [ended_forward]
    refine First.only h.number fun j hj => ?_
    rw [SbmRoot.mem, Sbm.mem_singular hsingular, SbmRoot.lone, hsingular]
    by_cases he : j = root.sbmNumber
    · subst he
      rw [Bool.eq_iff_iff]
      simp
    · rw [beq_false_of_ne he, Bool.false_and, Bool.false_and, Bool.false_and]
  · dsimp only
    by_cases hend : number = maxNumber - 1
    · -- the number after the last one is negative
      subst hend
      refine ⟨none, root, rfl, .refl h.toSlots, fun j hj => ?_⟩
      have hle : ¬(maxNumber : Int) - 1 < j := by omega
      dsimp only
      rw [decide_eq_false hle, Bool.and_false, Bool.false_and]
    · obtain ⟨start, hstart⟩ : ∃ start : Nat, number + 1 = start := ⟨(number + 1).toNat, by omega⟩
      have hslong : slong (number + 1) = start := by
        simp only [maxNumber] at high hend
        rw [slong]
        omega
      have hmod := Nat.mod_lt start bitsBucket_pos
      have hslot : ((start : Int) / (bitsBucket : Int)).toNat = start / bitsBucket := by
        rw [← Int.natCast_ediv, Int.toNat_natCast]
      have hpos : ¬(start : Int) / (bitsBucket : Int) < 0 := by
        rw [← Int.natCast_ediv]
        omega
      have hne : ¬(start : Int) = -1 := by omega
      simp only [hslong, if_neg hne, if_neg hpos, hslot, ← Int.natCast_emod]
      have hnumber (m : Nat) : start ≤ m ↔ number < m := by omega
      have hnext (m : Nat) : m = start ↔ (m : Int) = number + 1 := by omega
      by_cases hzero : start % bitsBucket = 0
      · have hdiv := Nat.div_add_mod' start bitsBucket
        obtain ⟨r, root', hslots, hkept, hfirst⟩ := slotsUp_spec bucket_searchesUp
          bitsBucket_pos visibleUp_whole h.toSlots (start / bitsBucket) (-1) true (by omega)
          (by omega) (fun _ s j _ => visibleUp_whole s j) root_slots_within
        refine ⟨r, root', by rw [hzero]; exact hslots, hkept, hfirst.congr fun m hm => ?_⟩
        rw [membersUp_whole, SbmRoot.mem, Sbm.mem_plural hplural]
        have hslot' : start / bitsBucket * bitsBucket ≤ m ↔ number < m := by
          rw [← hnumber]
          omega
        have hout : ¬((m : Int) = number + 1 ∧ m % bitsBucket ≠ 0) := by
          rw [← hnext]
          rintro ⟨rfl, hm⟩
          exact hm hzero
        rw [decide_eq_false hout, Bool.and_false, Bool.not_false, Bool.and_true]
        simp only [hslot']
      · have hzero' : ¬((start % bitsBucket : Nat) : Int) = 0 := by omega
        have hbegin : (((start % bitsBucket : Nat) : Int) == -1) = false := by
          refine beq_false_of_ne ?_
          omega
        rw [if_neg hzero', hbegin]
        obtain ⟨r, root', hslots, hkept, hfirst⟩ := slotsUp_spec bucket_searchesUp
          bitsBucket_pos visibleUp_whole h.toSlots (start / bitsBucket) (start % bitsBucket : Nat)
          false (by omega) (by omega) (fun hgc => Bool.noConfusion hgc) root_slots_within
        refine ⟨r, root', hslots, hkept, hfirst.congr fun m hm => ?_⟩
        rw [membersUp_from bitsBucket_pos, SbmRoot.mem, Sbm.mem_plural hplural,
          SbmRoot.lone_plural hplural]
        have hin : m = start ↔ (m : Int) = number + 1 ∧ m % bitsBucket ≠ 0 := by
          rw [← hnext]
          constructor
          · rintro rfl
            exact ⟨rfl, hzero⟩
          · exact fun hm => hm.1
        simp only [hnumber, ← hin]

theorem SbmRoot.mem_covered (h : root.Sound) (plural : root.sbmState = .plural) {k : Nat}
    (hk : root.mem k = true) : k / bitsBucket ≤ root.sbmHighWater := by
  rw [SbmRoot.mem, Sbm.mem_plural plural] at hk
  by_contra habove
  rw [slotsHold, h.slot_above (Nat.not_le.mp habove)] at hk
  cases hk

theorem rootNext_backward (h : root.Sound)
    (start : number = -1 ∨ ∃ k : Nat, number = k ∧ root.mem k = true) :
    ∃ r root', rootNext .backward root number = some (r, root') ∧ root'.Sound ∧
      root.Kept bitsBucket 1 65536 SbmBucket.Sound SbmBucket.mem Sbm.single root' ∧
      Last (fun m => root.mem m && decide (number = -1 ∨ m < number) &&
        !(root.lone m && decide ((m : Int) + 1 = number))) maxNumber r := by
  refine mapNext_kept Sbm.single Last _ h (fun hempty j hj => ?_) (fun hsingular => ?_)
    fun hplural => ?_
  · rw [SbmRoot.mem, Sbm.mem_empty hempty, Bool.false_and, Bool.false_and]
  · rw [ended_backward]
    refine Last.only h.number fun j hj => ?_
    rw [SbmRoot.mem, Sbm.mem_singular hsingular, SbmRoot.lone, hsingular]
    by_cases he : j = root.sbmNumber
    · subst he
      rw [Bool.eq_iff_iff]
      simp
      omega
    · rw [beq_false_of_ne he, Bool.false_and, Bool.false_and, Bool.false_and]
  · dsimp only
    rcases start with rfl | ⟨k, rfl, hk⟩
    · obtain ⟨r, root', hslots, hkept, hlast⟩ := slotsDown_spec bucket_searchesDown
        bitsBucket_pos visibleDown_whole h.toSlots root.sbmHighWater (-1) (by omega) (by omega)
        h.high root_slots_within
      refine ⟨r, root', ?_, hkept, hlast.congr fun m hm => ?_⟩
      · have hnot : ¬((root.sbmHighWater : Int) < 0 ∨ (root.sbmHighWater : Int) < root.sbmHighWater) := by
          omega
        have hzero : ¬(-1 : Int) = 0 := by omega
        have hpos : ¬(0 : Int) < -1 := by omega
        simp only [if_neg hzero, if_neg hpos, if_neg hnot, if_true, Int.toNat_natCast]
        exact hslots
      · have hout : ¬(m : Int) + 1 = -1 := by omega
        rw [membersDown_whole, SbmRoot.mem, Sbm.mem_plural hplural, decide_eq_false hout]
        by_cases hle : m < root.sbmHighWater * bitsBucket + bitsBucket
        · simp [hle]
        · rw [h.toSlots.hold_above bitsBucket_pos (Nat.not_lt.mp hle), Bool.false_and,
            Bool.false_and, Bool.false_and]
    · have hcovered := SbmRoot.mem_covered h hplural hk
      cases k with
      | zero =>
        refine ⟨none, root, rfl, .refl h.toSlots, fun m hm => ?_⟩
        have hout : ¬(((0 : Nat) : Int) = -1 ∨ (m : Int) < (0 : Nat)) := by omega
        dsimp only
        rw [decide_eq_false hout, Bool.and_false, Bool.false_and]
      | succ k =>
        have hslot : k / bitsBucket ≤ root.sbmHighWater :=
          Nat.le_trans (Nat.div_le_div_right (Nat.le_succ k)) hcovered
        have hmod := Nat.mod_lt k bitsBucket_pos
        obtain ⟨r, root', hslots, hkept, hlast⟩ := slotsDown_spec bucket_searchesDown
          bitsBucket_pos visibleDown_whole h.toSlots (k / bitsBucket) (k % bitsBucket : Nat)
          (by omega) (by omega) (Nat.lt_of_le_of_lt hslot h.high) root_slots_within
        refine ⟨r, root', ?_, hkept, hlast.congr fun m hm => ?_⟩
        · have hpred : ((k + 1 : Nat) : Int) - 1 = k := by omega
          have hinside : ¬((k : Int) / (bitsBucket : Int) < 0 ∨
              (root.sbmHighWater : Int) < k / (bitsBucket : Int)) := by
            have hle : (k : Int) / (bitsBucket : Int) ≤ root.sbmHighWater := by exact_mod_cast hslot
            have hnonneg : 0 ≤ (k : Int) / (bitsBucket : Int) :=
              Int.ediv_nonneg (by omega) (by omega)
            omega
          have hdiv : ((k : Int) / (bitsBucket : Int)).toNat = k / bitsBucket := by
            rw [← Int.natCast_ediv, Int.toNat_natCast]
          have hzero : ¬((k + 1 : Nat) : Int) = 0 := by omega
          have hpos : (0 : Int) < (k + 1 : Nat) := by omega
          have hend : ¬(k : Int) = -1 := by omega
          simp only [if_neg hzero, if_pos hpos, hpred, if_neg hend, if_neg hinside, hdiv,
            ← Int.natCast_emod]
          exact hslots
        · rw [membersDown_from bitsBucket_pos, SbmRoot.mem, Sbm.mem_plural hplural,
            SbmRoot.lone_plural hplural]
          have hle : m ≤ k ↔ ((k + 1 : Nat) : Int) = -1 ∨ (m : Int) < (k + 1 : Nat) := by omega
          have heq : m = k ↔ (m : Int) + 1 = (k + 1 : Nat) := by omega
          simp only [hle, heq]

end

end InterBase
