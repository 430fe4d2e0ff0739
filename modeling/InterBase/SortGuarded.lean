import Mathlib.Data.Finset.Card
import Mathlib.Order.Interval.Finset.Nat
import InterBase.SortRun

namespace InterBase

open Intervals

section

variable {scb : Scb} {s s' : SortMemory} {q q' : Quick}

theorem SortMemory.Valid.inj (valid : s.Valid scb) {x y id : Nat} (lowX : 1 ≤ x)
    (highX : x ≤ scb.scbRecords) (lowY : 1 ≤ y) (highY : y ≤ scb.scbRecords)
    (hx : s.pointers x = some id) (hy : s.pointers y = some id) : x = y := by
  obtain ⟨p, -, -, points, back⟩ := valid.points x lowX highX
  obtain ⟨q, -, -, points', back'⟩ := valid.points y lowY highY
  rw [hx] at points
  rw [hy] at points'
  rw [← Option.some.inj points] at back
  rw [← Option.some.inj points', back] at back'
  exact Option.some.inj back'

/-- No record is left out: there are as many slots as records. -/
theorem SortMemory.Valid.surj (valid : s.Valid scb) {id : Nat} (low : 1 ≤ id)
    (high : id ≤ scb.scbRecords) :
    ∃ x, 1 ≤ x ∧ x ≤ scb.scbRecords ∧ s.pointers x = some id := by
  have maps : Set.MapsTo (fun x => (s.pointers x).getD 0) (Finset.Icc 1 scb.scbRecords)
      (Finset.Icc 1 scb.scbRecords) := by
    intro x mem
    obtain ⟨lowX, highX⟩ := Finset.mem_Icc.mp mem
    obtain ⟨p, lowP, highP, points, -⟩ := valid.points x lowX highX
    simp only [points, Option.getD_some]
    exact Finset.mem_coe.mpr (Finset.mem_Icc.mpr ⟨lowP, highP⟩)
  have inj : Set.InjOn (fun x => (s.pointers x).getD 0) (Finset.Icc 1 scb.scbRecords) := by
    intro x memX y memY same
    obtain ⟨lowX, highX⟩ := Finset.mem_Icc.mp memX
    obtain ⟨lowY, highY⟩ := Finset.mem_Icc.mp memY
    obtain ⟨p, -, -, pointsX, -⟩ := valid.points x lowX highX
    obtain ⟨q, -, -, pointsY, -⟩ := valid.points y lowY highY
    simp only [pointsX, pointsY, Option.getD_some] at same
    exact valid.inj lowX highX lowY highY pointsX (same ▸ pointsY)
  obtain ⟨x, mem, eq⟩ := Finset.surjOn_of_injOn_of_card_le _ maps inj (Nat.le_refl _)
    (Finset.mem_coe.mpr (Finset.mem_Icc.mpr ⟨low, high⟩))
  obtain ⟨lowX, highX⟩ := Finset.mem_Icc.mp mem
  obtain ⟨p, -, -, points, -⟩ := valid.points x lowX highX
  simp only [points, Option.getD_some] at eq
  exact ⟨x, lowX, highX, eq ▸ points⟩

theorem SortMemory.key_some {x id : Nat} (points : s.pointers x = some id) :
    s.key scb x = s.words scb id := by
  unfold SortMemory.key
  rw [points]
  rfl

theorem words_congr {s s' : SortMemory} (same : s'.records = s.records) (id : Nat) :
    s'.words scb id = s.words scb id := by
  unfold SortMemory.words
  rw [same]

/-- The keys in the slots from `i` up to `j`, without `j`. -/
def SortMemory.keys (scb : Scb) (s : SortMemory) (i j : Nat) : List (List Nat) :=
  values (s.key scb) i j

/-- The same records are pointed to, wherever. -/
theorem SortMemory.Valid.key_moved (valid : s.Valid scb) (valid' : s'.Valid scb)
    (same : s'.records = s.records) {x : Nat} (low : 1 ≤ x) (high : x ≤ scb.scbRecords) :
    ∃ y, 1 ≤ y ∧ y ≤ scb.scbRecords ∧ s'.key scb y = s.key scb x := by
  obtain ⟨id, lowI, highI, points, -⟩ := valid.points x low high
  obtain ⟨y, lowY, highY, points'⟩ := valid'.surj lowI highI
  refine ⟨y, lowY, highY, ?_⟩
  rw [SortMemory.key_some points', SortMemory.key_some points, words_congr same]

theorem Unguarded.moved (valid : s.Valid scb) (valid' : s'.Valid scb)
    (same : s'.records = s.records) {x y : Nat} (key : s'.key scb y = s.key scb x)
    (h : Unguarded scb s' y) : Unguarded scb s x := by
  refine ⟨key ▸ h.1, fun z low high lt => ?_⟩
  obtain ⟨z', low', high', eq⟩ := valid.key_moved valid' same low high
  exact h.2 z' low' high' (by rw [eq, key]; exact lt)

/-- An interval that does not reach to the last slot holds no record that `high_key` would have to
stop: such a record is behind every partition record that went well. -/
def LastOnly (scb : Scb) (q : Quick) : Prop :=
  ∀ I ∈ q.stack, I.2 < scb.scbRecords → ∀ x, I.1 ≤ x → x ≤ I.2 → ¬Unguarded scb q.memory x

/-- The interval that reaches to the last slot will be partitioned without going beyond `high_key`. -/
def Clear (scb : Scb) (q : Quick) : Prop :=
  ∀ I ∈ q.stack, I.2 = scb.scbRecords →
    Partition.Guarded AllOnes (q.memory.keys scb I.1 (scb.scbRecords + 1))

theorem guarded_keys {r : Nat} (wide : r + 2 ≤ scb.scbRecords) :
    Partition.Guarded AllOnes (s.keys scb r (scb.scbRecords + 1)) ↔
      (AllOnes (s.key scb (middle r scb.scbRecords)) →
        ∃ y ∈ s.keys scb r (scb.scbRecords + 1), s.key scb (middle r scb.scbRecords) < y) ∧
      Partition.Guarded AllOnes (Partition.behind (s.key scb (middle r scb.scbRecords))
        ((values (s.key scb) (r + 1) (scb.scbRecords + 1)).set ((scb.scbRecords - r) / 2 - 1)
          (s.key scb r))) := by
  have size : (values (s.key scb) (r + 1) (scb.scbRecords + 1)).length = scb.scbRecords - r := by
    rw [length_values, Nat.add_sub_add_right]
  have inside : (values (s.key scb) (r + 1) (scb.scbRecords + 1))[(scb.scbRecords - r) / 2 - 1]? =
      some (s.key scb (middle r scb.scbRecords)) := by
    rw [getElem?_values _ (by omega), middle,
      show r + 1 + ((scb.scbRecords - r) / 2 - 1) = r + (scb.scbRecords - r) / 2 by omega]
  rw [← size] at inside ⊢
  unfold SortMemory.keys
  rw [values_cons (i := r) (by omega)]
  exact Partition.guarded_cons (by omega) inside

/-- The records behind the middle one of the last interval are what is left to partition of it. -/
theorem Partitioned.guarded {r k : Nat} (h : Partitioned scb s s' r k scb.scbRecords)
    (between : Between scb s r scb.scbRecords) (wide : r + 2 ≤ scb.scbRecords)
    (guarded : ¬Unguarded scb s (middle r scb.scbRecords)) :
    Partition.Guarded AllOnes (s.keys scb r (scb.scbRecords + 1)) ↔
      Partition.Guarded AllOnes (s'.keys scb (k + 1) (scb.scbRecords + 1)) := by
  obtain ⟨lowM, highM⟩ := middle_between wide
  have found : AllOnes (s.key scb (middle r scb.scbRecords)) →
      ∃ y ∈ s.keys scb r (scb.scbRecords + 1), s.key scb (middle r scb.scbRecords) < y := by
    intro ones
    unfold Unguarded at guarded
    push Not at guarded
    obtain ⟨x, lowX, highX, lt⟩ := guarded ones
    refine ⟨s.key scb x, mem_values.mpr ⟨x, ?_, by omega, rfl⟩, lt⟩
    by_contra early
    exact between.below x (middle r scb.scbRecords) lowX (by omega) (by omega) highM lt
  rw [guarded_keys wide, ← h.behind]
  exact and_iff_right found

theorem LastOnly.free (last : LastOnly scb q) (inv : QuickInv scb q) (clear : Clear scb q) :
    ¬Stuck scb q := by
  rintro ⟨r, j, stack, top, wide, unguarded⟩
  obtain ⟨lowM, highM⟩ := middle_between wide
  have mem : (r, j) ∈ q.stack := by rw [top]; exact List.mem_cons_self
  have between := inv.between top
  rcases Nat.lt_or_eq_of_le between.high with lt | rfl
  · exact last (r, j) mem lt (middle r j) lowM.le highM unguarded
  · obtain ⟨found, -⟩ := (guarded_keys wide).mp (clear _ mem rfl)
    obtain ⟨y, memY, lt⟩ := found unguarded.1
    obtain ⟨x, lowX, highX, rfl⟩ := mem_values.mp memY
    have low := between.low
    exact unguarded.2 x (by omega) (by omega) lt

theorem LastOnly.defer {r j : Nat} {stack : List (Nat × Nat)} (last : LastOnly scb q)
    (top : q.stack = (r, j) :: stack) : LastOnly scb ⟨stack, q.memory⟩ :=
  fun I mem => last I (by rw [top]; exact List.mem_cons_of_mem _ mem)

theorem Clear.defer {r j : Nat} {stack : List (Nat × Nat)} (top : q.stack = (r, j) :: stack)
    (narrow : j < r + 2) : Clear scb q ↔ Clear scb ⟨stack, q.memory⟩ := by
  unfold Clear
  rw [top, List.forall_mem_cons]
  refine and_iff_right fun reaches => Partition.guarded_short ?_
  simp only at reaches ⊢
  rw [SortMemory.keys, length_values]
  omega

theorem QuickInv.others {r j : Nat} {stack : List (Nat × Nat)} (inv : QuickInv scb q)
    (top : q.stack = (r, j) :: stack) {I : Nat × Nat} (mem : I ∈ stack) : j < I.1 ∨ I.2 < r := by
  obtain ⟨deferred, -, apart, -⟩ := inv.settled
  rw [top] at apart
  exact (List.pairwise_cons.mp apart).1 I (List.mem_append_left _ mem)

theorem LastOnly.push {r k j : Nat} {stack : List (Nat × Nat)} (last : LastOnly scb q)
    (inv : QuickInv scb q) (top : q.stack = (r, j) :: stack) (free : ¬Stuck scb q) (wide : r + 2 ≤ j)
    (partitioned : Partitioned scb q.memory s' r k j) :
    LastOnly scb ⟨pushIntervals r k j stack, s'⟩ := by
  have between := inv.between top
  have low := between.low
  have high := between.high
  have lowK := partitioned.low
  have highK := partitioned.high
  have valid := partitioned.valid
  have moved {x y : Nat} (key : s'.key scb y = q.memory.key scb x) (h : Unguarded scb s' y) :
      Unguarded scb q.memory x := h.moved inv.valid valid partitioned.records key
  intro I mem lt x lowX highX unguarded
  simp only at mem unguarded
  rcases List.mem_cons.mp ((pushIntervals_perm r k j stack).subset mem) with rfl | mem
  · -- The middle record is not in front of such a record, so it would be one itself.
    simp only at lowX highX
    have le := partitioned.below x lowX (by omega)
    obtain ⟨-, -, -, -, -, lengthX, -⟩ := valid.key_eq (i := x) (by omega) (by omega)
    obtain ⟨-, -, -, -, -, lengthK, longK⟩ := valid.key_eq (i := k) (by omega) (by omega)
    have ones : AllOnes (s'.key scb k) :=
      unguarded.1.mono (not_lt.mpr le) (lengthX.trans lengthK.symm) longK
    have stuck : Unguarded scb s' k :=
      ⟨ones, fun z lowZ highZ lt => unguarded.2 z lowZ highZ (lt_of_le_of_lt le lt)⟩
    exact free ⟨r, j, stack, top, wide, moved partitioned.pivot stuck⟩
  · rcases List.mem_cons.mp mem with rfl | mem
    · simp only at lt lowX highX
      obtain ⟨y, lowY, highY, eq⟩ := partitioned.moved.inside x (by omega) highX
      exact last (r, j) (by rw [top]; exact List.mem_cons_self) lt y lowY highY (moved eq unguarded)
    · have apart := inv.others top mem
      have outside := partitioned.moved.outside x (by omega)
      exact last I (by rw [top]; exact List.mem_cons_of_mem _ mem) lt x lowX highX
        (moved outside unguarded)

theorem Clear.push {r k j : Nat} {stack : List (Nat × Nat)} (inv : QuickInv scb q)
    (top : q.stack = (r, j) :: stack) (free : ¬Stuck scb q) (wide : r + 2 ≤ j)
    (partitioned : Partitioned scb q.memory s' r k j) :
    Clear scb q ↔ Clear scb ⟨pushIntervals r k j stack, s'⟩ := by
  have between := inv.between top
  have low := between.low
  have high := between.high
  have lowK := partitioned.low
  have highK := partitioned.high
  have split : Clear scb ⟨pushIntervals r k j stack, s'⟩ ↔
      ∀ I ∈ (r, k - 1) :: (k + 1, j) :: stack, I.2 = scb.scbRecords →
        Partition.Guarded AllOnes (s'.keys scb I.1 (scb.scbRecords + 1)) :=
    forall_congr' fun I => by rw [(pushIntervals_perm r k j stack).mem_iff]
  have front : k - 1 = scb.scbRecords →
      Partition.Guarded AllOnes (s'.keys scb r (scb.scbRecords + 1)) := fun eq => by omega
  have here : (j = scb.scbRecords →
      Partition.Guarded AllOnes (q.memory.keys scb r (scb.scbRecords + 1))) ↔
      (j = scb.scbRecords →
        Partition.Guarded AllOnes (s'.keys scb (k + 1) (scb.scbRecords + 1))) := by
    refine imp_congr_right fun reaches => ?_
    subst reaches
    exact partitioned.guarded between wide fun unguarded => free ⟨r, _, stack, top, wide, unguarded⟩
  have rest : ∀ I ∈ stack, I.2 = scb.scbRecords →
      q.memory.keys scb I.1 (scb.scbRecords + 1) = s'.keys scb I.1 (scb.scbRecords + 1) := by
    intro I mem reaches
    have apart := inv.others top mem
    exact values_congr fun x lowX _ => (partitioned.moved.outside x (by omega)).symm
  rw [split, Clear, top, List.forall_mem_cons, List.forall_mem_cons, List.forall_mem_cons]
  refine (and_congr here (forall₂_congr fun I mem => forall_congr' fun reaches => ?_)).trans
    (and_iff_right front).symm
  rw [rest I mem reaches]

theorem lastOnly_start (s : SortMemory) : LastOnly scb (quickStart scb s) := by
  intro I mem lt
  obtain rfl := List.mem_singleton.mp mem
  exact absurd lt (Nat.lt_irrefl _)

theorem clear_start (s : SortMemory) : Clear scb (quickStart scb s) ↔
    Partition.Guarded AllOnes (s.keys scb 1 (scb.scbRecords + 1)) := by
  unfold Clear
  simp [quickStart]

/-- A round of the loop keeps to what will become of the last interval. -/
theorem quickStep_clear (sized : scb.Sized) (inv : QuickInv scb q) (last : LastOnly scb q)
    (free : ¬Stuck scb q) (more : q.stack ≠ []) (step : quickStep scb q = .ok q') :
    LastOnly scb q' ∧ (Clear scb q ↔ Clear scb q') := by
  obtain ⟨⟨r, j⟩, stack, top⟩ := List.exists_cons_of_ne_nil more
  by_cases narrow : j < r + 2
  · have deferred : quickStep scb q = .ok ⟨stack, q.memory⟩ := by
      unfold quickStep
      rw [top]
      exact if_pos narrow
    obtain rfl := Except.ok.inj (deferred.symm.trans step)
    exact ⟨last.defer top, Clear.defer top narrow⟩
  · obtain ⟨k, s', partition, partitioned⟩ := quickStep_partition sized inv free top (by omega)
    obtain rfl := Except.ok.inj (partition.symm.trans step)
    exact ⟨last.push inv top free (by omega) partitioned,
      Clear.push inv top free (by omega) partitioned⟩

theorem quickLoop_spec (sized : scb.Sized) (left : Nat) (inv : QuickInv scb q)
    (room : weight q.stack < left) (last : LastOnly scb q) (clear : Clear scb q) :
    ∃ q', quickLoop scb left q = .ok q'.memory ∧ QuickInv scb q' ∧ q'.stack = [] ∧
      q'.memory.records = q.memory.records := by
  induction left generalizing q with
  | zero => omega
  | succ left ih =>
    unfold quickLoop
    by_cases done : q.stack = []
    · exact ⟨q, if_pos done, inv, done, rfl⟩
    · have free := last.free inv clear
      obtain ⟨q1, step, inv1, records1, less⟩ := quickStep_spec sized inv free done
      obtain ⟨last1, clear1⟩ := quickStep_clear sized inv last free done step
      obtain ⟨q', eq, inv', done', records'⟩ := ih inv1 (by omega) last1 (clear1.mp clear)
      rw [if_neg done, step, ok_bind]
      exact ⟨q', eq, inv', done', records'.trans records1⟩

theorem quickLoop_outside (sized : scb.Sized) (left : Nat) (inv : QuickInv scb q)
    (room : weight q.stack < left) (last : LastOnly scb q) (beyond : ¬Clear scb q) :
    quickLoop scb left q = .error .outside := by
  induction left generalizing q with
  | zero => omega
  | succ left ih =>
    unfold quickLoop
    have more : q.stack ≠ [] := by
      intro done
      refine beyond fun I mem => ?_
      rw [done] at mem
      cases mem
    rw [if_neg more]
    by_cases now : Stuck scb q
    · rw [quickStep_stuck sized inv now]
      rfl
    · obtain ⟨q1, step, inv1, -, less⟩ := quickStep_spec sized inv now more
      obtain ⟨last1, clear1⟩ := quickStep_clear sized inv last now more step
      rw [step, ok_bind]
      exact ih inv1 (by omega) last1 fun clear => beyond (clear1.mpr clear)

end

end InterBase
