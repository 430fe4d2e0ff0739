import InterBase.SortQuick

namespace InterBase

open Intervals

/-- What is left to do for the intervals on the stack. -/
def weight : List (Nat × Nat) → Nat
  | [] => 0
  | (r, j) :: stack => 2 * (j + 1 - r) + 1 + weight stack

/-- Every interval is at most half as long as the one below it may be. -/
def Halving (n : Nat) : List (Nat × Nat) → Prop
  | [] => True
  | (r, j) :: stack => (j + 1 - r) * 2 ^ stack.length ≤ n ∧ Halving n stack

section

variable (scb : Scb)

structure QuickInv (q : Quick) : Prop where
  valid : q.memory.Valid scb
  inside : ∀ I ∈ q.stack, 1 ≤ I.1 ∧ I.2 ≤ scb.scbRecords ∧ I.1 ≤ I.2 + 1
  halving : Halving scb.scbRecords q.stack
  settled : ∃ deferred, Narrow deferred ∧ Apart (q.stack ++ deferred) ∧
    Settled (q.memory.key scb) scb.scbRecords (q.stack ++ deferred)

/-- The next interval is to be partitioned around a record that `high_key` does not stop. -/
def Stuck (q : Quick) : Prop :=
  ∃ r j stack, q.stack = (r, j) :: stack ∧ r + 2 ≤ j ∧ Unguarded scb q.memory (middle r j)

variable {scb} {s : SortMemory} {q : Quick}

theorem quickStart_inv (valid : s.Valid scb) : QuickInv scb (quickStart scb s) := by
  refine ⟨valid, ?_, ?_, [], ?_, ?_, ?_⟩
  · intro I mem
    obtain rfl : I = (1, scb.scbRecords) := by simpa [quickStart] using mem
    simp only
    omega
  · unfold quickStart Halving Halving
    simp
  · intro I mem
    cases mem
  · exact List.pairwise_singleton _ _
  · intro x y low lt high
    exact .inr ⟨(1, scb.scbRecords), by simp [quickStart], low, high⟩

theorem QuickInv.between {r j : Nat} {stack : List (Nat × Nat)} (inv : QuickInv scb q)
    (top : q.stack = (r, j) :: stack) : Between scb q.memory r j := by
  obtain ⟨low, high, -⟩ := inv.inside (r, j) (by simp [top])
  obtain ⟨deferred, -, apart, settled⟩ := inv.settled
  rw [top] at apart settled
  obtain ⟨others, -⟩ := List.pairwise_cons.mp apart
  -- No interval covers both a slot of the one on top and a slot outside of it.
  have ordered : ∀ x y, 1 ≤ x → x < y → y ≤ scb.scbRecords → ¬(r ≤ x ∧ y ≤ j) →
      (r ≤ x ∧ x ≤ j ∨ r ≤ y ∧ y ≤ j) → q.memory.key scb x ≤ q.memory.key scb y := by
    intro x y lowX lt highY apart here
    rcases settled x y lowX lt highY with le | ⟨I, mem, covers⟩
    · exact le
    · rcases List.mem_cons.mp mem with rfl | mem
      · exact absurd covers apart
      · have := others I mem
        simp only at this
        omega
  refine ⟨low, high, fun x y lowX lt lowY highY => ?_, fun x y gt highX lowY highY => ?_⟩
  · exact not_lt.mpr (ordered x y lowX (by omega) (by simp only at high; omega) (by omega) (by omega))
  · exact not_lt.mpr (ordered y x (by simp only at low; omega) (by omega) highX (by omega) (by omega))

theorem Halving.half {n size rest : Nat} (h : size * 2 ^ rest ≤ n) {part : Nat}
    (half : 2 * part ≤ size) : part * 2 ^ (rest + 1) ≤ n := by
  calc part * 2 ^ (rest + 1) = 2 * part * 2 ^ rest := by rw [pow_succ]; ring
    _ ≤ size * 2 ^ rest := Nat.mul_le_mul_right _ half
    _ ≤ n := h

theorem Halving.less {n size rest : Nat} (h : size * 2 ^ rest ≤ n) {part : Nat}
    (le : part ≤ size) : part * 2 ^ rest ≤ n :=
  (Nat.mul_le_mul_right _ le).trans h

theorem pushIntervals_halving {n r k j : Nat} {stack : List (Nat × Nat)} (hr : r ≤ k) (hj : k ≤ j)
    (halving : Halving n ((r, j) :: stack)) (pos : 1 ≤ r) :
    Halving n (pushIntervals r k j stack) := by
  obtain ⟨size, rest⟩ := halving
  unfold pushIntervals
  by_cases left : k - r > j - k + 1
  · rw [if_pos left]
    exact ⟨Halving.half size (by omega), Halving.less size (by omega), rest⟩
  · rw [if_neg left]
    exact ⟨Halving.half size (by omega), Halving.less size (by omega), rest⟩

theorem pushIntervals_perm (r k j : Nat) (stack : List (Nat × Nat)) :
    (pushIntervals r k j stack).Perm ((r, k - 1) :: (k + 1, j) :: stack) := by
  unfold pushIntervals
  by_cases left : k - r > j - k + 1
  · rw [if_pos left]
    exact List.Perm.swap _ _ _
  · rw [if_neg left]

theorem length_pushIntervals (r k j : Nat) (stack : List (Nat × Nat)) :
    (pushIntervals r k j stack).length = stack.length + 2 :=
  (pushIntervals_perm r k j stack).length_eq

theorem weight_pushIntervals {r k j : Nat} (stack : List (Nat × Nat)) (hr : r ≤ k) (hj : k ≤ j)
    (pos : 1 ≤ r) : weight (pushIntervals r k j stack) < weight ((r, j) :: stack) := by
  unfold pushIntervals
  by_cases left : k - r > j - k + 1
  · rw [if_pos left]
    simp only [weight]
    omega
  · rw [if_neg left]
    simp only [weight]
    omega

/-- An interval of three records or more leaves room for its halves. -/
theorem Halving.room {n r j : Nat} {stack : List (Nat × Nat)} (sized : n < 2147483648)
    (halving : Halving n ((r, j) :: stack)) (wide : r + 2 ≤ j) : stack.length + 2 ≤ 50 := by
  by_contra deep
  have size : 3 * 2 ^ stack.length ≤ n :=
    (Nat.mul_le_mul_right _ (by omega : 3 ≤ j + 1 - r)).trans halving.1
  have : 2 ^ 31 ≤ 2 ^ stack.length := Nat.pow_le_pow_right (by omega) (by omega)
  omega

/-- Two records or less are left to the final pass. -/
theorem QuickInv.defer {r j : Nat} {stack : List (Nat × Nat)} (inv : QuickInv scb q)
    (top : q.stack = (r, j) :: stack) (narrow : j < r + 2) : QuickInv scb ⟨stack, q.memory⟩ := by
  obtain ⟨deferred, small, apart, settled⟩ := inv.settled
  have inside := inv.inside
  have halving := inv.halving
  rw [top] at apart settled inside halving
  have moved : ((r, j) :: stack ++ deferred).Perm (stack ++ (r, j) :: deferred) := by
    rw [List.cons_append]
    exact List.perm_middle.symm
  refine ⟨inv.valid, fun I mem => inside I (by simp [mem]), halving.2, (r, j) :: deferred, ?_, ?_, ?_⟩
  · intro I mem
    rcases List.mem_cons.mp mem with rfl | mem
    · simp only
      omega
    · exact small I mem
  · exact (moved.pairwise_iff fun h => h.symm).mp apart
  · exact settled.perm fun I mem => moved.subset mem

theorem QuickInv.push {r k j : Nat} {stack : List (Nat × Nat)} {s' : SortMemory}
    (inv : QuickInv scb q) (top : q.stack = (r, j) :: stack)
    (partitioned : Partitioned scb q.memory s' r k j) :
    QuickInv scb ⟨pushIntervals r k j stack, s'⟩ := by
  obtain ⟨deferred, small, apart, settled⟩ := inv.settled
  have inside := inv.inside
  have halving := inv.halving
  rw [top] at apart settled inside halving
  obtain ⟨low, high, -⟩ := inside (r, j) (by simp)
  have hr := partitioned.low
  have hj := partitioned.high
  have order : (pushIntervals r k j stack ++ deferred).Perm
      ((r, k - 1) :: (k + 1, j) :: (stack ++ deferred)) :=
    (pushIntervals_perm r k j stack).append_right deferred
  refine ⟨partitioned.valid, fun I mem => ?_, pushIntervals_halving hr hj halving low, deferred, small,
    ?_, ?_⟩
  · have mem := (pushIntervals_perm r k j stack).subset mem
    simp only at low high
    rcases List.mem_cons.mp mem with rfl | mem
    · simp only
      omega
    · rcases List.mem_cons.mp mem with rfl | mem
      · simp only
        omega
      · exact inside I (by simp [mem])
  · exact (order.pairwise_iff fun h => h.symm).mpr (Apart.split apart low hr hj)
  · exact (settled.split apart partitioned.moved low high partitioned.below partitioned.above).perm
      fun I mem => order.symm.subset mem

/-- A round of the loop that partitions the interval on top. -/
theorem quickStep_partition (sized : scb.Sized) (inv : QuickInv scb q) (free : ¬Stuck scb q)
    {r j : Nat} {stack : List (Nat × Nat)} (top : q.stack = (r, j) :: stack) (wide : r + 2 ≤ j) :
    ∃ k s', quickStep scb q = .ok ⟨pushIntervals r k j stack, s'⟩ ∧
      Partitioned scb q.memory s' r k j := by
  have guarded : ¬Unguarded scb q.memory (middle r j) :=
    fun unguarded => free ⟨r, j, stack, top, wide, unguarded⟩
  obtain ⟨k, s', eq, partitioned⟩ := partition_spec inv.valid sized (inv.between top) wide guarded
  have room : (pushIntervals r k j stack).length ≤ 50 := by
    have halving := inv.halving
    rw [top] at halving
    rw [length_pushIntervals]
    exact halving.room sized.records wide
  refine ⟨k, s', ?_, partitioned⟩
  unfold quickStep
  rw [top]
  simp only
  rw [if_neg (by omega), eq, ok_bind, if_pos room]
  rfl

/-- One round of the loop: it goes wrong only where it is stuck. -/
theorem quickStep_spec (sized : scb.Sized) (inv : QuickInv scb q) (free : ¬Stuck scb q)
    (more : q.stack ≠ []) :
    ∃ q', quickStep scb q = .ok q' ∧ QuickInv scb q' ∧ q'.memory.records = q.memory.records ∧
      weight q'.stack < weight q.stack := by
  obtain ⟨⟨r, j⟩, stack, top⟩ := List.exists_cons_of_ne_nil more
  by_cases narrow : j < r + 2
  · refine ⟨⟨stack, q.memory⟩, ?_, inv.defer top narrow, rfl, ?_⟩
    · unfold quickStep
      rw [top]
      exact if_pos narrow
    · rw [top]
      simp only [weight]
      omega
  · obtain ⟨k, s', step, partitioned⟩ := quickStep_partition sized inv free top (by omega)
    refine ⟨_, step, inv.push top partitioned, partitioned.records, ?_⟩
    rw [top]
    exact weight_pushIntervals stack partitioned.low partitioned.high (inv.between top).low

theorem quickStep_stuck (sized : scb.Sized) (inv : QuickInv scb q) (stuck : Stuck scb q) :
    quickStep scb q = .error .outside := by
  obtain ⟨r, j, stack, top, wide, unguarded⟩ := stuck
  unfold quickStep
  rw [top]
  simp only
  rw [if_neg (by omega), partition_outside inv.valid sized (inv.between top) wide unguarded]
  rfl

theorem weight_quickStart (s : SortMemory) :
    weight (quickStart scb s).stack < 2 * scb.scbRecords + 2 := by
  unfold quickStart
  simp [weight]

end

end InterBase
