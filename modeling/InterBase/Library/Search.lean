import Mathlib

/- Searches for the first or the last number with a property, one block of numbers after the
other. -/

namespace Search

variable {p q : Nat → Bool} {a size bound : Nat}

/-- The outcome of a search upwards through the numbers below `bound`. -/
def First (p : Nat → Bool) (bound : Nat) : Option Nat → Prop
  | none => ∀ j < bound, p j = false
  | some k => k < bound ∧ p k = true ∧ ∀ j < k, p j = false

/-- The outcome of a search downwards through the numbers below `bound`. -/
def Last (p : Nat → Bool) (bound : Nat) : Option Nat → Prop
  | none => ∀ j < bound, p j = false
  | some k => k < bound ∧ p k = true ∧ ∀ j, k < j → j < bound → p j = false

theorem First.congr {r : Option Nat} (h : First p bound r) (same : ∀ j < bound, p j = q j) :
    First q bound r := by
  cases r with
  | none => exact fun j hj => (same j hj).symm.trans (h j hj)
  | some k =>
    obtain ⟨hk, hp, hbefore⟩ := h
    exact ⟨hk, (same k hk).symm.trans hp,
      fun j hj => (same j (Nat.lt_trans hj hk)).symm.trans (hbefore j hj)⟩

theorem Last.congr {r : Option Nat} (h : Last p bound r) (same : ∀ j < bound, p j = q j) :
    Last q bound r := by
  cases r with
  | none => exact fun j hj => (same j hj).symm.trans (h j hj)
  | some k =>
    obtain ⟨hk, hp, hafter⟩ := h
    exact ⟨hk, (same k hk).symm.trans hp,
      fun j hkj hj => (same j hj).symm.trans (hafter j hkj hj)⟩

/-- Where there is one candidate, it is found unless it is left out. -/
theorem First.only {k : Nat} {c : Prop} [Decidable c] (inside : k < bound)
    (only : ∀ j < bound, p j = (j == k && !decide c)) :
    First p bound (if c then none else some k) := by
  split
  next hc =>
    intro j hj
    rw [only j hj, decide_eq_true hc, Bool.not_true, Bool.and_false]
  next hc =>
    refine ⟨inside, ?_, fun j hj => ?_⟩
    · rw [only k inside, beq_self_eq_true, decide_eq_false hc, Bool.not_false, Bool.and_self]
    · rw [only j (Nat.lt_trans hj inside), beq_false_of_ne (Nat.ne_of_lt hj), Bool.false_and]

theorem Last.only {k : Nat} {c : Prop} [Decidable c] (inside : k < bound)
    (only : ∀ j < bound, p j = (j == k && !decide c)) :
    Last p bound (if c then none else some k) := by
  split
  next hc =>
    intro j hj
    rw [only j hj, decide_eq_true hc, Bool.not_true, Bool.and_false]
  next hc =>
    refine ⟨inside, ?_, fun j hkj hj => ?_⟩
    · rw [only k inside, beq_self_eq_true, decide_eq_false hc, Bool.not_false, Bool.and_self]
    · rw [only j hj, beq_false_of_ne (Nat.ne_of_gt hkj), Bool.false_and]

/-- The search upwards ends in a block. -/
theorem First.found {k : Nat} (below : ∀ j < a, p j = false)
    (h : First (fun j => p (a + j)) size (some k)) (inside : a + size ≤ bound) :
    First p bound (some (a + k)) := by
  obtain ⟨hk, hp, hbefore⟩ := h
  refine ⟨by omega, hp, fun j hj => ?_⟩
  by_cases hja : j < a
  · exact below j hja
  · have hblock : p (a + (j - a)) = false := hbefore (j - a) (by omega)
    rwa [Nat.add_sub_cancel' (by omega)] at hblock

/-- The search upwards goes on behind a block. -/
theorem First.passed (below : ∀ j < a, p j = false) (h : First (fun j => p (a + j)) size none) :
    ∀ j < a + size, p j = false := by
  intro j hj
  by_cases hja : j < a
  · exact below j hja
  · have hblock : p (a + (j - a)) = false := h (j - a) (by omega)
    rwa [Nat.add_sub_cancel' (by omega)] at hblock

/-- The search downwards ends in a block. -/
theorem Last.found {k : Nat} (above : ∀ j, a + size ≤ j → j < bound → p j = false)
    (h : Last (fun j => p (a + j)) size (some k)) (inside : a + size ≤ bound) :
    Last p bound (some (a + k)) := by
  obtain ⟨hk, hp, hafter⟩ := h
  refine ⟨by omega, hp, fun j hkj hj => ?_⟩
  by_cases hja : a + size ≤ j
  · exact above j hja hj
  · have hblock : p (a + (j - a)) = false := hafter (j - a) (by omega) (by omega)
    rwa [Nat.add_sub_cancel' (by omega)] at hblock

/-- The search downwards goes on in front of a block. -/
theorem Last.passed (above : ∀ j, a + size ≤ j → j < bound → p j = false)
    (h : Last (fun j => p (a + j)) size none) : ∀ j, a ≤ j → j < bound → p j = false := by
  intro j haj hj
  by_cases hja : a + size ≤ j
  · exact above j hja hj
  · have hblock : p (a + (j - a)) = false := h (j - a) (by omega)
    rwa [Nat.add_sub_cancel' haj] at hblock

/-- The least number with a property, if there is one. -/
def Least (P : Nat → Prop) : Option Nat → Prop
  | none => ∀ m, ¬P m
  | some k => P k ∧ ∀ m, P m → k ≤ m

/-- The greatest number with a property, if there is one. -/
def Greatest (P : Nat → Prop) : Option Nat → Prop
  | none => ∀ m, ¬P m
  | some k => P k ∧ ∀ m, P m → m ≤ k

theorem First.least {P : Nat → Prop} {r : Option Nat} (h : First p bound r)
    (same : ∀ m, P m ↔ m < bound ∧ p m = true) : Least P r := by
  cases r with
  | none =>
    intro m hm
    obtain ⟨hlt, hp⟩ := (same m).mp hm
    exact Bool.noConfusion ((h m hlt).symm.trans hp)
  | some k =>
    obtain ⟨hk, hp, hbefore⟩ := h
    refine ⟨(same k).mpr ⟨hk, hp⟩, fun m hm => Nat.not_lt.mp fun hlt => ?_⟩
    exact Bool.noConfusion ((hbefore m hlt).symm.trans ((same m).mp hm).2)

theorem Last.greatest {P : Nat → Prop} {r : Option Nat} (h : Last p bound r)
    (same : ∀ m, P m ↔ m < bound ∧ p m = true) : Greatest P r := by
  cases r with
  | none =>
    intro m hm
    obtain ⟨hlt, hp⟩ := (same m).mp hm
    exact Bool.noConfusion ((h m hlt).symm.trans hp)
  | some k =>
    obtain ⟨hk, hp, hafter⟩ := h
    refine ⟨(same k).mpr ⟨hk, hp⟩, fun m hm => Nat.not_lt.mp fun hlt => ?_⟩
    obtain ⟨hm, hpm⟩ := (same m).mp hm
    exact Bool.noConfusion ((hafter m hlt hm).symm.trans hpm)

/-- A search that takes the first answer it gets. -/
theorem findSome?_range'_eq_some {β : Type*} {f : Nat → Option β} {s n : Nat} {b : β}
    (h : (List.range' s n).findSome? f = some b) :
    ∃ i, s ≤ i ∧ i < s + n ∧ f i = some b ∧ ∀ j, s ≤ j → j < i → f j = none := by
  induction n generalizing s with
  | zero => cases h
  | succ n ih =>
    rw [List.range'_succ, List.findSome?_cons] at h
    split at h
    next c hc =>
      cases h
      exact ⟨s, Nat.le_refl s, by omega, hc, fun j hj hlt => by omega⟩
    next hnone =>
      obtain ⟨i, low, high, found, before⟩ := ih h
      refine ⟨i, by omega, by omega, found, ?_⟩
      intro j hj hlt
      rcases Nat.eq_or_lt_of_le hj with rfl | hj
      · exact hnone
      · exact before j hj hlt

end Search
