import Mathlib

namespace KeyOrder

variable {α : Type*}

/-- The length of the longest common prefix. -/
def common [DecidableEq α] : List α → List α → Nat
  | x :: xs, y :: ys => if x = y then common xs ys + 1 else 0
  | _, _ => 0

/-- The strict order of keys: by the first difference; a proper prefix comes first in an
ascending order and last in a descending one. -/
def Before [LT α] (descending : Bool) : List α → List α → Prop
  | [], [] => False
  | [], _ :: _ => descending = false
  | _ :: _, [] => descending = true
  | x :: xs, y :: ys => x < y ∨ x = y ∧ Before descending xs ys

instance Before.decide [DecidableEq α] [LT α] [DecidableLT α] (descending : Bool) :
    (xs ys : List α) → Decidable (Before descending xs ys)
  | [], [] => inferInstanceAs (Decidable False)
  | [], _ :: _ => inferInstanceAs (Decidable (descending = false))
  | _ :: _, [] => inferInstanceAs (Decidable (descending = true))
  | x :: xs, y :: ys =>
    have := Before.decide descending xs ys
    inferInstanceAs (Decidable (x < y ∨ x = y ∧ Before descending xs ys))

example : common [1, 2, 3] [1, 2, 4] = 2 := by
  rw [common]
  rfl

example : Before false [1, 2] [1, 3] := by
  rw [Before]
  decide

section Common

variable [DecidableEq α]

@[simp] theorem common_nil_left (ys : List α) : common [] ys = 0 := rfl

@[simp] theorem common_nil_right (xs : List α) : common xs [] = 0 := by cases xs <;> rfl

theorem common_cons (x y : α) (xs ys : List α) :
    common (x :: xs) (y :: ys) = if x = y then common xs ys + 1 else 0 := rfl

@[simp] theorem common_self (xs : List α) : common xs xs = xs.length := by
  induction xs with
  | nil => rfl
  | cons x xs ih => simp [common, ih]

theorem common_comm (xs ys : List α) : common xs ys = common ys xs := by
  induction xs generalizing ys with
  | nil => simp
  | cons x xs ih =>
    cases ys with
    | nil => rfl
    | cons y ys => simp only [common, ih ys, eq_comm]

theorem common_le_left (xs ys : List α) : common xs ys ≤ xs.length := by
  induction xs generalizing ys with
  | nil => simp
  | cons x xs ih =>
    cases ys with
    | nil => simp
    | cons y ys =>
      have := ih ys
      simp only [common, List.length_cons]
      split <;> omega

theorem common_le_right (xs ys : List α) : common xs ys ≤ ys.length := by
  rw [common_comm]
  exact common_le_left ys xs

theorem take_common (xs ys : List α) : xs.take (common xs ys) = ys.take (common xs ys) := by
  induction xs generalizing ys with
  | nil => simp
  | cons x xs ih =>
    cases ys with
    | nil => simp
    | cons y ys =>
      simp only [common]
      split
      next h => simp [h, ih ys]
      next => rfl

theorem take_common_append_drop (xs ys : List α) :
    xs.take (common xs ys) ++ ys.drop (common xs ys) = ys := by
  rw [take_common, List.take_append_drop]

theorem common_append (ps xs ys : List α) :
    common (ps ++ xs) (ps ++ ys) = ps.length + common xs ys := by
  induction ps with
  | nil => simp
  | cons p ps ih => simp only [List.cons_append, common, if_true, ih, List.length_cons]; omega

theorem common_of_isPrefix {xs ys : List α} (h : xs <+: ys) : common xs ys = xs.length := by
  obtain ⟨zs, rfl⟩ := h
  have := common_append xs [] zs
  simpa using this

theorem isPrefix_of_common {xs ys : List α} (h : common xs ys = ys.length) : ys <+: xs := by
  have ht := take_common xs ys
  rw [h, List.take_length] at ht
  exact ht ▸ List.take_prefix ys.length xs

/-- A shared stretch of `n` cells can be left out of the comparison. -/
theorem common_eq_add {xs ys : List α} {n : Nat} (h : n ≤ common xs ys) :
    common xs ys = n + common (xs.drop n) (ys.drop n) := by
  have hx : xs.take n = ys.take n := by
    have ht := congrArg (List.take n) (take_common xs ys)
    rwa [List.take_take, List.take_take, Nat.min_eq_left h] at ht
  have hlen : (xs.take n).length = n := by
    have := common_le_left xs ys
    rw [List.length_take]
    omega
  calc common xs ys = common (xs.take n ++ xs.drop n) (ys.take n ++ ys.drop n) := by
        rw [List.take_append_drop, List.take_append_drop]
    _ = n + common (xs.drop n) (ys.drop n) := by rw [← hx, common_append, hlen]

theorem le_common {xs ys : List α} {n : Nat} (hx : n ≤ xs.length) (h : xs.take n = ys.take n) :
    n ≤ common xs ys := by
  have hlen : (xs.take n).length = n := by
    rw [List.length_take]
    omega
  calc n ≤ (xs.take n).length + common (xs.drop n) (ys.drop n) := by omega
    _ = common (xs.take n ++ xs.drop n) (xs.take n ++ ys.drop n) := (common_append _ _ _).symm
    _ = common xs ys := by rw [h, List.take_append_drop, ← h, List.take_append_drop]

/-- Each key agrees with a third one as far as both agree with it. -/
theorem min_common_le (xs ys zs : List α) :
    min (common xs ys) (common ys zs) ≤ common xs zs := by
  apply le_common
  · have := common_le_left xs ys
    omega
  · have hxy := congrArg (List.take (min (common xs ys) (common ys zs))) (take_common xs ys)
    have hyz := congrArg (List.take (min (common xs ys) (common ys zs))) (take_common ys zs)
    rw [List.take_take, List.take_take, Nat.min_eq_left (Nat.min_le_left _ _)] at hxy
    rw [List.take_take, List.take_take, Nat.min_eq_left (Nat.min_le_right _ _)] at hyz
    exact hxy.trans hyz

end Common

section Order

variable [LT α] {descending : Bool}

theorem before_take {xs : List α} {n : Nat} (h : n < xs.length) : Before false (xs.take n) xs := by
  induction xs generalizing n with
  | nil => simp at h
  | cons x xs ih =>
    cases n with
    | zero => rfl
    | succ n => exact Or.inr ⟨rfl, ih (by simpa using h)⟩

/-- `NotAfter d xs ys`: a list sorted in the order of an index may hold `xs` and then `ys`. -/
def NotAfter (descending : Bool) (xs ys : List α) : Prop := ¬Before descending ys xs

instance [DecidableEq α] [DecidableLT α] (descending : Bool) (xs ys : List α) :
    Decidable (NotAfter descending xs ys) :=
  inferInstanceAs (Decidable (¬Before descending ys xs))

variable [LE α] [Std.LawfulOrderLT α] [Std.IsLinearOrder α]

omit [Std.IsLinearOrder α] in
theorem before_irrefl (xs : List α) : ¬Before descending xs xs := by
  induction xs with
  | nil => exact id
  | cons x xs ih =>
    rintro (h | ⟨_, h⟩)
    · exact Std.lt_irrefl h
    · exact ih h

theorem before_trans {xs ys zs : List α} (h : Before descending xs ys)
    (h' : Before descending ys zs) : Before descending xs zs := by
  induction xs generalizing ys zs with
  | nil =>
    cases ys with
    | nil => exact h'
    | cons y ys =>
      cases zs with
      | nil =>
        simp only [Before] at h h'
        simp [h] at h'
      | cons z zs => exact h
  | cons x xs ih =>
    cases ys with
    | nil =>
      cases zs with
      | nil => exact h
      | cons z zs =>
        simp only [Before] at h h'
        simp [h] at h'
    | cons y ys =>
      cases zs with
      | nil => exact h'
      | cons z zs =>
        rcases h with h | ⟨rfl, h⟩
        · rcases h' with h' | ⟨rfl, h'⟩
          · exact Or.inl (Std.lt_trans h h')
          · exact Or.inl h
        · rcases h' with h' | ⟨rfl, h'⟩
          · exact Or.inl h'
          · exact Or.inr ⟨rfl, ih h h'⟩

theorem before_asymm {xs ys : List α} (h : Before descending xs ys) : ¬Before descending ys xs :=
  fun h' => before_irrefl xs (before_trans h h')

theorem before_trichotomy (descending : Bool) (xs ys : List α) :
    Before descending xs ys ∨ xs = ys ∨ Before descending ys xs := by
  induction xs generalizing ys with
  | nil =>
    cases ys with
    | nil => exact Or.inr (Or.inl rfl)
    | cons y ys => cases descending <;> simp [Before]
  | cons x xs ih =>
    cases ys with
    | nil => cases descending <;> simp [Before]
    | cons y ys =>
      rcases Std.lt_trichotomy x y with h | rfl | h
      · exact Or.inl (Or.inl h)
      · rcases ih ys with hlt | rfl | hgt
        · exact Or.inl (Or.inr ⟨rfl, hlt⟩)
        · exact Or.inr (Or.inl rfl)
        · exact Or.inr (Or.inr (Or.inr ⟨rfl, hgt⟩))
      · exact Or.inr (Or.inr (Or.inl h))

omit [Std.IsLinearOrder α] in
theorem before_append_left (ps xs ys : List α) :
    Before descending (ps ++ xs) (ps ++ ys) ↔ Before descending xs ys := by
  induction ps with
  | nil => rfl
  | cons p ps ih => simp [Before, ih, Std.lt_irrefl]

omit [Std.IsLinearOrder α] in
theorem notAfter_refl (xs : List α) : NotAfter descending xs xs := before_irrefl xs

theorem Before.notAfter {xs ys : List α} (h : Before descending xs ys) : NotAfter descending xs ys :=
  before_asymm h

theorem notAfter_iff {xs ys : List α} :
    NotAfter descending xs ys ↔ Before descending xs ys ∨ xs = ys := by
  constructor
  · intro h
    rcases before_trichotomy descending xs ys with hlt | heq | hgt
    · exact Or.inl hlt
    · exact Or.inr heq
    · exact absurd hgt h
  · rintro (h | rfl)
    · exact h.notAfter
    · exact notAfter_refl xs

theorem NotAfter.trans {xs ys zs : List α} (h : NotAfter descending xs ys)
    (h' : NotAfter descending ys zs) : NotAfter descending xs zs := by
  rcases notAfter_iff.mp h with hlt | rfl
  · rcases notAfter_iff.mp h' with hlt' | rfl
    · exact (before_trans hlt hlt').notAfter
    · exact hlt.notAfter
  · exact h'

theorem NotAfter.antisymm {xs ys : List α} (h : NotAfter descending xs ys)
    (h' : NotAfter descending ys xs) : xs = ys := by
  rcases notAfter_iff.mp h with hlt | heq
  · exact absurd hlt h'
  · exact heq

theorem NotAfter.trans_before {xs ys zs : List α} (h : NotAfter descending xs ys)
    (h' : Before descending ys zs) : Before descending xs zs := by
  rcases notAfter_iff.mp h with hlt | rfl
  · exact before_trans hlt h'
  · exact h'

variable [DecidableEq α]

omit [Std.IsLinearOrder α] in
theorem before_drop {xs ys : List α} {n : Nat} (h : n ≤ common xs ys) :
    Before descending xs ys ↔ Before descending (xs.drop n) (ys.drop n) := by
  have hx : xs.take n = ys.take n := by
    have ht := congrArg (List.take n) (take_common xs ys)
    rwa [List.take_take, List.take_take, Nat.min_eq_left h] at ht
  calc Before descending xs ys
      ↔ Before descending (xs.take n ++ xs.drop n) (xs.take n ++ ys.drop n) := by
        rw [List.take_append_drop, hx, List.take_append_drop]
    _ ↔ Before descending (xs.drop n) (ys.drop n) := before_append_left _ _ _

/-- A key that leaves its predecessor earlier than a search key does lies behind the search key. -/
theorem before_of_common_lt {prev key node : List α} (hk : NotAfter descending prev key)
    (hn : NotAfter descending prev node) (h : common prev node < common prev key) :
    Before descending key node := by
  induction prev generalizing key node with
  | nil => simp at h
  | cons x prev ih =>
    cases key with
    | nil => simp at h
    | cons y key =>
      simp only [common_cons] at h
      split at h
      next heq =>
        subst heq
        cases node with
        | nil =>
          simp only [NotAfter, Before] at hn
          simpa [Before] using hn
        | cons z node =>
          simp only [NotAfter, Before, Std.lt_irrefl, false_or, true_and, not_or, not_and] at hk hn ⊢
          rw [common_cons] at h
          split at h
          next heq =>
            subst heq
            refine Or.inr ⟨rfl, ih hk (hn.2 rfl) (by omega)⟩
          next hne =>
            rcases Std.lt_trichotomy x z with hlt | heq | hgt
            · exact Or.inl hlt
            · exact absurd heq hne
            · exact absurd hgt hn.1
      next => omega

/-- A key that follows its predecessor longer than a search key does lies before the search key. -/
theorem before_of_common_gt {prev key node : List α} (hk : NotAfter descending prev key)
    (h : common prev key < common prev node) :
    Before descending node key ∧ common node key = common prev key := by
  induction prev generalizing key node with
  | nil => simp at h
  | cons x prev ih =>
    cases node with
    | nil => simp at h
    | cons z node =>
      simp only [common_cons x z] at h
      split at h
      next heq =>
        subst heq
        cases key with
        | nil =>
          simp only [NotAfter, Before] at hk
          simpa [Before] using hk
        | cons y key =>
          simp only [NotAfter, Before, not_or, not_and] at hk
          simp only [Before, common_cons] at h ⊢
          split at h
          next heq =>
            subst heq
            have hless : common prev key < common prev node := by omega
            obtain ⟨hb, hc⟩ := ih (hk.2 rfl) hless
            exact ⟨Or.inr ⟨rfl, hb⟩, by simp [hc]⟩
          next hne =>
            rcases Std.lt_trichotomy x y with hlt | heq | hgt
            · exact ⟨Or.inl hlt, by simp [hne]⟩
            · exact absurd heq hne
            · exact absurd hgt hk.1
      next => omega

/-- In a sorted triple the outer keys share what the less similar neighbours share. -/
theorem common_of_sorted {xs ys zs : List α} (h : NotAfter descending xs ys)
    (h' : NotAfter descending ys zs) : common xs zs = min (common xs ys) (common ys zs) := by
  have hz : NotAfter descending xs zs := h.trans h'
  have hle : common xs zs ≤ common xs ys := by
    by_contra hlt
    exact h' (before_of_common_lt hz h (by omega))
  have hxy := min_common_le ys xs zs
  have hyz := min_common_le xs ys zs
  rw [common_comm ys xs] at hxy
  omega

end Order

end KeyOrder
