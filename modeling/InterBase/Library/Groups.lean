import InterBase.Library.LexCompare
import Mathlib

namespace Groups

open BigEndian

variable {α : Type*}

/-- The list in groups of `k`, the last one perhaps shorter, each behind the marker. -/
def groups (marker : α) (k : Nat) (xs : List α) : List α :=
  if _h : xs = [] ∨ k = 0 then []
  else marker :: (xs.take k ++ groups marker k (xs.drop k))
termination_by xs.length
decreasing_by
  have hx : 0 < xs.length := List.length_pos_iff.mpr (fun e => _h (Or.inl e))
  have hk : k ≠ 0 := fun e => _h (Or.inr e)
  simp only [List.length_drop]
  omega

/-- The list filled up to whole groups. -/
def filled (zero : α) (k : Nat) (xs : List α) : List α :=
  xs ++ List.replicate ((k - xs.length % k) % k) zero

@[simp] theorem groups_nil (marker : α) (k : Nat) : groups marker k [] = [] := by
  rw [groups, dif_pos (Or.inl rfl)]

theorem groups_ne_nil {k : Nat} (hk : 0 < k) (marker : α) {xs : List α} (h : xs ≠ []) :
    groups marker k xs = marker :: (xs.take k ++ groups marker k (xs.drop k)) := by
  rw [groups, dif_neg]
  rintro (nil | zero)
  · exact h nil
  · omega

theorem length_filled {k : Nat} (hk : 0 < k) (zero : α) (xs : List α) :
    k ∣ (filled zero k xs).length := by
  rw [filled, List.length_append, List.length_replicate]
  have hlt := Nat.mod_lt xs.length hk
  have hdiv := Nat.div_add_mod xs.length k
  rcases Nat.eq_zero_or_pos (xs.length % k) with zero | pos
  · rw [zero, Nat.sub_zero, Nat.mod_self, Nat.add_zero]
    exact Nat.dvd_of_mod_eq_zero zero
  · rw [Nat.mod_eq_of_lt (show k - xs.length % k < k by omega)]
    refine ⟨xs.length / k + 1, ?_⟩
    rw [Nat.mul_add, Nat.mul_one]
    omega

theorem filled_ne_nil {zero : α} {k : Nat} {xs : List α} (h : xs ≠ []) : filled zero k xs ≠ [] := by
  intro e
  exact h (List.append_eq_nil_iff.mp e).1

variable [LinearOrder α]

theorem cmp_nil_left {xs : List α} (h : xs ≠ []) : cmp [] xs = .lt := by
  cases xs with
  | nil => exact absurd rfl h
  | cons x xs => exact (cmp_eq_lt_iff _ _).mpr (List.nil_lt_cons x xs)

theorem cmp_nil_right {xs : List α} (h : xs ≠ []) : cmp xs [] = .gt := by
  rw [← cmp_swap, cmp_nil_left h]
  rfl

/-- What comes behind a longer list cannot matter. -/
theorem cmp_append_of_lt (xs zs : List α) (h : xs.length < zs.length) (as bs : List α) :
    cmp xs (zs ++ as) = cmp xs (zs ++ bs) := by
  induction xs generalizing zs with
  | nil =>
    have hz : zs ≠ [] := List.length_pos_iff.mp h
    rw [cmp_nil_left (by simp [hz]), cmp_nil_left (by simp [hz])]
  | cons x xs ih =>
    cases zs with
    | nil => simp at h
    | cons z zs =>
      rw [List.cons_append, List.cons_append, cmp_cons, cmp_cons, ih zs (by simpa using h)]

theorem cmp_groups_short {marker : α} {k : Nat} (hk : 0 < k) {xs ys : List α}
    (hx : xs ≠ []) (hy : ys ≠ []) (short : xs.length < k) :
    cmp (groups marker k xs) (groups marker k ys) = cmp xs ys := by
  rw [groups_ne_nil hk marker hx, groups_ne_nil hk marker hy, cmp_cons, cmp_self_eq_eq,
    List.take_of_length_le (by omega), List.drop_of_length_le (by omega), groups_nil,
    List.append_nil]
  show cmp xs (ys.take k ++ groups marker k (ys.drop k)) = cmp xs ys
  by_cases hlong : k ≤ ys.length
  · have hcut := cmp_append_of_lt xs (ys.take k)
      (by rw [List.length_take]; omega) (groups marker k (ys.drop k)) (ys.drop k)
    rw [hcut, List.take_append_drop]
  · rw [List.take_of_length_le (by omega), List.drop_of_length_le (by omega), groups_nil,
      List.append_nil]

/-- Markers do not change how two lists compare. -/
theorem cmp_groups {k : Nat} (hk : 0 < k) (marker : α) (xs ys : List α) :
    cmp (groups marker k xs) (groups marker k ys) = cmp xs ys := by
  induction hn : xs.length using Nat.strong_induction_on generalizing xs ys with
  | _ n ih =>
    by_cases hx : xs = []
    · subst hx
      by_cases hy : ys = []
      · subst hy
        rw [groups_nil]
      · rw [groups_nil, cmp_nil_left hy, cmp_nil_left]
        rw [groups_ne_nil hk marker hy]
        simp
    · by_cases hy : ys = []
      · subst hy
        rw [groups_nil, cmp_nil_right hx, cmp_nil_right]
        rw [groups_ne_nil hk marker hx]
        simp
      · by_cases shortx : xs.length < k
        · exact cmp_groups_short hk hx hy shortx
        · by_cases shorty : ys.length < k
          · rw [← cmp_swap, cmp_groups_short hk hy hx shorty, cmp_swap]
          · have hpos := List.length_pos_iff.mpr hx
            have htake : (xs.take k).length = (ys.take k).length := by
              rw [List.length_take, List.length_take]
              omega
            have hrest := ih (xs.drop k).length (by rw [List.length_drop]; omega) (xs.drop k)
              (ys.drop k) rfl
            rw [groups_ne_nil hk marker hx, groups_ne_nil hk marker hy, cmp_cons, cmp_self_eq_eq,
              cmp_append htake, hrest, ← cmp_append htake, List.take_append_drop,
              List.take_append_drop]
            rfl

/-- What stands behind the groups: nothing that could be taken for another of them. -/
def Below (marker : α) (as : List α) : Prop := ∃ a rest, as = a :: rest ∧ a < marker

theorem cmp_groups_append {k : Nat} (hk : 0 < k) {marker : α} {xs ys as bs : List α}
    (hx : k ∣ xs.length) (hy : k ∣ ys.length) (ha : Below marker as) (hb : Below marker bs) :
    cmp (groups marker k xs ++ as) (groups marker k ys ++ bs) = (cmp xs ys).then (cmp as bs) := by
  induction hn : xs.length using Nat.strong_induction_on generalizing xs ys with
  | _ n ih =>
    by_cases hxn : xs = []
    · subst hxn
      by_cases hyn : ys = []
      · subst hyn
        rw [groups_nil, List.nil_append, List.nil_append, cmp_nil]
        rfl
      · obtain ⟨a, rest, rfl, lower⟩ := ha
        rw [groups_nil, List.nil_append, groups_ne_nil hk marker hyn, List.cons_append, cmp_cons,
          (cmp_eq_lt_iff a marker).mpr lower, cmp_nil_left hyn]
        rfl
    · by_cases hyn : ys = []
      · subst hyn
        obtain ⟨b, rest, rfl, lower⟩ := hb
        rw [groups_nil, List.nil_append, groups_ne_nil hk marker hxn, List.cons_append, cmp_cons,
          (cmp_eq_gt_iff marker b).mpr lower, cmp_nil_right hxn]
        rfl
      · have hposx := List.length_pos_iff.mpr hxn
        have hposy := List.length_pos_iff.mpr hyn
        have hlex := Nat.le_of_dvd hposx hx
        have hley := Nat.le_of_dvd hposy hy
        have htake : (xs.take k).length = (ys.take k).length := by
          rw [List.length_take, List.length_take]
          omega
        have hrest := ih (xs.drop k).length (by rw [List.length_drop]; omega)
          (show k ∣ (xs.drop k).length by rw [List.length_drop]; exact Nat.dvd_sub hx (dvd_refl k))
          (show k ∣ (ys.drop k).length by rw [List.length_drop]; exact Nat.dvd_sub hy (dvd_refl k))
          rfl
        have hsplit : cmp xs ys = (cmp (xs.take k) (ys.take k)).then (cmp (xs.drop k) (ys.drop k)) := by
          rw [← cmp_append htake, List.take_append_drop, List.take_append_drop]
        rw [groups_ne_nil hk marker hxn, groups_ne_nil hk marker hyn, List.cons_append,
          List.cons_append, cmp_cons, cmp_self_eq_eq, List.append_assoc, List.append_assoc,
          cmp_append htake, hrest, hsplit, Ordering.then_assoc]
        rfl

theorem filled_nil_left {zero : α} (least : ∀ x, zero ≤ x) {k a b : Nat} {ys : List α}
    (hb : b < k) (ha : a < k) (groups : (ys.length + b) % k = a % k) :
    List.replicate a zero = ys ++ List.replicate b zero ∨
      cmp (List.replicate a zero) (ys ++ List.replicate b zero) = cmp [] ys := by
  induction ys generalizing a with
  | nil =>
    rw [List.length_nil, Nat.zero_add, Nat.mod_eq_of_lt hb, Nat.mod_eq_of_lt ha] at groups
    subst groups
    exact Or.inl rfl
  | cons y ys ih =>
    cases a with
    | zero =>
      apply Or.inr
      rw [List.replicate_zero, cmp_nil_left (by simp), cmp_nil_left (by simp)]
    | succ a =>
      rcases (least y).lt_or_eq with lower | rfl
      · apply Or.inr
        rw [List.replicate_succ, List.cons_append, cmp_cons, (cmp_eq_lt_iff _ _).mpr lower,
          cmp_nil_left (by simp)]
        rfl
      · have hshift : (ys.length + b) % k = a % k := by
          rw [List.length_cons, Nat.add_right_comm] at groups
          exact Nat.ModEq.add_right_cancel' 1 groups
        rcases ih (by omega) hshift with same | lower
        · exact Or.inl (by rw [List.replicate_succ, same, List.cons_append])
        · by_cases hys : ys = []
          · subst hys
            rw [List.length_nil, Nat.zero_add, Nat.mod_eq_of_lt hb,
              Nat.mod_eq_of_lt (by omega)] at hshift
            subst hshift
            exact Or.inl rfl
          · apply Or.inr
            rw [List.replicate_succ, List.cons_append, cmp_cons, cmp_self_eq_eq, lower,
              cmp_nil_left hys, cmp_nil_left (by simp)]
            rfl

theorem filled_cases {zero : α} (least : ∀ x, zero ≤ x) {k a b : Nat} {xs ys : List α}
    (ha : a < k) (hb : b < k) (groups : (xs.length + a) % k = (ys.length + b) % k) :
    xs ++ List.replicate a zero = ys ++ List.replicate b zero ∨
      cmp (xs ++ List.replicate a zero) (ys ++ List.replicate b zero) = cmp xs ys := by
  induction xs generalizing ys with
  | nil =>
    rw [List.length_nil, Nat.zero_add] at groups
    exact filled_nil_left least hb ha groups.symm
  | cons x xs ih =>
    cases ys with
    | nil =>
      rw [List.length_nil, Nat.zero_add] at groups
      rcases filled_nil_left least ha hb groups with same | lower
      · exact Or.inl same.symm
      · apply Or.inr
        have hswap := congrArg Ordering.swap lower
        rwa [cmp_swap, cmp_swap] at hswap
    | cons y ys =>
      simp only [List.cons_append, cmp_cons]
      by_cases hxy : x = y
      · subst hxy
        have hshift : (xs.length + a) % k = (ys.length + b) % k := by
          rw [List.length_cons, List.length_cons, Nat.add_right_comm,
            Nat.add_right_comm ys.length] at groups
          exact Nat.ModEq.add_right_cancel' 1 groups
        rcases ih hshift with same | lower
        · exact Or.inl (by rw [same])
        · exact Or.inr (by rw [lower])
      · apply Or.inr
        rcases lt_or_gt_of_ne hxy with lt | gt
        · rw [(cmp_eq_lt_iff x y).mpr lt]
          rfl
        · rw [(cmp_eq_gt_iff x y).mpr gt]
          rfl

/-- Filling up with the least cell keeps the order, unless two lists become one. -/
theorem cmp_filled {zero : α} (least : ∀ x, zero ≤ x) {k : Nat} (hk : 0 < k) (xs ys : List α) :
    filled zero k xs = filled zero k ys ∨
      cmp (filled zero k xs) (filled zero k ys) = cmp xs ys := by
  have hx := Nat.mod_eq_zero_of_dvd (length_filled hk zero xs)
  have hy := Nat.mod_eq_zero_of_dvd (length_filled hk zero ys)
  rw [filled, List.length_append, List.length_replicate] at hx hy
  exact filled_cases least (Nat.mod_lt _ hk) (Nat.mod_lt _ hk) (hx.trans hy.symm)

theorem then_eq_lt_iff {o o' : Ordering} : o.then o' = .lt ↔ o = .lt ∨ (o = .eq ∧ o' = .lt) := by
  cases o <;> simp [Ordering.then]

theorem then_eq_eq_iff {o o' : Ordering} : o.then o' = .eq ↔ o = .eq ∧ o' = .eq := by
  cases o <;> simp [Ordering.then]

theorem cmp_lists_lt_iff (xs ys : List α) : cmp xs ys = .lt ↔ xs < ys := by
  unfold cmp cmpUsing
  split
  next lt => exact ⟨fun _ => lt, fun _ => rfl⟩
  next ge =>
    refine ⟨fun h => ?_, fun h => absurd h ge⟩
    split at h <;> cases h

theorem groups_lt_iff {k : Nat} (hk : 0 < k) (marker : α) (xs ys : List α) :
    groups marker k xs < groups marker k ys ↔ xs < ys := by
  rw [← cmp_lists_lt_iff, cmp_groups hk, cmp_lists_lt_iff]

theorem groups_inj {k : Nat} (hk : 0 < k) (marker : α) (xs ys : List α) :
    groups marker k xs = groups marker k ys ↔ xs = ys := by
  rw [← cmp_lists_eq_iff, cmp_groups hk, cmp_lists_eq_iff]

theorem groups_append_lt_iff {k : Nat} (hk : 0 < k) {marker : α} {xs ys as bs : List α}
    (hx : k ∣ xs.length) (hy : k ∣ ys.length) (ha : Below marker as) (hb : Below marker bs) :
    groups marker k xs ++ as < groups marker k ys ++ bs ↔ xs < ys ∨ (xs = ys ∧ as < bs) := by
  rw [← cmp_lists_lt_iff, cmp_groups_append hk hx hy ha hb, then_eq_lt_iff, cmp_lists_lt_iff,
    cmp_lists_eq_iff, cmp_lists_lt_iff]

theorem groups_append_inj {k : Nat} (hk : 0 < k) {marker : α} {xs ys as bs : List α}
    (hx : k ∣ xs.length) (hy : k ∣ ys.length) (ha : Below marker as) (hb : Below marker bs) :
    groups marker k xs ++ as = groups marker k ys ++ bs ↔ xs = ys ∧ as = bs := by
  rw [← cmp_lists_eq_iff, cmp_groups_append hk hx hy ha hb, then_eq_eq_iff, cmp_lists_eq_iff,
    cmp_lists_eq_iff]

theorem filled_lt_iff {zero : α} (least : ∀ x, zero ≤ x) {k : Nat} (hk : 0 < k) {xs ys : List α}
    (apart : filled zero k xs ≠ filled zero k ys) :
    filled zero k xs < filled zero k ys ↔ xs < ys := by
  rcases cmp_filled least hk xs ys with same | agree
  · exact absurd same apart
  · rw [← cmp_lists_lt_iff, agree, cmp_lists_lt_iff]

end Groups
