import InterBase.Library.BigEndian
import Mathlib.Data.List.Lex
import Mathlib.Order.Compare
import Mathlib.Tactic.Linarith

namespace BigEndian

section Lists

variable {α : Type*} [LinearOrder α]

@[simp] theorem cmp_nil : cmp ([] : List α) [] = .eq := rfl

theorem cmp_cons (x y : α) (xs ys : List α) :
    cmp (x :: xs) (y :: ys) = (cmp x y).then (cmp xs ys) := by
  unfold cmp cmpUsing
  simp only [List.cons_lt_cons_iff]
  rcases lt_trichotomy x y with lt | rfl | gt
  · rw [if_pos (.inl lt), if_pos lt]
    rfl
  · simp only [lt_irrefl, false_or, true_and, if_false]
    rfl
  · rw [if_neg (by simp [gt.not_gt, gt.ne']), if_pos (.inl gt), if_neg gt.not_gt, if_pos gt]
    rfl

theorem cmp_append {xs ys : List α} (h : xs.length = ys.length) (xs' ys' : List α) :
    cmp (xs ++ xs') (ys ++ ys') = (cmp xs ys).then (cmp xs' ys') := by
  induction xs generalizing ys with
  | nil =>
    have empty : ys = [] := List.eq_nil_of_length_eq_zero h.symm
    rw [empty, cmp_nil]
    rfl
  | cons x xs ih =>
    cases ys with
    | nil => simp at h
    | cons y ys =>
      rw [List.cons_append, List.cons_append, cmp_cons, cmp_cons, ih (by simpa using h),
        Ordering.then_assoc]

theorem cmp_singleton (x y : α) : cmp [x] [y] = cmp x y := by
  rw [cmp_cons, cmp_nil, Ordering.then_eq]

theorem cmp_lists_eq_iff (xs ys : List α) : cmp xs ys = .eq ↔ xs = ys := by
  unfold cmp cmpUsing
  rcases lt_trichotomy xs ys with lt | rfl | gt
  · simp [lt, lt.ne]
  · simp
  · simp [gt, gt.ne', gt.not_gt]

end Lists

theorem value_append (xs ys : List UInt8) :
    value (xs ++ ys) = value xs * 256 ^ ys.length + value ys := by
  induction xs with
  | nil => simp [value]
  | cons x xs ih =>
    rw [List.cons_append, value, value, ih, List.length_append, pow_add]
    ring

theorem cmp_mul_add {a b c d k : Nat} (hc : c < k) (hd : d < k) :
    cmp (a * k + c) (b * k + d) = (cmp a b).then (cmp c d) := by
  rcases lt_trichotomy a b with lt | rfl | gt
  · have : a * k + c < b * k + d := by
      have := Nat.mul_le_mul_right k (show a + 1 ≤ b from lt)
      linarith
    rw [(cmp_eq_lt_iff a b).mpr lt, (cmp_eq_lt_iff _ _).mpr this]
    rfl
  · rw [cmp_self_eq_eq, Ordering.then, cmp_add_left]
  · have : b * k + d < a * k + c := by
      have := Nat.mul_le_mul_right k (show b + 1 ≤ a from gt)
      linarith
    rw [(cmp_eq_gt_iff a b).mpr gt, (cmp_eq_gt_iff _ _).mpr this]
    rfl

/-- Numbers with as many digits compare by their leading digits first. -/
theorem cmp_value_append {xs ys xs' ys' : List UInt8} (h : xs'.length = ys'.length) :
    cmp (value (xs ++ xs')) (value (ys ++ ys')) =
      (cmp (value xs) (value ys)).then (cmp (value xs') (value ys')) := by
  have hx := value_lt xs'
  have hy := value_lt ys'
  rw [← h] at hy
  rw [value_append, value_append, ← h, cmp_mul_add hx hy]

theorem cmp_value_complement {xs ys : List UInt8} (h : xs.length = ys.length) :
    cmp (value (xs.map (~~~ ·))) (value (ys.map (~~~ ·))) = cmp (value ys) (value xs) := by
  have hx := value_complement xs
  have hy := value_complement ys
  rw [← h] at hy
  rcases lt_trichotomy (value ys) (value xs) with lt | eq | gt
  · rw [(cmp_eq_lt_iff _ _).mpr lt, cmp_eq_lt_iff]
    omega
  · rw [(cmp_eq_eq_iff _ _).mpr eq, cmp_eq_eq_iff]
    omega
  · rw [(cmp_eq_gt_iff _ _).mpr gt, cmp_eq_gt_iff]
    omega

/-- Comparing bytes one by one is comparing the numbers that they make up. -/
theorem cmp_value_bytes {xs ys : List UInt8} (h : xs.length = ys.length) :
    cmp (value xs) (value ys) =
      cmp (xs.map fun x => (x.toNat : Int)) (ys.map fun y => (y.toNat : Int)) := by
  induction xs generalizing ys with
  | nil =>
    have empty : ys = [] := List.eq_nil_of_length_eq_zero h.symm
    rw [empty, cmp_self_eq_eq, List.map_nil, cmp_nil]
  | cons x xs ih =>
    cases ys with
    | nil => simp at h
    | cons y ys =>
      have tail : xs.length = ys.length := by simpa using h
      have head : cmp (x.toNat : Int) (y.toNat : Int) = cmp x.toNat y.toNat :=
        Nat.strictMono_cast.cmp_map_eq _ _
      rw [List.map_cons, List.map_cons, cmp_cons, ← ih tail, value, value, ← tail,
        cmp_mul_add (value_lt xs) (tail ▸ value_lt ys), head]

end BigEndian
