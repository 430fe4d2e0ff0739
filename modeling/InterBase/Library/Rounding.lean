import Mathlib

namespace Rounding

/-- The nearest integer, and of two that are equally near the one away from zero. -/
def roundAway (q : ℚ) : ℤ := if 0 ≤ q then ⌊q + 1 / 2⌋ else -⌊-q + 1 / 2⌋

theorem roundAway_intCast (n : ℤ) : roundAway n = n := by
  have half : ⌊(1 / 2 : ℚ)⌋ = 0 := by norm_num
  unfold roundAway
  split
  · rw [Int.floor_intCast_add, half, add_zero]
  · rw [← Int.cast_neg, Int.floor_intCast_add, half, add_zero, neg_neg]

theorem roundAway_neg (q : ℚ) : roundAway (-q) = -roundAway q := by
  have half : ⌊(1 / 2 : ℚ)⌋ = 0 := by norm_num
  unfold roundAway
  rcases lt_trichotomy q 0 with h | rfl | h
  · rw [if_pos (by linarith), if_neg (by linarith), neg_neg]
  · rw [neg_zero, if_pos (le_refl _), zero_add, half]
    rfl
  · rw [if_neg (by linarith), if_pos h.le, neg_neg]

/-- Dropping digits in two steps drops them all. -/
theorem tdiv_tdiv (n : ℤ) (a b : ℕ) : (n.tdiv a).tdiv b = n.tdiv (a * b : ℕ) := by
  obtain ⟨k, rfl | rfl⟩ := n.eq_nat_or_neg
  · rw [← Int.ofNat_tdiv, ← Int.ofNat_tdiv, ← Int.ofNat_tdiv, Nat.div_div_eq_div_mul]
  · rw [Int.neg_tdiv, Int.neg_tdiv, Int.neg_tdiv, ← Int.ofNat_tdiv, ← Int.ofNat_tdiv,
      ← Int.ofNat_tdiv, Nat.div_div_eq_div_mul]

/-- What a quotient that is cut first and multiplied then leaves of the one that is multiplied
first. -/
theorem mul_tdiv (n d : ℤ) (m : ℕ) : (n * m).tdiv d = n.tdiv d * m + (n.tmod d * m).tdiv d := by
  have nat : ∀ a b : ℕ, a * m / b = a / b * m + a % b * m / b := by
    intro a b
    rcases Nat.eq_zero_or_pos b with rfl | pos
    · rw [Nat.div_zero, Nat.div_zero, Nat.div_zero, Nat.zero_mul]
    · have whole : a * m = a % b * m + a / b * m * b := by
        conv_lhs => rw [← Nat.mod_add_div a b]
        ring
      rw [whole, Nat.add_mul_div_right _ _ pos, Nat.add_comm]
  have cast : ∀ a b : ℕ,
      ((a : ℤ) * m).tdiv b = (a : ℤ).tdiv b * m + ((a : ℤ).tmod b * m).tdiv b := by
    intro a b
    rw [← Int.ofNat_tdiv, ← Int.ofNat_tmod, ← Int.natCast_mul, ← Int.natCast_mul,
      ← Int.natCast_mul, ← Int.ofNat_tdiv, ← Int.ofNat_tdiv, nat, Int.natCast_add]
  obtain ⟨a, rfl | rfl⟩ := n.eq_nat_or_neg <;> obtain ⟨b, rfl | rfl⟩ := d.eq_nat_or_neg
  · exact cast a b
  · rw [Int.tdiv_neg, Int.tdiv_neg, Int.tdiv_neg, Int.tmod_neg, cast]
    ring
  · rw [Int.neg_mul, Int.neg_tdiv, Int.neg_tdiv, Int.neg_tmod, Int.neg_mul, Int.neg_mul,
      Int.neg_tdiv, cast]
    ring
  · rw [Int.neg_mul, Int.neg_tdiv_neg, Int.neg_tdiv_neg, Int.tmod_neg, Int.neg_tmod, Int.neg_mul,
      Int.neg_tdiv_neg, cast]

/-- Nothing is lost when the remainder is small. -/
theorem mul_tdiv_eq_iff {n d : ℤ} (m : ℕ) (hd : d ≠ 0) :
    (n * m).tdiv d = n.tdiv d * m ↔ (n.tmod d).natAbs * m < d.natAbs := by
  have lost : (n.tmod d * m).tdiv d = 0 ↔ (n.tmod d).natAbs * m < d.natAbs := by
    rw [← Int.natAbs_eq_zero, Int.natAbs_tdiv, Int.natAbs_mul, Int.natAbs_natCast]
    exact Nat.div_eq_zero_iff_lt (Int.natAbs_pos.mpr hd)
  rw [mul_tdiv, ← lost]
  omega

/-- The quotient that is cut first is the smaller one. -/
theorem tdiv_mul_between (n d : ℤ) (m : ℕ) :
    0 ≤ n.tdiv d * m ∧ n.tdiv d * m ≤ (n * m).tdiv d ∨
    (n * m).tdiv d ≤ n.tdiv d * m ∧ n.tdiv d * m ≤ 0 := by
  have cast : ∀ a b : ℕ, 0 ≤ (a : ℤ).tdiv b * m ∧ (a : ℤ).tdiv b * m ≤ ((a : ℤ) * m).tdiv b := by
    intro a b
    rw [← Int.ofNat_tdiv, ← Int.natCast_mul, ← Int.natCast_mul, ← Int.ofNat_tdiv]
    have := Nat.mul_div_le_mul_div_assoc m a b
    rw [Nat.mul_comm m, Nat.mul_comm m] at this
    omega
  obtain ⟨a, rfl | rfl⟩ := n.eq_nat_or_neg <;> obtain ⟨b, rfl | rfl⟩ := d.eq_nat_or_neg
  · exact .inl (cast a b)
  · have := cast a b
    rw [Int.tdiv_neg, Int.tdiv_neg, Int.neg_mul]
    omega
  · have := cast a b
    rw [Int.neg_mul, Int.neg_tdiv, Int.neg_tdiv, Int.neg_mul]
    omega
  · rw [Int.neg_mul, Int.neg_tdiv_neg, Int.neg_tdiv_neg]
    exact .inl (cast a b)

section

variable {m : ℕ}

/-- Of a quotient by ten units the first digit that is dropped decides. -/
theorem roundAway_natCast_div (hm : 0 < m) (a : ℕ) :
    roundAway ((a : ℚ) / (10 * m : ℕ)) =
      ((a / (10 * m) + if 5 ≤ a / m % 10 then 1 else 0 : ℕ) : ℤ) := by
  have pos : (0 : ℚ) < (10 * m : ℕ) := by
    exact_mod_cast Nat.mul_pos (by norm_num) hm
  have nonneg : (0 : ℚ) ≤ (a : ℚ) / (10 * m : ℕ) := div_nonneg (Nat.cast_nonneg a) pos.le
  have digit : a / m % 10 = a % (10 * m) / m := by
    rw [Nat.mul_comm 10 m, Nat.mod_mul_right_div_self]
  have split := Nat.div_add_mod a (10 * m)
  have less := Nat.mod_lt a (Nat.mul_pos (by norm_num : 0 < 10) hm)
  unfold roundAway
  rw [if_pos nonneg, Int.floor_eq_iff]
  set q := a / (10 * m) with hq
  set r := a % (10 * m) with hr
  have value : (a : ℚ) = (10 * m : ℕ) * q + r := by
    exact_mod_cast split.symm
  have half : (a : ℚ) / (10 * m : ℕ) = q + r / (10 * m : ℕ) := by
    rw [value]
    field_simp
  rw [half, digit]
  by_cases up : 5 ≤ r / m
  · rw [if_pos up]
    have le : 5 * m ≤ r := (Nat.le_div_iff_mul_le hm).mp up
    have low : (1 / 2 : ℚ) ≤ r / (10 * m : ℕ) := by
      rw [div_le_div_iff₀ (by norm_num) pos]
      push_cast
      have : (5 * m : ℚ) ≤ r := by exact_mod_cast le
      linarith
    have high : (r : ℚ) / (10 * m : ℕ) < 1 := by
      rw [div_lt_one pos]
      exact_mod_cast less
    generalize (r : ℚ) / (10 * m : ℕ) = e at low high ⊢
    push_cast
    constructor <;> linarith
  · rw [if_neg up]
    have lt : r < 5 * m := (Nat.div_lt_iff_lt_mul hm).mp (Nat.not_le.mp up)
    have low : (0 : ℚ) ≤ r / (10 * m : ℕ) := div_nonneg (Nat.cast_nonneg r) pos.le
    have high : (r : ℚ) / (10 * m : ℕ) < 1 / 2 := by
      rw [div_lt_div_iff₀ pos (by norm_num)]
      push_cast
      have : (r : ℚ) < 5 * m := by exact_mod_cast lt
      linarith
    generalize (r : ℚ) / (10 * m : ℕ) = e at low high ⊢
    push_cast
    constructor <;> linarith

/-- The same for a quotient of either sign that is cut towards zero. -/
theorem roundAway_intCast_div (hm : 0 < m) (n : ℤ) :
    roundAway ((n : ℚ) / (10 * m : ℕ)) = n.tdiv (10 * m : ℕ) +
      if 4 < (n.tdiv m).tmod 10 then 1 else if (n.tdiv m).tmod 10 < -4 then -1 else 0 := by
  obtain ⟨a, rfl | rfl⟩ := n.eq_nat_or_neg
  · rw [Int.cast_natCast, roundAway_natCast_div hm]
    have digit : ((a : ℤ).tdiv m).tmod 10 = (a / m % 10 : ℕ) := by
      norm_cast
    have quotient : (a : ℤ).tdiv (10 * m : ℕ) = (a / (10 * m) : ℕ) := by
      norm_cast
    rw [digit, quotient]
    push_cast
    split_ifs <;> omega
  · rw [Int.cast_neg, neg_div, roundAway_neg, Int.cast_natCast, roundAway_natCast_div hm]
    have digit : ((-(a : ℤ)).tdiv m).tmod 10 = -(a / m % 10 : ℕ) := by
      rw [Int.neg_tdiv, Int.neg_tmod]
      norm_cast
    have quotient : (-(a : ℤ)).tdiv (10 * m : ℕ) = -(a / (10 * m) : ℕ) := by
      rw [Int.neg_tdiv]
      norm_cast
    rw [digit, quotient]
    push_cast
    split_ifs <;> omega

end

end Rounding
