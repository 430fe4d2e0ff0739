import InterBase.Cvt

namespace InterBase.Cvt

open Rounding

/-- An integer type: what it keeps of a value, and the limit up to which a value can be multiplied
by 10. -/
structure Width (keep : Int → Int) (limit low high : Int) : Prop where
  kept : ∀ v, low ≤ v → v ≤ high → keep v = v
  nonneg : 0 ≤ limit
  top : limit * 10 ≤ high ∧ high < limit * 10 + 10
  bottom : low ≤ -limit * 10 ∧ -limit * 10 - 10 < low

theorem bmod_of_mem {m : Nat} {v : Int} (low : -((m : Int) / 2) ≤ v) (high : v < ((m : Int) + 1) / 2) :
    v.bmod m = v :=
  Int.bmod_eq_of_le low high

theorem longWidth : Width toSlong longLimit longMin longMax where
  kept v low high := by
    unfold longMin at low
    unfold longMax at high
    refine bmod_of_mem ?_ ?_ <;> norm_num <;> omega
  nonneg := by decide
  top := by decide
  bottom := by decide

theorem int64Width : Width toSint64 int64Limit int64Min int64Max where
  kept v low high := by
    unfold int64Min at low
    unfold int64Max at high
    refine bmod_of_mem ?_ ?_ <;> norm_num <;> omega
  nonneg := by decide
  top := by decide
  bottom := by decide

theorem scaleDown_eq (scale : Nat) (value : Int) : scaleDown scale value =
    (value.tdiv (10 * 10 ^ scale : Nat), (value.tdiv (10 ^ scale : Nat)).tmod 10) := by
  induction scale generalizing value with
  | zero =>
    unfold scaleDown
    rw [pow_zero, Nat.mul_one, Nat.cast_one, Int.tdiv_one]
    rfl
  | succ scale ih =>
    have ten : value.tdiv 10 = value.tdiv (10 : Nat) := rfl
    unfold scaleDown
    rw [ih, ten, tdiv_tdiv, tdiv_tdiv, ← Nat.pow_succ']

section

variable {keep : Int → Int} {limit low high : Int}

/-- Scaling up is exact, and fails where the result does not fit. -/
theorem scaleUp_eq (w : Width keep limit low high) (scale : Nat) {value : Int}
    (hlow : low ≤ value) (hhigh : value ≤ high) : scaleUp keep limit scale value =
      if low ≤ value * 10 ^ scale ∧ value * 10 ^ scale ≤ high then .ok (value * 10 ^ scale)
      else .error .arithExcept := by
  induction scale generalizing value with
  | zero =>
    rw [pow_zero, mul_one, if_pos ⟨hlow, hhigh⟩]
    rfl
  | succ scale ih =>
    have top := w.top
    have bottom := w.bottom
    have one : (1 : Int) ≤ 10 ^ scale := one_le_pow₀ (by norm_num)
    have step : value * 10 ^ (scale + 1) = value * 10 * 10 ^ scale := by
      rw [pow_succ']
      ring
    unfold scaleUp
    rw [step]
    by_cases outside : limit < value ∨ value < -limit
    · rw [if_pos outside, if_neg]
      rintro ⟨above, below⟩
      rcases outside with more | less
      · have : limit * 10 + 10 ≤ value * 10 := by omega
        nlinarith
      · have : value * 10 ≤ -limit * 10 - 10 := by omega
        nlinarith
    · rw [not_or, not_lt, not_lt] at outside
      rw [if_neg (by omega), w.kept (value * 10) (by omega) (by omega)]
      exact ih (by omega) (by omega)

/-- Rounding a value by its dropped digits leaves it in its range. -/
theorem roundFraction_eq (w : Width keep limit low high) (scale : Nat) {value : Int}
    (hlow : low ≤ value) (hhigh : value ≤ high) :
    roundFraction keep (value.tdiv (10 * 10 ^ scale : Nat))
        ((value.tdiv (10 ^ scale : Nat)).tmod 10) =
      roundAway ((value : ℚ) / (10 * 10 ^ scale : ℕ)) ∧
    low ≤ roundAway ((value : ℚ) / (10 * 10 ^ scale : ℕ)) ∧
    roundAway ((value : ℚ) / (10 * 10 ^ scale : ℕ)) ≤ high := by
  have top := w.top
  have bottom := w.bottom
  have pos : 0 < 10 ^ scale := Nat.pow_pos (by norm_num)
  rw [roundAway_intCast_div pos]
  have tenth : value.tdiv (10 * 10 ^ scale : Nat) = (value.tdiv (10 ^ scale : Nat)).tdiv 10 := by
    rw [Nat.mul_comm, ← tdiv_tdiv]
    rfl
  rw [tenth]
  generalize hq : value.tdiv (10 ^ scale : Nat) = q
  have near : q.natAbs ≤ value.natAbs := by
    rw [← hq]
    exact Int.natAbs_tdiv_le_natAbs value _
  have sign : (0 ≤ value → 0 ≤ q) ∧ (value ≤ 0 → q ≤ 0) := by
    rw [← hq]
    refine ⟨fun h => Int.tdiv_nonneg h (Int.natCast_nonneg _), fun h => ?_⟩
    have up := Int.tdiv_nonneg (Int.neg_nonneg_of_nonpos h) (Int.natCast_nonneg (10 ^ scale))
    rw [Int.neg_tdiv] at up
    omega
  have inside : low ≤ q ∧ q ≤ high := by
    have nonneg := w.nonneg
    rcases le_total 0 value with h | h
    · have := sign.1 h
      omega
    · have := sign.2 h
      omega
  have digits := Int.mul_tdiv_add_tmod q 10
  have bound : q.tmod 10 < 10 ∧ -10 < q.tmod 10 :=
    ⟨Int.tmod_lt_of_pos q (by norm_num), Int.lt_tmod_of_pos q (by norm_num)⟩
  have same : (0 ≤ q → 0 ≤ q.tmod 10) ∧ (q ≤ 0 → q.tmod 10 ≤ 0) := by
    refine ⟨Int.tmod_nonneg 10, fun h => ?_⟩
    have up := Int.tmod_nonneg 10 (Int.neg_nonneg_of_nonpos h)
    rw [Int.neg_tmod] at up
    omega
  have nonneg := w.nonneg
  generalize q.tdiv 10 = e at *
  generalize q.tmod 10 = d at *
  unfold roundFraction
  by_cases more : 4 < d
  · rw [if_pos more, if_pos more, w.kept (e + 1) (by omega) (by omega)]
    exact ⟨rfl, by omega, by omega⟩
  · rw [if_neg more, if_neg more]
    by_cases less : d < -4
    · rw [if_pos less, if_pos less, w.kept (e - 1) (by omega) (by omega)]
      exact ⟨rfl, by omega, by omega⟩
    · rw [if_neg less, if_neg less]
      exact ⟨(add_zero e).symm, by omega, by omega⟩

/-- An exact numeric of another scale is the nearest one, or it does not fit. -/
theorem adjustScale_eq (w : Width keep limit low high) (scale : Int) {value : Int}
    (hlow : low ≤ value) (hhigh : value ≤ high) :
    adjustScale keep limit true scale value =
      if low ≤ roundAway (value * 10 ^ (-scale)) ∧ roundAway (value * 10 ^ (-scale)) ≤ high then
        .ok (roundAway (value * 10 ^ (-scale)))
      else .error .arithExcept := by
  unfold adjustScale
  rcases lt_trichotomy scale 0 with h | rfl | h
  · obtain ⟨k, rfl⟩ : ∃ k : Nat, scale = -k := ⟨scale.natAbs, by omega⟩
    have exact : (value : ℚ) * 10 ^ (-(-(k : Int))) = (value * 10 ^ k : Int) := by
      rw [neg_neg, zpow_natCast]
      push_cast
      rfl
    rw [if_neg (by omega), if_pos h, exact, roundAway_intCast, neg_neg, Int.toNat_natCast]
    exact scaleUp_eq w k hlow hhigh
  · rw [if_neg (by omega), if_neg (by omega), neg_zero, zpow_zero, mul_one, roundAway_intCast,
      if_pos ⟨hlow, hhigh⟩]
  · obtain ⟨k, rfl⟩ : ∃ k : Nat, scale = k + 1 := ⟨(scale - 1).toNat, by omega⟩
    have quotient : (value : ℚ) * 10 ^ (-((k : Int) + 1)) = value / (10 * 10 ^ k : ℕ) := by
      rw [zpow_neg, div_eq_mul_inv, ← Nat.pow_succ']
      norm_cast
    obtain ⟨rounded, above, below⟩ := roundFraction_eq w k hlow hhigh
    have count : ((k : Int) + 1).toNat - 1 = k := by omega
    rw [quotient, if_pos h, if_pos (rfl : true = true), count, scaleDown_eq]
    rw [if_pos ⟨above, below⟩, ← rounded]

end

theorem ExactValue.mem (value : ExactValue) :
    int64Min ≤ value.toInt ∧ value.toInt ≤ int64Max := by
  cases value with
  | short v =>
    have low := v.le_toInt
    have high := v.toInt_le
    refine ⟨le_trans (by decide) low, le_trans high (by decide)⟩
  | long v =>
    have low := v.le_toInt
    have high := v.toInt_le
    refine ⟨le_trans (by decide) low, le_trans high (by decide)⟩
  | int64 v => exact ⟨v.le_toInt, v.toInt_le⟩

/-- The difference of two scales is an `SSHORT`. -/
theorem toSshort_sub (a b : Int8) : toSshort (a.toInt - b.toInt) = a.toInt - b.toInt := by
  have ha := a.le_toInt
  have ha' := a.toInt_lt
  have hb := b.le_toInt
  have hb' := b.toInt_lt
  norm_num at ha ha' hb hb'
  refine bmod_of_mem ?_ ?_ <;> norm_num <;> omega

/-- The value of a descriptor at another scale. -/
def rescaled (dscScale scale : Int8) (value : ExactValue) : Int :=
  roundAway (value.toInt * 10 ^ (dscScale.toInt - scale.toInt))

theorem getLongInt64_eq (scale : Int) {value : Int} (hlow : int64Min ≤ value)
    (hhigh : value ≤ int64Max) : getLongInt64 scale value =
      if longMin ≤ roundAway (value * 10 ^ (-scale)) ∧
          roundAway (value * 10 ^ (-scale)) ≤ longMax then
        .ok (roundAway (value * 10 ^ (-scale)))
      else .error .arithExcept := by
  have low : int64Min ≤ longMin := by decide
  have high : longMax ≤ int64Max := by decide
  unfold getLongInt64
  rw [adjustScale_eq int64Width scale hlow hhigh]
  generalize roundAway (value * 10 ^ (-scale)) = r
  by_cases fits : longMin ≤ r ∧ r ≤ longMax
  · rw [if_pos fits, if_pos ⟨low.trans fits.1, fits.2.trans high⟩]
    dsimp only
    rw [if_neg (by omega), longWidth.kept r fits.1 fits.2]
  · rw [if_neg fits]
    by_cases wide : int64Min ≤ r ∧ r ≤ int64Max
    · rw [if_pos wide]
      exact if_pos (by omega)
    · rw [if_neg wide]

/-- Both functions rescale an exact numeric to the nearest value, and fail when that is out of the
range of their results. -/
theorem cvtGet_exact (dscScale scale : Int8) (value : ExactValue) :
    (cvtGetLong (.exact dscScale value) scale.toInt =
      if longMin ≤ rescaled dscScale scale value ∧ rescaled dscScale scale value ≤ longMax then
        .ok (rescaled dscScale scale value)
      else .error .arithExcept) ∧
    (cvtGetInt64 (.exact dscScale value) scale.toInt =
      if int64Min ≤ rescaled dscScale scale value ∧ rescaled dscScale scale value ≤ int64Max then
        .ok (rescaled dscScale scale value)
      else .error .arithExcept) ∧
    (longMin ≤ rescaled dscScale scale value ∧ rescaled dscScale scale value ≤ longMax →
      cvtGetLong (.exact dscScale value) scale.toInt =
        cvtGetInt64 (.exact dscScale value) scale.toInt) := by
  have swap : dscScale.toInt - scale.toInt = -(scale.toInt - dscScale.toInt) := by omega
  have int64 : cvtGetInt64 (.exact dscScale value) scale.toInt =
      if int64Min ≤ rescaled dscScale scale value ∧ rescaled dscScale scale value ≤ int64Max then
        .ok (rescaled dscScale scale value)
      else .error .arithExcept := by
    unfold cvtGetInt64 rescaled
    rw [swap]
    dsimp only
    rw [toSshort_sub]
    exact adjustScale_eq int64Width _ value.mem.1 value.mem.2
  have long : cvtGetLong (.exact dscScale value) scale.toInt =
      if longMin ≤ rescaled dscScale scale value ∧ rescaled dscScale scale value ≤ longMax then
        .ok (rescaled dscScale scale value)
      else .error .arithExcept := by
    unfold cvtGetLong rescaled
    rw [swap]
    cases value with
    | short v =>
      dsimp only
      rw [toSshort_sub]
      refine adjustScale_eq longWidth _ ?_ ?_
      · exact le_trans (by decide) v.le_toInt
      · exact le_trans v.toInt_le (by decide)
    | long v =>
      dsimp only
      rw [toSshort_sub]
      exact adjustScale_eq longWidth _ v.le_toInt v.toInt_le
    | int64 v =>
      dsimp only
      rw [toSshort_sub]
      exact getLongInt64_eq _ v.le_toInt v.toInt_le
  refine ⟨long, int64, fun fits => ?_⟩
  have low : int64Min ≤ longMin := by decide
  have high : longMax ≤ int64Max := by decide
  rw [long, int64, if_pos fits, if_pos ⟨low.trans fits.1, fits.2.trans high⟩]

end InterBase.Cvt
