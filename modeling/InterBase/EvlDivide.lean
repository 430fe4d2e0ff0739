import InterBase.EvlArith

namespace InterBase.Arith

open Cvt Rounding

/-- How a division ends when it does not return: `ERR_post`, or a quotient of two `SINT64`s that
none of them holds, which C leaves undefined. -/
inductive DivideStop where
  | errPost (e : EvlError)
  | quotientOverflow
deriving Repr, DecidableEq

def maxInt64Limit : Int64 := Int64.maxValue / 10

def minInt64Limit : Int64 := Int64.minValue / 10

/-- `while ((addl_scale < 0) && ...) { i *= 10; ++addl_scale; }`, with the number for `-addl_scale`:
the value and what is left of the number. -/
def timesTen (hasRoom : Int64 → Prop) [DecidablePred hasRoom] : Nat → Int64 → Int64 × Nat
  | 0, i => (i, 0)
  | left + 1, i => if hasRoom i then timesTen hasRoom left (i * 10) else (i, left + 1)

/-- The loop for either sign. -/
def scaleBy (left : Nat) (i : Int64) : Int64 × Nat :=
  if 0 ≤ i then timesTen (· ≤ maxInt64Limit) left i else timesTen (minInt64Limit ≤ ·) left i

/-- `while ((addl_scale < 0) && (0 == (i2 % 10)))`. -/
def dropZeros : Nat → Int64 → Int64 × Nat
  | 0, i => (i, 0)
  | left + 1, i => if i % 10 = 0 then dropZeros left (i / 10) else (i, left + 1)

/-- `i1 / i2`. -/
def quotient (i1 i2 : Int64) : Except DivideStop Int64 :=
  if i1 = Int64.minValue ∧ i2 = -1 then .error .quotientOverflow else .ok (i1 / i2)

/-- `desc->dsc_scale`; that of a text is 0. -/
def dscScale (desc : Operand) : Int := (numericScale desc.dsc).toInt

def getInt64 (desc : Operand) (scale : Int) : Except DivideStop Int64 :=
  (movGetInt64 desc scale).mapError .errPost

/-- The quotient when the flag `nod_double` is clear. -/
def divide2 (desc : Operand) (value : Operand) (node : Node) : Except DivideStop Vlu := do
  let i2 ← getInt64 desc (dscScale desc)
  if i2 = 0 then .error (.errPost .arithExcept)
  else do
    let i1 ← getInt64 value (dscScale value)
    if i1 = Int64.minValue ∧ i2 = -1 then .error (.errPost .integerOverflow)
    else do
      let (i1, left) := scaleBy (-(2 * dscScale desc)).toNat i1
      let (i2, left) := dropZeros left i2
      let vluInt64 ← quotient i1 i2
      let (vluInt64, left) := scaleBy left vluInt64
      if 0 < left then .error (.errPost .arithExcept)
      else .ok ⟨node.nodScale, value.dscSubType, vluInt64⟩

/-- The true quotient, cut towards zero, with `k` more digits. -/
def trueQuotient (v1 v2 : Int) (k : Nat) : Int := (v1 * 10 ^ k).tdiv v2

/-- The true quotient, or an error because it does not fit. -/
def DividesExactly (r : Except DivideStop Vlu) (v : Int) : Prop :=
  match r with
  | .ok vlu => vlu.vluInt64.toInt = v
  | .error (.errPost _) => ¬ Fits v
  | .error .quotientOverflow => False

instance (r : Except DivideStop Vlu) (v : Int) : Decidable (DividesExactly r v) :=
  match r with
  | .ok vlu => inferInstanceAs (Decidable (vlu.vluInt64.toInt = v))
  | .error (.errPost _) => inferInstanceAs (Decidable (¬ Fits v))
  | .error .quotientOverflow => inferInstanceAs (Decidable False)

/-- How many of the powers of ten the dividend takes. -/
def tens (k : Nat) (v : Int) : Nat := Nat.findGreatest (fun j => Fits (v * 10 ^ j)) k

/-- How many of the powers of ten the divisor gives. -/
def zeros (k : Nat) (v : Int) : Nat := Nat.findGreatest (fun t => (10 ^ t : Int) ∣ v) k

/-- The quotient is not the one that is undefined, and either no digit is lost when powers of ten are
left for it, or it does not take them. -/
def DividesWell (v1 v2 : Int) (k : Nat) : Prop :=
  let n := v1 * 10 ^ tens k v1
  let d := v2.tdiv (10 ^ zeros (k - tens k v1) v2)
  let left := k - tens k v1 - zeros (k - tens k v1) v2
  ¬ (v1 = int64Min ∧ d = -1 ∧ v2 ≠ -1) ∧
    ((n.tmod d).natAbs * 10 ^ left < d.natAbs ∨ ¬ Fits (n.tdiv d * 10 ^ left))

instance (v1 v2 : Int) (k : Nat) : Decidable (DividesWell v1 v2 k) :=
  inferInstanceAs (Decidable (_ ∧ _))

section

variable {hasRoom : Int64 → Prop} [DecidablePred hasRoom] {i r : Int64} {left rest k : Nat} {v : Int}

/-- What a loop that multiplies leaves: some of the powers are taken, and no other would fit. -/
structure Scaled (v : Int) (k : Nat) (w : Int) (rest : Nat) : Prop where
  taken : ∃ j, j + rest = k ∧ w = v * 10 ^ j
  full : 0 < rest → ¬ Fits (w * 10)

theorem timesTen_scaled (room : ∀ i : Int64, (0 ≤ i.toInt ↔ 0 ≤ v) →
    (hasRoom i ↔ Fits (i.toInt * 10))) (sign : 0 ≤ i.toInt ↔ 0 ≤ v) :
    Scaled i.toInt left (timesTen hasRoom left i).1.toInt (timesTen hasRoom left i).2 := by
  induction left generalizing i with
  | zero => exact ⟨⟨0, rfl, by rw [pow_zero, mul_one]; rfl⟩, fun h => absurd h (Nat.lt_irrefl 0)⟩
  | succ left ih =>
    unfold timesTen
    by_cases h : hasRoom i
    · rw [if_pos h]
      have fits := (room i sign).mp h
      have next : (i * 10).toInt = i.toInt * 10 := by
        rw [Int64.toInt_mul]
        exact fits.bmod_eq
      obtain ⟨⟨j, count, value⟩, full⟩ := ih (i := i * 10) (by rw [next]; omega)
      refine ⟨⟨j + 1, by omega, ?_⟩, full⟩
      rw [value, next, pow_succ']
      ring
    · rw [if_neg h]
      refine ⟨⟨0, by omega, ?_⟩, fun _ => mt (room i sign).mpr h⟩
      rw [pow_zero, mul_one]

theorem scaleBy_scaled (left : Nat) (i : Int64) :
    Scaled i.toInt left (scaleBy left i).1.toInt (scaleBy left i).2 := by
  have top : maxInt64Limit.toInt = 922337203685477580 := by decide
  have bottom : minInt64Limit.toInt = -922337203685477580 := by decide
  unfold scaleBy
  split_ifs with h
  · rw [Int64.le_iff_toInt_le, Int64.toInt_zero] at h
    refine timesTen_scaled (v := i.toInt) (fun a same => ?_) Iff.rfl
    rw [Int64.le_iff_toInt_le, top]
    unfold Fits int64Min int64Max
    omega
  · rw [Int64.le_iff_toInt_le, Int64.toInt_zero] at h
    refine timesTen_scaled (v := i.toInt) (fun a same => ?_) Iff.rfl
    rw [Int64.le_iff_toInt_le, bottom]
    unfold Fits int64Min int64Max
    omega

/-- A value that does not fit does not fit with more digits. -/
theorem not_fits_mul {m : Int} (h : ¬ Fits v) (one : 1 ≤ m) : ¬ Fits (v * m) := by
  unfold Fits int64Min int64Max at *
  rcases le_total 0 v with pos | neg
  · have := le_mul_of_one_le_right pos one
    omega
  · have := Int.mul_le_mul_of_nonneg_left one (Int.neg_nonneg_of_nonpos neg)
    rw [mul_one, Int.neg_mul] at this
    omega

theorem Scaled.tens_eq {w : Int} (h : Scaled v k w rest) (fits : Fits w) :
    tens k v + rest = k ∧ w = v * 10 ^ tens k v := by
  obtain ⟨⟨j, count, value⟩, full⟩ := h
  have same : tens k v = j := by
    refine Nat.findGreatest_eq_iff.mpr ⟨by omega, fun _ => value ▸ fits, fun n more most => ?_⟩
    have split : v * 10 ^ n = v * 10 ^ j * 10 * 10 ^ (n - j - 1) := by
      rw [mul_assoc, mul_assoc, ← pow_succ', ← pow_add]
      congr 2
      omega
    rw [split, ← value]
    exact not_fits_mul (full (by omega)) (one_le_pow₀ (by norm_num))
  rw [same]
  exact ⟨count, value⟩

theorem dropZeros_spec (left : Nat) (i : Int64) (hi : i.toInt ≠ 0) :
    ∃ t, t + (dropZeros left i).2 = left ∧ i.toInt = (dropZeros left i).1.toInt * 10 ^ t ∧
      (0 < (dropZeros left i).2 → ¬ 10 ∣ (dropZeros left i).1.toInt) := by
  induction left generalizing i with
  | zero => exact ⟨0, rfl, by rw [pow_zero, mul_one]; rfl, fun h => absurd h (Nat.lt_irrefl 0)⟩
  | succ left ih =>
    have divides : i % 10 = 0 ↔ (10 : Int) ∣ i.toInt := by
      rw [← Int64.toInt_inj, Int64.toInt_mod, Int64.toInt_zero]
      exact Int.dvd_iff_tmod_eq_zero.symm
    unfold dropZeros
    by_cases h : i % 10 = 0
    · rw [if_pos h]
      have ten := divides.mp h
      have next : (i / 10).toInt = i.toInt.tdiv 10 := by
        rw [Int64.toInt_div]
        exact (fits_tdiv (fits_toInt i)).bmod_eq
      have back : (i / 10).toInt * 10 = i.toInt := by
        rw [next]
        exact Int.tdiv_mul_cancel ten
      obtain ⟨t, count, value, last⟩ := ih (i / 10) (by omega)
      refine ⟨t + 1, by omega, ?_, last⟩
      rw [pow_succ, ← mul_assoc, ← value, back]
    · rw [if_neg h]
      refine ⟨0, by omega, ?_, fun _ => mt divides.mpr h⟩
      rw [pow_zero, mul_one]

theorem dropZeros_eq (left : Nat) (i : Int64) (hi : i.toInt ≠ 0) :
    zeros left i.toInt + (dropZeros left i).2 = left ∧
      (dropZeros left i).1.toInt = i.toInt.tdiv (10 ^ zeros left i.toInt) ∧
      i.toInt = (dropZeros left i).1.toInt * 10 ^ zeros left i.toInt := by
  obtain ⟨t, count, value, last⟩ := dropZeros_spec left i hi
  have pos : (0 : Int) < 10 ^ t := pow_pos (by norm_num) t
  have same : zeros left i.toInt = t := by
    refine Nat.findGreatest_eq_iff.mpr ⟨by omega, fun _ => ?_, fun n more most => ?_⟩
    · exact Dvd.intro_left _ value.symm
    · intro divides
      have one : (10 : Int) ^ (t + 1) ∣ i.toInt := (pow_dvd_pow 10 more).trans divides
      rw [value, pow_succ', Int.mul_dvd_mul_iff_right pos.ne'] at one
      exact last (by omega) one
  rw [same]
  refine ⟨count, ?_, value⟩
  conv_rhs => rw [value]
  exact (Int.mul_tdiv_cancel _ pos.ne').symm

end

/-- An exact numeric at its own scale. -/
theorem getInt64_exact (scale : Int8) (v : ExactValue) (subType : Int16) :
    getInt64 ⟨.exact scale v, subType⟩ scale.toInt = .ok (Int64.ofInt v.toInt) := by
  have same : toSshort (scale.toInt - scale.toInt) = 0 := by
    rw [Int.sub_self]
    rfl
  unfold getInt64 movGetInt64 cvtGetInt64
  dsimp only
  rw [same]
  rfl

section

variable {n d v w : Int} {k left : Nat}

theorem not_fits_ten_pow (h : ¬ Fits (v * 10)) (hk : 0 < k) : ¬ Fits (v * 10 ^ k) := by
  have split : v * 10 ^ k = v * 10 * 10 ^ (k - 1) := by
    rw [mul_assoc, ← pow_succ']
    congr 2
    omega
  rw [split]
  exact not_fits_mul h (one_le_pow₀ (by norm_num))

/-- The least value takes no more digits. -/
theorem eq_int64Min_iff {j : Nat} (fits : Fits (v * 10 ^ j)) :
    v * 10 ^ j = int64Min ↔ v = int64Min := by
  rcases Nat.eq_zero_or_pos j with rfl | pos
  · rw [pow_zero, mul_one]
  · have ten : v * 10 ^ j = 10 * (v * 10 ^ (j - 1)) := by
      rw [mul_left_comm, ← pow_succ']
      congr 2
      omega
    constructor
    · intro h
      rw [ten] at h
      unfold int64Min at h
      omega
    · rintro rfl
      exact absurd fits (not_fits_ten_pow (by decide) pos)

theorem fits_quotient (fits : Fits n) (hd : d ≠ 0) (h : ¬ (n = int64Min ∧ d = -1)) :
    Fits (n.tdiv d) := by
  have size : (n.tdiv d).natAbs = n.natAbs / d.natAbs := Int.natAbs_tdiv n d
  have le : n.natAbs / d.natAbs ≤ n.natAbs := Nat.div_le_self _ _
  unfold Fits int64Min int64Max at *
  by_cases one : d.natAbs = 1
  · rcases (show d = 1 ∨ d = -1 by omega) with rfl | rfl
    · rw [Int.tdiv_one]
      exact fits
    · rw [Int.tdiv_neg, Int.tdiv_one]
      omega
  · have half : n.natAbs / d.natAbs ≤ n.natAbs / 2 := Nat.div_le_div_left (by omega) (by omega)
    omega

/-- The powers of ten that the divisor gives cancel. -/
theorem trueQuotient_eq {v1 v2 : Int} {j t : Nat} (hk : j + t + left = k)
    (hd : v2 = d * 10 ^ t) :
    trueQuotient v1 v2 k = (v1 * 10 ^ j * (10 ^ left : Nat)).tdiv d := by
  have pos : (0 : Int) < 10 ^ t := pow_pos (by norm_num) t
  have whole : v1 * 10 ^ k = v1 * 10 ^ j * (10 ^ left : Nat) * 10 ^ t := by
    rw [← hk]
    push_cast
    ring
  unfold trueQuotient
  rw [whole, hd, Int.mul_tdiv_mul_of_pos_left _ _ pos]

theorem not_fits_tdiv (h : ¬ Fits (n.tdiv d * (10 ^ left : Nat))) :
    ¬ Fits ((n * (10 ^ left : Nat)).tdiv d) := by
  have between := tdiv_mul_between n d (10 ^ left)
  unfold Fits int64Min int64Max at *
  omega

end

/-- What is done with the dividend and the divisor that the loops leave. -/
theorem quotient_divides {n d : Int64} (left : Nat) (scale : Int8) (subType : Int16)
    (hd : d.toInt ≠ 0) :
    DividesExactly (do
      let vluInt64 ← quotient n d
      let (vluInt64, left) := scaleBy left vluInt64
      if 0 < left then .error (.errPost .arithExcept) else .ok ⟨scale, subType, vluInt64⟩)
      ((n.toInt * (10 ^ left : Nat)).tdiv d.toInt) ↔
    ¬ (n.toInt = int64Min ∧ d.toInt = -1) ∧
      ((n.toInt.tmod d.toInt).natAbs * 10 ^ left < d.toInt.natAbs ∨
        ¬ Fits (n.toInt.tdiv d.toInt * 10 ^ left)) := by
  have least : n = Int64.minValue ∧ d = -1 ↔ n.toInt = int64Min ∧ d.toInt = -1 := by
    rw [← Int64.toInt_inj, ← Int64.toInt_inj]
    rfl
  have cast : (10 : Int) ^ left = (10 ^ left : Nat) := by
    push_cast
    rfl
  unfold quotient
  by_cases undefined : n = Int64.minValue ∧ d = -1
  · rw [if_pos undefined]
    exact iff_of_false id (not_and_of_not_left _ (not_not.mpr (least.mp undefined)))
  · rw [if_neg undefined]
    have other := mt least.mpr undefined
    have value : (n / d).toInt = n.toInt.tdiv d.toInt := by
      rw [Int64.toInt_div]
      exact (fits_quotient (fits_toInt n) hd other).bmod_eq
    obtain ⟨⟨j, count, scaled⟩, full⟩ := scaleBy_scaled left (n / d)
    rw [value] at scaled
    simp only [bind, Except.bind]
    by_cases more : 0 < (scaleBy left (n / d)).2
    · rw [if_pos more]
      have large : ¬ Fits (n.toInt.tdiv d.toInt * 10 ^ left) := by
        rw [← count, pow_add, ← mul_assoc, ← scaled]
        exact not_fits_ten_pow (full more) more
      have true_large := large
      rw [cast] at true_large
      exact iff_of_true (not_fits_tdiv true_large) ⟨other, .inr large⟩
    · rw [if_neg more]
      have all : (scaleBy left (n / d)).1.toInt = n.toInt.tdiv d.toInt * 10 ^ left := by
        rw [scaled, ← count]
        congr 2
        omega
      have fits : Fits (n.toInt.tdiv d.toInt * 10 ^ left) := all ▸ fits_toInt _
      show (scaleBy left (n / d)).1.toInt = _ ↔ _
      rw [all, cast, eq_comm, mul_tdiv_eq_iff _ hd]
      refine ⟨fun small => ⟨other, .inl small⟩, fun h => h.2.resolve_right ?_⟩
      rwa [← cast, not_not]

theorem not_fits_least (k : Nat) : ¬ Fits (trueQuotient Int64.minValue.toInt (-1 : Int64).toInt k) := by
  have one : (1 : Int) ≤ 10 ^ k := one_le_pow₀ (by norm_num)
  have value : trueQuotient Int64.minValue.toInt (-1 : Int64).toInt k =
      9223372036854775808 * 10 ^ k := by
    show (-9223372036854775808 * 10 ^ k : Int).tdiv (-1) = _
    rw [Int.tdiv_neg, Int.tdiv_one, Int.neg_mul, neg_neg]
  rw [value]
  exact not_fits_mul (by decide) one

theorem dividesWell_least (k : Nat) :
    DividesWell Int64.minValue.toInt (-1 : Int64).toInt k := by
  obtain ⟨-, divisor, back⟩ := dropZeros_eq (k - tens k Int64.minValue.toInt) (-1) (by decide)
  have one : ((dropZeros (k - tens k Int64.minValue.toInt) (-1)).1.toInt).natAbs = 1 := by
    have size := congrArg Int.natAbs back
    rw [Int.natAbs_mul] at size
    exact Nat.eq_one_of_mul_eq_one_right size.symm
  unfold DividesWell
  dsimp only
  rw [← divisor]
  refine ⟨fun h => h.2.2 rfl, .inl ?_⟩
  rw [one, Nat.lt_one_iff, Int.natAbs_tmod, one, Nat.mod_one, Nat.zero_mul]

/-- The quotient of two exact numerics is the true one, or does not fit, exactly when no digit is
lost on the way. -/
theorem divide2_exact_iff (s1 s2 : Int8) (v1 v2 : ExactValue) (sub1 sub2 : Int16) (node : Node)
    (nonzero : v2.toInt ≠ 0) (hs : s2.toInt ≤ 0) :
    DividesExactly (divide2 ⟨.exact s2 v2, sub2⟩ ⟨.exact s1 v1, sub1⟩ node)
      (trueQuotient v1.toInt v2.toInt (2 * s2.toInt.natAbs)) ↔
    DividesWell v1.toInt v2.toInt (2 * s2.toInt.natAbs) := by
  have count : (-(2 * s2.toInt)).toNat = 2 * s2.toInt.natAbs := by omega
  unfold divide2 dscScale numericScale
  dsimp only
  rw [getInt64_exact, getInt64_exact, count]
  have value1 := (show Fits v1.toInt from v1.mem).toInt_ofInt
  have value2 := (show Fits v2.toInt from v2.mem).toInt_ofInt
  generalize Int64.ofInt v1.toInt = i1 at value1
  generalize Int64.ofInt v2.toInt = i2 at value2
  generalize 2 * s2.toInt.natAbs = k
  rw [← value1, ← value2]
  rw [← value2] at nonzero
  have none : i2 ≠ 0 := fun h => nonzero (by rw [h]; rfl)
  simp only [bind, Except.bind]
  rw [if_neg none]
  by_cases excluded : i1 = Int64.minValue ∧ i2 = -1
  · rw [if_pos excluded]
    obtain ⟨rfl, rfl⟩ := excluded
    exact iff_of_true (not_fits_least k) (dividesWell_least k)
  · rw [if_neg excluded]
    obtain ⟨count1, dividend⟩ := (scaleBy_scaled k i1).tens_eq (fits_toInt _)
    obtain ⟨count2, divisor, back⟩ := dropZeros_eq (scaleBy k i1).2 i2 nonzero
    have rest : k - tens k i1.toInt = (scaleBy k i1).2 := by omega
    have left : (scaleBy k i1).2 - zeros (scaleBy k i1).2 i2.toInt =
        (dropZeros (scaleBy k i1).2 i2).2 := by omega
    have whole : tens k i1.toInt + zeros (scaleBy k i1).2 i2.toInt +
        (dropZeros (scaleBy k i1).2 i2).2 = k := by omega
    have hd : (dropZeros (scaleBy k i1).2 i2).1.toInt ≠ 0 := by
      intro h
      rw [h, zero_mul] at back
      exact nonzero back
    have least : i1.toInt = int64Min → i2.toInt ≠ -1 := by
      intro h1 h2
      exact excluded ⟨Int64.toInt_inj.mp h1, Int64.toInt_inj.mp h2⟩
    unfold DividesWell
    dsimp only
    rw [rest, left, ← divisor, trueQuotient_eq whole back, ← dividend]
    refine (quotient_divides _ node.nodScale sub1 hd).trans (and_congr_left fun _ => not_congr ?_)
    rw [dividend, eq_int64Min_iff (dividend ▸ fits_toInt _)]
    exact ⟨fun h => ⟨h.1, h.2, least h.1⟩, fun h => ⟨h.1, h.2.1⟩⟩

/-- 1.00 / 3.00 is 0.3333. -/
theorem divide2_exact_iff_third :
    DividesExactly (divide2 ⟨.exact (-2) (.long 300), 0⟩ ⟨.exact (-2) (.long 100), 0⟩ ⟨.divide2, -4⟩)
      (trueQuotient 100 300 4) :=
  (divide2_exact_iff (-2) (-2) (.long 100) (.long 300) 0 0 ⟨.divide2, -4⟩ (by decide)
    (by decide)).mpr (by decide)

/-- A large dividend by 1.13 loses the last digits, and the least one by -1.0 has no quotient. -/
theorem divide2_inexact :
    ¬ DividesExactly (divide2 ⟨.exact (-2) (.int64 113), 0⟩
        ⟨.exact 0 (.int64 10000000000000000), 0⟩ ⟨.divide2, -2⟩)
      (trueQuotient 10000000000000000 113 4) ∧
    ¬ DividesExactly (divide2 ⟨.exact (-1) (.int64 (-10)), 0⟩
        ⟨.exact 0 (.int64 Int64.minValue), 0⟩ ⟨.divide2, -1⟩)
      (trueQuotient (-9223372036854775808) (-10) 2) := by
  decide

end InterBase.Arith
