import InterBase.CvtScale

namespace InterBase.Arith

open Cvt

/-- What `ERR_post` is called with; it does not come back. -/
inductive EvlError where
  | integerOverflow
  | arithExcept
  | expressionEvalErr
  | dateRangeExceeded
  | cvt (e : CvtError)
deriving Repr, DecidableEq

inductive NodType where
  | add
  | subtract
  | add2
  | subtract2
  | average2
  | aggTotal2
  | aggAverage2
  | aggTotalDistinct2
  | aggAverageDistinct2
  | multiply2
  | divide2
deriving Repr, DecidableEq

structure Node where
  nodType : NodType
  nodScale : Int8
deriving DecidableEq

/-- The descriptor of an operand that is neither approximate nor a date. -/
structure Operand where
  dsc : Dsc
  dscSubType : Int16
deriving DecidableEq

/-- An int64 result: what is set in `vlu_desc`, and `vlu_int64`. -/
structure Vlu where
  dscScale : Int8
  dscSubType : Int16
  vluInt64 : Int64
deriving DecidableEq

/-- `NUMERIC_SCALE`. -/
def numericScale (d : Dsc) : Int8 :=
  match d with
  | .exact scale _ => scale
  | .text _ => 0

def movGetInt64 (desc : Operand) (scale : Int) : Except EvlError Int64 :=
  match cvtGetInt64 desc.dsc scale with
  | .error e => .error (.cvt e)
  | .ok v => .ok (Int64.ofInt v)

/-- The sum when the flags `nod_date`, `nod_double` and `nod_quad` are clear. -/
def add2 (desc : Operand) (node : Node) (value : Operand) : Except EvlError Vlu := do
  let i1 ← movGetInt64 desc node.nodScale.toInt
  let i2 ← movGetInt64 value node.nodScale.toInt
  let vluInt64 := if node.nodType = .subtract2 then i2 - i1 else i1 + i2
  let dscSubType := max desc.dscSubType value.dscSubType
  -- invert the sign bit
  let i1 := if node.nodType = .subtract2 then i1 ^^^ Int64.minValue else i1
  if 0 ≤ i1 ^^^ i2 ∧ i1 ^^^ vluInt64 < 0 then .error .integerOverflow
  else .ok ⟨node.nodScale, dscSubType, vluInt64⟩

/-- The absolute value as a `UINT64`. -/
def abs (i : Int64) : UInt64 := if 0 ≤ i then i.toUInt64 else (-i).toUInt64

/-- The product when the flags `nod_double` and `nod_quad` are clear. -/
def multiply2 (desc : Operand) (value : Operand) (node : Node) : Except EvlError Vlu := do
  let scale := (numericScale value.dsc).toInt
  let i1 ← movGetInt64 desc (node.nodScale.toInt - scale)
  let i2 ← movGetInt64 value scale
  let u1 := abs i1
  let u2 := abs i2
  -- `MAX_SINT64 + 1` wraps around to the value that is wanted
  let uLimit := (if 0 ≤ i1 ^^^ i2 then Int64.maxValue else Int64.maxValue + 1).toUInt64
  if u1 ≠ 0 ∧ uLimit / u1 < u2 then .error .integerOverflow
  else .ok ⟨node.nodScale, value.dscSubType, i1 * i2⟩

/-- A result that an int64 holds. -/
def Fits (v : Int) : Prop := int64Min ≤ v ∧ v ≤ int64Max

instance (v : Int) : Decidable (Fits v) := inferInstanceAs (Decidable (_ ∧ _))

/-- The exact result, or an overflow when it does not fit. -/
def exactly (v : Int) : Except EvlError Int := if Fits v then .ok v else .error .integerOverflow

/-- The value of an operand at another scale. -/
def valueAt (desc : Operand) (scale : Int) : Except EvlError Int :=
  (cvtGetInt64 desc.dsc scale).mapError .cvt

section

variable {a b : Int64} {v : Int}

theorem Fits.toInt_ofInt (h : Fits v) : (Int64.ofInt v).toInt = v := by
  obtain ⟨low, high⟩ := h
  unfold int64Min at low
  unfold int64Max at high
  exact Int64.toInt_ofInt_of_le (by norm_num; omega) (by norm_num; omega)

theorem Fits.bmod_eq (h : Fits v) : v.bmod (2 ^ 64) = v := by
  obtain ⟨low, high⟩ := h
  unfold int64Min at low
  unfold int64Max at high
  refine bmod_of_mem ?_ ?_ <;> norm_num <;> omega

theorem fits_toInt (a : Int64) : Fits a.toInt := ⟨a.le_toInt, a.toInt_le⟩

theorem fits_toSint64 (v : Int) : Fits (toSint64 v) := by
  have low := Int.le_bmod (x := v) (m := 18446744073709551616) (by norm_num)
  have high := Int.bmod_lt (x := v) (m := 18446744073709551616) (by norm_num)
  unfold Fits toSint64 int64Min int64Max
  norm_num at low high ⊢
  omega

theorem fits_tdiv (h : Fits v) : Fits (v.tdiv 10) := by
  have tenth : (v.tdiv 10).natAbs = v.natAbs / 10 := Int.natAbs_tdiv v 10
  obtain ⟨low, high⟩ := h
  unfold Fits int64Min int64Max at *
  omega

end

section

theorem fits_takeDigit {m : Mantissa} (c : UInt8) : Fits (takeDigit m c).value :=
  fits_toSint64 _

theorem decomposeLoop_fits {limit : Int} {string p : List UInt8} {m last : Mantissa}
    (fits : Fits m.value) (h : decomposeLoop limit string m = .ok (last, p)) :
    Fits last.value := by
  induction string generalizing m with
  | nil =>
    cases h
    exact fits
  | cons c string ih =>
    unfold decomposeLoop at h
    split_ifs at h
    · exact ih fits h
    · exact ih (fits_takeDigit c) h
    · exact ih (m := { m with fraction := true }) fits h
    · exact ih (m := { m with sign := -1 }) fits h
    · exact ih (m := { m with sign := 1 }) fits h
    · cases h
      exact fits
    · exact ih fits h

theorem decompose_fits {string : List UInt8} {v scale : Int}
    (h : decompose .int64 string = .ok (v, scale)) : Fits v := by
  unfold decompose at h
  split at h
  · cases h
  · next m p loop =>
    have fits := decomposeLoop_fits (by decide : Fits noDigits.value) loop
    split_ifs at h
    all_goals
      dsimp only at h
      split at h
      · cases h
      · cases h
        first
        | exact fits_toSint64 _
        | exact fits

theorem cutDown_fits (scale : Nat) {v : Int} (h : Fits v) : Fits (cutDown scale v) := by
  induction scale generalizing v with
  | zero => exact fits_tdiv h
  | succ scale ih => exact ih (fits_tdiv h)

theorem scaleUp_fits {limit : Int} (scale : Nat) {v w : Int} (fits : Fits v)
    (h : scaleUp toSint64 limit scale v = .ok w) : Fits w := by
  induction scale generalizing v with
  | zero =>
    cases h
    exact fits
  | succ scale ih =>
    unfold scaleUp at h
    split_ifs at h
    exact ih (fits_toSint64 _) h

theorem cvtGetInt64_fits {dsc : Dsc} {scale v : Int} (h : cvtGetInt64 dsc scale = .ok v) :
    Fits v := by
  cases dsc with
  | exact dscScale value =>
    unfold cvtGetInt64 at h
    dsimp only at h
    rw [adjustScale_eq int64Width _ value.mem.1 value.mem.2] at h
    split_ifs at h with fits
    cases h
    exact fits
  | text string =>
    unfold cvtGetInt64 at h
    dsimp only at h
    split at h
    · cases h
    · next value exponent decomposed =>
      have fits := decompose_fits decomposed
      unfold adjustScale at h
      split_ifs at h
      · contradiction
      · cases h
        exact cutDown_fits _ fits
      · exact scaleUp_fits _ fits h
      · cases h
        exact fits

/-- What the two functions read is the value of the operand. -/
theorem movGetInt64_cases (desc : Operand) (scale : Int) :
    (∃ i : Int64, movGetInt64 desc scale = .ok i ∧ valueAt desc scale = .ok i.toInt) ∨
    ∃ e, movGetInt64 desc scale = .error e ∧ valueAt desc scale = .error e := by
  unfold movGetInt64 valueAt
  cases h : cvtGetInt64 desc.dsc scale with
  | error e => exact .inr ⟨.cvt e, rfl, rfl⟩
  | ok v =>
    refine .inl ⟨Int64.ofInt v, rfl, ?_⟩
    rw [(cvtGetInt64_fits h).toInt_ofInt]
    rfl

end

section

variable {a b : Int64}

theorem toInt_xor_nonneg (a b : Int64) : 0 ≤ a ^^^ b ↔ (a.toInt < 0 ↔ b.toInt < 0) := by
  have sign : ∀ c : Int64, c.toBitVec.msb = decide (c.toInt < 0) := fun c => BitVec.msb_eq_toInt
  have both : (a ^^^ b).toBitVec.msb = (a.toBitVec.msb ^^ b.toBitVec.msb) := by
    rw [Int64.toBitVec_xor, BitVec.msb_xor]
  rw [sign, sign, sign] at both
  rw [Int64.le_iff_toInt_le, Int64.toInt_zero, ← not_lt, ← decide_eq_true_iff (p := _ < _), both]
  by_cases ha : a.toInt < 0 <;> by_cases hb : b.toInt < 0 <;> simp [ha, hb]

/-- Two numbers of one sign whose sum has the other have a sum that does not fit. -/
theorem add_overflows (a b : Int64) :
    (0 ≤ a ^^^ b ∧ a ^^^ (a + b) < 0) ↔ ¬ Fits (a.toInt + b.toInt) := by
  have ha := fits_toInt a
  have hb := fits_toInt b
  rw [toInt_xor_nonneg, ← Int64.not_le, toInt_xor_nonneg, Int64.toInt_add, Int.bmod_def]
  unfold Fits int64Min int64Max at *
  norm_num
  split_ifs <;> omega

theorem toInt_xor_minValue (a : Int64) : (a ^^^ Int64.minValue).toInt < 0 ↔ 0 ≤ a.toInt := by
  have h := toInt_xor_nonneg a Int64.minValue
  have least : Int64.minValue.toInt < 0 := by decide
  rw [Int64.le_iff_toInt_le, Int64.toInt_zero] at h
  omega

/-- For a subtraction the sign of the subtrahend is the other one. -/
theorem sub_overflows (a b : Int64) :
    (0 ≤ (a ^^^ Int64.minValue) ^^^ b ∧ (a ^^^ Int64.minValue) ^^^ (b - a) < 0) ↔
      ¬ Fits (b.toInt - a.toInt) := by
  have ha := fits_toInt a
  have hb := fits_toInt b
  rw [toInt_xor_nonneg, ← Int64.not_le, toInt_xor_nonneg, toInt_xor_minValue, Int64.toInt_sub,
    Int.bmod_def]
  unfold Fits int64Min int64Max at *
  norm_num
  split_ifs <;> omega

theorem toNat_abs (a : Int64) : (abs a).toNat = a.toInt.natAbs := by
  have value : a.toInt = if 2 * a.toBitVec.toNat < 2 ^ 64 then (a.toBitVec.toNat : Int)
      else (a.toBitVec.toNat : Int) - (2 ^ 64 : Nat) := BitVec.toInt_eq_toNat_cond a.toBitVec
  have small := a.toBitVec.isLt
  unfold abs
  split_ifs with h
  · rw [Int64.le_iff_toInt_le, Int64.toInt_zero] at h
    rw [← UInt64.toNat_toBitVec, Int64.toBitVec_toUInt64]
    split_ifs at value <;> omega
  · rw [Int64.le_iff_toInt_le, Int64.toInt_zero] at h
    rw [← UInt64.toNat_toBitVec, Int64.toBitVec_toUInt64, Int64.toBitVec_neg, BitVec.toNat_neg]
    split_ifs at value <;> omega

/-- The unsigned quotient shows whether the product fits. -/
theorem mul_overflows (a b : Int64) :
    (abs a ≠ 0 ∧ (if 0 ≤ a ^^^ b then Int64.maxValue else Int64.maxValue + 1).toUInt64 / abs a <
      abs b) ↔ ¬ Fits (a.toInt * b.toInt) := by
  have limit : (if 0 ≤ a ^^^ b then Int64.maxValue else Int64.maxValue + 1).toUInt64.toNat =
      if a.toInt < 0 ↔ b.toInt < 0 then 2 ^ 63 - 1 else 2 ^ 63 := by
    by_cases same : 0 ≤ a ^^^ b
    · rw [if_pos same, if_pos ((toInt_xor_nonneg a b).mp same)]
      rfl
    · rw [if_neg same, if_neg (mt (toInt_xor_nonneg a b).mpr same)]
      rfl
  have zero : abs a ≠ 0 ↔ a.toInt.natAbs ≠ 0 := by
    rw [← toNat_abs, ne_eq, ← UInt64.toNat_inj]
    rfl
  rw [zero, UInt64.lt_iff_toNat_lt, UInt64.toNat_div, limit, toNat_abs, toNat_abs]
  have product : (a.toInt * b.toInt).natAbs = b.toInt.natAbs * a.toInt.natAbs := by
    rw [Int.natAbs_mul, Nat.mul_comm]
  unfold Fits int64Min int64Max
  by_cases ha : a.toInt.natAbs = 0
  · rw [Int.natAbs_eq_zero] at ha
    rw [ha, Int.zero_mul]
    norm_num
  · rw [Nat.div_lt_iff_lt_mul (Nat.pos_of_ne_zero ha), ← product]
    have sign : (a.toInt < 0 ↔ b.toInt < 0) → 0 ≤ a.toInt * b.toInt := by
      intro same
      by_cases hb : b.toInt < 0
      · exact (Int.mul_pos_of_neg_of_neg (same.mpr hb) hb).le
      · exact Int.mul_nonneg (by omega) (by omega)
    have sign' : ¬ (a.toInt < 0 ↔ b.toInt < 0) → a.toInt * b.toInt ≤ 0 := by
      intro differ
      by_cases hb : b.toInt < 0
      · exact Int.mul_nonpos_of_nonneg_of_nonpos (by omega) hb.le
      · exact Int.mul_nonpos_of_nonpos_of_nonneg (by omega) (by omega)
    split_ifs with same
    · have := sign same
      omega
    · have := sign' same
      omega

end

theorem exactly_eq {overflows : Prop} [Decidable overflows] {v : Int} {r : Int64} {scale : Int8}
    {subType : Int16} (h : overflows ↔ ¬ Fits v) (exact : Fits v → r.toInt = v) :
    (if overflows then .error .integerOverflow else .ok ⟨scale, subType, r⟩ :
      Except EvlError Vlu).map (·.vluInt64.toInt) = exactly v := by
  unfold exactly
  by_cases fits : Fits v
  · rw [if_neg (by rwa [h, not_not]), if_pos fits, ← exact fits]
    rfl
  · rw [if_pos (h.mpr fits), if_neg fits]
    rfl

theorem add2_exact (desc value : Operand) (node : Node) :
    (add2 desc node value).map (·.vluInt64.toInt) = (do
      let i1 ← valueAt desc node.nodScale.toInt
      let i2 ← valueAt value node.nodScale.toInt
      exactly (if node.nodType = .subtract2 then i2 - i1 else i1 + i2)) := by
  unfold add2
  rcases movGetInt64_cases desc node.nodScale.toInt with ⟨a, ha, ha'⟩ | ⟨e, he, he'⟩
  · rcases movGetInt64_cases value node.nodScale.toInt with ⟨b, hb, hb'⟩ | ⟨e, he, he'⟩
    · rw [ha, ha', hb, hb']
      simp only [bind, Except.bind]
      by_cases subtract : node.nodType = .subtract2
      · simp only [if_pos subtract]
        refine exactly_eq (sub_overflows a b) fun fits => ?_
        rw [Int64.toInt_sub, fits.bmod_eq]
      · simp only [if_neg subtract]
        refine exactly_eq (add_overflows a b) fun fits => ?_
        rw [Int64.toInt_add, fits.bmod_eq]
    · rw [ha, ha', he, he']
      rfl
  · rw [he, he']
    rfl

theorem multiply2_exact (desc value : Operand) (node : Node) :
    (multiply2 desc value node).map (·.vluInt64.toInt) = (do
      let scale := (numericScale value.dsc).toInt
      let i1 ← valueAt desc (node.nodScale.toInt - scale)
      let i2 ← valueAt value scale
      exactly (i1 * i2)) := by
  unfold multiply2
  dsimp only
  rcases movGetInt64_cases desc (node.nodScale.toInt - (numericScale value.dsc).toInt) with
    ⟨a, ha, ha'⟩ | ⟨e, he, he'⟩
  · rcases movGetInt64_cases value (numericScale value.dsc).toInt with ⟨b, hb, hb'⟩ | ⟨e, he, he'⟩
    · rw [ha, ha', hb, hb']
      refine exactly_eq (mul_overflows a b) fun fits => ?_
      rw [Int64.toInt_mul, fits.bmod_eq]
    · rw [ha, ha', he, he']
      rfl
  · rw [he, he']
    rfl

/-- Sums, differences and products of 64 bits are exact, or overflow when they do not fit. -/
theorem add2_multiply2_exact (desc value : Operand) (node : Node) :
    (add2 desc node value).map (·.vluInt64.toInt) = (do
      let i1 ← valueAt desc node.nodScale.toInt
      let i2 ← valueAt value node.nodScale.toInt
      exactly (if node.nodType = .subtract2 then i2 - i1 else i1 + i2)) ∧
    (multiply2 desc value node).map (·.vluInt64.toInt) = (do
      let scale := (numericScale value.dsc).toInt
      let i1 ← valueAt desc (node.nodScale.toInt - scale)
      let i2 ← valueAt value scale
      exactly (i1 * i2)) :=
  ⟨add2_exact desc value node, multiply2_exact desc value node⟩

end InterBase.Arith
