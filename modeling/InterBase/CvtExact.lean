import InterBase.CvtLiteral

namespace InterBase.Cvt

open Decimal

/-- The value and the scale of a result that is no double. -/
def Numeric.parts : Numeric → Option (Int × Int)
  | double => none
  | long value scale => some (value, scale)
  | int64 value scale => some (value, scale)

section

variable {m : Mantissa} {n : Numeral} {s : List UInt8} {v sc : Int} {r : Nat}

/-- What `CVT_get_numeric` returns behind a loop that has read the whole string. -/
theorem cvtGetNumeric_loop {neg : Bool} {whole fraction : List Nat}
    (loop : numericLoop s noDigits = .ok (m, [])) (read : HasRead neg whole fraction r m)
    (le : r ≤ mantissaMax .int64 neg) :
    (∃ w, cvtGetNumeric s = .ok w ∧ w.parts = some (v, sc)) ↔
      whole ++ fraction ≠ [] ∧ v = (if neg then -(r : Int) else r) ∧ sc = m.scale := by
  unfold cvtGetNumeric
  rw [loop]
  dsimp only
  by_cases seen : m.digitSeen = true
  · have some := read.digitSeen.mp seen
    rw [if_neg (by simpa using seen)]
    have signs := read.sign
    simp only [some, ne_eq, not_false_eq_true, true_and, not_true_eq_false, false_or]
    -- the parts of the result, whatever its type is
    have done : ∀ (w : Numeric) (value : Int), w.parts = .some (value, m.scale) →
        value = (if neg then -(r : Int) else r) →
        ((∃ w', Except.ok (ε := CvtError) w = .ok w' ∧ w'.parts = .some (v, sc)) ↔
          v = (if neg then -(r : Int) else r) ∧ sc = m.scale) := by
      rintro w value parts rfl
      constructor
      · rintro ⟨w', same, parts'⟩
        obtain rfl := Except.ok.inj same
        obtain ⟨rfl, rfl⟩ := Prod.mk.inj (Option.some.inj (parts'.symm.trans parts))
        exact ⟨rfl, rfl⟩
      · rintro ⟨rfl, rfl⟩
        exact ⟨w, rfl, parts⟩
    by_cases wrapped : r = 2 ^ 63
    · subst wrapped
      have value : m.value = -2 ^ 63 := by
        rw [read.value, show ((2 ^ 63 : Nat) : Int) = 2 ^ 63 by norm_num]
        exact toSint64_two_pow
      cases neg with
      | false => exact absurd le (by decide)
      | true =>
        have minus : m.sign = -1 := signs
        rw [if_neg (by simp [minus]), if_neg (by rw [value]; norm_num), value,
          if_neg (fun h => absurd h.2 (by decide)), if_pos minus]
        exact done _ _ rfl (by decide)
    · have top := mantissaMax_le .int64 neg
      have value : m.value = r := by rw [read.value, toSint64_of_lt (by omega)]
      have negated : toSint64 (-(r : Int)) = -r :=
        int64Width.kept _ (by unfold int64Min; omega) (by unfold int64Max; omega)
      have minus_iff : m.sign = -1 ↔ neg = true := by
        cases neg with
        | true => exact ⟨fun _ => rfl, fun _ => signs⟩
        | false =>
          rcases (signs : m.sign = 0 ∨ m.sign = 1) with e | e <;> simp [e]
      have result : (if m.sign = -1 then -(r : Int) else r) = if neg then -(r : Int) else r :=
        if_congr minus_iff rfl rfl
      rw [value, negated, if_neg (by omega), result]
      by_cases small : (r : Int) ≤ longMax ∧ 0 ≤ (r : Int)
      · rw [if_pos small]
        refine done _ _ rfl ?_
        refine longWidth.kept _ ?_ ?_
        · unfold longMax longMin at *
          split <;> omega
        · split <;> omega
      · rw [if_neg small]
        by_cases least : m.sign = -1 ∧ -(r : Int) = longMin
        · rw [if_pos least]
          refine done _ _ rfl ?_
          rw [if_pos (minus_iff.mp least.1), least.2]
        · rw [if_neg least]
          exact done _ _ rfl rfl
  · rw [if_pos seen]
    have none := fun h => seen (read.digitSeen.mpr h)
    constructor
    · rintro ⟨w, e, -⟩
      exact absurd e (by simp)
    · exact fun h => absurd h.1 none

/-- `CVT_get_numeric` returns an integer for a number without exponent that the string spells. -/
theorem cvtGetNumeric_ok : (∃ w, cvtGetNumeric s = .ok w ∧ w.parts = some (v, sc)) ↔
    ∃ n r, Spells blank n s ∧ n.exponent = none ∧
      accumulate (mantissaMax .int64 n.neg) 0 n.digits = some r ∧ v = n.signed r ∧
      sc = toSshort n.scale := by
  have limit : int64Limit = IntType.int64.upperLimit / 10 := by decide
  constructor
  · rintro ⟨w, h, parts⟩
    cases loop : numericLoop s noDigits with
    | error e =>
      unfold cvtGetNumeric at h
      rw [loop] at h
      exact absurd h (by simp)
    | ok state =>
      obtain ⟨m, rest⟩ := state
      cases rest with
      | cons c p =>
        unfold cvtGetNumeric at h
        rw [loop] at h
        dsimp only at h
        split at h
        · exact absurd h (by simp)
        · rw [if_pos (.inl (by simp))] at h
          obtain rfl := Except.ok.inj h
          exact absurd parts (by simp [Numeric.parts])
      | nil =>
        obtain ⟨letters, run⟩ := numericLoop_ok.mp loop
        rw [limit] at run
        obtain ⟨neg, whole, fraction, r, spells, count, read⟩ := readAll_sound run
        have le := (accumulate_result (spells none).digits_lt (mantissaMax_le _ _) count).1
        obtain ⟨digits, rfl, rfl⟩ := (cvtGetNumeric_loop loop read le).mp ⟨w, h, parts⟩
        refine ⟨⟨neg, whole, fraction, none⟩, r, ⟨s, [], by rw [List.append_nil], spells none,
          digits, .none⟩, rfl, count, rfl, ?_⟩
        rw [read.scale]
        unfold Numeral.scale
        rw [expValue, zero_sub]
  · rintro ⟨n, r, ⟨q, x, rfl, spells, digits, exponent⟩, none, count, rfl, rfl⟩
    obtain ⟨m, run, read⟩ := readAll_complete spells count
    have le := (accumulate_result spells.digits_lt (mantissaMax_le _ _) count).1
    rw [none] at exponent
    cases exponent
    rw [List.append_nil]
    have letters : ∀ c ∈ q, ¬ isExpLetter c = true := by
      intro c hc letter
      have kept : ¬ blank c = true := by
        intro skip
        simp only [isExpLetter, blank, Bool.or_eq_true, decide_eq_true_eq] at letter skip
        rcases letter with rfl | rfl <;> exact absurd skip (by decide)
      exact spells.no_letter c (List.mem_filter.mpr ⟨hc, by simpa using kept⟩) letter
    rw [← limit] at run
    have loop := numericLoop_ok.mpr ⟨letters, run⟩
    refine (cvtGetNumeric_loop loop read le).mpr ⟨digits, rfl, ?_⟩
    rw [read.scale]
    unfold Numeral.scale
    rw [none, expValue, zero_sub]

end

section

variable {dtype : IntType} {n : Numeral} {s : List UInt8} {r : Nat}

/-- The conversions return the value of the number or refuse it: the digits of a negative one do
not pass 2^63 in pieces, and its scale is that of an `SSHORT`. -/
def ExactNumeral (dtype : IntType) (n : Numeral) : Prop :=
  ¬ (dtype = .int64 ∧ n.neg = true ∧ Overruns n.digits) ∧
    (value n.digits = 0 ∨ mantissaMax dtype n.neg < value n.digits ∨ -32768 ≤ n.scale)

theorem signed_mul_iff {a b : Nat} {x y : ℚ} :
    (n.signed a : ℚ) * x = n.signed b * y ↔ (a : ℚ) * x = b * y := by
  unfold Numeral.signed
  cases n.neg with
  | false => simp
  | true => simp

/-- The same digits at a scale that is off. -/
theorem shifted_iff {a b k : Nat} {z : Int} :
    (a : ℚ) * 10 ^ (z + k) = b * 10 ^ z ↔ a * 10 ^ k = b := by
  have pos : (10 : ℚ) ^ z ≠ 0 := zpow_ne_zero z (by norm_num)
  rw [zpow_add₀ (by norm_num), zpow_natCast, mul_comm ((10 : ℚ) ^ z), ← mul_assoc,
    mul_left_inj' pos]
  norm_cast

theorem toSshort_cases {z : Int} {k : Nat} (hk : k = 65536) (low : -98304 ≤ z)
    (high : z ≤ 32767) :
    -32768 ≤ z ∧ toSshort z = z ∨ z < -32768 ∧ toSshort z = z + k := by
  subst hk
  by_cases h : -32768 ≤ z
  · refine .inl ⟨h, ?_⟩
    refine bmod_of_mem ?_ ?_ <;> norm_num <;> omega
  · refine .inr ⟨by omega, ?_⟩
    have wrapped : z = z + 65536 + -1 * ((65536 : Nat) : Int) := by omega
    unfold toSshort
    rw [wrapped, Int.add_mul_bmod_self_right]
    have back := bmod_of_mem (m := 65536) (v := z + 65536) (by norm_num; omega)
      (by norm_num; omega)
    rw [back]
    omega

/-- An exponent that `decompose` does not refuse moves the scale by less than 3276. -/
theorem expValue_small (small : ∀ e, n.exponent = some e → value e.2 < 3276) :
    -3276 < expValue n.exponent ∧ expValue n.exponent < 3276 := by
  cases h : n.exponent with
  | none => exact ⟨by norm_num [expValue], by norm_num [expValue]⟩
  | some e =>
    obtain ⟨neg, ds⟩ := e
    have lt : value ds < 3276 := small (neg, ds) h
    cases neg <;> simp only [expValue] <;> omega

/-- Of what the digits come to, the value is right for the numbers that are exact. -/
theorem signed_exact_iff (digits : ∀ d ∈ n.digits, d < 10) (short : n.digits.length < 65536)
    (small : ∀ e, n.exponent = some e → value e.2 < 3276)
    (count : accumulate (mantissaMax dtype n.neg) 0 n.digits = some r) :
    (n.signed r : ℚ) * 10 ^ toSshort n.scale = n.toRat ↔ ExactNumeral dtype n := by
  obtain ⟨le, result⟩ := accumulate_result digits (mantissaMax_le _ _) count
  have top := mantissaMax_le dtype n.neg
  have range : -98304 ≤ n.scale ∧ n.scale ≤ 32767 := by
    have exponent := expValue_small small
    have fraction : n.fraction.length < 65536 := by
      unfold Numeral.digits at short
      rw [List.length_append] at short
      omega
    unfold Numeral.scale
    omega
  -- the power of 10 by which a scale is off stays a variable
  obtain ⟨k, hk⟩ : ∃ k, k = 65536 := ⟨_, rfl⟩
  have wide : value n.digits < 10 ^ k :=
    (value_lt digits).trans_le (Nat.pow_le_pow_right (by norm_num) (by omega))
  have cases := toSshort_cases hk range.1 range.2
  unfold Numeral.toRat
  rw [signed_mul_iff]
  rcases result with rfl | ⟨full, overruns⟩
  · -- the count is the value of the digits
    have exact : ¬ (dtype = .int64 ∧ n.neg = true ∧ Overruns n.digits) := by
      rintro ⟨-, -, overruns⟩
      have ge := overruns.value_ge
      omega
    have fits : ¬ mantissaMax dtype n.neg < value n.digits := not_lt.mpr le
    unfold ExactNumeral
    rcases cases with ⟨inside, same⟩ | ⟨outside, same⟩
    · rw [same]
      exact ⟨fun _ => ⟨exact, .inr (.inr inside)⟩, fun _ => rfl⟩
    · rw [same, shifted_iff]
      have apart : ¬ -32768 ≤ n.scale := by omega
      simp only [exact, fits, apart, or_false, not_false_eq_true, true_and]
      constructor
      · intro h
        by_contra nonzero
        have pos : 0 < value n.digits := Nat.pos_of_ne_zero nonzero
        have more : 1 < 10 ^ k := Nat.one_lt_pow (by omega) (by norm_num)
        exact absurd h (Nat.ne_of_gt (lt_mul_of_one_lt_right pos more))
      · intro zero
        rw [zero, Nat.zero_mul]
  · have wrong : ¬ ExactNumeral dtype n := by
      rintro ⟨exact, -⟩
      refine exact ⟨?_, ?_, overruns⟩
      · cases dtype with
        | long => cases h : n.neg <;> rw [h] at full <;> exact absurd full (by decide)
        | int64 => rfl
      · cases h : n.neg with
        | true => rfl
        | false => cases dtype <;> rw [h] at full <;> exact absurd full (by decide)
    have ge := overruns.value_ge
    refine ⟨fun h => absurd h ?_, fun h => absurd h wrong⟩
    rcases cases with ⟨-, same⟩ | ⟨-, same⟩
    · rw [same]
      have pos : (10 : ℚ) ^ n.scale ≠ 0 := zpow_ne_zero _ (by norm_num)
      rw [mul_left_inj' pos]
      norm_cast
      omega
    · rw [same, shifted_iff]
      rcases Nat.eq_zero_or_pos r with rfl | pos
      · rw [Nat.zero_mul]
        omega
      · have more : 10 ^ k ≤ r * 10 ^ k := Nat.le_mul_of_pos_left _ pos
        exact Nat.ne_of_gt (wide.trans_le more)

theorem Spells.digits_lt {skipped : UInt8 → Bool} (h : Spells skipped n s) :
    ∀ d ∈ n.digits, d < 10 := by
  obtain ⟨q, x, -, mantissa, -⟩ := h
  exact mantissa.digits_lt

theorem Spells.digits_length {skipped : UInt8 → Bool} (h : Spells skipped n s) :
    n.digits.length ≤ s.length := by
  obtain ⟨q, x, rfl, mantissa, -⟩ := h
  have kept := List.length_filter_le (fun c => ¬ skipped c) q
  obtain ⟨sign, w, y, cut, -, figures, rest⟩ := mantissa.parts
  have whole : n.whole.length = w.length := by rw [← figures.digits, List.length_map]
  have fraction : n.fraction.length ≤ y.length := by
    rcases rest with ⟨rfl, none⟩ | ⟨f, rfl, figures'⟩
    · rw [none]
      exact le_refl _
    · rw [← figures'.digits, List.length_map, List.length_cons]
      exact Nat.le_succ _
  rw [cut] at kept
  unfold Numeral.digits
  simp only [List.length_append] at kept ⊢
  omega

/-- The integer conversions of a string are exact, or refused, if and only if the number that it
spells is exact: `decompose` for both types, unless the exponent is refused, and `CVT_get_numeric`,
unless there is an exponent. -/
theorem literal_exact_iff (s : List UInt8) (short : s.length < 65536) :
    (∀ dtype, (∀ v sc, decompose dtype s = .ok (v, sc) → (∃ n, Spells blankOrComma n s) ∧
        ∀ n, Spells blankOrComma n s → (v : ℚ) * 10 ^ sc = n.toRat) ↔
      ∀ n, Spells blankOrComma n s → (∀ e, n.exponent = some e → value e.2 < 3276) →
        ExactNumeral dtype n) ∧
    ((∀ w v sc, cvtGetNumeric s = .ok w → w.parts = some (v, sc) → (∃ n, Spells blank n s) ∧
        ∀ n, Spells blank n s → (v : ℚ) * 10 ^ sc = n.toRat) ↔
      ∀ n, Spells blank n s → n.exponent = none → ExactNumeral .int64 n) := by
  have one : ∀ n n', Spells blankOrComma n s → Spells blankOrComma n' s → n = n' := fun _ _ =>
    Spells.unique fun c letter skip => by
      simp only [isExpLetter, blankOrComma, Bool.or_eq_true, decide_eq_true_eq] at letter skip
      rcases letter with rfl | rfl <;> exact absurd skip (by decide)
  have one' : ∀ n n', Spells blank n s → Spells blank n' s → n = n' := fun _ _ =>
    Spells.unique fun c letter skip => by
      simp only [isExpLetter, blank, Bool.or_eq_true, decide_eq_true_eq] at letter skip
      rcases letter with rfl | rfl <;> exact absurd skip (by decide)
  -- a number that is refused is exact by definition
  have refused : ∀ (dtype : IntType) (n : Numeral), (∀ d ∈ n.digits, d < 10) →
      accumulate (mantissaMax dtype n.neg) 0 n.digits = none → ExactNumeral dtype n := by
    intro dtype n digits none
    refine ⟨?_, .inr (.inl ?_)⟩
    · rintro ⟨rfl, neg, overruns⟩
      obtain ⟨r, count⟩ := overruns.accumulate digits
      rw [neg] at none
      exact absurd (none.symm.trans count) (by simp)
    · by_contra fits
      have count := accumulate_exact (a := 0) (mantissaMax_le dtype n.neg)
        (by rw [Nat.zero_mul, Nat.zero_add]; exact not_lt.mp fits)
      exact absurd (none.symm.trans count) (by simp)
  refine ⟨fun dtype => ⟨fun exact n spells small => ?_, fun exact v sc h => ?_⟩,
    fun exact n spells plain => ?_, fun exact w v sc h parts => ?_⟩
  · cases count : accumulate (mantissaMax dtype n.neg) 0 n.digits with
    | none => exact refused dtype n spells.digits_lt count
    | some r =>
      have result := exact _ _ (decompose_ok.mpr ⟨n, r, spells, count, small, rfl, rfl⟩)
      exact (signed_exact_iff spells.digits_lt (spells.digits_length.trans_lt short) small
        count).mp (result.2 n spells)
  · obtain ⟨n, r, spells, count, small, rfl, rfl⟩ := decompose_ok.mp h
    refine ⟨⟨n, spells⟩, fun n' spells' => ?_⟩
    obtain rfl := one n n' spells spells'
    exact (signed_exact_iff spells.digits_lt (spells.digits_length.trans_lt short) small
      count).mpr (exact n spells small)
  · have small : ∀ e, n.exponent = some e → value e.2 < 3276 := by simp [plain]
    cases count : accumulate (mantissaMax .int64 n.neg) 0 n.digits with
    | none => exact refused .int64 n spells.digits_lt count
    | some r =>
      obtain ⟨w, h, parts⟩ := cvtGetNumeric_ok.mpr ⟨n, r, spells, plain, count, rfl, rfl⟩
      have result := exact w _ _ h parts
      exact (signed_exact_iff spells.digits_lt (spells.digits_length.trans_lt short) small
        count).mp (result.2 n spells)
  · obtain ⟨n, r, spells, plain, count, rfl, rfl⟩ := cvtGetNumeric_ok.mp ⟨w, h, parts⟩
    have small : ∀ e, n.exponent = some e → value e.2 < 3276 := by simp [plain]
    refine ⟨⟨n, spells⟩, fun n' spells' => ?_⟩
    obtain rfl := one' n n' spells spells'
    exact (signed_exact_iff spells.digits_lt (spells.digits_length.trans_lt short) small
      count).mpr (exact n spells plain)

/-- The numbers of short strings are exact. -/
theorem Spells.exact {skipped : UInt8 → Bool} (dtype : IntType) (h : Spells skipped n s)
    (small : ∀ e, n.exponent = some e → value e.2 < 3276) (short : s.length ≤ 18) :
    ExactNumeral dtype n := by
  have length := h.digits_length
  have few : value n.digits < 10 ^ 18 :=
    (value_lt h.digits_lt).trans_le (Nat.pow_le_pow_right (by norm_num) (by omega))
  refine ⟨fun overruns => ?_, .inr (.inr ?_)⟩
  · have ge := overruns.2.2.value_ge
    omega
  · have exponent := expValue_small small
    unfold Numeral.digits at length
    rw [List.length_append] at length
    unfold Numeral.scale
    omega

/-- The text -1.5. -/
theorem literal_exact_iff_short :
    (∀ v sc, decompose .int64 [45, 49, 46, 53] = .ok (v, sc) →
      (∃ n, Spells blankOrComma n [45, 49, 46, 53]) ∧
        ∀ n, Spells blankOrComma n [45, 49, 46, 53] → (v : ℚ) * 10 ^ sc = n.toRat) ∧
    (∀ w v sc, cvtGetNumeric [45, 49, 46, 53] = .ok w → w.parts = some (v, sc) →
      (∃ n, Spells blank n [45, 49, 46, 53]) ∧
        ∀ n, Spells blank n [45, 49, 46, 53] → (v : ℚ) * 10 ^ sc = n.toRat) := by
  obtain ⟨decomposed, numeric⟩ := literal_exact_iff [45, 49, 46, 53] (by decide)
  exact ⟨(decomposed .int64).mpr fun n spells small => spells.exact .int64 small (by decide),
    numeric.mpr fun n spells plain => spells.exact .int64 (by simp [plain]) (by decide)⟩

/-- The text -92233720368547758080. -/
def overrunText : List UInt8 :=
  [45, 57, 50, 50, 51, 51, 55, 50, 48, 51, 54, 56, 53, 52, 55, 55, 53, 56, 48, 56, 48]

def overrunNumeral : Numeral :=
  ⟨true, [9, 2, 2, 3, 3, 7, 2, 0, 3, 6, 8, 5, 4, 7, 7, 5, 8, 0, 8, 0], [], none⟩

/-- Behind the nineteenth digit the value is negative, and the last one makes it 0. -/
theorem literal_overruns : Spells blankOrComma overrunNumeral overrunText ∧
    Spells blank overrunNumeral overrunText ∧ overrunNumeral.toRat = -92233720368547758080 ∧
      decompose .int64 overrunText = .ok (0, 0) ∧
      cvtGetNumeric overrunText = .ok (.long 0 0) := by
  have figures : Figures overrunText.tail overrunNumeral.whole := ⟨by decide +kernel, rfl⟩
  have sign : SpellsSign overrunNumeral.neg [45] := .minus
  have spells : SpellsMantissa overrunNumeral ([45] ++ overrunText.tail) := .whole sign figures rfl
  have value : Decimal.value overrunNumeral.digits = 92233720368547758080 := by decide +kernel
  have digits : overrunNumeral.digits ≠ [] := by decide
  refine ⟨⟨_, [], (List.append_nil _).symm, spells, digits, .none⟩,
    ⟨_, [], (List.append_nil _).symm, spells, digits, .none⟩, ?_, ?_, ?_⟩
  · unfold Numeral.toRat
    rw [value]
    norm_num [Numeral.signed, Numeral.scale, expValue, overrunNumeral]
  · decide +kernel
  · decide +kernel

end

end InterBase.Cvt
