import InterBase.CvtText
import InterBase.CvtScale

namespace InterBase.Cvt

open Decimal

/-- What the digits of a mantissa come to: the next one may not pass `max`, but behind the value
2^63, which is the smallest integer in an `SINT64`, the count starts again. -/
def accumulate (max : Nat) : Nat → List Nat → Option Nat
  | a, [] => some a
  | a, d :: ds =>
    if a = 2 ^ 63 then accumulate max d ds
    else if 10 * a + d ≤ max then accumulate max (10 * a + d) ds
    else none

/-- The digits can be cut into pieces of the value 2^63 and a last one that is not empty and does
not pass it. -/
inductive Overruns : List Nat → Prop where
  | last {as bs : List Nat} : value as = 2 ^ 63 → bs ≠ [] → value bs ≤ 2 ^ 63 → Overruns (as ++ bs)
  | more {as bs : List Nat} : value as = 2 ^ 63 → Overruns bs → Overruns (as ++ bs)

section

variable {max a r : Nat} {ds as bs : List Nat}

/-- A value that does not pass the maximum is exact. -/
theorem accumulate_exact (small : max ≤ 2 ^ 63) (fits : a * 10 ^ ds.length + value ds ≤ max) :
    accumulate max a ds = some (a * 10 ^ ds.length + value ds) := by
  induction ds generalizing a with
  | nil =>
    unfold accumulate
    simp
  | cons d ds ih =>
    have pos : 1 ≤ 10 ^ ds.length := Nat.one_le_pow _ _ (by norm_num)
    have regroup : a * 10 ^ (d :: ds).length + value (d :: ds) =
        (10 * a + d) * 10 ^ ds.length + value ds := by
      rw [List.length_cons, value_cons, pow_succ]
      ring
    rw [regroup] at fits ⊢
    have le : 10 * a + d ≤ max := by nlinarith
    unfold accumulate
    rw [if_neg (by omega), if_pos le]
    exact ih fits

theorem accumulate_zero_cons {d : Nat} (le : d ≤ max) :
    accumulate max 0 (d :: ds) = accumulate max d ds := by
  rw [accumulate, if_neg (by norm_num), Nat.mul_zero, Nat.zero_add, if_pos le]

theorem accumulate_append : accumulate max a (as ++ bs) =
    (accumulate max a as).bind fun a => accumulate max a bs := by
  induction as generalizing a with
  | nil => rfl
  | cons d as ih =>
    rw [List.cons_append, accumulate, accumulate]
    split
    · exact ih
    · split
      · exact ih
      · rfl

/-- A value is exact, or the count starts again behind a piece of the digits. -/
theorem accumulate_cases (digits : ∀ d ∈ ds, d < 10) (le : a ≤ max)
    (run : accumulate max a ds = some r) :
    (r = a * 10 ^ ds.length + value ds ∧ r ≤ max) ∨
      ∃ as bs, ds = as ++ bs ∧ bs ≠ [] ∧ a * 10 ^ as.length + value as = 2 ^ 63 ∧ 2 ^ 63 ≤ max ∧
        accumulate max 0 bs = some r := by
  induction ds generalizing a with
  | nil =>
    obtain rfl : a = r := Option.some.inj run
    exact .inl ⟨by simp, le⟩
  | cons d ds ih =>
    unfold accumulate at run
    by_cases full : a = 2 ^ 63
    · rw [if_pos full] at run
      refine .inr ⟨[], d :: ds, rfl, by simp, by simp [full], full ▸ le, ?_⟩
      have digit := digits d List.mem_cons_self
      rw [accumulate_zero_cons (by omega)]
      exact run
    · rw [if_neg full] at run
      split at run
      · have regroup : ∀ as : List Nat, a * 10 ^ (d :: as).length + value (d :: as) =
            (10 * a + d) * 10 ^ as.length + value as := by
          intro as
          rw [List.length_cons, value_cons, pow_succ]
          ring
        have rest := fun e he => digits e (List.mem_cons_of_mem _ he)
        rcases ih rest ‹_› run with ⟨exact, le'⟩ | ⟨as, bs, cut, nonempty, piece, wide, rest⟩
        · exact .inl ⟨exact.trans (regroup ds).symm, le'⟩
        · refine .inr ⟨d :: as, bs, by rw [cut]; rfl, nonempty, ?_, wide, rest⟩
          rw [regroup]
          exact piece
      · exact absurd run (by simp)

theorem accumulate_result (digits : ∀ d ∈ ds, d < 10) (small : max ≤ 2 ^ 63)
    (run : accumulate max 0 ds = some r) :
    r ≤ max ∧ (r = value ds ∨ max = 2 ^ 63 ∧ Overruns ds) := by
  induction h : ds.length using Nat.strong_induction_on generalizing ds with
  | _ k ih =>
    rcases accumulate_cases digits (Nat.zero_le _) run with ⟨exact, le⟩ |
      ⟨as, bs, rfl, nonempty, piece, wide, rest⟩
    · rw [Nat.zero_mul, Nat.zero_add] at exact
      exact ⟨le, .inl exact⟩
    · rw [Nat.zero_mul, Nat.zero_add] at piece
      have digits' : ∀ d ∈ bs, d < 10 := fun d hd => digits d (List.mem_append_right _ hd)
      have shorter : bs.length < k := by
        cases as with
        | nil => exact absurd piece (by norm_num)
        | cons d as =>
          rw [← h]
          simp only [List.cons_append, List.length_cons, List.length_append]
          omega
      obtain ⟨le, same | ⟨full, overruns⟩⟩ := ih bs.length shorter digits' rest rfl
      · exact ⟨le, .inr ⟨by omega, .last piece nonempty (by omega)⟩⟩
      · exact ⟨le, .inr ⟨full, .more piece overruns⟩⟩

theorem Overruns.ne_nil (h : Overruns ds) : ds ≠ [] := by
  cases h with
  | last _ nonempty _ => exact List.append_ne_nil_of_right_ne_nil _ nonempty
  | @more as bs piece rest =>
    rintro e
    obtain ⟨rfl, -⟩ := List.append_eq_nil_iff.mp e
    exact absurd piece (by norm_num)

/-- The count starts again behind a piece. -/
theorem accumulate_piece (digits : ∀ d ∈ as ++ bs, d < 10) (piece : value as = 2 ^ 63)
    (nonempty : bs ≠ []) : accumulate (2 ^ 63) 0 (as ++ bs) = accumulate (2 ^ 63) 0 bs := by
  have first : accumulate (2 ^ 63) 0 as = some (2 ^ 63) := by
    rw [accumulate_exact (le_refl _) (by omega), Nat.zero_mul, Nat.zero_add, piece]
  rw [accumulate_append, first]
  cases bs with
  | nil => exact absurd rfl nonempty
  | cons d bs =>
    have digit := digits d (by simp)
    rw [accumulate_zero_cons (by omega)]
    rfl

theorem Overruns.accumulate (h : Overruns ds) (digits : ∀ d ∈ ds, d < 10) :
    ∃ r, accumulate (2 ^ 63) 0 ds = some r := by
  induction h with
  | @last as bs piece nonempty fits =>
    refine ⟨value bs, ?_⟩
    rw [accumulate_piece digits piece nonempty, accumulate_exact (le_refl _) (by omega)]
    simp
  | @more as bs piece rest ih =>
    rw [accumulate_piece digits piece rest.ne_nil]
    exact ih fun d hd => digits d (List.mem_append_right _ hd)

theorem Overruns.value_ge (h : Overruns ds) : 10 * 2 ^ 63 ≤ value ds := by
  have ten : ∀ as bs : List Nat, value as = 2 ^ 63 → bs ≠ [] → 10 * 2 ^ 63 ≤ value (as ++ bs) := by
    intro as bs piece nonempty
    rw [value_append, piece]
    have pos : 10 ^ 1 ≤ 10 ^ bs.length :=
      Nat.pow_le_pow_right (by norm_num) (List.length_pos_of_ne_nil nonempty)
    nlinarith
  cases h with
  | last piece nonempty _ => exact ten _ _ piece nonempty
  | more piece rest => exact ten _ _ piece rest.ne_nil

end

section

/-- The largest value of a mantissa. -/
def mantissaMax : IntType → Bool → Nat
  | .long, false => 2147483647
  | .long, true => 2147483648
  | .int64, false => 9223372036854775807
  | .int64, true => 9223372036854775808

variable {dtype : IntType} {neg : Bool} {m m' : Mantissa} {c : UInt8} {s : List UInt8}
  {a r : Nat} {k sg : Int}

theorem isDecimal_iff : isDecimal c = true ↔ 48 ≤ c.toNat ∧ c.toNat ≤ 57 := by
  unfold isDecimal
  rw [Bool.and_eq_true, decide_eq_true_iff, decide_eq_true_iff, UInt8.le_iff_toNat_le,
    UInt8.le_iff_toNat_le]
  rfl

theorem toSint64_two_pow : toSint64 (2 ^ 63) = -2 ^ 63 := by decide

theorem toSint64_of_lt (h : a < 2 ^ 63) : toSint64 a = a :=
  int64Width.kept a (by unfold int64Min; omega) (by unfold int64Max; omega)

/-- The sign that the loop has read. -/
def Signs (neg : Bool) (sg : Int) : Prop := if neg then sg = -1 else sg = 0 ∨ sg = 1

/-- The digit is refused when the value would pass the maximum. -/
theorem wouldOverflow_iff (signs : Signs neg m.sign) (held : m.value = toSint64 a)
    (le : a ≤ mantissaMax dtype neg) (decimal : isDecimal c = true) :
    wouldOverflow (dtype.upperLimit / 10) m c ↔
      a ≠ 2 ^ 63 ∧ mantissaMax dtype neg < 10 * a + digitOf c := by
  obtain ⟨low, high⟩ := isDecimal_iff.mp decimal
  have eight : 56 < c ↔ 56 < c.toNat := UInt8.lt_iff_toNat_lt
  have seven : 55 < c ↔ 55 < c.toNat := UInt8.lt_iff_toNat_lt
  unfold wouldOverflow digitOf
  rw [held, eight, seven]
  by_cases full : a = 2 ^ 63
  · subst full
    rw [show ((2 ^ 63 : Nat) : Int) = 2 ^ 63 by norm_num, toSint64_two_pow]
    cases dtype <;> simp [IntType.upperLimit, longMax, int64Max]
  · have small : a < 2 ^ 63 := by
      have top : mantissaMax dtype neg ≤ 2 ^ 63 := by
        cases dtype <;> cases neg <;> decide
      omega
    rw [toSint64_of_lt small]
    unfold Signs at signs
    cases dtype <;> cases neg <;>
      simp only [IntType.upperLimit, longMax, int64Max, mantissaMax, Bool.false_eq_true,
        ↓reduceIte] at signs le ⊢ <;> omega

/-- The value behind one more digit. -/
theorem takeDigit_value (held : m.value = toSint64 a) (decimal : isDecimal c = true) :
    (takeDigit m c).value =
      toSint64 ((if a = 2 ^ 63 then digitOf c else 10 * a + digitOf c : Nat) : Int) := by
  obtain ⟨low, high⟩ := isDecimal_iff.mp decimal
  have digit : (c.toNat : Int) - 48 = (digitOf c : Nat) := by
    unfold digitOf
    omega
  have step : toSint64 (toSint64 a * 10 + c.toNat - 48) = toSint64 (a * 10 + digitOf c) := by
    unfold toSint64
    rw [Int.add_sub_assoc, digit, ← Int.bmod_add_bmod, Int.bmod_mul_bmod, Int.bmod_add_bmod]
  unfold takeDigit
  dsimp only
  rw [held, step]
  by_cases full : a = 2 ^ 63
  · have wrapped : ((2 ^ 63 : Nat) : Int) * 10 + digitOf c =
        digitOf c + 5 * ((18446744073709551616 : Nat) : Int) := by
      push_cast
      ring
    rw [if_pos full, full, wrapped]
    exact Int.add_mul_bmod_self_right _ _ _
  · rw [if_neg full]
    push_cast
    rw [Int.mul_comm]

theorem digitOf_lt (decimal : isDecimal c = true) : digitOf c < 10 := by
  obtain ⟨low, high⟩ := isDecimal_iff.mp decimal
  unfold digitOf
  omega

theorem toSshort_sub_left (a b : Int) : toSshort (toSshort a - b) = toSshort (a - b) :=
  Int.bmod_sub_bmod

/-- What the digits leave in the state of the loop. -/
def tookDigits (m : Mantissa) (s : List UInt8) (v : Int) : Mantissa :=
  { m with
    value := v
    digitSeen := m.digitSeen || ¬ s.isEmpty
    scale := if m.fraction then toSshort (m.scale - s.length) else m.scale }

@[simp] theorem tookDigits_value {v : Int} : (tookDigits m s v).value = v := rfl

@[simp] theorem tookDigits_scale {v : Int} : (tookDigits m s v).scale =
    if m.fraction then toSshort (m.scale - s.length) else m.scale := rfl

@[simp] theorem tookDigits_digitSeen {v : Int} :
    (tookDigits m s v).digitSeen = (m.digitSeen || ¬ s.isEmpty) := rfl

@[simp] theorem tookDigits_sign {v : Int} : (tookDigits m s v).sign = m.sign := rfl

/-- The loop over digits counts their value. -/
theorem takeDigits_ok (decimals : ∀ c ∈ s, isDecimal c = true) (signs : Signs neg m.sign)
    (held : m.value = toSint64 a) (le : a ≤ mantissaMax dtype neg)
    (short : toSshort m.scale = m.scale) :
    takeDigits (dtype.upperLimit / 10) s m = .ok m' ↔
      ∃ r, accumulate (mantissaMax dtype neg) a (s.map digitOf) = some r ∧
        m' = tookDigits m s (toSint64 r) := by
  induction s generalizing m a with
  | nil =>
    have same : tookDigits m [] (toSint64 a) = m := by
      unfold tookDigits
      rw [← held]
      cases m
      simp_all
    simp only [takeDigits, List.map_nil, accumulate, Option.some.injEq, exists_eq_left', same,
      Except.ok.injEq]
    exact eq_comm
  | cons c s ih =>
    have decimal := decimals c List.mem_cons_self
    have full := wouldOverflow_iff signs held le decimal
    have digit := digitOf_lt decimal
    have small : 10 ≤ mantissaMax dtype neg := by
      cases dtype <;> cases neg <;> decide
    -- the state behind the digit
    have rest : ∀ b : Nat, (takeDigit m c).value = toSint64 b → b ≤ mantissaMax dtype neg →
        (takeDigits (dtype.upperLimit / 10) s (takeDigit m c) = .ok m' ↔
          ∃ r, accumulate (mantissaMax dtype neg) b (s.map digitOf) = some r ∧
            m' = tookDigits m (c :: s) (toSint64 r)) := by
      intro b value fits
      have both : ∀ v, tookDigits (takeDigit m c) s v = tookDigits m (c :: s) v := by
        intro v
        unfold tookDigits takeDigit
        dsimp only
        congr 1
        · simp
        · split
          · rw [toSshort_sub_left, List.length_cons]
            congr 1
            push_cast
            ring
          · rfl
      have short' : toSshort (takeDigit m c).scale = (takeDigit m c).scale := by
        unfold takeDigit
        dsimp only
        split
        · have once := toSshort_sub_left (m.scale - 1) 0
          rwa [sub_zero, sub_zero] at once
        · exact short
      refine (ih (fun d hd => decimals d (List.mem_cons_of_mem _ hd)) (m := takeDigit m c) signs
        value fits short').trans ?_
      simp only [both]
    have value := takeDigit_value held decimal
    rw [takeDigits, List.map_cons, accumulate]
    by_cases wrapped : a = 2 ^ 63
    · rw [if_pos wrapped] at value ⊢
      rw [if_neg (fun h => (full.mp h).1 wrapped)]
      exact rest _ value (by omega)
    · rw [if_neg wrapped] at value ⊢
      by_cases fits : 10 * a + digitOf c ≤ mantissaMax dtype neg
      · rw [if_pos fits, if_neg (fun h => absurd (full.mp h).2 (by omega))]
        exact rest _ value fits
      · rw [if_neg fits, if_pos (full.mpr ⟨wrapped, by omega⟩)]
        simp

end

end InterBase.Cvt
