import InterBase.Library.Decimal
import InterBase.CvtDatetime

namespace InterBase.Datetime

open Cvt Gds Arith Gregorian

variable {expectType : ExpectType} {localtime : Times} {parse : Parse} {left i n precision : Nat}
  {rest : List UInt8}

/-- The number of digits that are printed. -/
def digitCount (precision n : Nat) : Nat := max precision (Nat.digits 10 n).length

theorem digitText_length (precision n : Nat) : (digitText precision n).length = digitCount precision n := by
  unfold digitText digitCount
  simp only [List.length_append, List.length_replicate, List.length_map, List.length_reverse]
  omega

theorem digitText_ne_nil (pos : 0 < precision) : digitText precision n ≠ [] := by
  intro empty
  have := digitText_length precision n
  rw [empty, List.length_nil] at this
  unfold digitCount at this
  omega

theorem digit_char {d : Nat} (h : d < 10) :
    isDecimal (UInt8.ofNat (48 + d)) = true ∧ digitOf (UInt8.ofNat (48 + d)) = d := by
  interval_cases d <;> decide

theorem digitText_decimal : ∀ c ∈ digitText precision n, isDecimal c = true := by
  intro c hc
  unfold digitText at hc
  obtain hc | hc := List.mem_append.mp hc
  · rw [(List.mem_replicate.mp hc).2]
    rfl
  · obtain ⟨d, hd, rfl⟩ := List.mem_map.mp hc
    exact (digit_char (Nat.digits_lt_base (by norm_num) (List.mem_reverse.mp hd))).1

/-- The text is followed by the end or by a character that is no digit. -/
def Ends (rest : List UInt8) : Prop := ∀ c ∈ rest.head?, isDecimal c = false

theorem readNumber_end (h : Ends rest) {m k : Nat} : readNumber m k rest = ((m, k), rest) := by
  cases rest with
  | nil => rfl
  | cons c p =>
    have other := h c rfl
    rw [readNumber, if_neg (by rw [other]; exact Bool.false_ne_true)]

theorem readNumber_digits {ds : List Nat} (digits : ∀ d ∈ ds, d < 10) {m k : Nat}
    (fits : m * 10 ^ ds.length + Decimal.value ds < 65536) :
    readNumber m k (ds.map (fun d => UInt8.ofNat (48 + d)) ++ rest) =
      readNumber (m * 10 ^ ds.length + Decimal.value ds) (k + ds.length) rest := by
  induction ds generalizing m k with
  | nil => simp
  | cons d ds ih =>
    obtain ⟨decimal, value⟩ := digit_char (digits d List.mem_cons_self)
    have regroup : m * 10 ^ (d :: ds).length + Decimal.value (d :: ds) =
        (m * 10 + d) * 10 ^ ds.length + Decimal.value ds := by
      rw [List.length_cons, Decimal.value_cons, pow_succ]
      ring
    have least : 1 ≤ 10 ^ ds.length := Nat.one_le_pow _ _ (by norm_num)
    rw [regroup] at fits ⊢
    have small : m * 10 + d < 65536 := by nlinarith
    rw [List.map_cons, List.cons_append, readNumber, if_pos decimal, value, ushort_of_lt small,
      ih (fun e he => digits e (List.mem_cons_of_mem _ he)) fits, List.length_cons]
    congr 1
    omega

theorem readNumber_text (precision : Nat) (small : n < 65536) (ends : Ends rest) :
    readNumber 0 0 (digitText precision n ++ rest) = ((n, digitCount precision n), rest) := by
  obtain ⟨ds, hds⟩ : ∃ ds, List.replicate (precision - (Nat.digits 10 n).length) 0 ++
      (Nat.digits 10 n).reverse = ds := ⟨_, rfl⟩
  have text : digitText precision n = ds.map fun d => UInt8.ofNat (48 + d) := by
    unfold digitText
    simp only
    rw [← hds, List.map_append, List.map_replicate, List.length_map, List.length_reverse]
    rfl
  have value : Decimal.value ds = n := by
    rw [← hds, Decimal.value_replicate_zero]
    unfold Decimal.value
    rw [List.reverse_reverse, Nat.ofDigits_digits]
  have length : ds.length = digitCount precision n := by
    rw [← digitText_length, text, List.length_map]
  have digits : ∀ d ∈ ds, d < 10 := by
    intro d hd
    rw [← hds] at hd
    obtain hd | hd := List.mem_append.mp hd
    · rw [(List.mem_replicate.mp hd).2]
      norm_num
    · exact Nat.digits_lt_base (by norm_num) (List.mem_reverse.mp hd)
  rw [text, readNumber_digits digits (by rw [Nat.zero_mul, Nat.zero_add, value]; exact small),
    Nat.zero_mul, Nat.zero_add, value, length, Nat.zero_add]
  exact readNumber_end ends

theorem digit_not_blank {c : UInt8} (h : isDecimal c = true) : isBlank c = false := by
  unfold isDecimal at h
  unfold isBlank
  rw [Bool.and_eq_true, decide_eq_true_eq, decide_eq_true_eq, UInt8.le_iff_toNat_le,
    UInt8.le_iff_toNat_le] at h
  obtain ⟨low, -⟩ := h
  rw [Bool.or_eq_false_iff, decide_eq_false_iff_not, decide_eq_false_iff_not]
  constructor <;>
  · rintro rfl
    exact absurd low (by decide)

theorem upper7_digit {c : UInt8} (h : isDecimal c = true) : upper7 c = c := by
  unfold isDecimal at h
  rw [Bool.and_eq_true, decide_eq_true_eq, decide_eq_true_eq] at h
  refine if_neg fun letter => ?_
  have low := letter.1
  have high := h.2
  rw [UInt8.le_iff_toNat_le] at low high
  exact absurd (low.trans high) (by decide)

theorem skipBlanks_digit {c : UInt8} {p : List UInt8} (h : isDecimal c = true) :
    skipBlanks (c :: p) = c :: p := by
  unfold skipBlanks
  rw [List.dropWhile_cons, if_neg (by rw [digit_not_blank h]; exact Bool.false_ne_true)]

theorem skipBlanks_replicate (k : Nat) : skipBlanks (List.replicate k 32) = [] := by
  unfold skipBlanks
  rw [List.dropWhile_eq_nil_iff]
  intro c hc
  rw [(List.mem_replicate.mp hc).2]
  rfl

/-- What follows a component. -/
def follow (expectType : ExpectType) (localtime : Times) (left i : Nat) (parse : Parse)
    (rest : List UInt8) : Except DatetimeError Parsed :=
  match skipBlanks rest with
  | [] => .ok (.components i parse)
  | c :: rest =>
    let (parse, rest) := readSeparator i parse (c :: rest)
    parseComponents expectType localtime left (i + 1) parse rest

/-- A number is read. -/
theorem parse_number (pos : 0 < precision) (small : n < 65536) (ends : Ends rest) :
    parseComponents expectType localtime (left + 1) i parse (digitText precision n ++ rest) =
      follow expectType localtime left i (parse.set i n (digitCount precision n)) rest := by
  have read := readNumber_text precision small ends
  have decimal : ∀ c ∈ digitText precision n, isDecimal c = true := digitText_decimal
  obtain ⟨c, p, text⟩ := List.exists_cons_of_ne_nil (digitText_ne_nil (n := n) pos)
  rw [text] at read decimal ⊢
  have first := decimal c List.mem_cons_self
  rw [List.cons_append] at read ⊢
  rw [parseComponents, skipBlanks_digit first]
  simp only
  rw [if_pos (by rw [upper7_digit first]; exact first), read]
  rfl

theorem follow_end (k : Nat) : follow expectType localtime left i parse (List.replicate k 32) =
    .ok (.components i parse) := by
  unfold follow
  rw [skipBlanks_replicate]

theorem follow_dash : follow expectType localtime left i parse (dash :: rest) =
    parseComponents expectType localtime left (i + 1) parse rest := rfl

theorem follow_colon : follow expectType localtime left i parse (colon :: rest) =
    parseComponents expectType localtime left (i + 1) parse rest := rfl

/-- A period between seconds and fraction says nothing of the date. -/
theorem follow_period (late : 2 ≤ i) : follow expectType localtime left i parse (period :: rest) =
    parseComponents expectType localtime left (i + 1) parse rest := by
  have same : ({ parse with dotSeparatorSeen := parse.dotSeparatorSeen || decide (i ≤ 1) } : Parse) =
      parse := by
    rw [decide_eq_false (by omega), Bool.or_false]
  unfold follow
  show parseComponents expectType localtime left (i + 1)
    { parse with dotSeparatorSeen := parse.dotSeparatorSeen || decide (i ≤ 1) } rest = _
  rw [same]

/-- A blank in front of a number separates as well. -/
theorem follow_blank (pos : 0 < precision) :
    follow expectType localtime left i parse (blank :: (digitText precision n ++ rest)) =
      parseComponents expectType localtime left (i + 1) parse (digitText precision n ++ rest) := by
  have decimal : ∀ c ∈ digitText precision n, isDecimal c = true := digitText_decimal
  obtain ⟨c, p, text⟩ := List.exists_cons_of_ne_nil (digitText_ne_nil (n := n) pos)
  rw [text] at decimal ⊢
  have first := decimal c List.mem_cons_self
  rw [List.cons_append]
  have skipped : skipBlanks (blank :: c :: (p ++ rest)) = c :: (p ++ rest) :=
    skipBlanks_digit first
  unfold follow
  rw [skipped]
  simp only
  have separator : readSeparator i parse (c :: (p ++ rest)) = (parse, c :: (p ++ rest)) := by
    have apart : ∀ d : UInt8, isDecimal d = false → c ≠ d := by
      rintro d other rfl
      rw [first] at other
      exact Bool.noConfusion other
    have slash := apart 47 rfl
    have minus := apart dash rfl
    have comma := apart 44 rfl
    have two := apart colon rfl
    have dot := apart period rfl
    rw [readSeparator, if_neg (by tauto), if_neg dot]
  rw [separator]

theorem ends_cons {c : UInt8} (h : isDecimal c = false) : Ends (c :: rest) := by
  intro d hd
  obtain rfl := Option.some.inj hd
  exact h

theorem ends_replicate (k : Nat) : Ends (List.replicate k 32) := by
  cases k with
  | zero =>
    intro c hc
    exact absurd hc (by simp)
  | succ k => exact ends_cons rfl

/-- The first three letters of a month in the middle of a date. -/
theorem parse_month {month : Nat} (h : month < 12) (first : parse.haveEnglishMonth = false) :
    parseComponents expectType localtime (left + 1) 1 parse
        ((months.getD month []).take 3 ++ dash :: rest) =
      parseComponents expectType localtime left 2
        { parse.set 1 (month + 1) (-1) with haveEnglishMonth := true } rest := by
  obtain ⟨components, description, haveEnglishMonth, dotSeparatorSeen⟩ := parse
  simp only at first
  subst first
  interval_cases month <;> rfl

end InterBase.Datetime
