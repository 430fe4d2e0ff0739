import InterBase.CvtExact

namespace InterBase.Cvt

open Decimal

/-- The destination of a conversion to text. -/
inductive TextType where
  | text
  | cstring
  | varying
deriving Repr, DecidableEq

structure TextDsc where
  dscDtype : TextType
  dscLength : UInt16
deriving Repr, DecidableEq

/-- `do { *p++ = (u % 10) + '0'; u /= 10; } while (u)`. -/
def digitLoop (u : Nat) : List UInt8 :=
  UInt8.ofNat (u % 10 + 48) :: if u / 10 = 0 then [] else digitLoop (u / 10)
termination_by u
decreasing_by omega

/-- What is put into `temp`: the digits, the last one first, and leading zeros, so that there are
more digits than the scale takes. -/
def tempDigits (n : Int64) (scale : Int8) : List UInt8 :=
  let digits := digitLoop n.toInt.natAbs
  digits ++ List.replicate (1 - (digits.length + scale.toInt)).toNat 48

/-- What is put at `q`: the sign, the digits from the end of `temp` with the decimal point, and the
padding of a positive scale. -/
def rendered (n : Int64) (scale : Int8) : List UInt8 :=
  let digits := (tempDigits n scale).reverse
  let l := (digits.length + scale.toInt).toNat
  (if n.toInt < 0 then [45] else []) ++
    (if 0 ≤ scale.toInt then digits ++ List.replicate scale.toInt.toNat 48
    else digits.take l ++ 46 :: digits.drop l)

/-- The length is compared as an `SSHORT`. -/
def doesNotFit (length : Nat) (d : TextDsc) : Prop :=
  match d.dscDtype with
  | .text => d.dscLength.toNat < length
  | .cstring => d.dscLength.toNat ≤ length
  | .varying => toSshort ((d.dscLength.toNat : Int) - 2) < length

instance (length : Nat) (d : TextDsc) : Decidable (doesNotFit length d) := by
  unfold doesNotFit
  cases d.dscDtype <;> infer_instance

/-- The bytes of an `SSHORT` in memory. -/
def sshortBytes (n : Nat) : List UInt8 := [UInt8.ofNat (n % 256), UInt8.ofNat (n / 256 % 256)]

/-- The bytes that are written from `dsc_address` on. What is left of a string of fixed length is
counted in an `SSHORT`. -/
def integerToText (n : Int64) (scale : Int8) (d : TextDsc) : Except CvtError (List UInt8) :=
  let text := rendered n scale
  if doesNotFit text.length d then .error .conversionError
  else
    match d.dscDtype with
    | .text =>
      let l := toSshort ((d.dscLength.toNat : Int) - text.length)
      .ok (text ++ List.replicate l.toNat 32)
    | .cstring => .ok (text ++ [0])
    | .varying => .ok (sshortBytes text.length ++ text)

/-- The destination behind the conversion: what is not written stays. -/
def place (written before : List UInt8) : List UInt8 := written ++ before.drop written.length

/-- The characters that `CVT_make_string` finds in such a descriptor with ASCII text. -/
def makeString (d : TextDsc) (bytes : List UInt8) : List UInt8 :=
  match d.dscDtype with
  | .text => bytes.take d.dscLength.toNat
  | .cstring => (bytes.takeWhile (· ≠ 0)).take (d.dscLength.toNat - 1)
  | .varying =>
    let varyLength := (bytes.getD 0 0).toNat + 256 * (bytes.getD 1 0).toNat
    (bytes.drop 2).take (min varyLength (d.dscLength.toNat - 2))

/-- The length of a number as a text, with its sign and its point. -/
def textLength (n : Int64) (scale : Int8) : Nat :=
  max (Nat.digits 10 n.toInt.natAbs).length (1 - scale.toInt).toNat +
    (if n.toInt < 0 then 1 else 0) + if scale.toInt < 0 then 1 else 0

/-- The length of the text fits the destination, with the null byte or the length word. -/
def textFits (length : Nat) (d : TextDsc) : Prop :=
  match d.dscDtype with
  | .text => length ≤ d.dscLength.toNat
  | .cstring => length + 1 ≤ d.dscLength.toNat
  | .varying => length + 2 ≤ d.dscLength.toNat

section

variable {n : Int64} {scale : Int8} {d : TextDsc} {c : UInt8} {u k : Nat}

theorem digitChar {e : Nat} (h : e < 10) :
    isDecimal (UInt8.ofNat (e + 48)) = true ∧ digitOf (UInt8.ofNat (e + 48)) = e := by
  have toNat : (UInt8.ofNat (e + 48)).toNat = e + 48 := by
    rw [UInt8.toNat_ofNat']
    omega
  refine ⟨isDecimal_iff.mpr ?_, ?_⟩
  · rw [toNat]
    omega
  · unfold digitOf
    rw [toNat]
    omega

theorem digitLoop_decimal (u : Nat) : ∀ c ∈ digitLoop u, isDecimal c = true := by
  induction u using Nat.strong_induction_on with
  | _ u ih =>
    intro c hc
    rw [digitLoop] at hc
    rcases List.mem_cons.mp hc with rfl | hc
    · exact (digitChar (Nat.mod_lt u (by norm_num))).1
    · split at hc
      · exact absurd hc List.not_mem_nil
      · exact ih (u / 10) (by omega) c hc

/-- The digits from the last one on are those of the number. -/
theorem digitLoop_value (u : Nat) : value ((digitLoop u).reverse.map digitOf) = u := by
  induction u using Nat.strong_induction_on with
  | _ u ih =>
    have digit := (digitChar (Nat.mod_lt u (by norm_num : 0 < 10))).2
    rw [digitLoop, List.reverse_cons, List.map_append, List.map_singleton, digit, value_concat]
    split
    · rw [List.reverse_nil, List.map_nil, value_nil]
      omega
    · rw [ih (u / 10) (by omega)]
      omega

theorem digitLoop_length (h : u < 10 ^ (k + 1)) : (digitLoop u).length ≤ k + 1 := by
  induction k generalizing u with
  | zero =>
    rw [digitLoop, if_pos (by omega)]
    simp
  | succ k ih =>
    rw [digitLoop]
    split
    · simp
    · rw [List.length_cons]
      have less : u / 10 < 10 ^ (k + 1) := by
        rw [pow_succ] at h
        omega
      have := ih less
      omega

theorem digitLoop_pos (u : Nat) : 1 ≤ (digitLoop u).length := by
  rw [digitLoop, List.length_cons]
  omega

theorem natAbs_le (n : Int64) : n.toInt.natAbs ≤ 2 ^ 63 := by
  have low := n.le_toInt
  have high := n.toInt_lt
  norm_num at low high
  omega

theorem tempDigits_decimal : ∀ c ∈ tempDigits n scale, isDecimal c = true := by
  unfold tempDigits
  intro c hc
  rcases List.mem_append.mp hc with hc | hc
  · exact digitLoop_decimal _ c hc
  · rw [List.eq_of_mem_replicate hc]
    decide

/-- There are as many digits as the number has, and one more than the scale takes. -/
theorem tempDigits_length (h : scale.toInt ≤ 0) : (tempDigits n scale).length =
    max (digitLoop n.toInt.natAbs).length (1 - scale.toInt).toNat := by
  unfold tempDigits
  rw [List.length_append, List.length_replicate]
  omega

theorem tempDigits_value :
    value ((tempDigits n scale).reverse.map digitOf) = n.toInt.natAbs := by
  unfold tempDigits
  rw [List.reverse_append, List.reverse_replicate, List.map_append, List.map_replicate,
    show digitOf 48 = 0 from rfl, value_replicate_zero, digitLoop_value]

/-- The digits do not pass the end of their buffer of 32 bytes unless the scale takes them there. -/
theorem tempDigits_fit (h : scale.toInt ≤ 0) :
    (tempDigits n scale).length ≤ 32 ↔ -31 ≤ scale.toInt := by
  have few : (digitLoop n.toInt.natAbs).length ≤ 18 + 1 :=
    digitLoop_length ((natAbs_le n).trans_lt (by norm_num))
  rw [tempDigits_length h]
  omega

/-- The text is one of the number, at its scale. -/
def numeralOf (n : Int64) (scale : Int8) : Numeral :=
  let digits := (tempDigits n scale).reverse
  let l := (digits.length + scale.toInt).toNat
  ⟨n.toInt < 0, (digits.take l).map digitOf, (digits.drop l).map digitOf, none⟩

theorem numeralOf_digits :
    (numeralOf n scale).digits = (tempDigits n scale).reverse.map digitOf := by
  unfold Numeral.digits numeralOf
  dsimp only
  rw [← List.map_append, List.take_append_drop]

theorem numeralOf_signed : (numeralOf n scale).signed n.toInt.natAbs = n.toInt := by
  unfold Numeral.signed numeralOf
  dsimp only
  by_cases neg : n.toInt < 0
  · rw [if_pos (by simpa using neg)]
    omega
  · rw [if_neg (by simpa using neg)]
    omega

theorem numeralOf_scale (h : scale.toInt ≤ 0) : (numeralOf n scale).scale = scale.toInt := by
  have length := tempDigits_length (n := n) h
  unfold Numeral.scale numeralOf
  dsimp only
  rw [expValue, List.length_map, List.length_drop, List.length_reverse]
  omega

theorem rendered_mantissa (h : scale.toInt ≤ 0) :
    SpellsMantissa (numeralOf n scale) (rendered n scale) := by
  have sign : SpellsSign (numeralOf n scale).neg (if n.toInt < 0 then [45] else []) := by
    unfold numeralOf
    dsimp only
    by_cases neg : n.toInt < 0
    · rw [if_pos neg, decide_eq_true neg]
      exact .minus
    · rw [if_neg neg, decide_eq_false neg]
      exact .none
  have decimals : ∀ c ∈ (tempDigits n scale).reverse, isDecimal c = true := fun c hc =>
    tempDigits_decimal c (List.mem_reverse.mp hc)
  unfold rendered
  by_cases whole : 0 ≤ scale.toInt
  · have zero : scale.toInt = 0 := by omega
    have all : ((tempDigits n scale).reverse.length + scale.toInt).toNat =
        (tempDigits n scale).reverse.length := by omega
    dsimp only
    rw [if_pos whole, zero, Int.toNat_zero, List.replicate_zero, List.append_nil]
    refine .whole sign ⟨decimals, ?_⟩ ?_
    · unfold numeralOf
      dsimp only
      rw [all, List.take_length]
    · unfold numeralOf
      dsimp only
      rw [all, List.drop_length, List.map_nil]
  · dsimp only
    rw [if_neg whole]
    refine .point sign ⟨fun c hc => decimals c (List.mem_of_mem_take hc), rfl⟩
      ⟨fun c hc => decimals c (List.mem_of_mem_drop hc), rfl⟩

theorem digitLoop_length_eq (pos : 0 < u) : (digitLoop u).length = (Nat.digits 10 u).length := by
  induction u using Nat.strong_induction_on with
  | _ u ih =>
    rw [digitLoop, Nat.digits_def' (by norm_num) pos, List.length_cons, List.length_cons]
    split
    · rename_i last
      rw [last, Nat.digits_zero]
      rfl
    · rw [ih (u / 10) (by omega) (by omega)]

theorem rendered_length (h : scale.toInt ≤ 0) :
    (rendered n scale).length = textLength n scale := by
  have length : (tempDigits n scale).length =
      max (Nat.digits 10 n.toInt.natAbs).length (1 - scale.toInt).toNat := by
    rw [tempDigits_length h]
    by_cases zero : n.toInt.natAbs = 0
    · rw [zero, digitLoop, if_pos rfl, Nat.digits_zero]
      simp only [List.length_cons, List.length_nil]
      omega
    · rw [digitLoop_length_eq (by omega)]
  have sign : (if n.toInt < 0 then [(45 : UInt8)] else []).length =
      if n.toInt < 0 then 1 else 0 := by
    split <;> rfl
  unfold rendered textLength
  dsimp only
  rw [List.length_append, sign, ← length]
  by_cases whole : 0 ≤ scale.toInt
  · rw [if_pos whole, if_neg (not_lt.mpr whole), List.length_append, List.length_reverse,
      List.length_replicate]
    omega
  · rw [if_neg whole, if_pos (not_le.mp whole), List.length_append, List.length_cons,
      List.length_take, List.length_drop, List.length_reverse]
    omega

theorem textLength_le (h : scale.toInt ≤ 0) : 1 ≤ textLength n scale ∧
    textLength n scale ≤ 160 := by
  have few : (Nat.digits 10 n.toInt.natAbs).length ≤ 19 :=
    (Nat.digits_length_le_iff (by norm_num) _).mpr ((natAbs_le n).trans_lt (by norm_num))
  have low := scale.le_toInt
  norm_num at low
  unfold textLength
  constructor
  · omega
  · split <;> split <;> omega

/-- No character of the text is a blank, a comma, the null byte or the letter of an exponent. -/
theorem rendered_plain : ∀ c ∈ rendered n scale,
    ¬ blankOrComma c = true ∧ c ≠ 0 ∧ ¬ isExpLetter c = true := by
  have decimal : ∀ c, isDecimal c = true →
      ¬ blankOrComma c = true ∧ c ≠ 0 ∧ ¬ isExpLetter c = true := by
    intro c digit
    refine ⟨fun skip => ?_, ?_, decimal_no_letter digit⟩
    · simp only [blankOrComma, Bool.or_eq_true, decide_eq_true_eq] at skip
      rcases skip with rfl | rfl <;> exact absurd digit (by decide)
    · rintro rfl
      exact absurd digit (by decide)
  have digits : ∀ c ∈ (tempDigits n scale).reverse, isDecimal c = true := fun c hc =>
    tempDigits_decimal c (List.mem_reverse.mp hc)
  intro c hc
  unfold rendered at hc
  dsimp only at hc
  rcases List.mem_append.mp hc with hc | hc
  · split at hc
    · rw [List.mem_singleton.mp hc]
      decide
    · exact absurd hc List.not_mem_nil
  · split at hc
    · rcases List.mem_append.mp hc with hc | hc
      · exact decimal c (digits c hc)
      · rw [List.eq_of_mem_replicate hc]
        decide
    · rcases List.mem_append.mp hc with hc | hc
      · exact decimal c (digits c (List.mem_of_mem_take hc))
      · rcases List.mem_cons.mp hc with rfl | hc
        · decide
        · exact decimal c (digits c (List.mem_of_mem_drop hc))

/-- The text is read back, also with blanks behind it. -/
theorem decompose_rendered (h : scale.toInt ≤ 0) (k : Nat) :
    decompose .int64 (rendered n scale ++ List.replicate k 32) = .ok (n.toInt, scale.toInt) := by
  have kept : (rendered n scale ++ List.replicate k 32).filter (fun c => ¬ blankOrComma c) =
      rendered n scale := by
    rw [List.filter_append, List.filter_replicate_of_neg (by decide), List.append_nil,
      List.filter_eq_self]
    intro c hc
    simpa using (rendered_plain c hc).1
  have spells : Spells blankOrComma (numeralOf n scale)
      (rendered n scale ++ List.replicate k 32) := by
    refine ⟨_, [], (List.append_nil _).symm, ?_, ?_, .none⟩
    · rw [kept]
      exact rendered_mantissa h
    rw [numeralOf_digits]
    intro none
    have length := tempDigits_length (n := n) h
    have pos := digitLoop_pos n.toInt.natAbs
    rw [List.map_eq_nil_iff, List.reverse_eq_nil_iff] at none
    rw [none, List.length_nil] at length
    omega
  have fits : value (numeralOf n scale).digits ≤ mantissaMax .int64 (numeralOf n scale).neg := by
    have low := n.le_toInt
    have high := n.toInt_lt
    norm_num at low high
    rw [numeralOf_digits, tempDigits_value]
    by_cases neg : n.toInt < 0
    · rw [show (numeralOf n scale).neg = true from decide_eq_true neg]
      show n.toInt.natAbs ≤ 9223372036854775808
      omega
    · rw [show (numeralOf n scale).neg = false from decide_eq_false neg]
      show n.toInt.natAbs ≤ 9223372036854775807
      omega
  have count : accumulate (mantissaMax .int64 (numeralOf n scale).neg) 0
      (numeralOf n scale).digits = some n.toInt.natAbs := by
    rw [accumulate_exact (mantissaMax_le _ _) (by omega), numeralOf_digits, tempDigits_value,
      Nat.zero_mul, Nat.zero_add]
  have scale_eq : toSshort (numeralOf n scale).scale = scale.toInt := by
    rw [numeralOf_scale h, ← Int.sub_zero scale.toInt]
    exact toSshort_sub scale 0
  rw [decompose_ok]
  refine ⟨numeralOf n scale, _, spells, count, ?_, numeralOf_signed.symm, scale_eq.symm⟩
  intro e none
  exact absurd none (by simp [numeralOf])

theorem cvtGetInt64_rendered (h : scale.toInt ≤ 0) (k : Nat) :
    cvtGetInt64 (.text (rendered n scale ++ List.replicate k 32)) scale.toInt = .ok n.toInt := by
  unfold cvtGetInt64
  dsimp only
  rw [decompose_rendered h k]
  dsimp only
  rw [Int.sub_self, toSshort_zero]
  rfl

/-- The blanks behind a text fill a string of fixed length when an `SSHORT` holds their number. -/
theorem text_pad {length : Nat} (fits : length ≤ d.dscLength.toNat)
    (low : ¬ 32768 + length ≤ d.dscLength.toNat) :
    (toSshort ((d.dscLength.toNat : Int) - length)).toNat = d.dscLength.toNat - length := by
  have kept : toSshort ((d.dscLength.toNat : Int) - length) = (d.dscLength.toNat : Int) - length :=
    by refine bmod_of_mem ?_ ?_ <;> norm_num <;> omega
  rw [kept]
  omega

/-- The string of the destination is the text, with the blanks that pad it. -/
theorem makeString_integerToText {bytes before : List UInt8} (h : scale.toInt ≤ 0)
    (fits : textFits (textLength n scale) d)
    (low : ¬ (d.dscDtype = .text ∧ 32768 + textLength n scale ≤ d.dscLength.toNat))
    (room : before.length = d.dscLength.toNat) (run : integerToText n scale d = .ok bytes) :
    bytes.length ≤ d.dscLength.toNat ∧
      ∃ k, makeString d (place bytes before) = rendered n scale ++ List.replicate k 32 := by
  have small := (textLength_le (n := n) h).2
  rw [← rendered_length h] at fits low small
  unfold integerToText at run
  dsimp only at run
  split at run
  · exact absurd run (by simp)
  unfold textFits at fits
  unfold makeString place
  cases dtype : d.dscDtype with
  | text =>
    rw [dtype] at run fits
    obtain rfl := Except.ok.inj run
    dsimp only at fits ⊢
    rw [text_pad fits fun le => low ⟨dtype, le⟩]
    have length : (rendered n scale ++ List.replicate (d.dscLength.toNat -
        (rendered n scale).length) (32 : UInt8)).length = d.dscLength.toNat := by
      rw [List.length_append, List.length_replicate]
      omega
    refine ⟨length.le, d.dscLength.toNat - (rendered n scale).length, ?_⟩
    rw [length, List.drop_of_length_le room.le, List.append_nil]
    exact List.take_of_length_le length.le
  | cstring =>
    rw [dtype] at run fits
    obtain rfl := Except.ok.inj run
    dsimp only at fits ⊢
    refine ⟨?_, 0, ?_⟩
    · rw [List.length_append, List.length_singleton]
      exact fits
    · rw [List.append_assoc,
        List.takeWhile_append_of_pos fun c hc => by simpa using (rendered_plain c hc).2.1,
        List.singleton_append, List.takeWhile_cons_of_neg (by simp), List.append_nil,
        List.replicate_zero, List.append_nil]
      exact List.take_of_length_le (by omega)
  | varying =>
    rw [dtype] at run fits
    obtain rfl := Except.ok.inj run
    dsimp only at fits ⊢
    have word : sshortBytes (rendered n scale).length =
        [UInt8.ofNat (rendered n scale).length, 0] := by
      unfold sshortBytes
      rw [Nat.mod_eq_of_lt (by omega), Nat.div_eq_of_lt (by omega)]
      rfl
    have first : (UInt8.ofNat (rendered n scale).length).toNat = (rendered n scale).length := by
      rw [UInt8.toNat_ofNat']
      omega
    refine ⟨?_, 0, ?_⟩
    · rw [List.length_append, word]
      simp only [List.length_cons, List.length_nil]
      omega
    · rw [word, List.replicate_zero, List.append_nil]
      simp only [List.cons_append, List.nil_append, List.getD_cons_zero, List.getD_cons_succ,
        List.drop_succ_cons, List.drop_zero, first, UInt8.toNat_ofNat]
      rw [show min ((rendered n scale).length + 256 * (0 % 2 ^ 8)) (d.dscLength.toNat - 2) =
        (rendered n scale).length by omega]
      exact List.take_left

/-- The check of the length is right for lengths that an `SSHORT` holds. -/
theorem doesNotFit_iff (length : Nat)
    (low : ¬ (d.dscDtype = .varying ∧ 32770 ≤ d.dscLength.toNat)) :
    doesNotFit length d ↔ ¬ textFits length d := by
  unfold doesNotFit textFits
  cases dtype : d.dscDtype with
  | text => exact not_le.symm
  | cstring => exact Nat.lt_succ_iff.symm.trans not_le.symm
  | varying =>
    have short : d.dscLength.toNat < 32770 := not_le.mp fun le => low ⟨dtype, le⟩
    have kept : toSshort ((d.dscLength.toNat : Int) - 2) = (d.dscLength.toNat : Int) - 2 := by
      refine bmod_of_mem ?_ ?_ <;> norm_num <;> omega
    dsimp only
    rw [kept]
    omega

/-- A varying string of a length that an `SSHORT` does not hold is always too short. -/
theorem doesNotFit_varying (dtype : d.dscDtype = .varying) (long : 32770 ≤ d.dscLength.toNat)
    (length : Nat) : doesNotFit length d := by
  have top := d.dscLength.toNat_lt
  have wrapped : toSshort ((d.dscLength.toNat : Int) - 2) = d.dscLength.toNat - 65538 := by
    have turn : (d.dscLength.toNat : Int) - 2 =
        (d.dscLength.toNat - 65538) + 1 * ((65536 : Nat) : Int) := by omega
    unfold toSshort
    rw [turn, Int.add_mul_bmod_self_right]
    refine bmod_of_mem ?_ ?_ <;> norm_num <;> omega
  unfold doesNotFit
  rw [dtype]
  dsimp only
  rw [wrapped]
  omega

/-- Behind a text that leaves more than an `SSHORT` holds, nothing is written. -/
theorem integerToText_unpadded (h : scale.toInt ≤ 0) (dtype : d.dscDtype = .text)
    (long : 32768 + textLength n scale ≤ d.dscLength.toNat) :
    integerToText n scale d = .ok (rendered n scale) := by
  have top := d.dscLength.toNat_lt
  have wrapped : toSshort ((d.dscLength.toNat : Int) - (rendered n scale).length) =
      d.dscLength.toNat - (rendered n scale).length - 65536 := by
    rw [rendered_length h]
    have turn : (d.dscLength.toNat : Int) - textLength n scale =
        (d.dscLength.toNat - textLength n scale - 65536) + 1 * ((65536 : Nat) : Int) := by omega
    refine (congrArg toSshort turn).trans ?_
    unfold toSshort
    rw [Int.add_mul_bmod_self_right]
    refine bmod_of_mem ?_ ?_ <;> norm_num <;> omega
  have fits : ¬ doesNotFit (rendered n scale).length d := by
    unfold doesNotFit
    rw [dtype, rendered_length h]
    dsimp only
    omega
  unfold integerToText
  dsimp only
  rw [if_neg fits, dtype]
  dsimp only
  rw [wrapped, Int.toNat_of_nonpos (by rw [rendered_length h]; omega), List.replicate_zero,
    List.append_nil]

/-- A text with the letter A is no number. -/
theorem cvtGetInt64_letter {s : List UInt8} {sc v : Int}
    (letters : ∀ c ∈ s, ¬ isExpLetter c = true) (mem : 65 ∈ s) : cvtGetInt64 (.text s) sc ≠ .ok v := by
  intro ok
  unfold cvtGetInt64 at ok
  dsimp only at ok
  cases read : decompose .int64 s with
  | error e =>
    rw [read] at ok
    exact absurd ok (by simp)
  | ok p =>
    obtain ⟨numeral, r, ⟨m, x, rfl, spells, -, exponent⟩, -⟩ := decompose_ok.mp read
    have last : x = [] := by
      rcases exponent.ends with none | ⟨e, y, rfl, letter⟩
      · exact none
      · exact absurd letter (letters e (List.mem_append_right _ List.mem_cons_self))
    rw [last, List.append_nil] at mem
    have chars := spells.chars 65 (List.mem_filter.mpr ⟨mem, by decide⟩)
    exact absurd chars (by decide)

/-- The conversion of an integer to text stays in its buffer and its destination, fails exactly when
the text does not fit and is undone by the conversion back, if and only if the scale is not below
-31, the length of a varying string is below 32770 and a string of fixed length leaves less than
32768 bytes behind the text. -/
theorem integerToText_iff (n : Int64) (scale : Int8) (h : scale.toInt ≤ 0) (d : TextDsc) :
    ((tempDigits n scale).length ≤ 32 ∧
      (integerToText n scale d = .error .conversionError ↔ ¬ textFits (textLength n scale) d) ∧
      ∀ bytes, integerToText n scale d = .ok bytes → bytes.length ≤ d.dscLength.toNat ∧
        ∀ before : List UInt8, before.length = d.dscLength.toNat →
          cvtGetInt64 (.text (makeString d (place bytes before))) scale.toInt = .ok n.toInt) ↔
    -31 ≤ scale.toInt ∧ ¬ (d.dscDtype = .varying ∧ 32770 ≤ d.dscLength.toNat) ∧
      ¬ (d.dscDtype = .text ∧ 32768 + textLength n scale ≤ d.dscLength.toNat) := by
  have small := textLength_le (n := n) h
  have fails : integerToText n scale d = .error .conversionError ↔
      doesNotFit (textLength n scale) d := by
    rw [← rendered_length h]
    unfold integerToText
    dsimp only
    split
    · simp [*]
    · cases d.dscDtype <;> simp [*]
  rw [tempDigits_fit h, fails]
  constructor
  · rintro ⟨buffer, error, back⟩
    refine ⟨buffer, ?_, ?_⟩
    · rintro ⟨dtype, long⟩
      refine error.mp (doesNotFit_varying dtype long _) ?_
      unfold textFits
      rw [dtype]
      dsimp only
      omega
    · rintro ⟨dtype, long⟩
      let before : List UInt8 := List.replicate d.dscLength.toNat 65
      have unpadded := integerToText_unpadded h dtype long
      refine cvtGetInt64_letter ?_ ?_ ((back _ unpadded).2 before List.length_replicate)
      · unfold makeString place
        rw [dtype]
        dsimp only
        intro c hc
        rcases List.mem_append.mp (List.mem_of_mem_take hc) with hc | hc
        · exact (rendered_plain c hc).2.2
        · rw [List.eq_of_mem_replicate (List.mem_of_mem_drop hc)]
          decide
      · unfold makeString place
        rw [dtype]
        dsimp only
        rw [List.drop_replicate, rendered_length h, List.take_append,
          List.take_replicate, rendered_length h]
        refine List.mem_append_right _ (List.mem_replicate.mpr ⟨?_, rfl⟩)
        omega
  · rintro ⟨buffer, varying, text⟩
    have exact := doesNotFit_iff (textLength n scale) varying
    refine ⟨buffer, exact, fun bytes run => ?_⟩
    have fit : textFits (textLength n scale) d := by
      by_contra none
      exact absurd (run.symm.trans (fails.mpr (exact.mpr none))) (by simp)
    refine ⟨(makeString_integerToText h fit text (List.length_replicate (a := 0)) run).1, ?_⟩
    intro before room
    obtain ⟨-, k, string⟩ := makeString_integerToText h fit text room run
    rw [string]
    exact cvtGetInt64_rendered h k

theorem integerToText_five : (-3 : Int8).toInt ≤ 0 ∧
    ((tempDigits (-5) (-3)).length ≤ 32 ∧
      (integerToText (-5) (-3) ⟨.text, 10⟩ = .error .conversionError ↔
        ¬ textFits (textLength (-5) (-3)) ⟨.text, 10⟩) ∧
      ∀ bytes, integerToText (-5) (-3) ⟨.text, 10⟩ = .ok bytes → bytes.length ≤ 10 ∧
        ∀ before : List UInt8, before.length = 10 →
          cvtGetInt64 (.text (makeString ⟨.text, 10⟩ (place bytes before))) (-3) = .ok (-5)) := by
  refine ⟨by decide, (integerToText_iff (-5) (-3) (by decide) ⟨.text, 10⟩).mpr ⟨by decide, ?_, ?_⟩⟩
  · exact fun h => absurd h.1 (by decide)
  · exact fun h => absurd h.2 (fun le => absurd ((Nat.le_add_right _ _).trans le) (by decide))

/-- A scale of -40 takes 41 digits of the buffer of 32 bytes. -/
theorem integerToText_overruns : ¬ ∀ (n : Int64) (scale : Int8), scale.toInt ≤ 0 →
    (tempDigits n scale).length ≤ 32 := by
  intro all
  have fits := (tempDigits_fit (n := 5) (by decide)).mp (all 5 (-40) (by decide))
  exact absurd fits (by decide)

end

end InterBase.Cvt
