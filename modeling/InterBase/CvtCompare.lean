import InterBase.CvtExact

namespace InterBase.Cvt

open Rounding Decimal

/-- The order of two values as `CVT2_compare` returns it. -/
def order (a b : Int) : Int := if a = b then 0 else if b < a then 1 else -1

/-- `compare_priority` of the exact numerics; that of strings is lower. -/
def ExactValue.comparePriority : ExactValue → Nat
  | short _ => 8
  | long _ => 9
  | int64 _ => 10

/-- The scale to compare at; a string has none. -/
def Dsc.compareScale (arg1Scale : Int8) : Dsc → Int
  | .exact scale _ => min arg1Scale.toInt scale.toInt
  | .text _ => arg1Scale.toInt

/-- The conversion to the type that two operands are compared in. Longs may overflow when scaled, so
they are compared as int64. -/
def ExactValue.get : ExactValue → Dsc → Int → Except CvtError Int
  | short _ => cvtGetLong
  | _ => cvtGetInt64

/-- The type of the first operand is the one to compare in. -/
def compareAs (scale : Int8) (value : ExactValue) (arg2 : Dsc) : Except CvtError Int :=
  match value.get (.exact scale value) (arg2.compareScale scale) with
  | .error e => .error e
  | .ok temp1 =>
    match value.get arg2 (arg2.compareScale scale) with
    | .error e => .error e
    | .ok temp2 => .ok (order temp1 temp2)

/-- `CVT2_compare` of exact numerics and strings; two strings are compared as texts. -/
def cvt2Compare (texts : List UInt8 → List UInt8 → Int) : Dsc → Dsc → Except CvtError Int
  | .text p, .text q => .ok (texts p q)
  | .exact s v, .exact s' v' =>
    if v.comparePriority = v'.comparePriority ∧ s = s' then .ok (order v.toInt v'.toInt)
    else if v.comparePriority < v'.comparePriority then
      (compareAs s' v' (.exact s v)).map fun r => -r
    else compareAs s v (.exact s' v')
  | .exact s v, .text q => compareAs s v (.text q)
  | .text p, .exact s' v' => (compareAs s' v' (.text p)).map fun r => -r

/-- The rest of a string against blanks. -/
def compareBlanks (above : Int) : List UInt8 → Int
  | [] => 0
  | c :: p => if c ≠ 32 then (if 32 < c then above else -above) else compareBlanks above p

/-- The comparison of two strings of no character set. -/
def compareBytes : List UInt8 → List UInt8 → Int
  | [], q => compareBlanks (-1) q
  | p, [] => compareBlanks 1 p
  | a :: p, b :: q => if a ≠ b then (if b < a then 1 else -1) else compareBytes p q

/-- A number without its fraction. -/
def truncate (q : ℚ) : Int := if 0 ≤ q then ⌊q⌋ else ⌈q⌉

def sgn (q : ℚ) : Int := if q = 0 then 0 else if 0 < q then 1 else -1

/-- The number of an operand. -/
def Dsc.Denotes : Dsc → ℚ → Prop
  | .exact scale v, x => x = v.toInt * 10 ^ scale.toInt
  | .text p, x => ∀ n, Spells blankOrComma n p → x = n.toRat

/-- What is taken of a string beside an operand of a scale: its number cut off there. -/
def Dsc.beside : Dsc → Dsc → ℚ → ℚ
  | .text _, .exact scale _, x => truncate (x * 10 ^ (-scale.toInt)) * 10 ^ scale.toInt
  | _, _, x => x

/-- The number of a string is one that `decompose` reads as it is. -/
def Dsc.Plain : Dsc → Prop
  | .exact _ _ => True
  | .text p => p.length < 65536 ∧
      ∀ n, Spells blankOrComma n p → ¬ (n.neg = true ∧ Overruns n.digits) ∧ -32768 ≤ n.scale

def Dsc.isText : Dsc → Bool
  | .exact _ _ => false
  | .text _ => true

section

variable {keep : Int → Int} {limit low high : Int} {scale s : Int8} {v : ExactValue} {t : Int}

theorem sgn_neg (q : ℚ) : sgn (-q) = -sgn q := by
  unfold sgn
  rcases lt_trichotomy q 0 with h | rfl | h
  · rw [if_neg (by linarith), if_pos (by linarith), if_neg (by linarith), if_neg (by linarith)]
    rfl
  · simp
  · rw [if_neg (by linarith), if_neg (by linarith), if_neg (by linarith), if_pos h]

theorem order_eq {p : ℚ} (positive : 0 < p) (a b : Int) : order a b = sgn (a * p - b * p) := by
  have factor : (a : ℚ) * p - b * p = ((a - b : Int) : ℚ) * p := by
    push_cast
    ring
  rw [factor]
  unfold order sgn
  rcases lt_trichotomy a b with h | rfl | h
  · have less : ((a - b : Int) : ℚ) < 0 := by exact_mod_cast (by omega : a - b < 0)
    have product := mul_neg_of_neg_of_pos less positive
    rw [if_neg (by omega), if_neg (by omega), if_neg (by linarith), if_neg (by linarith)]
  · simp
  · have more : (0 : ℚ) < ((a - b : Int) : ℚ) := by exact_mod_cast (by omega : 0 < a - b)
    have product := mul_pos more positive
    rw [if_neg (by omega), if_pos h, if_neg (by linarith), if_pos product]

theorem truncate_intCast (n : Int) : truncate n = n := by
  unfold truncate
  split
  · exact Int.floor_intCast n
  · exact Int.ceil_intCast n

theorem truncate_div (w : Int) (d : Nat) : truncate ((w : ℚ) / d) = w.tdiv d := by
  obtain ⟨a, rfl | rfl⟩ := w.eq_nat_or_neg
  · unfold truncate
    rw [if_pos (by positivity), ← Int.ofNat_tdiv, Int.cast_natCast]
    exact Rat.floor_natCast_div_natCast a d
  · by_cases zero : (a : ℚ) / d = 0
    · have whole : a / d = 0 := by
        rcases div_eq_zero_iff.mp zero with h | h
        · rw [Nat.cast_eq_zero.mp h, Nat.zero_div]
        · rw [Nat.cast_eq_zero.mp h, Nat.div_zero]
      rw [Int.neg_tdiv, ← Int.ofNat_tdiv, whole]
      push_cast
      rw [neg_div, zero, neg_zero]
      exact_mod_cast truncate_intCast 0
    · have positive : 0 < (a : ℚ) / d := lt_of_le_of_ne (by positivity) (Ne.symm zero)
      unfold truncate
      push_cast
      rw [neg_div, if_neg (by linarith), Int.ceil_neg, Int.neg_tdiv, ← Int.ofNat_tdiv]
      congr 1
      exact_mod_cast Rat.floor_natCast_div_natCast a d

theorem cutDown_eq (k : Nat) (value : Int) : cutDown k value = value.tdiv (10 * 10 ^ k : Nat) := by
  induction k generalizing value with
  | zero => rfl
  | succ k ih =>
    have ten : value.tdiv 10 = value.tdiv (10 : Nat) := rfl
    unfold cutDown
    rw [ih, ten, tdiv_tdiv, Nat.pow_succ']

/-- At a finer scale an exact numeric keeps its number. -/
theorem adjustScale_finer (w : Width keep limit low high) {value : Int} (isExact : Bool) (k : Nat)
    (hlow : low ≤ value) (hhigh : value ≤ high)
    (h : adjustScale keep limit isExact (-(k : Int)) value = .ok t) : t = value * 10 ^ k := by
  unfold adjustScale at h
  rw [if_neg (by omega)] at h
  by_cases zero : k = 0
  · subst zero
    rw [if_neg (by omega)] at h
    obtain rfl := Except.ok.inj h
    rw [pow_zero, mul_one]
  · rw [if_pos (by omega), neg_neg, Int.toNat_natCast, scaleUp_eq w k hlow hhigh] at h
    split at h
    · exact (Except.ok.inj h).symm
    · cases h

/-- `CVT_get_int64` of an exact numeric at a finer scale. -/
theorem cvtGetInt64_finer (finer : scale.toInt ≤ s.toInt)
    (h : cvtGetInt64 (.exact s v) scale.toInt = .ok t) :
    (t : ℚ) * 10 ^ scale.toInt = v.toInt * 10 ^ s.toInt := by
  obtain ⟨k, hk⟩ : ∃ k : Nat, s.toInt = scale.toInt + k := ⟨(s.toInt - scale.toInt).toNat, by omega⟩
  unfold cvtGetInt64 at h
  dsimp only at h
  rw [toSshort_sub, show scale.toInt - s.toInt = -(k : Int) by omega] at h
  obtain rfl := adjustScale_finer int64Width true k v.mem.1 v.mem.2 h
  rw [hk, zpow_add₀ (by norm_num), zpow_natCast]
  push_cast
  ring

/-- `CVT_get_long` of a short at a finer scale. -/
theorem cvtGetLong_finer {n : Int16} (finer : scale.toInt ≤ s.toInt)
    (h : cvtGetLong (.exact s (.short n)) scale.toInt = .ok t) :
    (t : ℚ) * 10 ^ scale.toInt = n.toInt * 10 ^ s.toInt := by
  obtain ⟨k, hk⟩ : ∃ k : Nat, s.toInt = scale.toInt + k := ⟨(s.toInt - scale.toInt).toNat, by omega⟩
  unfold cvtGetLong at h
  dsimp only at h
  rw [toSshort_sub, show scale.toInt - s.toInt = -(k : Int) by omega] at h
  obtain rfl := adjustScale_finer longWidth true k (le_trans (by decide) n.le_toInt)
    (le_trans n.toInt_le (by decide)) h
  rw [hk, zpow_add₀ (by norm_num), zpow_natCast]
  push_cast
  ring

/-- The value of a string at a scale is that of its number, without what is behind it. -/
theorem adjustScale_text (w : Width keep limit low high) (wide : high < 10 ^ 19 ∧ -(10 ^ 19) < low)
    {value e : Int} (hlow : low ≤ value) (hhigh : value ≤ high) (least : -32768 ≤ e) (most : e ≤ 3276)
    (h : adjustScale keep limit false (toSshort (scale.toInt - e)) value = .ok t) :
    t = truncate (value * 10 ^ (e - scale.toInt)) := by
  have lowScale := scale.le_toInt
  have highScale := scale.toInt_lt
  norm_num at lowScale highScale
  by_cases wraps : scale.toInt - e < 32768
  · have kept : toSshort (scale.toInt - e) = scale.toInt - e := by
      refine bmod_of_mem ?_ ?_ <;> norm_num <;> omega
    rw [kept] at h
    by_cases cut : 0 < scale.toInt - e
    · obtain ⟨k, hk⟩ : ∃ k : Nat, scale.toInt - e = k + 1 := ⟨(scale.toInt - e - 1).toNat, by omega⟩
      have quotient : (value : ℚ) * 10 ^ (e - scale.toInt) = value / (10 * 10 ^ k : ℕ) := by
        rw [show e - scale.toInt = -((k : Int) + 1) by omega, zpow_neg, div_eq_mul_inv,
          ← Nat.pow_succ']
        norm_cast
      unfold adjustScale at h
      rw [if_pos cut, if_neg Bool.false_ne_true, hk,
        show ((k : Int) + 1).toNat - 1 = k by omega, cutDown_eq] at h
      rw [quotient, truncate_div]
      exact (Except.ok.inj h).symm
    · obtain ⟨k, hk⟩ : ∃ k : Nat, e - scale.toInt = k := ⟨(e - scale.toInt).toNat, by omega⟩
      rw [show scale.toInt - e = -(k : Int) by omega] at h
      have eq := adjustScale_finer w false k hlow hhigh h
      have whole : (value : ℚ) * 10 ^ (e - scale.toInt) = (value * 10 ^ k : Int) := by
        rw [hk, zpow_natCast]
        push_cast
        rfl
      rw [whole, truncate_intCast, eq]
  · -- the difference of the scales wraps, and only 0 can be scaled by it
    obtain ⟨k, hk⟩ : ∃ k : Nat, toSshort (scale.toInt - e) = -(k : Int) ∧ 19 ≤ k := by
      refine ⟨(65536 - (scale.toInt - e)).toNat, ?_, by omega⟩
      have wrapped : toSshort (scale.toInt - e) = scale.toInt - e - 65536 := by
        unfold toSshort
        rw [Int.bmod_def]
        split
        · omega
        · omega
      rw [wrapped]
      omega
    obtain ⟨hk, many⟩ := hk
    rw [hk] at h
    have zero : value = 0 := by
      unfold adjustScale at h
      rw [if_neg (by omega), if_pos (by omega), neg_neg, Int.toNat_natCast,
        scaleUp_eq w k hlow hhigh] at h
      split at h
      next fits =>
        by_contra nonzero
        have power : (10 : Int) ^ 19 ≤ 10 ^ k := pow_le_pow_right₀ (by norm_num) many
        rcases lt_or_gt_of_ne nonzero with less | more
        · have : value * 10 ^ k ≤ -1 * 10 ^ k :=
            mul_le_mul_of_nonneg_right (by omega) (by positivity)
          omega
        · have : 1 * 10 ^ k ≤ value * 10 ^ k :=
            mul_le_mul_of_nonneg_right (by omega) (by positivity)
          omega
      next => cases h
    have eq := adjustScale_finer w false k hlow hhigh h
    subst zero
    rw [eq, zero_mul, Int.cast_zero, zero_mul]
    exact_mod_cast (truncate_intCast 0).symm

/-- What `decompose` returns for the string of a plain number is that number. -/
theorem decompose_plain {p : List UInt8} {x : ℚ} {dtype : IntType} {value e : Int}
    (plain : (Dsc.text p).Plain) (denotes : (Dsc.text p).Denotes x)
    (h : decompose dtype p = .ok (value, e)) :
    (value : ℚ) * 10 ^ e = x ∧ dtype.lowerLimit ≤ value ∧ value ≤ dtype.upperLimit ∧
      -32768 ≤ e ∧ e ≤ 3276 := by
  obtain ⟨short, plain⟩ := plain
  obtain ⟨n, r, spells, count, small, rfl, rfl⟩ := decompose_ok.mp h
  obtain ⟨whole, least⟩ := plain n spells
  obtain ⟨le, -⟩ := accumulate_result spells.digits_lt (mantissaMax_le _ _) count
  have exponent := expValue_small small
  have most : n.scale < 3276 := by
    unfold Numeral.scale
    omega
  have kept : toSshort n.scale = n.scale := by
    refine bmod_of_mem ?_ ?_ <;> norm_num <;> omega
  refine ⟨?_, ?_, ?_, by omega, by omega⟩
  · rw [denotes n spells]
    exact (signed_exact_iff spells.digits_lt (spells.digits_length.trans_lt short) small count).mpr
      ⟨fun overruns => whole overruns.2, .inr (.inr least)⟩
  · unfold Numeral.signed
    cases dtype <;> cases neg : n.neg <;>
      simp only [neg, mantissaMax, IntType.lowerLimit, longMin, int64Min, Bool.false_eq_true,
        ↓reduceIte] at le ⊢ <;> omega
  · unfold Numeral.signed
    cases dtype <;> cases neg : n.neg <;>
      simp only [neg, mantissaMax, IntType.upperLimit, longMax, int64Max, Bool.false_eq_true,
        ↓reduceIte] at le ⊢ <;> omega

/-- What `decompose` returns, brought to a scale, is the number cut off there. -/
theorem adjustScale_decomposed (w : Width keep limit low high)
    (wide : high < 10 ^ 19 ∧ -(10 ^ 19) < low) {p : List UInt8} {x : ℚ} {dtype : IntType}
    {value e : Int} (plain : (Dsc.text p).Plain) (denotes : (Dsc.text p).Denotes x)
    (limits : dtype.lowerLimit = low ∧ dtype.upperLimit = high)
    (result : decompose dtype p = .ok (value, e))
    (h : adjustScale keep limit false (toSshort (scale.toInt - e)) value = .ok t) :
    t = truncate (x * 10 ^ (-scale.toInt)) := by
  obtain ⟨eq, least, most, bounds⟩ := decompose_plain plain denotes result
  obtain ⟨rfl, rfl⟩ := limits
  have moved : x * 10 ^ (-scale.toInt) = value * 10 ^ (e - scale.toInt) := by
    rw [← eq, mul_assoc, ← zpow_add₀ (by norm_num), ← sub_eq_add_neg]
  rw [moved]
  exact adjustScale_text w wide least most bounds.1 bounds.2 h

/-- What the conversions of a string give beside an operand of a scale. -/
theorem cvtGet_text {p : List UInt8} {x : ℚ} (plain : (Dsc.text p).Plain)
    (denotes : (Dsc.text p).Denotes x)
    (h : cvtGetLong (.text p) scale.toInt = .ok t ∨ cvtGetInt64 (.text p) scale.toInt = .ok t) :
    t = truncate (x * 10 ^ (-scale.toInt)) := by
  obtain h | h := h
  · unfold cvtGetLong at h
    dsimp only at h
    cases result : decompose .long p with
    | error error =>
      rw [result] at h
      cases h
    | ok parts =>
      rw [result] at h
      exact adjustScale_decomposed longWidth (by decide) plain denotes ⟨rfl, rfl⟩ result h
  · unfold cvtGetInt64 at h
    dsimp only at h
    cases result : decompose .int64 p with
    | error error =>
      rw [result] at h
      cases h
    | ok parts =>
      rw [result] at h
      exact adjustScale_decomposed int64Width (by decide) plain denotes ⟨rfl, rfl⟩ result h

theorem get_finer {w : ExactValue} (finer : scale.toInt ≤ s.toInt)
    (small : v.comparePriority ≤ w.comparePriority) (h : w.get (.exact s v) scale.toInt = .ok t) :
    (t : ℚ) * 10 ^ scale.toInt = v.toInt * 10 ^ s.toInt := by
  cases w with
  | short _ =>
    cases v with
    | short n => exact cvtGetLong_finer finer h
    | long _ => exact absurd small (by unfold ExactValue.comparePriority; simp)
    | int64 _ => exact absurd small (by unfold ExactValue.comparePriority; simp)
  | long _ => exact cvtGetInt64_finer finer h
  | int64 _ => exact cvtGetInt64_finer finer h

theorem get_text {w : ExactValue} {p : List UInt8} {x : ℚ} (plain : (Dsc.text p).Plain)
    (denotes : (Dsc.text p).Denotes x) (h : w.get (.text p) scale.toInt = .ok t) :
    t = truncate (x * 10 ^ (-scale.toInt)) := by
  cases w with
  | short _ => exact cvtGet_text plain denotes (.inl h)
  | long _ => exact cvtGet_text plain denotes (.inr h)
  | int64 _ => exact cvtGet_text plain denotes (.inr h)

variable {arg2 : Dsc} {s' : Int8} {v' : ExactValue} {r : Int}

theorem compareAs_temps (h : compareAs s v arg2 = .ok r) :
    ∃ temp1 temp2, v.get (.exact s v) (arg2.compareScale s) = .ok temp1 ∧
      v.get arg2 (arg2.compareScale s) = .ok temp2 ∧ r = order temp1 temp2 := by
  unfold compareAs at h
  cases first : v.get (.exact s v) (arg2.compareScale s) with
  | error e =>
    rw [first] at h
    cases h
  | ok temp1 =>
    cases second : v.get arg2 (arg2.compareScale s) with
    | error e =>
      rw [first, second] at h
      cases h
    | ok temp2 =>
      rw [first, second] at h
      exact ⟨temp1, temp2, rfl, rfl, (Except.ok.inj h).symm⟩

/-- Two exact numerics are compared at the smaller of their scales, where both keep their numbers. -/
theorem compareAs_exact (small : v'.comparePriority ≤ v.comparePriority)
    (h : compareAs s v (.exact s' v') = .ok r) :
    r = sgn (v.toInt * 10 ^ s.toInt - v'.toInt * 10 ^ s'.toInt) := by
  obtain ⟨temp1, temp2, first, second, rfl⟩ := compareAs_temps h
  unfold Dsc.compareScale at first second
  dsimp only at first second
  rcases le_total s.toInt s'.toInt with finer | finer
  · rw [min_eq_left finer] at first second
    rw [order_eq (show (0 : ℚ) < 10 ^ s.toInt by positivity), get_finer (le_refl _) (le_refl _) first,
      get_finer finer small second]
  · rw [min_eq_right finer] at first second
    rw [order_eq (show (0 : ℚ) < 10 ^ s'.toInt by positivity), get_finer finer (le_refl _) first,
      get_finer (le_refl _) small second]

/-- A string is compared at the scale of the numeric, where its number is cut off. -/
theorem compareAs_text {p : List UInt8} {y : ℚ} (plain : (Dsc.text p).Plain)
    (denotes : (Dsc.text p).Denotes y) (h : compareAs s v (.text p) = .ok r) :
    r = sgn (v.toInt * 10 ^ s.toInt - (Dsc.text p).beside (.exact s v) y) := by
  obtain ⟨temp1, temp2, first, second, rfl⟩ := compareAs_temps h
  have cut := get_text plain denotes second
  rw [order_eq (show (0 : ℚ) < 10 ^ s.toInt by positivity), get_finer (le_refl _) (le_refl _) first,
    cut]
  rfl

theorem sgn_nonneg {q : ℚ} : 0 ≤ sgn q ↔ 0 ≤ q := by
  unfold sgn
  rcases lt_trichotomy q 0 with h | rfl | h
  · rw [if_neg h.ne, if_neg (not_lt.mpr h.le)]
    exact ⟨fun absurd => by omega, fun le => absurd h (not_lt.mpr le)⟩
  · simp
  · rw [if_neg h.ne', if_pos h]
    exact ⟨fun _ => h.le, fun _ => by decide⟩

theorem beside_exact {a : Dsc} (exact : a.isText = false) (b : Dsc) (x : ℚ) : a.beside b x = x := by
  cases a with
  | exact s v => rfl
  | text p => cases exact

theorem plain_of_exact {a : Dsc} (exact : a.isText = false) : a.Plain := by
  cases a with
  | exact s v => trivial
  | text p => cases exact

/-- A short string whose conversion returns has the number that comes of it. -/
theorem text_of_decompose {p : List UInt8} {value e : Int} (short : p.length ≤ 18)
    (h : decompose .int64 p = .ok (value, e)) :
    (Dsc.text p).Plain ∧ (Dsc.text p).Denotes (value * 10 ^ e) := by
  obtain ⟨n, r, spells, count, small, rfl, rfl⟩ := decompose_ok.mp h
  have one : ∀ n', Spells blankOrComma n' p → n' = n := fun n' spells' =>
    Spells.unique (fun c letter skip => by
      simp only [isExpLetter, blankOrComma, Bool.or_eq_true, decide_eq_true_eq] at letter skip
      rcases letter with rfl | rfl <;> exact absurd skip (by decide)) spells' spells
  have exact := spells.exact .int64 small short
  have length := spells.digits_length
  have exponent := expValue_small small
  refine ⟨⟨by omega, fun n' spells' => ?_⟩, fun n' spells' => ?_⟩
  · rw [one n' spells']
    refine ⟨fun overruns => exact.1 ⟨rfl, overruns⟩, ?_⟩
    unfold Numeral.digits at length
    rw [List.length_append] at length
    unfold Numeral.scale
    omega
  · rw [one n' spells']
    exact (signed_exact_iff spells.digits_lt (by omega) small count).mpr exact

theorem map_neg {result : Except CvtError Int} (h : (result.map fun r => -r) = .ok r) :
    result = .ok (-r) := by
  cases result with
  | error e => cases h
  | ok q =>
    obtain rfl := Except.ok.inj h
    exact congrArg Except.ok (neg_neg q).symm

/-- Two exact numerics, whichever of the types is the one to compare in. -/
theorem cvt2Compare_exact (texts : List UInt8 → List UInt8 → Int)
    (h : cvt2Compare texts (.exact s v) (.exact s' v') = .ok r) :
    r = sgn (v.toInt * 10 ^ s.toInt - v'.toInt * 10 ^ s'.toInt) := by
  unfold cvt2Compare at h
  dsimp only at h
  split at h
  next same =>
    obtain ⟨-, rfl⟩ := same
    obtain rfl := Except.ok.inj h
    exact order_eq (by positivity) _ _
  next =>
    split at h
    next less => rw [← neg_neg r, compareAs_exact less.le (map_neg h), ← sgn_neg, neg_sub]
    next more => exact compareAs_exact (Nat.le_of_not_lt more) h

/-- Two operands of which one is exact numeric. -/
theorem cvt2Compare_sgn (texts : List UInt8 → List UInt8 → Int) {a b : Dsc} {x y : ℚ}
    (numeric : ¬ (a.isText = true ∧ b.isText = true)) (plainA : a.Plain) (plainB : b.Plain)
    (denotesA : a.Denotes x) (denotesB : b.Denotes y) (h : cvt2Compare texts a b = .ok r) :
    r = sgn (a.beside b x - b.beside a y) := by
  cases a with
  | exact s v =>
    obtain rfl : x = v.toInt * 10 ^ s.toInt := denotesA
    cases b with
    | exact s' v' =>
      obtain rfl : y = v'.toInt * 10 ^ s'.toInt := denotesB
      exact cvt2Compare_exact texts h
    | text p => exact compareAs_text plainB denotesB h
  | text p =>
    cases b with
    | exact s v =>
      obtain rfl : y = v.toInt * 10 ^ s.toInt := denotesB
      rw [← neg_neg r, compareAs_text plainA denotesA (map_neg h), ← sgn_neg, neg_sub]
      rfl
    | text q => exact absurd ⟨rfl, rfl⟩ numeric

end

/-- What `CVT2_compare` returns of an exact numeric and an operand beside it is the sign of the
difference of their numbers, that of a string being cut off at the scale of the numeric. -/
theorem cvt2Compare_sign (texts : List UInt8 → List UInt8 → Int) {a b : Dsc}
    (numeric : ¬ (a.isText = true ∧ b.isText = true)) (plainA : a.Plain) (plainB : b.Plain) {x y : ℚ}
    (denotesA : a.Denotes x) (denotesB : b.Denotes y) {r : Int} (h : cvt2Compare texts a b = .ok r) :
    r = sgn (a.beside b x - b.beside a y) ∧
      (∀ q, cvt2Compare texts b a = .ok q → q = -r) ∧
      ∀ c z q l, a.isText = false → b.isText = false → c.isText = false → c.Denotes z →
        cvt2Compare texts b c = .ok q → cvt2Compare texts a c = .ok l → 0 ≤ r → 0 ≤ q → 0 ≤ l := by
  have sign := cvt2Compare_sgn texts numeric plainA plainB denotesA denotesB h
  refine ⟨sign, fun q swapped => ?_,
    fun c z q l exactA exactB exactC denotesC hbc hac above next => ?_⟩
  · have back := cvt2Compare_sgn texts (fun both => numeric ⟨both.2, both.1⟩) plainB plainA
      denotesB denotesA swapped
    rw [back, sign, ← sgn_neg, neg_sub]
  · have plainC := plain_of_exact exactC
    have signBC := cvt2Compare_sgn texts (fun both => by simp [exactB] at both) plainB plainC
      denotesB denotesC hbc
    have signAC := cvt2Compare_sgn texts (fun both => by simp [exactA] at both) plainA plainC
      denotesA denotesC hac
    rw [beside_exact exactA, beside_exact exactB] at sign
    rw [beside_exact exactB, beside_exact exactC] at signBC
    rw [beside_exact exactA, beside_exact exactC] at signAC
    rw [sign, sgn_nonneg] at above
    rw [signBC, sgn_nonneg] at next
    rw [signAC, sgn_nonneg]
    linarith

/-- The short 15 of scale -1 and the text 1.56. -/
theorem cvt2Compare_sign_text :
    (0 : Int) = sgn ((Dsc.exact (-1) (.short 15)).beside (.text [49, 46, 53, 54])
        (15 * 10 ^ (-1 : Int)) -
      (Dsc.text [49, 46, 53, 54]).beside (.exact (-1) (.short 15)) (156 * 10 ^ (-2 : Int))) ∧
      (∀ q, cvt2Compare compareBytes (.text [49, 46, 53, 54]) (.exact (-1) (.short 15)) = .ok q →
        q = -0) ∧
      ∀ c z q l, (Dsc.exact (-1) (.short 15)).isText = false →
        (Dsc.text [49, 46, 53, 54]).isText = false → c.isText = false → c.Denotes z →
        cvt2Compare compareBytes (.text [49, 46, 53, 54]) c = .ok q →
        cvt2Compare compareBytes (.exact (-1) (.short 15)) c = .ok l →
        (0 : Int) ≤ 0 → 0 ≤ q → 0 ≤ l := by
  obtain ⟨plain, denotes⟩ := text_of_decompose (p := [49, 46, 53, 54]) (by decide)
    (show decompose .int64 [49, 46, 53, 54] = .ok (156, -2) by decide)
  have denotesA : (Dsc.exact (-1) (.short 15)).Denotes (15 * 10 ^ (-1 : Int)) := by
    show (15 * 10 ^ (-1 : Int) : ℚ) = ((15 : Int16).toInt : Int) * 10 ^ (-1 : Int8).toInt
    rw [show (15 : Int16).toInt = 15 by decide, show (-1 : Int8).toInt = -1 by decide]
    norm_num
  exact cvt2Compare_sign compareBytes (a := .exact (-1) (.short 15)) (b := .text [49, 46, 53, 54])
    (by decide) trivial plain denotesA (by exact_mod_cast denotes) (by decide)

/-- The long 5 is equal to the text 5.9, and the text 10 is before the text 9. -/
theorem cvt2Compare_cuts_or_compares_texts :
    (cvt2Compare compareBytes (.exact 0 (.long 5)) (.text [53, 46, 57]) = .ok 0 ∧
      (Dsc.exact 0 (.long 5)).Denotes 5 ∧ (Dsc.text [53, 46, 57]).Denotes (59 * 10 ^ (-1 : Int)) ∧
      sgn (5 - 59 * 10 ^ (-1 : Int)) = -1) ∧
    (cvt2Compare compareBytes (.text [49, 48]) (.text [57]) = .ok (-1) ∧
      (Dsc.text [49, 48]).Denotes (10 * 10 ^ (0 : Int)) ∧
      (Dsc.text [57]).Denotes (9 * 10 ^ (0 : Int)) ∧
      sgn (10 * 10 ^ (0 : Int) - 9 * 10 ^ (0 : Int)) = 1) := by
  have first := (text_of_decompose (p := [53, 46, 57]) (by decide)
    (show decompose .int64 [53, 46, 57] = .ok (59, -1) by decide)).2
  have ten := (text_of_decompose (p := [49, 48]) (by decide)
    (show decompose .int64 [49, 48] = .ok (10, 0) by decide)).2
  have nine := (text_of_decompose (p := [57]) (by decide)
    (show decompose .int64 [57] = .ok (9, 0) by decide)).2
  refine ⟨⟨by decide, ?_, by exact_mod_cast first, ?_⟩, by decide, by exact_mod_cast ten,
    by exact_mod_cast nine, ?_⟩
  · show (5 : ℚ) = ((5 : Int32).toInt : Int) * 10 ^ (0 : Int8).toInt
    rw [show (5 : Int32).toInt = 5 by decide, show (0 : Int8).toInt = 0 by decide]
    norm_num
  · unfold sgn
    norm_num
  · unfold sgn
    norm_num

end InterBase.Cvt
