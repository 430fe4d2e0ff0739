import Mathlib

namespace InterBase

/-- An entry of `int64_scale_control`: from `limit` on multiply by `factor` and take `scale_change`
off the scale. -/
structure ScaleControl where
  limit : Nat
  factor : Nat
  scaleChange : Nat
deriving Repr, DecidableEq

def int64ScaleControl : List ScaleControl :=
  [⟨922337203685470000, 1, 0⟩,
    ⟨92233720368547000, 10, 1⟩,
    ⟨9223372036854700, 100, 2⟩,
    ⟨922337203685470, 1000, 3⟩,
    ⟨92233720368548, 10000, 4⟩,
    ⟨9223372036855, 100000, 5⟩,
    ⟨922337203686, 1000000, 6⟩,
    ⟨92233720369, 10000000, 7⟩,
    ⟨9223372035, 100000000, 8⟩,
    ⟨922337204, 1000000000, 9⟩,
    ⟨92233721, 10000000000, 10⟩,
    ⟨9223373, 100000000000, 11⟩,
    ⟨922338, 1000000000000, 12⟩,
    ⟨92234, 10000000000000, 13⟩,
    ⟨9224, 100000000000000, 14⟩,
    ⟨923, 1000000000000000, 15⟩,
    ⟨93, 10000000000000000, 16⟩,
    ⟨10, 100000000000000000, 17⟩,
    ⟨1, 1000000000000000000, 18⟩,
    ⟨0, 0, 0⟩]

/-- `while (uq < int64_scale_control[n].limit) n++`. -/
def scaleControl (uq : Nat) : List ScaleControl → ScaleControl
  | [] => ⟨0, 0, 0⟩
  | control :: controls => if uq < control.limit then scaleControl uq controls else control

/-- `(UINT64) ((q >= 0) ? q : -q)`. -/
def absoluteValue (q : BitVec 64) : Nat := if 0 ≤ q.toInt then q.toNat else (-q).toNat

/-- The power of 10 that `make_int64_key` scales `q` by. -/
def int64Scaling (q : BitVec 64) : ScaleControl := scaleControl (absoluteValue q) int64ScaleControl

/-- `powerof10(s)` for the scales of a numeric, which are not positive; `pow10` has the exact
powers. -/
def powerOf10 (s : Int) : ℚ := if s ≤ 0 then 10 ^ (-s).toNat else 1 / 10 ^ s.toNat

/-- The `double` of the key is read as the exact quotient. -/
structure Int64Key where
  dPart : ℚ
  sPart : Int
deriving DecidableEq

def makeInt64Key (q : BitVec 64) (scale : Int) : Int64Key :=
  let control := int64Scaling q
  let q := q * BitVec.ofNat 64 control.factor
  let scale := scale - control.scaleChange
  { dPart := (q.toInt.tdiv 10000 : Int) / powerOf10 scale
    sPart := q.toInt.tmod 10000 }

/-- Keys compare by `d_part` and then by `s_part`. -/
def Int64Key.Before (a b : Int64Key) : Prop :=
  a.dPart < b.dPart ∨ (a.dPart = b.dPart ∧ a.sPart < b.sPart)

/-- The number that a scaled integer stands for. -/
def scaledValue (q : BitVec 64) (scale : Int) : ℚ := q.toInt * (10 : ℚ) ^ scale

theorem absoluteValue_eq (q : BitVec 64) : absoluteValue q = q.toInt.natAbs := by
  unfold absoluteValue
  have hint := BitVec.toInt_eq_toNat_cond q
  have hlt := q.isLt
  have hneg := BitVec.toNat_neg q
  split
  next h => split at hint <;> omega
  next h =>
    rw [hneg]
    split at hint <;> omega

/-- What the table promises for an absolute value: the scaled number fits, is out of reach of the
next power of 10, and every step of the table but one keeps it above the first limit. -/
structure ScaledWell (uq : Nat) (control : ScaleControl) : Prop where
  power : control.factor = 10 ^ control.scaleChange
  digits : control.scaleChange ≤ 18
  fits : uq * control.factor ≤ 9223372036854700000 ∨ control.scaleChange = 0
  high : 922337203685470000 ≤ uq * control.factor ∨
    uq * control.factor = 922337203500000000 ∨ uq * control.factor = 922337203600000000

theorem scaleControl_cons {uq : Nat} {control : ScaleControl} {controls : List ScaleControl}
    (here : control.limit ≤ uq → ScaledWell uq control)
    (later : uq < control.limit → ScaledWell uq (scaleControl uq controls)) :
    ScaledWell uq (scaleControl uq (control :: controls)) := by
  rw [scaleControl]
  split
  next h => exact later h
  next h => exact here (by omega)

theorem scaleControl_spec {uq : Nat} (pos : 0 < uq) :
    ScaledWell uq (scaleControl uq int64ScaleControl) := by
  unfold int64ScaleControl
  iterate 19
    refine scaleControl_cons (fun low => ?_) (fun high => ?_)
    · dsimp only at low
      exact ⟨by norm_num, by norm_num, by dsimp only; omega, by dsimp only; omega⟩
    dsimp only at high
  omega

/-- The product of `make_int64_key` stays inside 64 bits. -/
def ScalesInside (q : BitVec 64) : Prop :=
  -9223372036854775808 ≤ q.toInt * (int64Scaling q).factor ∧
    q.toInt * (int64Scaling q).factor ≤ 9223372036854775807

theorem scalesInside (q : BitVec 64) : ScalesInside q := by
  have low := q.le_toInt
  have high := q.toInt_lt
  have habs := absoluteValue_eq q
  unfold ScalesInside int64Scaling
  rcases Nat.eq_zero_or_pos (absoluteValue q) with zero | pos
  · have hq : q.toInt = 0 := by omega
    rw [hq]
    omega
  · have well := scaleControl_spec pos
    generalize scaleControl (absoluteValue q) int64ScaleControl = control at well
    have hmul : ((absoluteValue q * control.factor : Nat) : Int) = |q.toInt| * control.factor := by
      rw [habs]
      push_cast
      rfl
    have hsplit : |q.toInt| * control.factor = q.toInt * control.factor ∨
        |q.toInt| * control.factor = -(q.toInt * control.factor) := by
      rcases abs_choice q.toInt with h | h
      · exact Or.inl (by rw [h])
      · exact Or.inr (by rw [h, neg_mul])
    rcases well.fits with fits | zero
    · omega
    · have hfactor : control.factor = 1 := by rw [well.power, zero, pow_zero]
      rw [hfactor]
      omega

/-- A scaled number: how many zeros were put behind it and where that took it. -/
structure Scaled (q : Int) (n : Nat) (scaled : Int) : Prop where
  shifted : scaled = q * 10 ^ n
  digits : n ≤ 18
  inside : scaled.natAbs ≤ 9223372036854775808
  fits : scaled.natAbs ≤ 9223372036854700000 ∨ n = 0
  high : scaled = 0 ∨ 922337203685470000 ≤ scaled.natAbs ∨
    scaled.natAbs = 922337203500000000 ∨ scaled.natAbs = 922337203600000000

theorem makeInt64Key_scaled (q : BitVec 64) : ∃ n scaled, Scaled q.toInt n scaled ∧
    ∀ scale : Int, makeInt64Key q scale =
      ⟨(scaled.tdiv 10000 : Int) / powerOf10 (scale - n), scaled.tmod 10000⟩ := by
  obtain ⟨low, high⟩ := scalesInside q
  have habs := absoluteValue_eq q
  have hmul : (q * BitVec.ofNat 64 (int64Scaling q).factor).toInt =
      q.toInt * (int64Scaling q).factor := by
    rw [BitVec.toInt_mul, BitVec.toInt_ofNat', Int.mul_bmod_bmod]
    apply Int.bmod_eq_of_le
    · omega
    · omega
  refine ⟨(int64Scaling q).scaleChange, q.toInt * (int64Scaling q).factor, ?_, ?_⟩
  · rcases Nat.eq_zero_or_pos (absoluteValue q) with zero | pos
    · have hq : q.toInt = 0 := by omega
      have hcontrol : int64Scaling q = ⟨0, 0, 0⟩ := by
        unfold int64Scaling
        rw [zero]
        decide
      rw [hcontrol, hq]
      exact ⟨by simp, by simp, by simp, Or.inr rfl, Or.inl (by simp)⟩
    · have well := scaleControl_spec pos
      have hcontrol : int64Scaling q = scaleControl (absoluteValue q) int64ScaleControl := rfl
      rw [← hcontrol] at well
      have hnat : (q.toInt * ((int64Scaling q).factor : Int)).natAbs =
          absoluteValue q * (int64Scaling q).factor := by
        rw [Int.natAbs_mul, ← habs, Int.natAbs_natCast]
      refine ⟨?_, well.digits, by omega, ?_, ?_⟩
      · rw [well.power]
        push_cast
        rfl
      · rw [hnat]
        exact well.fits
      · rw [hnat]
        exact Or.inr well.high
  · intro scale
    unfold makeInt64Key
    simp only [hmul]

/-- The two halves of a scaled number, as C divides. -/
structure Int64Halves (scaled d s : Int) : Prop where
  whole : scaled = 10000 * d + s
  nonneg : 0 ≤ scaled → 0 ≤ d ∧ 0 ≤ s ∧ s ≤ 9999
  nonpos : scaled ≤ 0 → d ≤ 0 ∧ -9999 ≤ s ∧ s ≤ 0

theorem int64Halves (scaled : Int) : Int64Halves scaled (scaled.tdiv 10000) (scaled.tmod 10000) := by
  have hwhole := Int.mul_tdiv_add_tmod scaled 10000
  have hlt := Int.tmod_lt_of_pos scaled (show (0 : Int) < 10000 by decide)
  have hgt := Int.lt_tmod_of_pos scaled (show (0 : Int) < 10000 by decide)
  refine ⟨hwhole.symm, ?_, ?_⟩
  · intro h
    have hd := Int.tdiv_nonneg h (show (0 : Int) ≤ 10000 by decide)
    have hs := Int.tmod_nonneg 10000 h
    omega
  · intro h
    have hd := Int.tdiv_nonneg (show 0 ≤ -scaled by omega) (show (0 : Int) ≤ 10000 by decide)
    have hs := Int.tmod_nonneg 10000 (show 0 ≤ -scaled by omega)
    rw [Int.neg_tdiv] at hd
    rw [Int.neg_tmod] at hs
    omega

/-- Pairs that compare like the numbers they were made of. -/
structure PairsAgree (d1 r1 v1 d2 r2 v2 : Int) : Prop where
  before : (d1 < d2 ∨ (d1 = d2 ∧ r1 < r2)) ↔ v1 < v2
  same : (d1 = d2 ∧ r1 = r2) ↔ v1 = v2

/-- Two scaled numbers at either end of a power of 10, both above the first limit: the quotients by
10000 no longer tell which is larger. -/
def Bunched (a b : Int) : Prop :=
  (922337203685470000 < b ∧ b ≤ 922337203685479999 ∧ 8301034833169230000 + b ≤ a ∧ a ≤ 10 * b) ∨
    (922337203685470000 < -b ∧ -b ≤ 922337203685479999 ∧ 8301034833169230000 - b ≤ -a ∧
      -a ≤ 10 * -b)

instance (a b : Int) : Decidable (Bunched a b) := inferInstanceAs (Decidable (_ ∨ _))

variable {q1 q2 scaled1 scaled2 d1 r1 d2 r2 : Int} {n1 n2 : Nat}

theorem pairsAgree_same_scale (h1 : Int64Halves scaled1 d1 r1) (h2 : Int64Halves scaled2 d2 r2) :
    PairsAgree d1 r1 scaled1 d2 r2 scaled2 := by
  obtain ⟨w1, p1, m1⟩ := h1
  obtain ⟨w2, p2, m2⟩ := h2
  constructor <;> omega

theorem PairsAgree.neg {d1 r1 v1 d2 r2 v2 : Int} (h : PairsAgree (-d1) (-r1) (-v1) (-d2) (-r2) (-v2)) :
    PairsAgree d1 r1 v1 d2 r2 v2 := by
  obtain ⟨before, same⟩ := h
  constructor <;> omega

theorem Int64Halves.neg (h : Int64Halves scaled1 d1 r1) : Int64Halves (-scaled1) (-d1) (-r1) := by
  obtain ⟨whole, nonneg, nonpos⟩ := h
  refine ⟨by omega, ?_, ?_⟩
  · intro h
    have := nonpos (by omega)
    omega
  · intro h
    have := nonneg (by omega)
    omega

theorem pairsAgree_next_pos (h1 : Int64Halves scaled1 d1 r1) (h2 : Int64Halves scaled2 d2 r2)
    (pos1 : 0 < scaled1) (pos2 : 0 < scaled2) (inside : scaled1 ≤ 9223372036854775808)
    (high : 922337203685470000 ≤ scaled2 ∨ r2 = 0) :
    PairsAgree d1 r1 scaled1 (10 * d2) r2 (10 * scaled2) ↔
      ¬(922337203685470000 < scaled2 ∧ scaled2 ≤ 922337203685479999 ∧
        8301034833169230000 + scaled2 ≤ scaled1 ∧ scaled1 ≤ 10 * scaled2) := by
  obtain ⟨w1, p1, m1⟩ := h1
  obtain ⟨w2, p2, m2⟩ := h2
  have p1 := p1 (by omega)
  have p2 := p2 (by omega)
  clear m1 m2
  subst w1 w2
  rcases high with high | high
  · by_cases apart : 922337203685480000 ≤ 10000 * d2 + r2
    · -- the next power of 10 is out of reach of 64 bits
      have hlt : d1 < 10 * d2 := by omega
      have hv : 10000 * d1 + r1 < 10 * (10000 * d2 + r2) := by omega
      refine ⟨fun _ => by omega, fun _ => ⟨by omega, by omega⟩⟩
    · have hd : d2 = 92233720368547 := by omega
      subst hd
      constructor
      · rintro ⟨before, same⟩
        omega
      · intro apart
        constructor <;> omega
  · subst high
    refine ⟨fun _ => by omega, fun _ => ⟨by omega, by omega⟩⟩

theorem Scaled.low_remainder {q scaled d r : Int} {n : Nat} (s : Scaled q n scaled)
    (h : Int64Halves scaled d r) (nonzero : scaled ≠ 0) : 922337203685470000 ≤ scaled.natAbs ∨ r = 0 := by
  obtain ⟨whole, nonneg, nonpos⟩ := h
  rcases s.high with zero | high | low | low
  · exact absurd zero nonzero
  · exact Or.inl high
  · apply Or.inr
    rcases Int.natAbs_eq scaled with h | h <;> omega
  · apply Or.inr
    rcases Int.natAbs_eq scaled with h | h <;> omega

/-- Numbers on either side of zero compare as their pairs do. -/
theorem pairsAgree_across_pos (h1 : Int64Halves scaled1 d1 r1) (h2 : Int64Halves scaled2 d2 r2)
    (pos : 0 ≤ scaled1) (neg : scaled2 ≤ 0) : PairsAgree d1 r1 scaled1 (10 * d2) r2 (10 * scaled2) := by
  obtain ⟨hd1, hr1, -⟩ := h1.nonneg pos
  obtain ⟨hd2, -, hr2⟩ := h2.nonpos neg
  have whole1 := h1.whole
  have whole2 := h2.whole
  constructor <;> omega

/-- One power of 10 apart, only bunched numbers get pairs that compare otherwise. -/
theorem pairsAgree_next_scale (s1 : Scaled q1 n1 scaled1) (s2 : Scaled q2 n2 scaled2)
    (h1 : Int64Halves scaled1 d1 r1) (h2 : Int64Halves scaled2 d2 r2) :
    PairsAgree d1 r1 scaled1 (10 * d2) r2 (10 * scaled2) ↔ ¬Bunched scaled1 scaled2 := by
  have inside := s1.inside
  unfold Bunched
  by_cases pos : 0 < scaled1 ∧ 0 < scaled2
  · have high := s2.low_remainder h2 (by omega)
    rw [pairsAgree_next_pos h1 h2 pos.1 pos.2 (by omega) (by omega)]
    omega
  · by_cases neg : scaled1 < 0 ∧ scaled2 < 0
    · have high := s2.low_remainder h2 (by omega)
      have hneg := pairsAgree_next_pos h1.neg h2.neg (by omega) (by omega) (by omega) (by omega)
      have hswap : PairsAgree d1 r1 scaled1 (10 * d2) r2 (10 * scaled2) ↔
          PairsAgree (-d1) (-r1) (-scaled1) (10 * -d2) (-r2) (10 * -scaled2) := by
        simp only [Int.mul_neg]
        refine ⟨fun h => PairsAgree.neg ?_, PairsAgree.neg⟩
        simpa only [Int.neg_neg] using h
      rw [hswap, hneg]
      omega
    · have hnot : ¬((922337203685470000 < scaled2 ∧ scaled2 ≤ 922337203685479999 ∧
          8301034833169230000 + scaled2 ≤ scaled1 ∧ scaled1 ≤ 10 * scaled2) ∨
          (922337203685470000 < -scaled2 ∧ -scaled2 ≤ 922337203685479999 ∧
            8301034833169230000 - scaled2 ≤ -scaled1 ∧ -scaled1 ≤ 10 * -scaled2)) := by
        omega
      refine iff_of_true ?_ hnot
      have signs : (0 ≤ scaled1 ∧ scaled2 ≤ 0) ∨ (scaled1 ≤ 0 ∧ 0 ≤ scaled2) := by omega
      rcases signs with ⟨sign1, sign2⟩ | ⟨sign1, sign2⟩
      · exact pairsAgree_across_pos h1 h2 sign1 sign2
      · have hneg := pairsAgree_across_pos h1.neg h2.neg (by omega) (by omega)
        rw [Int.mul_neg, Int.mul_neg] at hneg
        exact hneg.neg

theorem pairsAgree_far_pos (h1 : Int64Halves scaled1 d1 r1) (h2 : Int64Halves scaled2 d2 r2)
    (inside : scaled1 ≤ 9223372036854775808) (low : 922337203500000000 ≤ scaled2) {p : Int}
    (far : 100 ≤ p) : d1 < p * d2 ∧ scaled1 < p * scaled2 := by
  obtain ⟨w1, p1, m1⟩ := h1
  obtain ⟨w2, p2, m2⟩ := h2
  have p2 := p2 (by omega)
  have hd : 100 * d2 ≤ p * d2 := Int.mul_le_mul_of_nonneg_right far p2.1
  have hv : 100 * scaled2 ≤ p * scaled2 := Int.mul_le_mul_of_nonneg_right far (by omega)
  omega

/-- Two powers of 10 apart or more, the quotients alone tell. -/
theorem pairsAgree_far (s1 : Scaled q1 n1 scaled1) (s2 : Scaled q2 n2 scaled2)
    (h1 : Int64Halves scaled1 d1 r1) (h2 : Int64Halves scaled2 d2 r2) {p : Int} (far : 100 ≤ p) :
    PairsAgree d1 r1 scaled1 (p * d2) r2 (p * scaled2) := by
  have inside := s1.inside
  have high := s2.high
  rcases Int.lt_trichotomy scaled2 0 with neg | zero | pos
  · obtain ⟨hd, hv⟩ := pairsAgree_far_pos h1.neg h2.neg (by omega) (by omega) far
    rw [Int.mul_neg] at hd hv
    constructor <;> omega
  · have h2' := h2.nonneg (by omega)
    have h2'' := h2.nonpos (by omega)
    have hd : d2 = 0 := by omega
    subst zero hd
    obtain ⟨w1, p1, m1⟩ := h1
    constructor <;> omega
  · obtain ⟨hd, hv⟩ := pairsAgree_far_pos h1 h2 (by omega) (by omega) far
    constructor <;> omega

theorem pairsAgree_iff (s1 : Scaled q1 n1 scaled1) (s2 : Scaled q2 n2 scaled2)
    (h1 : Int64Halves scaled1 d1 r1) (h2 : Int64Halves scaled2 d2 r2) (k : Nat) :
    PairsAgree d1 r1 scaled1 (10 ^ k * d2) r2 (10 ^ k * scaled2) ↔
      ¬(k = 1 ∧ Bunched scaled1 scaled2) := by
  match k with
  | 0 =>
    simp only [pow_zero, one_mul]
    exact ⟨fun _ h => absurd h.1 (by omega), fun _ => pairsAgree_same_scale h1 h2⟩
  | 1 =>
    simp only [pow_one, true_and]
    exact pairsAgree_next_scale s1 s2 h1 h2
  | k + 2 =>
    have far : (100 : Int) ≤ 10 ^ (k + 2) := by
      have : (0 : Int) < 10 ^ k := by positivity
      rw [pow_add]
      omega
    exact ⟨fun _ h => absurd h.1 (by omega), fun _ => pairsAgree_far s1 s2 h1 h2 far⟩

/-- Which numbers are bunched can be seen before they are scaled: one has no room for another zero,
the other lies within 10000 of the first limit once it has one, two or three. -/
def Crowded (q1 : Int) (scale1 : Int) (q2 : Int) (scale2 : Int) : Prop :=
  ∃ n ≤ 3, scale2 = scale1 + 1 + (n : Nat) ∧ Bunched q1 (q2 * 10 ^ n)

theorem Scaled.eq_of_full (s : Scaled q1 n1 scaled1)
    (full : 9223372036854700000 < q1.natAbs ∨ 9223372036854700000 < scaled1.natAbs) :
    n1 = 0 ∧ scaled1 = q1 := by
  have hzero : n1 = 0 → scaled1 = q1 := by
    intro zero
    rw [s.shifted, zero, pow_zero, mul_one]
  rcases s.fits with fits | zero
  · rcases full with full | full
    · refine absurd fits ?_
      have hpos : 0 < 10 ^ n1 := by positivity
      have hle : q1.natAbs * 1 ≤ q1.natAbs * 10 ^ n1 := Nat.mul_le_mul_left _ hpos
      rw [s.shifted, Int.natAbs_mul, Int.natAbs_pow]
      show ¬q1.natAbs * 10 ^ n1 ≤ _
      omega
    · omega
  · exact ⟨zero, hzero zero⟩

/-- A number near the first limit, with its zeros, is the one that the table scales it to. -/
theorem Scaled.digits_unique (s : Scaled q2 n2 scaled2) {n : Nat}
    (low : 922337203685470000 < (q2 * 10 ^ n).natAbs)
    (high : (q2 * 10 ^ n).natAbs ≤ 922337203685479999) : n2 = n := by
  have hscaled : scaled2.natAbs = q2.natAbs * 10 ^ n2 := by
    rw [s.shifted, Int.natAbs_mul, Int.natAbs_pow]
    rfl
  have hnear : (q2 * 10 ^ n).natAbs = q2.natAbs * 10 ^ n := by
    rw [Int.natAbs_mul, Int.natAbs_pow]
    rfl
  rw [hnear] at low high
  have step : ∀ a b : Nat, a < b → 10 * (q2.natAbs * 10 ^ a) ≤ q2.natAbs * 10 ^ b := by
    intro a b hab
    calc 10 * (q2.natAbs * 10 ^ a) = q2.natAbs * 10 ^ (a + 1) := by ring
      _ ≤ q2.natAbs * 10 ^ b :=
        Nat.mul_le_mul_left _ (Nat.pow_le_pow_right (by omega) (by omega))
  rcases Nat.lt_trichotomy n2 n with less | same | more
  · have hle := step n2 n less
    have hnonzero : scaled2 ≠ 0 := by
      intro zero
      have hq : q2.natAbs = 0 := by
        rw [zero, Int.natAbs_zero] at hscaled
        exact (Nat.mul_eq_zero.mp hscaled.symm).resolve_right (by positivity)
      rw [hq, Nat.zero_mul] at low
      omega
    have hhigh := s.high.resolve_left hnonzero
    omega
  · exact same
  · have hle := step n n2 more
    have hfits := s.fits
    omega

theorem Bunched.bounds {a b : Int} (h : Bunched a b) : 9223372036854700000 < a.natAbs ∧
    922337203685470000 < b.natAbs ∧ b.natAbs ≤ 922337203685479999 := by
  unfold Bunched at h
  omega

theorem crowded_iff (s1 : Scaled q1 n1 scaled1) (s2 : Scaled q2 n2 scaled2) (scale1 scale2 : Int) :
    Crowded q1 scale1 q2 scale2 ↔
      scale2 - n2 = scale1 - n1 + 1 ∧ Bunched scaled1 scaled2 := by
  constructor
  · rintro ⟨n, hn, hscale, bunched⟩
    obtain ⟨full, low, high⟩ := bunched.bounds
    obtain ⟨hn1, hq1⟩ := s1.eq_of_full (Or.inl full)
    have hn2 := s2.digits_unique low high
    subst hn2
    rw [hq1, s2.shifted]
    exact ⟨by omega, bunched⟩
  · rintro ⟨hscale, bunched⟩
    obtain ⟨full, low, high⟩ := bunched.bounds
    obtain ⟨hn1, hq1⟩ := s1.eq_of_full (Or.inr full)
    refine ⟨n2, ?_, by omega, ?_⟩
    · by_contra hn
      -- four zeros would make it a multiple of 10000
      have hdvd : (10000 : Int) ∣ scaled2 := by
        rw [s2.shifted, show n2 = n2 - 4 + 4 by omega, pow_add]
        exact Dvd.intro_left (q2 * 10 ^ (n2 - 4)) (by ring)
      unfold Bunched at bunched
      omega
    · rw [← s2.shifted, ← hq1]
      exact bunched

theorem scaled_lt_iff (a b : Int) (e k : Nat) :
    (a : ℚ) / 10 ^ (e + k) < b / 10 ^ e ↔ a < 10 ^ k * b := by
  rw [div_lt_div_iff₀ (by positivity) (by positivity), pow_add, mul_comm ((10 : ℚ) ^ e), ← mul_assoc,
    mul_lt_mul_iff_left₀ (by positivity), mul_comm (b : ℚ)]
  exact_mod_cast Iff.rfl

theorem scaled_eq_iff (a b : Int) (e k : Nat) :
    (a : ℚ) / 10 ^ (e + k) = b / 10 ^ e ↔ a = 10 ^ k * b := by
  rw [div_eq_div_iff (by positivity) (by positivity), pow_add, mul_comm ((10 : ℚ) ^ e), ← mul_assoc,
    mul_left_inj' (by positivity), mul_comm (b : ℚ)]
  exact_mod_cast Iff.rfl

theorem Scaled.value {q : BitVec 64} {n : Nat} {scaled : Int} (s : Scaled q.toInt n scaled)
    {scale : Int} (h : scale ≤ 0) :
    scaledValue q scale = scaled / 10 ^ (-(scale - n)).toNat := by
  obtain ⟨e, rfl⟩ : ∃ e : Nat, scale = -e := ⟨(-scale).toNat, by omega⟩
  rw [scaledValue, s.shifted, show (-(-(e : Int) - n)).toNat = e + n by omega, zpow_neg,
    zpow_natCast, pow_add]
  push_cast
  field_simp

/-- The keys of two scaled numbers order exactly as the numbers, and are equal only when these are. -/
structure KeysAgree (q1 : BitVec 64) (scale1 : Int) (q2 : BitVec 64) (scale2 : Int) : Prop where
  before : (makeInt64Key q1 scale1).Before (makeInt64Key q2 scale2) ↔
    scaledValue q1 scale1 < scaledValue q2 scale2
  same : makeInt64Key q1 scale1 = makeInt64Key q2 scale2 ↔
    scaledValue q1 scale1 = scaledValue q2 scale2

theorem Int64Key.before_swap (a b : Int64Key) : b.Before a ↔ ¬a.Before b ∧ a ≠ b := by
  obtain ⟨d1, s1⟩ := a
  obtain ⟨d2, s2⟩ := b
  simp only [Before, ne_eq, mk.injEq]
  rcases lt_trichotomy d1 d2 with h | rfl | h
  · simp [h, h.ne, h.ne', h.le]
  · simp only [lt_self_iff_false, false_or, true_and]
    omega
  · simp [h, h.ne, h.ne', h.le]

theorem KeysAgree.symm {q1 q2 : BitVec 64} {scale1 scale2 : Int}
    (h : KeysAgree q1 scale1 q2 scale2) : KeysAgree q2 scale2 q1 scale1 := by
  constructor
  · rw [Int64Key.before_swap, h.before, ne_eq, h.same, not_lt, le_iff_lt_or_eq]
    constructor
    · rintro ⟨hle, hne⟩
      exact hle.resolve_right fun e => hne e.symm
    · intro hlt
      exact ⟨Or.inl hlt, hlt.ne'⟩
  · rw [eq_comm, h.same, eq_comm]

/-- With the scales of the keys in this order, everything is a matter of integers. -/
theorem keysAgree_iff_pairs {q1 q2 : BitVec 64} {n1 n2 : Nat} {scaled1 scaled2 : Int}
    (s1 : Scaled q1.toInt n1 scaled1) (s2 : Scaled q2.toInt n2 scaled2) {scale1 scale2 : Int}
    (key1 : makeInt64Key q1 scale1 =
      ⟨(scaled1.tdiv 10000 : Int) / powerOf10 (scale1 - n1), scaled1.tmod 10000⟩)
    (key2 : makeInt64Key q2 scale2 =
      ⟨(scaled2.tdiv 10000 : Int) / powerOf10 (scale2 - n2), scaled2.tmod 10000⟩)
    (h1 : scale1 ≤ 0) (h2 : scale2 ≤ 0) {k : Nat} (apart : scale2 - n2 = scale1 - n1 + k) :
    KeysAgree q1 scale1 q2 scale2 ↔
      PairsAgree (scaled1.tdiv 10000) (scaled1.tmod 10000) scaled1
        (10 ^ k * scaled2.tdiv 10000) (scaled2.tmod 10000) (10 ^ k * scaled2) := by
  have hp1 : powerOf10 (scale1 - n1) = 10 ^ ((-(scale2 - n2)).toNat + k) := by
    rw [powerOf10, if_pos (by omega)]
    congr 1
    omega
  have hp2 : powerOf10 (scale2 - n2) = 10 ^ (-(scale2 - n2)).toNat := by
    rw [powerOf10, if_pos (by omega)]
  have hv1 : scaledValue q1 scale1 = scaled1 / 10 ^ ((-(scale2 - n2)).toNat + k) := by
    rw [s1.value h1]
    congr 2
    omega
  have hv2 := s2.value h2
  constructor
  · rintro ⟨before, same⟩
    rw [key1, key2, hv1, hv2, hp1, hp2] at before same
    simp only [Int64Key.Before, Int64Key.mk.injEq, scaled_lt_iff, scaled_eq_iff] at before same
    exact ⟨before, same⟩
  · rintro ⟨before, same⟩
    constructor
    · rw [key1, key2, hv1, hv2, hp1, hp2]
      simpa only [Int64Key.Before, scaled_lt_iff, scaled_eq_iff] using before
    · rw [key1, key2, hv1, hv2, hp1, hp2]
      simpa only [Int64Key.mk.injEq, scaled_eq_iff] using same

/-- No product overflows, and two keys order as their numbers do unless these are crowded. -/
theorem makeInt64Key_orders_iff (q1 q2 : BitVec 64) (scale1 scale2 : Int)
    (range1 : -18 ≤ scale1 ∧ scale1 ≤ 0) (range2 : -18 ≤ scale2 ∧ scale2 ≤ 0) :
    ScalesInside q1 ∧ ScalesInside q2 ∧ (KeysAgree q1 scale1 q2 scale2 ↔
      ¬Crowded q1.toInt scale1 q2.toInt scale2 ∧ ¬Crowded q2.toInt scale2 q1.toInt scale1) := by
  refine ⟨scalesInside q1, scalesInside q2, ?_⟩
  obtain ⟨n1, scaled1, s1, key1⟩ := makeInt64Key_scaled q1
  obtain ⟨n2, scaled2, s2, key2⟩ := makeInt64Key_scaled q2
  have h1 := int64Halves scaled1
  have h2 := int64Halves scaled2
  rw [crowded_iff s1 s2, crowded_iff s2 s1]
  rcases Int.le_total (scale1 - n1) (scale2 - n2) with le | le
  · obtain ⟨k, apart⟩ : ∃ k : Nat, scale2 - n2 = scale1 - n1 + k :=
      ⟨(scale2 - n2 - (scale1 - n1)).toNat, by omega⟩
    rw [keysAgree_iff_pairs s1 s2 (key1 scale1) (key2 scale2) range1.2 range2.2 apart,
      pairsAgree_iff s1 s2 h1 h2]
    have hone : k = 1 ↔ scale2 - n2 = scale1 - n1 + 1 := by omega
    have hnever : ¬scale1 - n1 = scale2 - n2 + 1 := by omega
    simp only [hone, hnever, false_and, not_false_eq_true, and_true]
  · obtain ⟨k, apart⟩ : ∃ k : Nat, scale1 - n1 = scale2 - n2 + k :=
      ⟨(scale1 - n1 - (scale2 - n2)).toNat, by omega⟩
    have hswap : KeysAgree q1 scale1 q2 scale2 ↔ KeysAgree q2 scale2 q1 scale1 :=
      ⟨KeysAgree.symm, KeysAgree.symm⟩
    rw [hswap, keysAgree_iff_pairs s2 s1 (key2 scale2) (key1 scale1) range2.2 range1.2 apart,
      pairsAgree_iff s2 s1 h2 h1]
    have hone : k = 1 ↔ scale1 - n1 = scale2 - n2 + 1 := by omega
    have hnever : ¬scale2 - n2 = scale1 - n1 + 1 := by omega
    simp only [hone, hnever, false_and, not_false_eq_true, true_and]

theorem makeInt64Key_orders_scales : ScalesInside 15 ∧ ScalesInside 150 ∧
    (KeysAgree 15 (-1) 150 (-2) ↔
      ¬Crowded (15 : BitVec 64).toInt (-1) (150 : BitVec 64).toInt (-2) ∧
        ¬Crowded (150 : BitVec 64).toInt (-2) (15 : BitVec 64).toInt (-1)) :=
  makeInt64Key_orders_iff 15 150 (-1) (-2) (by decide) (by decide)

/-- 922337203685477580 as it stands and with one zero behind it at the next scale. -/
theorem makeInt64Key_two_keys :
    scaledValue 922337203685477580 0 = scaledValue 9223372036854775800 (-1) ∧
      makeInt64Key 922337203685477580 0 ≠ makeInt64Key 9223372036854775800 (-1) ∧
      ¬KeysAgree 922337203685477580 0 9223372036854775800 (-1) := by
  have hvalue : scaledValue 922337203685477580 0 = scaledValue 9223372036854775800 (-1) := by
    have h1 : (922337203685477580 : BitVec 64).toInt = 922337203685477580 := by decide
    have h2 : (9223372036854775800 : BitVec 64).toInt = 9223372036854775800 := by decide
    rw [scaledValue, scaledValue, h1, h2]
    norm_num
  have hkeys : makeInt64Key 922337203685477580 0 ≠ makeInt64Key 9223372036854775800 (-1) := by
    intro same
    have hs := congrArg Int64Key.sPart same
    revert hs
    decide
  exact ⟨hvalue, hkeys, fun agree => hkeys (agree.same.mpr hvalue)⟩

end InterBase
