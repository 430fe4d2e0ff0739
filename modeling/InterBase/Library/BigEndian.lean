import Mathlib.Data.List.DropRight
import Mathlib.Tactic.Common
import Mathlib.Tactic.Ring

namespace BigEndian

def bigEndian : Nat → Nat → List UInt8
  | 0, _ => []
  | k + 1, n => UInt8.ofNat (n / 256 ^ k) :: bigEndian k n

def value : List UInt8 → Nat
  | [] => 0
  | x :: xs => x.toNat * 256 ^ xs.length + value xs

@[simp] theorem length_bigEndian (k n : Nat) : (bigEndian k n).length = k := by
  induction k with
  | zero => rfl
  | succ k ih => simp [bigEndian, ih]

theorem value_lt (xs : List UInt8) : value xs < 256 ^ xs.length := by
  induction xs with
  | nil => simp [value]
  | cons x xs ih =>
    have hx : x.toNat + 1 ≤ 256 := x.toNat_lt
    calc value (x :: xs) < x.toNat * 256 ^ xs.length + 256 ^ xs.length := by
          simp only [value]
          omega
      _ = (x.toNat + 1) * 256 ^ xs.length := by ring
      _ ≤ 256 * 256 ^ xs.length := Nat.mul_le_mul_right _ hx
      _ = 256 ^ (x :: xs).length := by rw [List.length_cons, Nat.pow_succ, Nat.mul_comm]

theorem value_bigEndian (k n : Nat) : value (bigEndian k n) = n % 256 ^ k := by
  induction k with
  | zero => simp [bigEndian, value, Nat.mod_one]
  | succ k ih =>
    have hsplit : n % 256 ^ (k + 1) = n % 256 ^ k + 256 ^ k * (n / 256 ^ k % 256) :=
      Nat.mod_pow_succ
    rw [bigEndian, value, ih, length_bigEndian, UInt8.toNat_ofNat', hsplit]
    ring

theorem value_cons_lt_cons {x y : UInt8} {xs ys : List UInt8} (h : xs.length = ys.length) :
    value (x :: xs) < value (y :: ys) ↔ x < y ∨ x = y ∧ value xs < value ys := by
  have hx := value_lt xs
  have hy := value_lt ys
  rw [← h] at hy
  simp only [value, ← h, UInt8.lt_iff_toNat_lt, ← UInt8.toNat_inj]
  constructor
  · intro hlt
    rcases Nat.lt_trichotomy x.toNat y.toNat with hxy | hxy | hxy
    · exact Or.inl hxy
    · refine Or.inr ⟨hxy, ?_⟩
      rw [hxy] at hlt
      omega
    · have := Nat.mul_le_mul_right (256 ^ xs.length) (show y.toNat + 1 ≤ x.toNat from hxy)
      rw [Nat.add_mul, Nat.one_mul] at this
      omega
  · rintro (hlt | ⟨heq, hlt⟩)
    · have := Nat.mul_le_mul_right (256 ^ xs.length) (show x.toNat + 1 ≤ y.toNat from hlt)
      rw [Nat.add_mul, Nat.one_mul] at this
      omega
    · rw [heq]
      omega

theorem lt_iff_value_lt {xs ys : List UInt8} (h : xs.length = ys.length) :
    xs < ys ↔ value xs < value ys := by
  induction xs generalizing ys with
  | nil =>
    have : ys = [] := List.eq_nil_of_length_eq_zero h.symm
    simp [this, value]
  | cons x xs ih =>
    cases ys with
    | nil => simp at h
    | cons y ys =>
      have hl : xs.length = ys.length := by simpa using h
      rw [List.cons_lt_cons_iff, ih hl, value_cons_lt_cons hl]

theorem eq_iff_value_eq {xs ys : List UInt8} (h : xs.length = ys.length) :
    xs = ys ↔ value xs = value ys := by
  refine ⟨fun he => by rw [he], fun he => ?_⟩
  have hxy : ¬xs < ys := by rw [lt_iff_value_lt h]; omega
  have hyx : ¬ys < xs := by rw [lt_iff_value_lt h.symm]; omega
  exact List.le_antisymm (List.not_lt.mp hyx) (List.not_lt.mp hxy)

theorem bigEndian_value (bytes : List UInt8) : bigEndian bytes.length (value bytes) = bytes := by
  apply (eq_iff_value_eq (length_bigEndian _ _)).mpr
  rw [value_bigEndian, Nat.mod_eq_of_lt (value_lt bytes)]

theorem bigEndian_append (j k n : Nat) :
    bigEndian (j + k) n = bigEndian j (n / 256 ^ k) ++ bigEndian k n := by
  induction j with
  | zero => simp [bigEndian]
  | succ j ih =>
    rw [Nat.succ_add, bigEndian, ih, bigEndian, Nat.div_div_eq_div_mul, ← Nat.pow_add,
      Nat.add_comm k j]
    rfl

theorem bigEndian_mod (k n : Nat) : bigEndian k (n % 256 ^ k) = bigEndian k n := by
  apply (eq_iff_value_eq (by simp)).mpr
  rw [value_bigEndian, value_bigEndian, Nat.mod_mod]

theorem value_complement (xs : List UInt8) :
    value (xs.map (~~~ ·)) + value xs + 1 = 256 ^ xs.length := by
  induction xs with
  | nil => simp [value]
  | cons x xs ih =>
    have hx : (~~~x).toNat + x.toNat = 255 := by
      have := x.toNat_lt
      rw [UInt8.toNat_not]
      simp only [UInt8.size]
      omega
    calc value ((x :: xs).map (~~~ ·)) + value (x :: xs) + 1
        = ((~~~x).toNat + x.toNat) * 256 ^ xs.length
          + (value (xs.map (~~~ ·)) + value xs + 1) := by
          simp only [List.map_cons, value, List.length_map]
          ring
      _ = 256 ^ (x :: xs).length := by
          rw [hx, ih, List.length_cons, Nat.pow_succ]
          ring

/-- Without its trailing zero bytes. -/
def trim (xs : List UInt8) : List UInt8 := xs.rdropWhile (· = 0)

theorem trim_concat_zero (xs : List UInt8) : trim (xs ++ [0]) = trim xs := by
  simp [trim]

theorem trim_concat_of_ne {x : UInt8} (xs : List UInt8) (h : x ≠ 0) :
    trim (xs ++ [x]) = xs ++ [x] := by
  simp [trim, h]

theorem trim_cons (x : UInt8) (xs : List UInt8) :
    trim (x :: xs) = if trim xs = [] ∧ x = 0 then [] else x :: trim xs := by
  simp only [trim, List.rdropWhile, List.reverse_cons, List.dropWhile_append, List.isEmpty_iff,
    List.reverse_eq_nil_iff]
  by_cases h : List.dropWhile (fun a => decide (a = 0)) xs.reverse = []
  · by_cases hx : x = 0
    · simp [h, hx]
    · simp [h, hx]
  · simp [h]

theorem trim_eq_iff {xs ys : List UInt8} (h : xs.length = ys.length) :
    trim xs = trim ys ↔ xs = ys := by
  induction xs generalizing ys with
  | nil =>
    have : ys = [] := List.eq_nil_of_length_eq_zero h.symm
    simp [this]
  | cons x xs ih =>
    cases ys with
    | nil => simp at h
    | cons y ys =>
      have hl : xs.length = ys.length := by simpa using h
      have htail := ih hl
      rw [trim_cons, trim_cons]
      grind

/-- Of two keys with as many digits, the trimmed ones compare as they do. -/
theorem trim_lt_iff {xs ys : List UInt8} (h : xs.length = ys.length) :
    trim xs < trim ys ↔ xs < ys := by
  induction xs generalizing ys with
  | nil =>
    have : ys = [] := List.eq_nil_of_length_eq_zero h.symm
    simp [this]
  | cons x xs ih =>
    cases ys with
    | nil => simp at h
    | cons y ys =>
      have hl : xs.length = ys.length := by simpa using h
      have htail := ih hl
      have zero_lt : y ≠ 0 → 0 < y := fun hy => UInt8.pos_iff_ne_zero.mpr hy
      rw [trim_cons, trim_cons, List.cons_lt_cons_iff, ← htail]
      split
      next left =>
        split
        next right => simp [left, right]
        next right =>
          have hy : y = 0 → [] < trim ys := by
            intro hy
            cases ht : trim ys with
            | nil => exact absurd ⟨ht, hy⟩ right
            | cons z zs => exact List.nil_lt_cons z zs
          rw [left.1, left.2]
          refine iff_of_true (List.nil_lt_cons y _) ?_
          by_cases h0 : y = 0
          · exact Or.inr ⟨h0.symm, hy h0⟩
          · exact Or.inl (zero_lt h0)
      next left =>
        split
        next right => simp [right]
        next right => exact List.cons_lt_cons_iff

end BigEndian
