import InterBase.Machine

namespace InterBase

/-- `gds__vax_integer` and `isc_portable_integer`: the last byte has the sign. -/
def vaxInteger : List UInt8 → Int
  | [] => 0
  | [b] => schar b
  | b :: c :: ptr => b.toNat + 256 * vaxInteger (c :: ptr)

theorem toNat_toSchar (n : Int) : (toSchar n).toNat = (n % 256).toNat := by
  have hlt : (n % 256).toNat < 256 := by omega
  simp only [toSchar, UInt8.toNat_ofNat']
  omega

theorem schar_range (b : UInt8) : -128 ≤ schar b ∧ schar b ≤ 127 := by
  have hb := b.toNat_lt
  unfold schar
  split <;> omega

/-- The bytes of a number from the lowest on, `k` of them below the one with the sign. -/
def signedBytes : Nat → Int → List UInt8
  | 0, n => [toSchar n]
  | k + 1, n => toSchar n :: signedBytes k (n / 256)

theorem vaxInteger_cons (b : UInt8) {bytes : List UInt8} (h : bytes ≠ []) :
    vaxInteger (b :: bytes) = b.toNat + 256 * vaxInteger bytes := by
  cases bytes with
  | nil => exact absurd rfl h
  | cons c ptr => rfl

theorem signedBytes_ne_nil (k : Nat) (n : Int) : signedBytes k n ≠ [] := by
  cases k <;> exact List.cons_ne_nil _ _

theorem vaxInteger_signedBytes (k : Nat) {n : Int} (low : -(128 * 256 ^ k) ≤ n)
    (high : n < 128 * 256 ^ k) : vaxInteger (signedBytes k n) = n := by
  induction k generalizing n with
  | zero => exact schar_toSchar (by omega) (by omega)
  | succ k ih =>
    rw [Int.pow_succ] at low high
    have hrest : vaxInteger (signedBytes k (n / 256)) = n / 256 := ih (by omega) (by omega)
    rw [signedBytes, vaxInteger_cons _ (signedBytes_ne_nil k _), hrest, toNat_toSchar]
    omega

theorem signedBytes_vaxInteger {k : Nat} {bytes : List UInt8} (h : bytes.length = k + 1) :
    signedBytes k (vaxInteger bytes) = bytes := by
  induction k generalizing bytes with
  | zero =>
    obtain ⟨b, rfl⟩ := List.length_eq_one_iff.mp h
    show [toSchar (schar b)] = [b]
    have hb := b.toNat_lt
    have hnat : (toSchar (schar b)).toNat = b.toNat := by
      rw [toNat_toSchar]
      unfold schar
      split <;> omega
    rw [UInt8.toNat_inj.mp hnat]
  | succ k ih =>
    obtain ⟨b, bytes, rfl⟩ := List.exists_cons_of_length_eq_add_one h
    have hlen : bytes.length = k + 1 := Nat.succ.inj h
    have hne : bytes ≠ [] := List.ne_nil_of_length_eq_add_one hlen
    have hb := b.toNat_lt
    have hlow : toSchar (b.toNat + 256 * vaxInteger bytes) = b := by
      apply UInt8.toNat_inj.mp
      rw [toNat_toSchar]
      omega
    have hhigh : (b.toNat + 256 * vaxInteger bytes) / 256 = vaxInteger bytes := by omega
    rw [vaxInteger_cons b hne, signedBytes, hlow, hhigh, ih hlen]

theorem length_signedBytes (k : Nat) (n : Int) : (signedBytes k n).length = k + 1 := by
  induction k generalizing n with
  | zero => rfl
  | succ k ih => rw [signedBytes, List.length_cons, ih]

end InterBase
