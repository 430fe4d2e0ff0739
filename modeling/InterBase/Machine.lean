import Mathlib

namespace InterBase

/-- A `SCHAR` read from memory and widened, as in `length = *control++`. -/
def schar (b : UInt8) : Int := if b.toNat < 128 then b.toNat else (b.toNat : Int) - 256

/-- The byte that a signed value leaves in a `SCHAR`. -/
def toSchar (n : Int) : UInt8 := UInt8.ofNat (n % 256).toNat

/-- An `SSHORT` read back from its 16 bits. -/
def sshort (n : Nat) : Int := if n < 32768 then n else (n : Int) - 65536

/-- The part of a value that a `USHORT` keeps. -/
def ushort (n : Nat) : Nat := n % 65536

/-- The part of a value that a `ULONG` keeps. -/
def ulong (n : Nat) : Nat := n % 4294967296

/-- The part of a value that an `SLONG` keeps. -/
def slong (n : Int) : Int := (n + 2147483648) % 4294967296 - 2147483648

theorem schar_toSchar {n : Int} (low : -128 ≤ n) (high : n ≤ 127) : schar (toSchar n) = n := by
  have hb : (toSchar n).toNat = (n % 256).toNat := by
    have hlt : (n % 256).toNat < 256 := by omega
    simp only [toSchar, UInt8.toNat_ofNat']
    omega
  unfold schar
  rw [hb]
  split <;> omega

theorem ushort_of_lt {n : Nat} (h : n < 65536) : ushort n = n := Nat.mod_eq_of_lt h

theorem ulong_of_lt {n : Nat} (h : n < 4294967296) : ulong n = n := Nat.mod_eq_of_lt h

theorem slong_of_mem {n : Int} (low : -2147483648 ≤ n) (high : n < 2147483648) : slong n = n := by
  unfold slong
  omega

theorem ushort_lt (n : Nat) : ushort n < 65536 := Nat.mod_lt n (by omega)

end InterBase
