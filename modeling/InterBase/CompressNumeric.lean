import InterBase.Library.BigEndian
import InterBase.Library.Memory
import InterBase.Machine

namespace InterBase

open Memory BigEndian

/-- An IEEE double as its bit pattern; NaN is no value of a numeric field. -/
structure Double where
  bits : BitVec 64
  ordered : bits.toNat % 2 ^ 63 ≤ 0x7FF0000000000000

def Double.magnitude (d : Double) : Nat := d.bits.toNat % 2 ^ 63

def Double.negative (d : Double) : Bool := 2 ^ 63 ≤ d.bits.toNat

/-- The place of a double among the doubles: its pattern as sign and magnitude. -/
def Double.rank (d : Double) : Int := if d.negative then -d.magnitude else d.magnitude

structure GdsTimestamp where
  timestampDate : BitVec 32
  timestampTime : BitVec 32

/-- `SECONDS_PER_DAY * ISC_TIME_SECONDS_PRECISION`. -/
def ticksPerDay : Nat := 24 * 60 * 60 * 10000

/-- A timestamp as a number of ten-thousandths of a second. -/
def GdsTimestamp.ticks (t : GdsTimestamp) : Int :=
  t.timestampDate.toInt * ticksPerDay + t.timestampTime.toNat

/-- The key types whose fields take the numeric way through `compress`. -/
inductive Itype where
  | numeric
  | sqlDate
  | sqlTime
  | timestamp2
deriving Repr, DecidableEq

/-- What `MOV_get_double`, `MOV_get_sql_date` and the rest fetch for a key type. -/
def Itype.Value : Itype → Type
  | numeric => Double
  | sqlDate => BitVec 32
  | sqlTime => BitVec 32
  | timestamp2 => GdsTimestamp

/-- The order of the values of a key type. -/
def Itype.rank : (itype : Itype) → itype.Value → Int
  | numeric => Double.rank
  | sqlDate => BitVec.toInt
  | sqlTime => fun v => v.toNat
  | timestamp2 => GdsTimestamp.ticks

/-- The union `temp` as a bit pattern, with `temp_copy_length` and `temp_is_negative`. -/
structure Temp where
  bits : Nat
  copyLength : Nat
  isNegative : Bool

def Itype.temp : (itype : Itype) → itype.Value → Temp
  | numeric => fun (v : Double) => ⟨v.bits.toNat, 8, decide (v.rank < 0)⟩
  | sqlDate => fun (v : BitVec 32) => ⟨v.toNat, 4, decide (v.toInt < 0)⟩
  | sqlTime => fun (v : BitVec 32) => ⟨v.toNat, 4, false⟩
  | timestamp2 => fun (v : GdsTimestamp) =>
      ⟨(BitVec.ofInt 64 v.ticks).toNat, 8, decide ((BitVec.ofInt 64 v.ticks).toInt < 0)⟩

def Temp.tempChar (temp : Temp) (i : Nat) : UInt8 := UInt8.ofNat (temp.bits / 256 ^ i)

/-- `for (q = temp_char + length; length; --length) *p++ = *--q`. -/
def copyReversed (temp : Temp) (key : Nat → UInt8) (p : Nat) : Nat → Nat → UInt8
  | 0 => key
  | length + 1 => copyReversed temp (write key p [temp.tempChar length]) (p + 1) length

def shortAt (key : Nat → UInt8) (i : Nat) : Int :=
  sshort ((key (2 * i)).toNat + 256 * (key (2 * i + 1)).toNat)

/-- `((SSHORT *) key_data) [i] = - ((SSHORT *) key_data) [i] - 1`. -/
def negateShort (key : Nat → UInt8) (i : Nat) : Nat → UInt8 :=
  let x := ((-shortAt key i - 1) % 65536).toNat
  write key (2 * i) [UInt8.ofNat x, UInt8.ofNat (x / 256)]

/-- The position of the last byte that is kept: `for (p = &key_data [n]; p > key_data; --p)`. -/
def chopZeros (key : Nat → UInt8) : Nat → Nat
  | 0 => 0
  | p + 1 => if key (p + 1) ≠ 0 then p + 1 else chopZeros key p

/-- The numeric half of `compress`: the new `key_data` and `key_length`. -/
def compressNumeric (itype : Itype) (v : itype.Value) (keyData : Nat → UInt8) :
    (Nat → UInt8) × Nat :=
  let temp := itype.temp v
  let keyData := copyReversed temp keyData 0 temp.copyLength
  let keyData :=
    if temp.isNegative then
      negateShort (negateShort (negateShort (negateShort keyData 0) 1) 2) 3
    else write keyData 0 [keyData 0 ^^^ 0x80]
  (keyData, chopZeros keyData (temp.copyLength - 1) + 1)

/-- The bytes of the key that `compress` leaves in a `KEY`. -/
def keyOf (itype : Itype) (v : itype.Value) (keyData : Nat → UInt8) : List UInt8 :=
  slice (compressNumeric itype v keyData).1 0 (compressNumeric itype v keyData).2

section

variable (key : Nat → UInt8)

theorem copyReversed_eq (temp : Temp) (p length : Nat) :
    copyReversed temp key p length = write key p (bigEndian length temp.bits) := by
  induction length generalizing key p with
  | zero => simp [copyReversed, bigEndian]
  | succ length ih =>
    rw [copyReversed, ih]
    exact (write_append key p [temp.tempChar length] (bigEndian length temp.bits)).symm

/-- Negating a `SSHORT` and taking one off complements its two bytes. -/
theorem negateShort_apply (i j : Nat) :
    negateShort key i j = if j / 2 = i then ~~~key j else key j := by
  have hlow := (key (2 * i)).toNat_lt
  have hhigh := (key (2 * i + 1)).toNat_lt
  have hx : ((-shortAt key i - 1) % 65536).toNat =
      (255 - (key (2 * i)).toNat) + 256 * (255 - (key (2 * i + 1)).toNat) := by
    unfold shortAt sshort
    split <;> omega
  have hfirst : UInt8.ofNat ((-shortAt key i - 1) % 65536).toNat = ~~~key (2 * i) := by
    apply UInt8.toNat_inj.mp
    rw [hx, UInt8.toNat_not, UInt8.toNat_ofNat']
    simp only [UInt8.size]
    omega
  have hsecond : UInt8.ofNat (((-shortAt key i - 1) % 65536).toNat / 256) = ~~~key (2 * i + 1) := by
    apply UInt8.toNat_inj.mp
    rw [hx, UInt8.toNat_not, UInt8.toNat_ofNat']
    simp only [UInt8.size]
    omega
  simp only [negateShort, hfirst, hsecond]
  by_cases h : j / 2 = i
  · rw [if_pos h]
    rcases (show j = 2 * i ∨ j = 2 * i + 1 by omega) with rfl | rfl
    · simp [write]
    · simp [write]
  · rw [if_neg h]
    by_cases hj : j < 2 * i
    · exact write_below key _ hj
    · exact write_above key _ (by simp only [List.length_cons, List.length_nil]; omega)

theorem negateShorts_apply {j : Nat} (h : j < 8) :
    negateShort (negateShort (negateShort (negateShort key 0) 1) 2) 3 j = ~~~key j := by
  simp only [negateShort_apply]
  have : j / 2 = 0 ∨ j / 2 = 1 ∨ j / 2 = 2 ∨ j / 2 = 3 := by omega
  rcases this with hj | hj | hj | hj <;> simp [hj]

theorem slice_chopZeros (p : Nat) :
    slice key 1 (chopZeros key p) = trim (slice key 1 p) := by
  induction p with
  | zero => rfl
  | succ p ih =>
    have hlast : slice key 1 (p + 1) = slice key 1 p ++ [key (p + 1)] := by
      rw [slice_append, Nat.add_comm 1 p]
      rfl
    rw [chopZeros, hlast]
    split
    next hne => rw [hlast, trim_concat_of_ne _ hne]
    next hz =>
      rw [ih, not_not.mp hz, trim_concat_zero]

end

end InterBase
