import InterBase.CompressNumeric

namespace InterBase

open Memory BigEndian

/-- The bytes of a key before its trailing zeros go, as one number. -/
def Temp.place (temp : Temp) : Nat :=
  if temp.isNegative then 256 ^ temp.copyLength - 1 - temp.bits % 256 ^ temp.copyLength
  else (temp.bits + 128 * 256 ^ (temp.copyLength - 1)) % 256 ^ temp.copyLength

theorem xor_sign (x : UInt8) : x ^^^ 0x80 = x + 0x80 := by
  have hall : ∀ n < 256, n ^^^ 128 = (n + 128) % 256 := by decide +kernel
  apply UInt8.toNat_inj.mp
  rw [UInt8.toNat_xor, UInt8.toNat_add]
  exact hall x.toNat x.toNat_lt

theorem copyLength_pos (itype : Itype) (v : itype.Value) :
    0 < (itype.temp v).copyLength ∧ (itype.temp v).copyLength ≤ 8 := by
  cases itype <;> simp [Itype.temp]

/-- Flipping the sign bit of the first byte moves the number by half its range. -/
theorem value_flip (k n : Nat) : value ((bigEndian (k + 1) n).modifyHead (· ^^^ 0x80)) =
    (n + 128 * 256 ^ k) % 256 ^ (k + 1) := by
  have hpos : 0 < 256 ^ k := Nat.pow_pos (by omega)
  have hdiv : (n + 128 * 256 ^ k) / 256 ^ k = n / 256 ^ k + 128 := Nat.add_mul_div_right n 128 hpos
  have hmod : (n + 128 * 256 ^ k) % 256 ^ k = n % 256 ^ k := Nat.add_mul_mod_self_right n 128 _
  have hbytes : (bigEndian (k + 1) n).modifyHead (· ^^^ 0x80) =
      UInt8.ofNat (n / 256 ^ k + 128) :: bigEndian k n := by
    simp only [bigEndian, List.modifyHead_cons, xor_sign, UInt8.ofNat_add]
    rfl
  have hsplit : (n + 128 * 256 ^ k) % 256 ^ (k + 1) = (n + 128 * 256 ^ k) % 256 ^ k +
      256 ^ k * ((n + 128 * 256 ^ k) / 256 ^ k % 256) := Nat.mod_pow_succ
  rw [hbytes, value, value_bigEndian, length_bigEndian, hsplit, hdiv, hmod, UInt8.toNat_ofNat',
    Nat.add_comm, Nat.mul_comm (256 ^ k)]

/-- The bytes of a key before its trailing zeros go. -/
def Temp.digits (temp : Temp) : List UInt8 :=
  if temp.isNegative then (bigEndian temp.copyLength temp.bits).map (~~~ ·)
  else (bigEndian temp.copyLength temp.bits).modifyHead (· ^^^ 0x80)

theorem length_digits (temp : Temp) : temp.digits.length = temp.copyLength := by
  unfold Temp.digits
  split <;> simp

theorem value_digits {temp : Temp} (h : 0 < temp.copyLength) : value temp.digits = temp.place := by
  unfold Temp.digits Temp.place
  split
  next =>
    have hc := value_complement (bigEndian temp.copyLength temp.bits)
    rw [value_bigEndian, length_bigEndian] at hc
    omega
  next =>
    obtain ⟨k, hk⟩ := Nat.exists_eq_add_of_lt h
    rw [Nat.zero_add] at hk
    rw [hk, value_flip, Nat.add_sub_cancel]

theorem slice_compressNumeric (itype : Itype) (v : itype.Value) (keyData : Nat → UInt8) :
    slice (compressNumeric itype v keyData).1 0 (itype.temp v).copyLength =
      (itype.temp v).digits := by
  obtain ⟨hpos, hle⟩ := copyLength_pos itype v
  simp only [compressNumeric, copyReversed_eq, Temp.digits]
  generalize hw : write keyData 0 (bigEndian (itype.temp v).copyLength (itype.temp v).bits) = key
  have hkey : slice key 0 (itype.temp v).copyLength =
      bigEndian (itype.temp v).copyLength (itype.temp v).bits := by
    have hs := slice_write_self keyData 0 (bigEndian (itype.temp v).copyLength (itype.temp v).bits)
    rwa [length_bigEndian, hw] at hs
  rw [← hkey]
  split
  next =>
    refine slice_eq_iff.mpr ⟨by simp, fun i hi => ?_⟩
    rw [List.getElem?_map, getElem?_slice key hi, negateShorts_apply key (by omega)]
    rfl
  next =>
    obtain ⟨k, hk⟩ := Nat.exists_eq_add_of_lt hpos
    rw [hk, Nat.zero_add]
    have htail : slice (write key 0 [key 0 ^^^ 0x80]) 1 k = slice key 1 k :=
      slice_write_disjoint key [key 0 ^^^ 0x80] (Or.inr (by simp))
    simp only [slice, Nat.zero_add, htail, List.modifyHead_cons]
    rfl

/-- A key is its bytes with the zeros at the end taken off, the first byte always kept. -/
theorem keyOf_eq (itype : Itype) (v : itype.Value) (keyData : Nat → UInt8) :
    ∃ x xs, (itype.temp v).digits = x :: xs ∧ keyOf itype v keyData = x :: trim xs := by
  obtain ⟨hpos, _⟩ := copyLength_pos itype v
  obtain ⟨k, hk⟩ := Nat.exists_eq_add_of_lt hpos
  rw [Nat.zero_add] at hk
  have hs := slice_compressNumeric itype v keyData
  rw [hk] at hs
  refine ⟨_, _, hs.symm, ?_⟩
  have hlen : (compressNumeric itype v keyData).2 =
      chopZeros (compressNumeric itype v keyData).1 k + 1 := by
    rw [← Nat.add_sub_cancel (n := k) (m := 1), ← hk]
    rfl
  rw [keyOf, hlen, slice, slice_chopZeros]

/-- Keys of one type compare as the numbers made of their untrimmed bytes. -/
theorem keyOf_compare {itype : Itype} (v1 v2 : itype.Value) (key1 key2 : Nat → UInt8) :
    (keyOf itype v1 key1 < keyOf itype v2 key2 ↔ (itype.temp v1).place < (itype.temp v2).place) ∧
    (keyOf itype v1 key1 = keyOf itype v2 key2 ↔ (itype.temp v1).place = (itype.temp v2).place) := by
  obtain ⟨x, xs, hx, hkx⟩ := keyOf_eq itype v1 key1
  obtain ⟨y, ys, hy, hky⟩ := keyOf_eq itype v2 key2
  have hxl := length_digits (itype.temp v1)
  have hyl := length_digits (itype.temp v2)
  have hlen : (itype.temp v1).copyLength = (itype.temp v2).copyLength := by
    cases itype <;> rfl
  rw [← value_digits (copyLength_pos itype v1).1, ← value_digits (copyLength_pos itype v2).1]
  rw [hx] at hxl ⊢
  rw [hy] at hyl ⊢
  have hcons : (x :: xs).length = (y :: ys).length := by omega
  have hl : xs.length = ys.length := by simpa using hcons
  rw [hkx, hky, ← lt_iff_value_lt hcons, ← eq_iff_value_eq hcons]
  simp only [List.cons_lt_cons_iff, List.cons.injEq, trim_lt_iff hl, trim_eq_iff hl, and_self]

/-- Whatever the key buffers held before, the keys of two values compare as the values do. -/
def SortsAlike (itype : Itype) (v1 v2 : itype.Value) : Prop :=
  ∀ key1 key2, (keyOf itype v1 key1 < keyOf itype v2 key2 ↔ itype.rank v1 < itype.rank v2) ∧
    (keyOf itype v1 key1 = keyOf itype v2 key2 ↔ itype.rank v1 = itype.rank v2)

def Double.isNegativeZero (d : Double) : Prop := d.bits.toNat = 2 ^ 63

instance (d : Double) : Decidable d.isNegativeZero :=
  inferInstanceAs (Decidable (d.bits.toNat = 2 ^ 63))

/-- The pairs of values whose keys come out in the right order. -/
def Orderly : (itype : Itype) → itype.Value → itype.Value → Prop
  | .numeric => fun (v1 v2 : Double) =>
      (v1.isNegativeZero → v2.isNegativeZero ∨ 0 < v2.rank) ∧
      (v2.isNegativeZero → v1.isNegativeZero ∨ 0 < v1.rank)
  | .sqlDate => fun (v1 v2 : BitVec 32) => v1.toInt < 0 → v2.toInt < 0 → v1.toInt = v2.toInt
  | .sqlTime => fun (v1 v2 : BitVec 32) => v1.toNat < 2 ^ 31 ↔ v2.toNat < 2 ^ 31
  | .timestamp2 => fun (v1 v2 : GdsTimestamp) => v1.ticks < 0 → v2.ticks < 0 → v1.ticks = v2.ticks

theorem sortsAlike_iff_place (itype : Itype) (v1 v2 : itype.Value) :
    SortsAlike itype v1 v2 ↔
      ((itype.temp v1).place < (itype.temp v2).place ↔ itype.rank v1 < itype.rank v2) ∧
      ((itype.temp v1).place = (itype.temp v2).place ↔ itype.rank v1 = itype.rank v2) := by
  constructor
  · intro h
    have hc := keyOf_compare v1 v2 (fun _ => 0) (fun _ => 0)
    rw [← hc.1, ← hc.2]
    exact h (fun _ => 0) (fun _ => 0)
  · intro h key1 key2
    have hc := keyOf_compare v1 v2 key1 key2
    rw [hc.1, hc.2]
    exact h

theorem place_sqlDate (v : BitVec 32) : ((Itype.sqlDate.temp v).place : Int) =
    if v.toInt < 0 then -1 - v.toInt else v.toInt + 2 ^ 31 := by
  have hv := v.isLt
  have hi := v.toInt_eq_toNat_cond
  simp only [Temp.place, Itype.temp, decide_eq_true_eq]
  split <;> split at hi <;> omega

theorem place_sqlTime (v : BitVec 32) : (Itype.sqlTime.temp v).place =
    if v.toNat < 2 ^ 31 then v.toNat + 2 ^ 31 else v.toNat - 2 ^ 31 := by
  have hv := v.isLt
  simp only [Temp.place, Itype.temp, Bool.false_eq_true, if_false]
  split <;> omega

/-- `compress` computes the ticks without overflow. -/
theorem toInt_ticks (v : GdsTimestamp) : (BitVec.ofInt 64 v.ticks).toInt = v.ticks := by
  have hd := v.timestampDate.toInt_lt
  have hd' := v.timestampDate.le_toInt
  have ht := v.timestampTime.isLt
  rw [BitVec.toInt_ofInt]
  apply Int.bmod_eq_of_le <;> simp only [GdsTimestamp.ticks, ticksPerDay] <;> omega

theorem le_ticks (v : GdsTimestamp) : -2 ^ 63 ≤ v.ticks := by
  have hi := (BitVec.ofInt 64 v.ticks).le_toInt
  rwa [toInt_ticks] at hi

theorem place_timestamp2 (v : GdsTimestamp) : ((Itype.timestamp2.temp v).place : Int) =
    if v.ticks < 0 then -1 - v.ticks else v.ticks + 2 ^ 63 := by
  have hv := (BitVec.ofInt 64 v.ticks).isLt
  have hi := (BitVec.ofInt 64 v.ticks).toInt_eq_toNat_cond
  simp only [Temp.place, Itype.temp, toInt_ticks, decide_eq_true_eq] at hi ⊢
  split <;> split at hi <;> omega

theorem place_numeric (v : Double) : ((Itype.numeric.temp v).place : Int) =
    if v.rank < 0 then 2 ^ 63 - 1 + v.rank else
      if v.isNegativeZero then 0 else 2 ^ 63 + v.rank := by
  have hv := v.bits.isLt
  simp only [Temp.place, Itype.temp, decide_eq_true_eq, Double.isNegativeZero, Double.rank,
    Double.negative, Double.magnitude]
  split <;> split <;> omega

theorem rank_numeric (v : Double) :
    -2 ^ 63 < v.rank ∧ v.rank < 2 ^ 63 ∧ (v.isNegativeZero → v.rank = 0) := by
  have hv := v.bits.isLt
  simp only [Double.isNegativeZero, Double.rank, Double.negative, Double.magnitude,
    decide_eq_true_eq]
  split <;> omega

/-- Complementing a negative two's-complement number reverses the order among the negatives. -/
theorem complemented_iff {p1 p2 : Nat} {r1 r2 w : Int} (low1 : -w ≤ r1) (low2 : -w ≤ r2)
    (h1 : (p1 : Int) = if r1 < 0 then -1 - r1 else r1 + w)
    (h2 : (p2 : Int) = if r2 < 0 then -1 - r2 else r2 + w) :
    ((p1 < p2 ↔ r1 < r2) ∧ (p1 = p2 ↔ r1 = r2)) ↔ (r1 < 0 → r2 < 0 → r1 = r2) := by
  split at h1 <;> split at h2 <;> omega

theorem numeric_iff {p1 p2 : Nat} {v1 v2 : Double}
    (h1 : (p1 : Int) = if v1.rank < 0 then 2 ^ 63 - 1 + v1.rank else
      if v1.isNegativeZero then 0 else 2 ^ 63 + v1.rank)
    (h2 : (p2 : Int) = if v2.rank < 0 then 2 ^ 63 - 1 + v2.rank else
      if v2.isNegativeZero then 0 else 2 ^ 63 + v2.rank) :
    ((p1 < p2 ↔ v1.rank < v2.rank) ∧ (p1 = p2 ↔ v1.rank = v2.rank)) ↔
      Orderly .numeric v1 v2 := by
  obtain ⟨hlow1, hhigh1, hzero1⟩ := rank_numeric v1
  obtain ⟨hlow2, hhigh2, hzero2⟩ := rank_numeric v2
  simp only [Orderly]
  by_cases hn1 : v1.isNegativeZero
  · have hz1 := hzero1 hn1
    rw [if_neg (by omega), if_pos hn1] at h1
    by_cases hn2 : v2.isNegativeZero
    · have hz2 := hzero2 hn2
      rw [if_neg (by omega), if_pos hn2] at h2
      simp only [hn1, hn2, true_or, implies_true, and_self, iff_true]
      omega
    · simp only [hn1, hn2, true_implies, false_implies, false_or, and_true, if_false] at h2 ⊢
      split at h2 <;> omega
  · simp only [hn1, if_false] at h1
    by_cases hn2 : v2.isNegativeZero
    · have hz2 := hzero2 hn2
      rw [if_neg (by omega), if_pos hn2] at h2
      simp only [hn1, hn2, true_implies, false_implies, false_or, true_and]
      split at h1 <;> omega
    · simp only [hn2, if_false] at h2
      simp only [hn1, hn2, false_implies, and_self, iff_true]
      split at h1 <;> split at h2 <;> omega

/-- The keys of two values sort as the values exactly when the pair is orderly: among negative
dates and timestamps the order is reversed, and a negative zero comes before every negative. -/
theorem compressNumeric_sortsAlike_iff (itype : Itype) (v1 v2 : itype.Value) :
    SortsAlike itype v1 v2 ↔ Orderly itype v1 v2 := by
  rw [sortsAlike_iff_place]
  cases itype with
  | numeric => exact numeric_iff (place_numeric v1) (place_numeric v2)
  | sqlDate =>
    exact complemented_iff (BitVec.le_toInt v1) (BitVec.le_toInt v2) (place_sqlDate v1)
      (place_sqlDate v2)
  | sqlTime =>
    have h1 := place_sqlTime v1
    have h2 := place_sqlTime v2
    simp only [Orderly, Itype.rank]
    split at h1 <;> split at h2 <;> omega
  | timestamp2 =>
    exact complemented_iff (le_ticks v1) (le_ticks v2) (place_timestamp2 v1) (place_timestamp2 v2)

/-- The day before the base date and the day before that. -/
theorem compressNumeric_negative_dates : ¬SortsAlike .sqlDate (-2#32) (-1#32) := by
  intro h
  have hkeys := (h (fun _ => 0) (fun _ => 0)).1.mpr (by decide)
  revert hkeys
  decide

end InterBase
