import InterBase.Tra

namespace InterBase

open Memory

theorem transOffset_eq (number : Nat) : transOffset number = number / 4 :=
  Nat.shiftRight_eq_div_pow number 2

theorem dvd_traBase (oldest : Nat) : 4 ∣ traBase oldest := by
  simp only [traBase, traMask]
  omega

theorem traBase_le (oldest : Nat) : traBase oldest ≤ oldest := Nat.sub_le _ _

/-- The byte on the inventory pages with the state of a transaction. -/
def inventoryByte (tip : Nat → Nat → UInt8) (transPerTip number : Nat) : UInt8 :=
  tip (number / transPerTip) (transOffset (number % transPerTip))

section

variable {tip : Nat → Nat → UInt8} {transPerTip : Nat} {m : Nat → UInt8}

/-- A byte of a page counted from a transaction in front of it on the same page. -/
theorem inventoryByte_add {base i : Nat} (whole : 4 ∣ transPerTip) (aligned : 4 ∣ base)
    (inside : base % transPerTip + 4 * i < transPerTip) :
    inventoryByte tip transPerTip (base + 4 * i) =
      tip (base / transPerTip) (transOffset (base % transPerTip) + i) := by
  have hpos : 0 < transPerTip := by omega
  have hsum : base + 4 * i = base % transPerTip + 4 * i + transPerTip * (base / transPerTip) := by
    have := Nat.mod_add_div base transPerTip
    omega
  have hmod : 4 ∣ base % transPerTip := (Nat.dvd_mod_iff whole).mpr aligned
  have hdiv : (base + 4 * i) / transPerTip = base / transPerTip := by
    rw [hsum, Nat.add_mul_div_left _ _ hpos, Nat.div_eq_of_lt inside, Nat.zero_add]
  have hrem : (base + 4 * i) % transPerTip = base % transPerTip + 4 * i := by
    rw [hsum, Nat.add_mul_mod_self_left, Nat.mod_eq_of_lt inside]
  rw [inventoryByte, hdiv, hrem, transOffset_eq, transOffset_eq]
  congr 1
  omega

/-- The bytes that the pages from `sequence` on fill. -/
theorem inventoryLoop_apply {top : Nat} (pos : 0 < transPerTip) (whole : 4 ∣ transPerTip)
    (legal : top ≤ maxTraNumber) (sequence p a : Nat) :
    inventoryLoop tip transPerTip top (top / transPerTip) sequence m (some p) a =
      if p ≤ a ∧ a < p + (top + 3 - sequence * transPerTip) / 4 then
        inventoryByte tip transPerTip (sequence * transPerTip + 4 * (a - p))
      else m a := by
  induction hn : top / transPerTip + 1 - sequence generalizing sequence p m with
  | zero =>
    have hlast : top < sequence * transPerTip := (Nat.div_lt_iff_lt_mul pos).mp (by omega)
    rw [inventoryLoop, if_neg (by omega), if_neg (by omega)]
  | succ n ih =>
    have hfirst : sequence * transPerTip ≤ top := (Nat.le_div_iff_mul_le pos).mp (by omega)
    have hnext : (sequence + 1) * transPerTip = sequence * transPerTip + transPerTip :=
      Nat.succ_mul _ _
    have haligned : 4 ∣ sequence * transPerTip := Nat.dvd_mul_left_of_dvd whole sequence
    have hdiv : sequence * transPerTip / transPerTip = sequence := Nat.mul_div_cancel _ pos
    have hmod : sequence * transPerTip % transPerTip = 0 := Nat.mul_mod_left _ _
    simp only [maxTraNumber] at legal
    rw [inventoryLoop, if_pos (by omega)]
    dsimp only [traMask]
    rw [ih (sequence + 1) _ (by omega), ulong_of_lt (by omega), hnext, transOffset_eq, write_slice,
      Nat.zero_add]
    -- the byte is on this page, on a later one, or not moved at all
    by_cases hhere : p ≤ a ∧ a < p + min (top + 3 - sequence * transPerTip) transPerTip / 4
    · rw [if_neg (by omega), if_pos hhere, if_pos (by omega),
        inventoryByte_add whole haligned (by rw [hmod]; omega), hdiv, hmod]
      rw [transOffset_eq, Nat.zero_div, Nat.zero_add]
    · rw [if_neg hhere]
      by_cases hlater : p ≤ a ∧ a < p + (top + 3 - sequence * transPerTip) / 4
      · rw [if_pos (by omega), if_pos hlater]
        congr 1
        omega
      · rw [if_neg (by omega), if_neg hlater]

/-- What `TRA_get_inventory` leaves in memory: the states of all transactions from `base` up to
`top`, four to a byte, and nothing else changed. -/
theorem traGetInventory_apply (tip : Nat → Nat → UInt8) (m : Nat → UInt8) {base top : Nat}
    (pos : 0 < transPerTip) (whole : 4 ∣ transPerTip) (aligned : 4 ∣ base) (order : base ≤ top)
    (legal : top ≤ maxTraNumber) (p a : Nat) :
    traGetInventory tip transPerTip (some p) base top m a =
      if p ≤ a ∧ a < p + (top + 3 - base) / 4 then
        inventoryByte tip transPerTip (base + 4 * (a - p))
      else m a := by
  have hmod : 4 ∣ base % transPerTip := (Nat.dvd_mod_iff whole).mpr aligned
  have hlt := Nat.mod_lt base pos
  have hsum := Nat.mod_add_div base transPerTip
  have hcomm : transPerTip * (base / transPerTip) = base / transPerTip * transPerTip :=
    Nat.mul_comm _ _
  have hnext : (base / transPerTip + 1) * transPerTip =
      base / transPerTip * transPerTip + transPerTip := Nat.succ_mul _ _
  simp only [maxTraNumber] at legal
  simp only [traGetInventory, traMask]
  rw [inventoryLoop_apply pos whole legal, ulong_of_lt (by omega), hnext, transOffset_eq, write_slice]
  by_cases hhere : p ≤ a ∧ a < p + min (top + 3 - base) (transPerTip - base % transPerTip) / 4
  · rw [if_neg (by omega), if_pos hhere, if_pos (by omega),
      inventoryByte_add whole aligned (by omega)]
  · rw [if_neg hhere]
    by_cases hlater : p ≤ a ∧ a < p + (top + 3 - base) / 4
    · rw [if_pos (by omega), if_pos hlater]
      congr 1
      omega
    · rw [if_neg (by omega), if_neg hlater]

end

/-- The state that a byte of the inventory has for a transaction. -/
theorem traFetchState_eq (tip : Nat → Nat → UInt8) {transPerTip : Nat} (whole : 4 ∣ transPerTip)
    (base number : Nat) (aligned : 4 ∣ base) (order : base ≤ number) :
    traFetchState tip transPerTip number =
      (inventoryByte tip transPerTip (base + 4 * ((number - base) / 4))).toNat >>>
        transShift number &&& traMask := by
  obtain ⟨k, rfl⟩ := whole
  obtain ⟨b, rfl⟩ := aligned
  have hq : (4 * b + 4 * ((number - 4 * b) / 4)) / (4 * k) = number / (4 * k) := by
    rw [← Nat.div_div_eq_div_mul, ← Nat.div_div_eq_div_mul]
    congr 1
    omega
  have hr : (4 * b + 4 * ((number - 4 * b) / 4)) % (4 * k) / 4 = number % (4 * k) / 4 := by
    rw [Nat.mod_mul_right_div_self, Nat.mod_mul_right_div_self]
    congr 1
    omega
  rw [traFetchState, inventoryByte, hq, transOffset_eq, transOffset_eq, hr]

/-- The caller's vector holds the states that the inventory pages have for the transactions from
`oldest` on. -/
structure TakesInventory (tip : Nat → Nat → UInt8) (transPerTip oldest number bitVector : Nat)
    (m m' : Nat → UInt8) : Prop where
  filled : ∀ i < (number - traBase oldest + traMask) / 4,
    m' (bitVector + i) = inventoryByte tip transPerTip (traBase oldest + 4 * i)
  nothingElse : ∀ a, a < bitVector ∨ bitVector + (number - traBase oldest + traMask) / 4 ≤ a →
    m' a = m a
  state : ∀ n, oldest ≤ n → n < number →
    traState m' bitVector oldest n = traFetchState tip transPerTip n
  snapshotState : ∀ n, oldest ≤ n → n < number → n ≠ 0 → ∀ precommited tpc trans,
    trans.traTransactions = bitVector → trans.traOldest = oldest → trans.traTop = number →
    n ≠ trans.traNumber → precommited n = false → trans.traSystem = false →
    trans.traReadCommitted = false → trans.traCommitSubTrans n = false →
    traSnapshotState precommited tpc m' trans n = traFetchState tip transPerTip n

theorem traGetInventory_takesInventory (tip : Nat → Nat → UInt8) {transPerTip oldest number : Nat}
    (pos : 0 < transPerTip) (whole : 4 ∣ transPerTip) (order : oldest ≤ number)
    (legal : number ≤ maxTraNumber) (bitVector : Nat) (m : Nat → UInt8) :
    TakesInventory tip transPerTip oldest number bitVector m
      (traGetInventory tip transPerTip (some bitVector) (traBase oldest) number m) := by
  have hbase := traBase_le oldest
  have haligned := dvd_traBase oldest
  have happly (a : Nat) := traGetInventory_apply tip m pos whole haligned
    (Nat.le_trans hbase order) legal bitVector a
  have hround : oldest < traBase oldest + 4 := by
    simp only [traBase, traMask]
    omega
  have hlen : (number - traBase oldest + traMask) / 4 = (number + 3 - traBase oldest) / 4 := by
    simp only [traMask]
    omega
  have hbyte : ∀ i < (number + 3 - traBase oldest) / 4,
      traGetInventory tip transPerTip (some bitVector) (traBase oldest) number m (bitVector + i) =
        inventoryByte tip transPerTip (traBase oldest + 4 * i) := by
    intro i hi
    rw [happly, if_pos (by omega), Nat.add_sub_cancel_left]
  have hstate : ∀ n, oldest ≤ n → n < number → traState (traGetInventory tip transPerTip
      (some bitVector) (traBase oldest) number m) bitVector oldest n =
        traFetchState tip transPerTip n := by
    intro n hn htop
    rw [traFetchState_eq tip whole (traBase oldest) n haligned (by omega), traState]
    simp only [transOffset_eq]
    rw [hbyte _ (by omega)]
  refine ⟨fun i hi => hbyte i (by omega), fun a ha => ?_, hstate, ?_⟩
  · rw [happly, if_neg (by omega)]
  · rintro n hn htop hzero precommited tpc trans rfl rfl rfl hus hpre hsystem hread hsub
    rw [traSnapshotState, if_neg (by simp [hpre]), if_neg hus, if_neg (by omega),
      if_neg (by simp [hzero, hsystem]), hread, hsub, if_neg (by simp), if_neg (by simp),
      if_neg (by omega)]
    exact hstate n hn htop

theorem traGetInventory_takesInventory_second_page :
    TakesInventory (fun sequence byte => UInt8.ofNat (sequence + byte)) 8 6 21 100 (fun _ => 7)
      (traGetInventory (fun sequence byte => UInt8.ofNat (sequence + byte)) 8 (some 100) (traBase 6)
        21 fun _ => 7) :=
  traGetInventory_takesInventory _ (by decide) (by decide) (by decide) (by decide) 100 _

/-- A transaction that is precommitted is not looked up in the bit vector. -/
theorem traSnapshotState_precommited :
    let trans : Tra := ⟨3, 3, 1, false, false, fun _ => false, 0⟩
    let m := traGetInventory (fun _ _ => 255) 4 (some 0) (traBase 1) 3 fun _ => 0
    trans.traOldest ≤ 2 ∧ 2 < trans.traTop ∧ 2 ≠ trans.traNumber ∧
      traSnapshotState (fun number => number == 2) (fun _ => 0) m trans 2 ≠
        traFetchState (fun _ _ => 255) 4 2 := by
  refine ⟨by decide, by decide, by decide, ?_⟩
  rw [traSnapshotState, if_pos (by decide)]
  decide

end InterBase
