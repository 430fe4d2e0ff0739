import InterBase.Library.Search
import InterBase.Pag

namespace InterBase

theorem toNat_bit {i : Nat} (hi : i < 8) : (UInt8.ofNat (1 <<< i)).toNat = 2 ^ i := by
  rw [Nat.one_shiftLeft, UInt8.toNat_ofNat']
  exact Nat.mod_eq_of_lt (Nat.pow_lt_pow_right (by omega) hi)

theorem testBit_clearBit (byte : UInt8) {i j : Nat} (hi : i < 8) (hj : j < 8) :
    (clearBit byte i).toNat.testBit j = (byte.toNat.testBit j && decide (i ≠ j)) := by
  unfold clearBit
  rw [UInt8.toNat_and, UInt8.toNat_not, toNat_bit hi, Nat.testBit_and]
  congr 1
  rw [show UInt8.size = 2 ^ 8 from rfl, Nat.sub_sub, Nat.add_comm 1, Nat.testBit_two_pow_sub_succ
    (Nat.pow_lt_pow_right (by omega) hi), Nat.testBit_two_pow]
  simp [hj]

theorem testBit_setBit (byte : UInt8) {i j : Nat} (hi : i < 8) :
    (setBit byte i).toNat.testBit j = (byte.toNat.testBit j || decide (i = j)) := by
  unfold setBit
  rw [UInt8.toNat_or, toNat_bit hi, Nat.testBit_or, Nat.testBit_two_pow]

theorem Pip.free_markUsed (p : Pip) (bit b : Nat) :
    (p.markUsed bit).free b = (p.free b && decide (b ≠ bit)) := by
  unfold Pip.free Pip.markUsed
  simp only
  by_cases byte : b / 8 = bit / 8
  · rw [byte, Function.update_self, testBit_clearBit _ (Nat.mod_lt _ (by omega))
      (Nat.mod_lt _ (by omega))]
    congr 2
    exact propext ⟨fun h eq => h (by rw [eq]), fun h eq => h (by omega)⟩
  · rw [Function.update_of_ne byte]
    have other : b ≠ bit := fun eq => byte (by rw [eq])
    rw [decide_eq_true other, Bool.and_true]

theorem Pip.free_release (p : Pip) (bit b : Nat) :
    (p.release bit).free b = (p.free b || decide (b = bit)) := by
  unfold Pip.free Pip.release
  simp only
  by_cases byte : b / 8 = bit / 8
  · rw [byte, Function.update_self, testBit_setBit _ (Nat.mod_lt _ (by omega))]
    congr 2
    exact propext ⟨fun h => by omega, fun h => by rw [h]⟩
  · rw [Function.update_of_ne byte]
    have other : b ≠ bit := fun eq => byte (by rw [eq])
    rw [decide_eq_false other, Bool.or_false]

theorem freshPip_free (b : Nat) : freshPip.free b = true := by
  have bits : ∀ i : Fin 8, (255 : Nat).testBit i = true := by decide
  exact bits ⟨b % 8, Nat.mod_lt _ (by omega)⟩

section

variable {pgcBytes : Nat}

theorem findInByte_eq_some {refused : Nat → Bool} {sequence byte bit : Nat} {p : Pip}
    (h : findInByte pgcBytes refused sequence p byte = some bit) :
    bit / 8 = byte ∧ p.free bit = true ∧ refused (bit + sequence * pgcPpp pgcBytes) = false ∧
      ∀ b < bit, b / 8 = byte → p.free b = true →
        refused (b + sequence * pgcPpp pgcBytes) = true := by
  unfold findInByte at h
  split at h
  next => cases h
  next =>
    obtain ⟨i, found, rfl⟩ := Option.map_eq_some_iff.mp h
    obtain ⟨hi, mem, before⟩ := List.find?_range_eq_some.mp found
    rw [List.mem_range] at mem
    rw [Bool.and_eq_true, Bool.not_eq_true'] at hi
    have hdiv : (byte * 8 + i) / 8 = byte := by omega
    have hmod : (byte * 8 + i) % 8 = i := by omega
    refine ⟨hdiv, ?_, hi.2, ?_⟩
    · unfold Pip.free
      rw [hdiv, hmod]
      exact hi.1
    · intro b hb same free
      have hlow := before (b % 8) (by omega)
      unfold Pip.free at free
      rw [same] at free
      rw [free, Bool.true_and, Bool.not_not] at hlow
      rwa [show byte * 8 + b % 8 = b by omega] at hlow

theorem findInByte_eq_none {refused : Nat → Bool} {sequence byte : Nat} {p : Pip}
    (h : findInByte pgcBytes refused sequence p byte = none) (b : Nat) (same : b / 8 = byte)
    (free : p.free b = true) : refused (b + sequence * pgcPpp pgcBytes) = true := by
  unfold Pip.free at free
  rw [same] at free
  unfold findInByte at h
  split at h
  next zero =>
    rw [zero] at free
    simp at free
  next =>
    have none := List.find?_eq_none.mp (Option.map_eq_none_iff.mp h) (b % 8)
      (List.mem_range.mpr (Nat.mod_lt _ (by omega)))
    rw [free, Bool.true_and, Bool.not_eq_true', Bool.not_eq_false] at none
    rwa [show byte * 8 + b % 8 = b by omega] at none

/-- What the search through one inventory page finds. -/
theorem findInPip_eq_some {refused : Nat → Bool} {sequence bit : Nat} {p : Pip}
    (h : findInPip pgcBytes refused sequence p = some bit) :
    bit < pgcPpp pgcBytes ∧ p.free bit = true ∧
      refused (bit + sequence * pgcPpp pgcBytes) = false ∧
      ∀ b < bit, p.free b = true → p.pipMin / 8 ≤ b / 8 →
        refused (b + sequence * pgcPpp pgcBytes) = true := by
  obtain ⟨byte, low, high, found, before⟩ := Search.findSome?_range'_eq_some h
  obtain ⟨hbyte, free, granted, same⟩ := findInByte_eq_some found
  refine ⟨?_, free, granted, ?_⟩
  · unfold pgcPpp
    omega
  · intro b hb hfree hmin
    by_cases here : b / 8 = byte
    · exact same b hb here hfree
    · exact findInByte_eq_none (before (b / 8) hmin (by omega)) b rfl hfree

theorem findInPip_eq_none {refused : Nat → Bool} {sequence : Nat} {p : Pip}
    (h : findInPip pgcBytes refused sequence p = none) (b : Nat) (inside : b < pgcPpp pgcBytes)
    (free : p.free b = true) (hmin : p.pipMin / 8 ≤ b / 8) :
    refused (b + sequence * pgcPpp pgcBytes) = true := by
  refine findInByte_eq_none (List.findSome?_eq_none_iff.mp h (b / 8) ?_) b rfl free
  rw [List.mem_range'_1]
  unfold pgcPpp at inside
  omega

/-- What holds of the inventory pages between two operations. -/
structure Inventoried (pgcBytes : Nat) (s : PageSpace) : Prop where
  water : s.pgcHighWater < s.pips.length
  slot : ∀ (k : Nat) (p : Pip), s.pips[k]? = some p →
    (p.free (pgcPpp pgcBytes - 1) = true ↔ k + 1 = s.pips.length)
  root : ∀ p, s.pips[0]? = some p → p.free 1 = false
  least : ∀ (k : Nat) (p : Pip) (b : Nat), s.pips[k]? = some p → p.free b = true →
    p.pipMin ≤ b ∨ k = 0 ∧ b = 3 ∧ p.pipMin ≤ 4

/-- The search starts in front of every free page. -/
theorem Inventoried.least_div {s : PageSpace} (h : Inventoried pgcBytes s) {k b : Nat} {p : Pip}
    (found : s.pips[k]? = some p) (free : p.free b = true) : p.pipMin / 8 ≤ b / 8 := by
  rcases h.least k p b found free with low | ⟨-, rfl, low⟩
  · omega
  · omega

theorem formatPip_free {b : Nat} (hb : 3 ≤ b) : formatPip.free b = true := by
  by_cases byte : b / 8 = 0
  · have bits : ∀ i : Fin 8, 3 ≤ i.val → (formatPip.pipBits 0).toNat.testBit i = true := by decide
    unfold Pip.free
    rw [byte]
    exact bits ⟨b % 8, Nat.mod_lt _ (by omega)⟩ (by simp only; omega)
  · have same : formatPip.pipBits (b / 8) = 255 := by
      unfold formatPip
      simp only
      rw [Function.update_of_ne byte]
    unfold Pip.free
    rw [same]
    exact freshPip_free b

theorem inventoried_format (pos : 0 < pgcBytes) : Inventoried pgcBytes ⟨[formatPip], 0⟩ := by
  have first : ∀ (k : Nat) (p : Pip), [formatPip][k]? = some p → k = 0 ∧ p = formatPip := by
    intro k p found
    obtain ⟨hk, eq⟩ := List.getElem?_eq_some_iff.mp found
    rw [List.length_singleton] at hk
    obtain rfl : k = 0 := by omega
    exact ⟨rfl, eq.symm⟩
  refine ⟨Nat.zero_lt_one, ?_, ?_, ?_⟩
  · intro k p found
    obtain ⟨rfl, rfl⟩ := first k p found
    rw [formatPip_free (by unfold pgcPpp; omega)]
    simp
  · intro p found
    obtain ⟨-, rfl⟩ := first 0 p found
    decide
  · intro k p b found free
    obtain ⟨rfl, rfl⟩ := first k p found
    by_cases low : 4 ≤ b
    · exact .inl low
    · have used : ∀ i : Fin 3, formatPip.free i = false := by decide
      by_cases three : b = 3
      · exact .inr ⟨rfl, three, Nat.le_refl 4⟩
      · rw [used ⟨b, by omega⟩] at free
        cases free

/-- What the search through the inventory pages finds: everything free in front of it was
refused. -/
theorem findPage_eq_some {refused : Nat → Bool} {first : Nat} {pips : List Pip} {sequence bit : Nat}
    (h : findPage pgcBytes refused first pips = some (sequence, bit)) :
    ∃ k p, sequence = first + k ∧ pips[k]? = some p ∧
      findInPip pgcBytes refused sequence p = some bit ∧
      ∀ j < k, ∀ q, pips[j]? = some q → findInPip pgcBytes refused (first + j) q = none := by
  induction pips generalizing first with
  | nil => cases h
  | cons p pips ih =>
    unfold findPage at h
    split at h
    next found =>
      cases h
      exact ⟨0, p, rfl, rfl, found, fun j hj => by omega⟩
    next missed =>
      obtain ⟨k, q, rfl, found, bit, before⟩ := ih h
      refine ⟨k + 1, q, by omega, found, bit, ?_⟩
      intro j hj r hr
      cases j with
      | zero =>
        cases hr
        exact missed
      | succ j =>
        rw [show first + (j + 1) = first + 1 + j by omega]
        exact before j (by omega) r hr

theorem findPage_eq_none {refused : Nat → Bool} {first : Nat} {pips : List Pip}
    (h : findPage pgcBytes refused first pips = none) (k : Nat) (p : Pip)
    (found : pips[k]? = some p) : findInPip pgcBytes refused (first + k) p = none := by
  induction pips generalizing first k with
  | nil => cases found
  | cons q pips ih =>
    unfold findPage at h
    split at h
    next => cases h
    next missed =>
      cases k with
      | zero =>
        cases found
        exact missed
      | succ k =>
        rw [show first + (k + 1) = first + 1 + k by omega]
        exact ih h k found

/-- The page that one call of the search chooses. -/
structure Chosen (pgcBytes : Nat) (refused : Nat → Bool) (s : PageSpace) (sequence bit : Nat) :
    Prop where
  water : s.pgcHighWater ≤ sequence
  inside : bit < pgcPpp pgcBytes
  free : ∃ p, s.pips[sequence]? = some p ∧ p.free bit = true
  granted : refused (bit + sequence * pgcPpp pgcBytes) = false
  lowest : ∀ m, Free pgcBytes s m → s.pgcHighWater ≤ m / pgcPpp pgcBytes →
    m < bit + sequence * pgcPpp pgcBytes → refused m = true

theorem Inventoried.chosen (pos : 0 < pgcBytes) {s : PageSpace} (h : Inventoried pgcBytes s)
    {refused : Nat → Bool} {sequence bit : Nat}
    (found : findPage pgcBytes refused s.pgcHighWater (s.pips.drop s.pgcHighWater) =
      some (sequence, bit)) : Chosen pgcBytes refused s sequence bit := by
  obtain ⟨k, p, rfl, hp, hbit, before⟩ := findPage_eq_some found
  rw [List.getElem?_drop] at hp
  obtain ⟨inside, free, granted, same⟩ := findInPip_eq_some hbit
  have ppp : 0 < pgcPpp pgcBytes := by
    unfold pgcPpp
    omega
  refine ⟨Nat.le_add_right _ _, inside, ⟨p, hp, free⟩, granted, ?_⟩
  rintro m ⟨q, hq, hfree⟩ water below
  have split := Nat.mod_add_div m (pgcPpp pgcBytes)
  have short := Nat.mod_lt m ppp
  rw [Nat.mul_comm] at split
  have hmin := h.least_div hq hfree
  have page : m / pgcPpp pgcBytes < s.pgcHighWater + k + 1 := by
    rw [Nat.div_lt_iff_lt_mul ppp, Nat.succ_mul]
    omega
  by_cases here : m / pgcPpp pgcBytes = s.pgcHighWater + k
  · rw [here] at hq split
    cases Option.some.inj (hq.symm.trans hp)
    rw [← split]
    exact same _ (by omega) hfree hmin
  · have missed := before (m / pgcPpp pgcBytes - s.pgcHighWater) (by omega) q (by
      rw [List.getElem?_drop, Nat.add_sub_of_le water]
      exact hq)
    rw [Nat.add_sub_of_le water] at missed
    rw [← split]
    exact findInPip_eq_none missed _ short hfree hmin

/-- The inventory pages after one page is marked used. -/
def PageSpace.take (s : PageSpace) (sequence bit : Nat) : PageSpace :=
  ⟨s.pips.modify sequence (Pip.markUsed · bit), sequence⟩

theorem PageSpace.getElem?_take (s : PageSpace) (sequence bit k : Nat) :
    (s.take sequence bit).pips[k]? =
      if sequence = k then s.pips[k]?.map (Pip.markUsed · bit) else s.pips[k]? := by
  unfold PageSpace.take
  rw [List.getElem?_modify]
  split
  · rfl
  · exact id_map _

theorem pgcPpp_pos (pos : 0 < pgcBytes) : 7 < pgcPpp pgcBytes := by
  unfold pgcPpp
  omega

/-- A page number from its inventory page and its bit there. -/
theorem div_mod_page (pos : 0 < pgcBytes) {bit : Nat} (inside : bit < pgcPpp pgcBytes)
    (sequence : Nat) : (bit + sequence * pgcPpp pgcBytes) / pgcPpp pgcBytes = sequence ∧
      (bit + sequence * pgcPpp pgcBytes) % pgcPpp pgcBytes = bit := by
  have := pgcPpp_pos pos
  rw [Nat.add_mul_div_right _ _ (by omega), Nat.add_mul_mod_self_right, Nat.div_eq_of_lt inside,
    Nat.mod_eq_of_lt inside, Nat.zero_add]
  exact ⟨rfl, rfl⟩

theorem free_iff (pos : 0 < pgcBytes) {s : PageSpace} {sequence bit : Nat}
    (inside : bit < pgcPpp pgcBytes) : Free pgcBytes s (bit + sequence * pgcPpp pgcBytes) ↔
      ∃ p, s.pips[sequence]? = some p ∧ p.free bit = true := by
  obtain ⟨hdiv, hmod⟩ := div_mod_page pos inside sequence
  unfold Free
  rw [hdiv, hmod]

theorem used_iff (pos : 0 < pgcBytes) {s : PageSpace} {sequence bit : Nat}
    (inside : bit < pgcPpp pgcBytes) : Used pgcBytes s (bit + sequence * pgcPpp pgcBytes) ↔
      ∃ p, s.pips[sequence]? = some p ∧ p.free bit = false := by
  obtain ⟨hdiv, hmod⟩ := div_mod_page pos inside sequence
  unfold Used
  rw [hdiv, hmod]

theorem not_used_of_free {s : PageSpace} {m : Nat} (free : Free pgcBytes s m) :
    ¬Used pgcBytes s m := by
  rintro ⟨p, hp, used⟩
  obtain ⟨q, hq, free⟩ := free
  cases Option.some.inj (hp.symm.trans hq)
  rw [free] at used
  cases used

/-- A bit of the inventory after one page is marked used. -/
theorem take_free {s : PageSpace} {sequence bit m : Nat} : Free pgcBytes (s.take sequence bit) m ↔
    Free pgcBytes s m ∧ ¬(m / pgcPpp pgcBytes = sequence ∧ m % pgcPpp pgcBytes = bit) := by
  unfold Free
  rw [PageSpace.getElem?_take]
  split
  next here =>
    constructor
    · rintro ⟨p, hp, free⟩
      obtain ⟨q, hq, rfl⟩ := Option.map_eq_some_iff.mp hp
      rw [Pip.free_markUsed, Bool.and_eq_true, decide_eq_true_eq] at free
      exact ⟨⟨q, hq, free.1⟩, fun h => free.2 h.2⟩
    · rintro ⟨⟨q, hq, free⟩, other⟩
      refine ⟨q.markUsed bit, by rw [hq, Option.map_some], ?_⟩
      rw [Pip.free_markUsed, free, Bool.true_and, decide_eq_true_eq]
      exact fun h => other ⟨here.symm, h⟩
  next there =>
    constructor
    · rintro free
      exact ⟨free, fun h => there h.1.symm⟩
    · exact fun h => h.1

theorem take_used {s : PageSpace} (sequence bit : Nat) {m : Nat} (used : Used pgcBytes s m) :
    Used pgcBytes (s.take sequence bit) m := by
  obtain ⟨p, hp, used⟩ := used
  unfold Used
  rw [PageSpace.getElem?_take]
  split
  · refine ⟨p.markUsed bit, by rw [hp, Option.map_some], ?_⟩
    rw [Pip.free_markUsed, used, Bool.false_and]
  · exact ⟨p, hp, used⟩

theorem used_of_take {s : PageSpace} {sequence bit m : Nat}
    (used : Used pgcBytes (s.take sequence bit) m) :
    Used pgcBytes s m ∨ m = bit + sequence * pgcPpp pgcBytes := by
  obtain ⟨p, hp, used⟩ := used
  rw [PageSpace.getElem?_take] at hp
  split at hp
  next here =>
    obtain ⟨q, hq, rfl⟩ := Option.map_eq_some_iff.mp hp
    rw [Pip.free_markUsed, Bool.and_eq_false_iff, decide_eq_false_iff_not, not_not] at used
    rcases used with used | same
    · exact .inl ⟨q, hq, used⟩
    · right
      rw [← Nat.mod_add_div m (pgcPpp pgcBytes), ← here, same, Nat.mul_comm]
  next => exact .inl ⟨p, hp, used⟩

/-- Marking one page used keeps everything but the reserved slot. -/
theorem take_kept {s : PageSpace} {sequence bit k : Nat}
    {p : Pip} (found : (s.take sequence bit).pips[k]? = some p) :
    ∃ q, s.pips[k]? = some q ∧ p.pipMin = q.pipMin ∧
      (∀ b, p.free b = true → q.free b = true) ∧
      ∀ b, ¬(k = sequence ∧ b = bit) → p.free b = q.free b := by
  rw [PageSpace.getElem?_take] at found
  split at found
  next here =>
    obtain ⟨q, hq, rfl⟩ := Option.map_eq_some_iff.mp found
    refine ⟨q, hq, rfl, ?_, ?_⟩
    · intro b free
      rw [Pip.free_markUsed, Bool.and_eq_true] at free
      exact free.1
    · intro b other
      have ne : b ≠ bit := fun eq => other ⟨here.symm, eq⟩
      rw [Pip.free_markUsed, decide_eq_true ne, Bool.and_true]
  next => exact ⟨p, found, rfl, fun b free => free, fun b _ => rfl⟩

theorem Chosen.lt_length {refused : Nat → Bool} {s : PageSpace} {sequence bit : Nat}
    (h : Chosen pgcBytes refused s sequence bit) : sequence < s.pips.length := by
  obtain ⟨p, hp, -⟩ := h.free
  exact (List.getElem?_eq_some_iff.mp hp).1

theorem Inventoried.take {s : PageSpace} (h : Inventoried pgcBytes s) {refused : Nat → Bool}
    {sequence bit : Nat} (chosen : Chosen pgcBytes refused s sequence bit)
    (plain : bit ≠ pgcPpp pgcBytes - 1) : Inventoried pgcBytes (s.take sequence bit) := by
  have length : (s.take sequence bit).pips.length = s.pips.length := List.length_modify _ _ _
  refine ⟨?_, ?_, ?_, ?_⟩
  · rw [length]
    exact chosen.lt_length
  · intro k p found
    obtain ⟨q, hq, -, -, same⟩ := take_kept found
    rw [length, same _ fun eq => plain eq.2.symm]
    exact h.slot k q hq
  · intro p found
    obtain ⟨q, hq, -, kept, -⟩ := take_kept found
    have used := h.root q hq
    rw [Bool.eq_false_iff] at used ⊢
    exact fun free => used (kept 1 free)
  · intro k p b found free
    obtain ⟨q, hq, hmin, kept, -⟩ := take_kept found
    rw [hmin]
    exact h.least k q b hq (kept b free)

/-- The inventory pages after the last page of an inventory page has been made the next one. -/
def PageSpace.grow (s : PageSpace) (sequence bit : Nat) : PageSpace :=
  ⟨(s.take sequence bit).pips.take (sequence + 1) ++
    freshPip :: (s.take sequence bit).pips.drop (sequence + 2), sequence⟩

/-- The chosen page is the reserved slot of the last inventory page only. -/
theorem Inventoried.grow_pips {s : PageSpace} (h : Inventoried pgcBytes s)
    {refused : Nat → Bool} {sequence bit : Nat} (chosen : Chosen pgcBytes refused s sequence bit)
    (last : bit = pgcPpp pgcBytes - 1) : sequence + 1 = s.pips.length ∧
      (s.grow sequence bit).pips = (s.take sequence bit).pips ++ [freshPip] := by
  obtain ⟨p, hp, free⟩ := chosen.free
  have length : (s.take sequence bit).pips.length = s.pips.length := List.length_modify _ _ _
  rw [last] at free
  have slot := (h.slot sequence p hp).mp free
  refine ⟨slot, ?_⟩
  unfold PageSpace.grow
  simp only
  rw [List.take_of_length_le (by omega), List.drop_eq_nil_of_le (by omega)]

theorem Inventoried.grow (pos : 0 < pgcBytes) {s : PageSpace} (h : Inventoried pgcBytes s)
    {refused : Nat → Bool} {sequence bit : Nat} (chosen : Chosen pgcBytes refused s sequence bit)
    (last : bit = pgcPpp pgcBytes - 1) : Inventoried pgcBytes (s.grow sequence bit) := by
  obtain ⟨slot, pips⟩ := h.grow_pips chosen last
  have length : (s.take sequence bit).pips.length = s.pips.length := List.length_modify _ _ _
  have ppp := pgcPpp_pos pos
  have old : ∀ {k : Nat} {p : Pip}, (s.grow sequence bit).pips[k]? = some p →
      k < s.pips.length ∧ (s.take sequence bit).pips[k]? = some p ∨
        k = s.pips.length ∧ p = freshPip := by
    intro k p found
    rw [pips] at found
    by_cases inside : k < (s.take sequence bit).pips.length
    · rw [List.getElem?_append_left inside] at found
      exact .inl ⟨length ▸ inside, found⟩
    · rw [List.getElem?_append_right (by omega)] at found
      obtain ⟨hk, eq⟩ := List.getElem?_eq_some_iff.mp found
      rw [List.length_singleton] at hk
      refine .inr ⟨by omega, ?_⟩
      rw [List.getElem_singleton] at eq
      exact eq.symm
  have total : (s.grow sequence bit).pips.length = s.pips.length + 1 := by
    rw [pips, List.length_append, length, List.length_singleton]
  refine ⟨?_, ?_, ?_, ?_⟩
  · have := chosen.lt_length
    rw [total]
    change sequence < _
    omega
  · intro k p found
    rw [total]
    rcases old found with ⟨inside, found⟩ | ⟨rfl, rfl⟩
    · obtain ⟨q, hq, -, kept, same⟩ := take_kept found
      constructor
      · intro free
        by_cases here : k = sequence
        · -- the slot that has just been used
          rw [PageSpace.getElem?_take, if_pos here.symm] at found
          obtain ⟨r, -, rfl⟩ := Option.map_eq_some_iff.mp found
          rw [Pip.free_markUsed, Bool.and_eq_true, decide_eq_true_eq] at free
          exact absurd last.symm free.2
        · have := (h.slot k q hq).mp (kept _ free)
          omega
      · intro eq
        omega
    · simp [freshPip_free]
  · intro p found
    rcases old found with ⟨inside, found⟩ | ⟨eq, -⟩
    · obtain ⟨q, hq, -, kept, -⟩ := take_kept found
      have used := h.root q hq
      rw [Bool.eq_false_iff] at used ⊢
      exact fun free => used (kept 1 free)
    · have := h.water
      omega
  · intro k p b found free
    rcases old found with ⟨inside, found⟩ | ⟨-, rfl⟩
    · obtain ⟨q, hq, hmin, kept, -⟩ := take_kept found
      rw [hmin]
      exact h.least k q b hq (kept b free)
    · exact .inl (Nat.zero_le b)

/-- A page is marked used by the next inventory page as it was before. -/
theorem Inventoried.grow_used {s : PageSpace} (h : Inventoried pgcBytes s)
    {refused : Nat → Bool} {sequence bit : Nat} (chosen : Chosen pgcBytes refused s sequence bit)
    (last : bit = pgcPpp pgcBytes - 1) {m : Nat} (used : Used pgcBytes s m) :
    Used pgcBytes (s.grow sequence bit) m := by
  obtain ⟨p, hp, used⟩ := take_used sequence bit used
  refine ⟨p, ?_, used⟩
  rw [(h.grow_pips chosen last).2, List.getElem?_append_left (List.getElem?_eq_some_iff.mp hp).1]
  exact hp

theorem Inventoried.grow_free {s : PageSpace} (h : Inventoried pgcBytes s)
    {refused : Nat → Bool} {sequence bit : Nat} (chosen : Chosen pgcBytes refused s sequence bit)
    (last : bit = pgcPpp pgcBytes - 1) {m : Nat} :
    Free pgcBytes (s.grow sequence bit) m ↔ Free pgcBytes (s.take sequence bit) m ∨
      m / pgcPpp pgcBytes = s.pips.length := by
  have pips := (h.grow_pips chosen last).2
  have length : (s.take sequence bit).pips.length = s.pips.length := List.length_modify _ _ _
  constructor
  · rintro ⟨p, hp, free⟩
    rw [pips] at hp
    by_cases inside : m / pgcPpp pgcBytes < (s.take sequence bit).pips.length
    · rw [List.getElem?_append_left inside] at hp
      exact .inl ⟨p, hp, free⟩
    · have hlt := (List.getElem?_eq_some_iff.mp hp).1
      rw [List.length_append, List.length_singleton] at hlt
      exact .inr (by omega)
  · rintro (⟨p, hp, free⟩ | eq)
    · refine ⟨p, ?_, free⟩
      rw [pips, List.getElem?_append_left (List.getElem?_eq_some_iff.mp hp).1]
      exact hp
    · refine ⟨freshPip, ?_, freshPip_free _⟩
      rw [pips, List.getElem?_append_right (by omega), eq, length, Nat.sub_self]
      rfl

theorem Inventoried.used_of_grow {s : PageSpace} (h : Inventoried pgcBytes s)
    {refused : Nat → Bool} {sequence bit : Nat} (chosen : Chosen pgcBytes refused s sequence bit)
    (last : bit = pgcPpp pgcBytes - 1) {m : Nat} (used : Used pgcBytes (s.grow sequence bit) m) :
    Used pgcBytes (s.take sequence bit) m := by
  obtain ⟨p, hp, used⟩ := used
  rw [(h.grow_pips chosen last).2] at hp
  by_cases inside : m / pgcPpp pgcBytes < (s.take sequence bit).pips.length
  · rw [List.getElem?_append_left inside] at hp
    exact ⟨p, hp, used⟩
  · rw [List.getElem?_append_right (Nat.le_of_not_lt inside)] at hp
    have mem := List.mem_of_getElem? hp
    rw [List.mem_singleton] at mem
    rw [mem, freshPip_free] at used
    cases used

/-- What an allocation does; `passed` are the free pages in front of the high water mark. -/
structure PageAllocated (pgcBytes : Nat) (passed : Nat → Prop) (refused : List (Nat → Bool))
    (s : PageSpace) (number : Nat) (s' : PageSpace) : Prop where
  inventoried : Inventoried pgcBytes s'
  wasFree : ¬Used pgcBytes s number
  used : Used pgcBytes s' number
  notPip : ∀ sequence, number ≠ pipPage pgcBytes sequence
  keeps : ∀ m, Used pgcBytes s m → Used pgcBytes s' m
  only : ∀ m, Used pgcBytes s' m →
    Used pgcBytes s m ∨ m = number ∨ ∃ sequence, m = pipPage pgcBytes sequence
  high : ∀ m, Free pgcBytes s' m → m / pgcPpp pgcBytes < s'.pgcHighWater →
    passed m ∨ ∃ r ∈ refused, r m = true
  lowest : ∀ m, Free pgcBytes s m → (∀ sequence, m ≠ pipPage pgcBytes sequence) → m < number →
    passed m ∨ ∃ r ∈ refused, r m = true

/-- The last slot of an inventory page is the number of the next one. -/
theorem slot_eq_pipPage (pos : 0 < pgcBytes) (sequence : Nat) :
    pgcPpp pgcBytes - 1 + sequence * pgcPpp pgcBytes = pipPage pgcBytes (sequence + 1) := by
  have := pgcPpp_pos pos
  unfold pipPage
  rw [if_neg (Nat.succ_ne_zero _), Nat.succ_mul]
  omega

theorem Chosen.notPip (pos : 0 < pgcBytes) {s : PageSpace} (h : Inventoried pgcBytes s)
    {refused : Nat → Bool} {sequence bit : Nat} (chosen : Chosen pgcBytes refused s sequence bit)
    (plain : bit ≠ pgcPpp pgcBytes - 1) (k : Nat) :
    bit + sequence * pgcPpp pgcBytes ≠ pipPage pgcBytes k := by
  have ppp := pgcPpp_pos pos
  obtain ⟨hdiv, hmod⟩ := div_mod_page pos chosen.inside sequence
  intro eq
  cases k with
  | zero =>
    obtain ⟨p, hp, free⟩ := chosen.free
    have one : bit + sequence * pgcPpp pgcBytes = 1 := eq
    rw [one, Nat.div_eq_of_lt (by omega)] at hdiv
    rw [one, Nat.mod_eq_of_lt (by omega)] at hmod
    rw [← hdiv] at hp
    rw [← hmod, h.root p hp] at free
    cases free
  | succ k =>
    rw [← slot_eq_pipPage pos] at eq
    rw [eq, (div_mod_page pos (by omega) k).2] at hmod
    exact plain hmod.symm

theorem pagAllocate_allocated (pos : 0 < pgcBytes) {refused : List (Nat → Bool)} {s s' : PageSpace}
    {number : Nat} (h : Inventoried pgcBytes s) {passed : Nat → Prop}
    (high : ∀ m, Free pgcBytes s m → m / pgcPpp pgcBytes < s.pgcHighWater → passed m)
    (allocate : pagAllocate pgcBytes refused s = some (number, s')) :
    PageAllocated pgcBytes passed refused s number s' := by
  induction refused generalizing s passed with
  | nil => cases allocate
  | cons refuse nested ih =>
    have ppp := pgcPpp_pos pos
    unfold pagAllocate at allocate
    split at allocate
    next => cases allocate
    next sequence bit found =>
      have chosen := h.chosen pos found
      -- a free page in front of the chosen one was passed over, now or before
      have front : ∀ m, Free pgcBytes s m → m < bit + sequence * pgcPpp pgcBytes →
          passed m ∨ refuse m = true := by
        intro m free below
        by_cases water : m / pgcPpp pgcBytes < s.pgcHighWater
        · exact .inl (high m free water)
        · exact .inr (chosen.lowest m free (Nat.le_of_not_lt water) below)
      have page : ∀ m, m / pgcPpp pgcBytes < sequence →
          m < bit + sequence * pgcPpp pgcBytes := by
        intro m hm
        have := (Nat.div_lt_iff_lt_mul (by omega)).mp hm
        omega
      simp only at allocate
      split at allocate
      next plain =>
        cases allocate
        obtain ⟨p, hp, free⟩ := chosen.free
        refine ⟨h.take chosen plain, ?_, ?_, chosen.notPip pos h plain, ?_, ?_, ?_, ?_⟩
        · exact not_used_of_free ((free_iff pos chosen.inside).mpr chosen.free)
        · refine (used_iff pos chosen.inside).mpr ⟨p.markUsed bit, ?_, ?_⟩
          · change (s.take sequence bit).pips[sequence]? = _
            rw [PageSpace.getElem?_take, if_pos rfl, hp, Option.map_some]
          · rw [Pip.free_markUsed, decide_eq_false fun h => h rfl, Bool.and_false]
        · exact fun m used => take_used _ _ used
        · exact fun m used => (used_of_take used).imp_right .inl
        · intro m free water
          rcases front m (take_free.mp free).1 (page m water) with before | now
          · exact .inl before
          · exact .inr ⟨refuse, List.mem_cons_self, now⟩
        · intro m free _ below
          rcases front m free below with before | now
          · exact .inl before
          · exact .inr ⟨refuse, List.mem_cons_self, now⟩
      next last =>
        have last := not_not.mp last
        have grown := h.grow pos chosen last
        have slot := (h.grow_pips chosen last).1
        have result : PageAllocated pgcBytes (fun m => passed m ∨ refuse m = true) nested
            (s.grow sequence bit) number s' := by
          refine ih grown ?_ allocate
          intro m free water
          have water : m / pgcPpp pgcBytes < sequence := water
          rcases (h.grow_free chosen last).mp free with free | eq
          · exact front m (take_free.mp free).1 (page m water)
          · omega
        have widen : ∀ {m}, (passed m ∨ refuse m = true) ∨ (∃ r ∈ nested, r m = true) →
            passed m ∨ ∃ r ∈ refuse :: nested, r m = true := by
          rintro m ((before | now) | ⟨r, mem, hr⟩)
          · exact .inl before
          · exact .inr ⟨refuse, List.mem_cons_self, now⟩
          · exact .inr ⟨r, List.mem_cons_of_mem _ mem, hr⟩
        refine ⟨result.inventoried, ?_, result.used, result.notPip, ?_, ?_, ?_, ?_⟩
        · exact fun used => result.wasFree (h.grow_used chosen last used)
        · exact fun m used => result.keeps m (h.grow_used chosen last used)
        · intro m used
          rcases result.only m used with used | new
          · rcases used_of_take (h.used_of_grow chosen last used) with used | eq
            · exact .inl used
            · rw [last, slot_eq_pipPage pos] at eq
              exact .inr (.inr ⟨_, eq⟩)
          · exact .inr new
        · exact fun m free water => widen (result.high m free water)
        · intro m free notPip below
          refine widen (result.lowest m ?_ notPip below)
          refine (h.grow_free chosen last).mpr (.inl (take_free.mpr ⟨free, ?_⟩))
          rintro ⟨hdiv, hmod⟩
          have split := Nat.mod_add_div m (pgcPpp pgcBytes)
          rw [hdiv, hmod, last, Nat.mul_comm, slot_eq_pipPage pos] at split
          exact notPip _ split.symm

theorem Inventoried.findPage_ne_none (pos : 0 < pgcBytes) {s : PageSpace}
    (h : Inventoried pgcBytes s) : findPage pgcBytes (fun _ => false) s.pgcHighWater
      (s.pips.drop s.pgcHighWater) ≠ none := by
  intro none
  have water := h.water
  have ppp := pgcPpp_pos pos
  obtain ⟨p, hp⟩ : ∃ p, s.pips[s.pips.length - 1]? = some p :=
    ⟨_, List.getElem?_eq_getElem (by omega)⟩
  -- the slot of the last inventory page is free
  have free := (h.slot _ p hp).mpr (by omega)
  have missed := findPage_eq_none none (s.pips.length - 1 - s.pgcHighWater) p (by
    rw [List.getElem?_drop, Nat.add_sub_of_le (by omega)]
    exact hp)
  have refused := findInPip_eq_none missed _ (by omega) free (h.least_div hp free)
  cases refused

/-- Where `CCH_fake` refuses nothing, the second call at the latest returns a page. -/
theorem pagAllocate_isSome (pos : 0 < pgcBytes) {s : PageSpace} (h : Inventoried pgcBytes s) :
    (pagAllocate pgcBytes [fun _ => false, fun _ => false] s).isSome = true := by
  have ppp := pgcPpp_pos pos
  unfold pagAllocate
  split
  next none => exact absurd none (h.findPage_ne_none pos)
  next sequence bit found =>
    have chosen := h.chosen pos found
    simp only
    split
    next => rfl
    next last =>
      have last := not_not.mp last
      have grown := h.grow pos chosen last
      change (pagAllocate pgcBytes [fun _ => false] (s.grow sequence bit)).isSome = true
      unfold pagAllocate
      split
      next none => exact absurd none (grown.findPage_ne_none pos)
      next sequence' bit' found' =>
        have chosen' := grown.chosen pos found'
        simp only
        split
        next => rfl
        next last' =>
          -- the new inventory page has free pages in front of its slot
          have last' := not_not.mp last'
          have slot := (h.grow_pips chosen last).1
          have slot' := (grown.grow_pips chosen' last').1
          have total : (s.grow sequence bit).pips.length = s.pips.length + 1 := by
            rw [(h.grow_pips chosen last).2, List.length_append, List.length_singleton]
            exact congrArg (· + 1) (List.length_modify _ _ _)
          have first : 0 < pgcPpp pgcBytes := by omega
          obtain ⟨hdiv, -⟩ := div_mod_page pos first s.pips.length
          have refused := chosen'.lowest (0 + s.pips.length * pgcPpp pgcBytes)
            ((h.grow_free chosen last).mpr (.inr hdiv)) (by
              change sequence ≤ _
              omega) (by
              rw [show sequence' = s.pips.length by omega]
              omega)
          cases refused

theorem release_kept {s : PageSpace} {number k : Nat} {p : Pip}
    (found : (pagReleasePage pgcBytes number s).pips[k]? = some p) :
    ∃ q, s.pips[k]? = some q ∧
      (number / pgcPpp pgcBytes = k ∧ p = q.release (number % pgcPpp pgcBytes) ∨
        number / pgcPpp pgcBytes ≠ k ∧ p = q) := by
  unfold pagReleasePage at found
  simp only at found
  rw [List.getElem?_modify] at found
  obtain ⟨q, hq, eq⟩ := Option.map_eq_some_iff.mp found
  refine ⟨q, hq, ?_⟩
  split at eq
  next here => exact .inl ⟨here, eq.symm⟩
  next there => exact .inr ⟨there, eq.symm⟩

theorem Inventoried.release (pos : 0 < pgcBytes) {s : PageSpace} (h : Inventoried pgcBytes s)
    {number : Nat} (managed : Managed pgcBytes s number) :
    Inventoried pgcBytes (pagReleasePage pgcBytes number s) := by
  have ppp := pgcPpp_pos pos
  have split := Nat.mod_add_div number (pgcPpp pgcBytes)
  rw [Nat.mul_comm] at split
  have length : (pagReleasePage pgcBytes number s).pips.length = s.pips.length :=
    List.length_modify _ _ _
  refine ⟨?_, ?_, ?_, ?_⟩
  · rw [length]
    exact Nat.lt_of_le_of_lt (Nat.min_le_left _ _) h.water
  · intro k p found
    rw [length]
    obtain ⟨q, hq, ⟨here, rfl⟩ | ⟨-, rfl⟩⟩ := release_kept found
    · have plain : pgcPpp pgcBytes - 1 ≠ number % pgcPpp pgcBytes := by
        intro eq
        rw [← eq, slot_eq_pipPage pos] at split
        exact managed.2 _ split.symm
      rw [Pip.free_release, decide_eq_false plain, Bool.or_false]
      exact h.slot k q hq
    · exact h.slot k p hq
  · intro p found
    obtain ⟨q, hq, ⟨here, rfl⟩ | ⟨-, rfl⟩⟩ := release_kept found
    · have other : 1 ≠ number % pgcPpp pgcBytes := by
        intro eq
        rw [here, ← eq] at split
        rw [Nat.zero_mul] at split
        exact managed.2 0 split.symm
      rw [Pip.free_release, decide_eq_false other, Bool.or_false]
      exact h.root q hq
    · exact h.root p hq
  · intro k p b found free
    obtain ⟨q, hq, ⟨here, rfl⟩ | ⟨-, rfl⟩⟩ := release_kept found
    · rw [Pip.free_release, Bool.or_eq_true, decide_eq_true_eq] at free
      have lower : (q.release (number % pgcPpp pgcBytes)).pipMin =
          min q.pipMin (number % pgcPpp pgcBytes) := rfl
      rw [lower]
      rcases free with free | rfl
      · rcases h.least k q b hq free with low | ⟨root, three, low⟩
        · exact .inl (by omega)
        · exact .inr ⟨root, three, by omega⟩
      · exact .inl (Nat.min_le_right _ _)
    · exact h.least k p b hq free

theorem release_free {s : PageSpace} {number m : Nat}
    (free : Free pgcBytes (pagReleasePage pgcBytes number s) m) :
    Free pgcBytes s m ∨ m = number := by
  obtain ⟨p, hp, free⟩ := free
  obtain ⟨q, hq, ⟨here, rfl⟩ | ⟨-, rfl⟩⟩ := release_kept hp
  · rw [Pip.free_release, Bool.or_eq_true, decide_eq_true_eq] at free
    rcases free with free | same
    · exact .inl ⟨q, hq, free⟩
    · right
      rw [← Nat.mod_add_div m (pgcPpp pgcBytes), ← Nat.mod_add_div number (pgcPpp pgcBytes), here,
        same]
  · exact .inl ⟨p, hq, free⟩

theorem release_number {s : PageSpace} {number : Nat} (managed : Managed pgcBytes s number) :
    Free pgcBytes (pagReleasePage pgcBytes number s) number := by
  obtain ⟨p, hp⟩ : ∃ p, s.pips[number / pgcPpp pgcBytes]? = some p :=
    ⟨_, List.getElem?_eq_getElem managed.1⟩
  refine ⟨p.release (number % pgcPpp pgcBytes), ?_, ?_⟩
  · unfold pagReleasePage
    simp only
    rw [List.getElem?_modify, hp]
    simp
  · rw [Pip.free_release, decide_eq_true rfl, Bool.or_true]

theorem used_of_release {s : PageSpace} {number m : Nat}
    (used : Used pgcBytes (pagReleasePage pgcBytes number s) m) : Used pgcBytes s m := by
  obtain ⟨p, hp, used⟩ := used
  obtain ⟨q, hq, ⟨here, rfl⟩ | ⟨-, rfl⟩⟩ := release_kept hp
  · rw [Pip.free_release, Bool.or_eq_false_iff] at used
    exact ⟨q, hq, used.1⟩
  · exact ⟨p, hq, used⟩

theorem release_used {s : PageSpace} {number m : Nat} (used : Used pgcBytes s m)
    (other : m ≠ number) : Used pgcBytes (pagReleasePage pgcBytes number s) m := by
  obtain ⟨p, hp, used⟩ := used
  have found : (pagReleasePage pgcBytes number s).pips[m / pgcPpp pgcBytes]? =
      some (if number / pgcPpp pgcBytes = m / pgcPpp pgcBytes then
        p.release (number % pgcPpp pgcBytes) else p) := by
    unfold pagReleasePage
    simp only
    rw [List.getElem?_modify, hp]
    split
    next => rfl
    next => rfl
  refine ⟨_, found, ?_⟩
  split
  next here =>
    have bit : m % pgcPpp pgcBytes ≠ number % pgcPpp pgcBytes := by
      intro same
      apply other
      rw [← Nat.mod_add_div m (pgcPpp pgcBytes), ← Nat.mod_add_div number (pgcPpp pgcBytes), here,
        same]
    rw [Pip.free_release, used, decide_eq_false bit, Bool.or_false]
  next => exact used

/-- What holds between two operations, and of the next one, whatever happened before. -/
structure PagesKept (pgcBytes : Nat) (events : List PagEvent) (s : PageSpace) : Prop where
  allocates : ∀ refused number s', pagAllocate pgcBytes refused s = some (number, s') →
    ¬Used pgcBytes s number ∧ Used pgcBytes s' number ∧
      (∀ sequence, number ≠ pipPage pgcBytes sequence) ∧ ¬HandedOut events number ∧
      ∀ m, Free pgcBytes s m → (∀ sequence, m ≠ pipPage pgcBytes sequence) → m < number →
        PassedOver (.allocate refused number :: events) m
  returns : (pagAllocate pgcBytes [fun _ => false, fun _ => false] s).isSome = true
  releases : ∀ number, Managed pgcBytes s number →
    Free pgcBytes (pagReleasePage pgcBytes number s) number
  notLost : ∀ m, Used pgcBytes s m →
    HandedOut events m ∨ m < 3 ∨ ∃ sequence, m = pipPage pgcBytes sequence
  pipMin : ∀ (k : Nat) (p : Pip) (b : Nat), s.pips[k]? = some p → p.free b = true →
    p.pipMin ≤ b ∨ k = 0 ∧ b = 3
  highWater : ∀ m, Free pgcBytes s m → m / pgcPpp pgcBytes < s.pgcHighWater → PassedOver events m

/-- What every operation keeps. -/
structure PagState (pgcBytes : Nat) (events : List PagEvent) (s : PageSpace) : Prop where
  inventoried : Inventoried pgcBytes s
  handedOut : ∀ m, HandedOut events m → Used pgcBytes s m
  notLost : ∀ m, Used pgcBytes s m →
    HandedOut events m ∨ m < 3 ∨ ∃ sequence, m = pipPage pgcBytes sequence
  highWater : ∀ m, Free pgcBytes s m → m / pgcPpp pgcBytes < s.pgcHighWater → PassedOver events m

theorem pagState_format (pos : 0 < pgcBytes) : PagState pgcBytes [] ⟨[formatPip], 0⟩ := by
  refine ⟨inventoried_format pos, ?_, ?_, ?_⟩
  · intro m handed
    cases handed
  · rintro m ⟨p, hp, used⟩
    have ppp := pgcPpp_pos pos
    have hk := (List.getElem?_eq_some_iff.mp hp).1
    rw [List.length_singleton] at hk
    have small := (Nat.div_lt_iff_lt_mul (by omega)).mp hk
    rw [Nat.one_mul] at small
    have first := List.mem_singleton.mp (List.mem_of_getElem? hp)
    rw [Nat.mod_eq_of_lt small, first] at used
    by_cases low : m < 3
    · exact .inr (.inl low)
    · rw [formatPip_free (Nat.le_of_not_lt low)] at used
      cases used
  · intro m _ water
    cases water

theorem PagRun.state (pos : 0 < pgcBytes) {events : List PagEvent} {s : PageSpace}
    (run : PagRun pgcBytes events s) : PagState pgcBytes events s := by
  induction run with
  | format => exact pagState_format pos
  | @allocate events s s' refused number _ allocate ih =>
    have done := pagAllocate_allocated pos ih.inventoried ih.highWater allocate
    refine ⟨done.inventoried, ?_, ?_, ?_⟩
    · rintro m (rfl | handed)
      · exact done.used
      · exact done.keeps m (ih.handedOut m handed)
    · intro m used
      rcases done.only m used with used | rfl | pip
      · exact (ih.notLost m used).imp_left .inr
      · exact .inl (.inl rfl)
      · exact .inr (.inr pip)
    · intro m free water
      exact (done.high m free water).symm
  | @release events s number _ managed ih =>
    refine ⟨ih.inventoried.release pos managed, ?_, ?_, ?_⟩
    · rintro m ⟨other, handed⟩
      exact release_used (ih.handedOut m handed) (Ne.symm other)
    · intro m used
      rcases ih.notLost m (used_of_release used) with handed | rest
      · refine .inl ⟨?_, handed⟩
        rintro rfl
        exact not_used_of_free (release_number managed) used
      · exact .inr rest
    · intro m free water
      have lower : m / pgcPpp pgcBytes < min s.pgcHighWater (number / pgcPpp pgcBytes) := water
      have other : number ≠ m := by
        rintro rfl
        omega
      rcases release_free free with free | eq
      · exact ⟨other, ih.highWater m free (by omega)⟩
      · exact absurd eq.symm other
  | @attach events s _ ih =>
    refine ⟨⟨?_, ih.inventoried.slot, ih.inventoried.root, ih.inventoried.least⟩, ih.handedOut,
      ih.notLost, ?_⟩
    · exact Nat.lt_of_le_of_lt (Nat.zero_le _) ih.inventoried.water
    · intro m _ water
      cases water

theorem pagRun_pagesKept (pos : 0 < pgcBytes) {events : List PagEvent} {s : PageSpace}
    (run : PagRun pgcBytes events s) : PagesKept pgcBytes events s := by
  have state := run.state pos
  refine ⟨?_, pagAllocate_isSome pos state.inventoried, fun number => release_number,
    state.notLost, ?_, state.highWater⟩
  · intro refused number s' allocate
    have done := pagAllocate_allocated pos state.inventoried state.highWater allocate
    refine ⟨done.wasFree, done.used, done.notPip, ?_, ?_⟩
    · exact fun handed => done.wasFree (state.handedOut number handed)
    · exact fun m free notPip below => (done.lowest m free notPip below).symm
  · intro k p b found free
    exact (state.inventoried.least k p b found free).imp_right fun h => ⟨h.1, h.2.1⟩

end

/-- Only the numbers of inventory pages may not be released. -/
theorem ne_pipPage {number : Nat} (other : number ≠ 1) (small : number < 8031) (sequence : Nat) :
    number ≠ pipPage 1004 sequence := by
  unfold pipPage pgcPpp
  split
  · exact other
  · omega

theorem pagRun_pagesKept_released :
    PagesKept 1004 [.release 3, .allocate [fun _ => false] 3]
      (pagReleasePage 1004 3 ((⟨[formatPip], 0⟩ : PageSpace).take 0 3)) := by
  refine pagRun_pagesKept (by decide) (.release (.allocate .format rfl) ⟨by decide, ?_⟩)
  exact ne_pipPage (by decide) (by decide)

/-- A page above the highest allocated one is taken although a page was released, because
`CCH_fake` gives up on the released one; and the hint of a new database is above a free page. -/
theorem pagAllocate_passes_over :
    (∃ events s, PagRun 1004 events s ∧ ∃ p, s.pips[0]? = some p ∧ p.free 3 = true ∧
      3 < p.pipMin) ∧
    ∃ events s refused s', PagRun 1004 (.release 3 :: events) s ∧ Free 1004 s 3 ∧
      (∀ m, HandedOut events m → m ≤ 4) ∧ pagAllocate 1004 [refused] s = some (5, s') := by
  refine ⟨⟨_, _, .format, formatPip, rfl, by decide, by decide⟩, ?_⟩
  let first := (⟨[formatPip], 0⟩ : PageSpace).take 0 3
  let second := first.take 0 4
  have run : PagRun 1004 [.allocate [fun _ => false] 4, .allocate [fun _ => false] 3] second :=
    .allocate (.allocate .format rfl) rfl
  have managed : Managed 1004 second 3 := ⟨by decide, ne_pipPage (by decide) (by decide)⟩
  have free : Free 1004 (pagReleasePage 1004 3 second) 3 := release_number managed
  have passes : (pagAllocate 1004 [(· == 3)] (pagReleasePage 1004 3 second)).map Prod.fst =
      some 5 := by
    decide
  obtain ⟨⟨number, s'⟩, allocate, rfl⟩ := Option.map_eq_some_iff.mp passes
  refine ⟨_, _, _, s', .release run managed, free, ?_, allocate⟩
  rintro m (rfl | rfl | handed)
  · exact Nat.le_refl 4
  · decide
  · cases handed

end InterBase
