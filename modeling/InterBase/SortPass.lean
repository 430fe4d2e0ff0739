import InterBase.SortGuarded

namespace InterBase

open Intervals KeyOrder

section

variable {scb : Scb} {s : SortMemory}

/-- What one comparison of the final pass leaves behind. -/
structure Fixed (scb : Scb) (s s' : SortMemory) (n i : Nat) (intervals : List (Nat × Nat)) :
    Prop where
  valid : s'.Valid scb
  records : s'.records = s.records
  settled : SettledFrom (s'.key scb) n i intervals

theorem fixPair_spec (valid : s.Valid scb) (sized : scb.Sized) {i : Nat}
    {intervals : List (Nat × Nat)} (narrow : Narrow intervals) (apart : Apart intervals)
    (settled : SettledFrom (s.key scb) scb.scbRecords i intervals) (low : 1 ≤ i)
    (high : i + 1 ≤ scb.scbRecords) (left : Nat) :
    ∃ s', fixPairs scb (left + 1) i s = fixPairs scb left (i + 1) s' ∧
      Fixed scb s s' scb.scbRecords (i + 1) intervals := by
  rw [fixPairs, valid.first_eq sized low (by omega), ok_bind,
    valid.first_eq sized (by omega) (by omega), ok_bind]
  have lengthI := valid.length_key sized low (show i ≤ scb.scbRecords by omega)
  have lengthJ := valid.length_key sized (show 1 ≤ i + 1 by omega) high
  by_cases close : (s.key scb i).headD 0 ≥ (s.key scb (i + 1)).headD 0
  · rw [if_pos close, valid.compare_eq low (by omega) (by omega) high, ok_bind]
    by_cases disordered : s.key scb (i + 1) < s.key scb i
    · obtain ⟨s', eq, exchanged⟩ :=
        exchange_spec valid (x := i) (y := i + 1) low (by omega) (by omega) high
      rw [if_pos (cmp_words_gt.mpr disordered), eq, ok_bind]
      refine ⟨s', rfl, exchanged.valid, exchanged.records, ?_⟩
      apply settled.swap narrow apart low high (not_le.mpr disordered) _ exchanged.first
        exchanged.second exchanged.others
      rw [exchanged.first, exchanged.second]
      exact disordered.le
    · rw [if_neg fun gt => disordered (cmp_words_gt.mp gt)]
      exact ⟨s, rfl, valid, rfl, settled.keep narrow fun _ => not_lt.mp disordered⟩
  · rw [if_neg close]
    exact ⟨s, rfl, valid, rfl,
      settled.keep narrow fun _ => (head_lt lengthI lengthJ (by omega)).le⟩

theorem fixPairs_spec (valid : s.Valid scb) (sized : scb.Sized) {intervals : List (Nat × Nat)}
    (narrow : Narrow intervals) (apart : Apart intervals) (k : Nat) {i : Nat} (low : 1 ≤ i)
    (high : i + k ≤ scb.scbRecords)
    (settled : SettledFrom (s.key scb) scb.scbRecords i intervals) (left : Nat) :
    ∃ s', fixPairs scb (k + left) i s = fixPairs scb left (i + k) s' ∧
      Fixed scb s s' scb.scbRecords (i + k) intervals := by
  induction k generalizing i s with
  | zero =>
    refine ⟨s, ?_, valid, rfl, settled⟩
    rw [Nat.zero_add, Nat.add_zero]
  | succ k ih =>
    obtain ⟨s1, eq1, fixed1⟩ :=
      fixPair_spec valid sized narrow apart settled low (by omega) (k + left)
    obtain ⟨s2, eq2, fixed2⟩ := ih fixed1.valid (by omega) (by omega) fixed1.settled
    refine ⟨s2, ?_, fixed2.valid, fixed2.records.trans fixed1.records, ?_⟩
    · rw [show k + 1 + left = k + left + 1 by omega, eq1, eq2]
      rw [show i + 1 + k = i + (k + 1) by omega]
    · rw [show i + (k + 1) = i + 1 + k by omega]
      exact fixed2.settled

/-- The last record against `high_key`: nothing is swapped, but the comparison may go beyond the
words of `high_key`. -/
theorem fixLast_spec (valid : s.Valid scb) (sized : scb.Sized) (some : 1 ≤ scb.scbRecords) :
    fixPairs scb 1 scb.scbRecords s =
      if AllOnes (s.key scb scb.scbRecords) ∧ 64 < scb.scbLongs - 1 then .error .outside
      else .ok s := by
  obtain ⟨id, -, -, pointer, words, length, long⟩ := valid.key_eq some (Nat.le_refl _)
  unfold fixPairs
  rw [valid.first_eq sized some (by omega), ok_bind, valid.first_eq sized (by omega) (by omega),
    ok_bind, valid.head_high]
  have compared : s.compare scb scb.scbRecords (scb.scbRecords + 1) =
      if AllOnes (s.key scb scb.scbRecords) then
        if scb.scbLongs - 1 ≤ 64 then .ok .eq else .error .outside
      else .ok .lt := by
    unfold SortMemory.compare
    rw [pointer, valid.key_high.1, ok_bind, ok_bind, words, valid.key_high.2,
      compareWords_low length long]
    by_cases ones : AllOnes (s.key scb scb.scbRecords)
    · have all : ∀ word ∈ (s.key scb scb.scbRecords).take 64, word = 4294967295 := ones
      rw [if_pos ones, if_pos all]
      by_cases fits : scb.scbLongs - 1 ≤ 64
      · rw [if_pos fits, if_pos fits]
        rfl
      · rw [if_neg fits, if_neg fits]
        rfl
    · have all : ¬∀ word ∈ (s.key scb scb.scbRecords).take 64, word = 4294967295 := ones
      rw [if_neg ones, if_neg all]
      rfl
  by_cases ones : AllOnes (s.key scb scb.scbRecords)
  · have first : (s.key scb scb.scbRecords).headD 0 = 4294967295 := by
      obtain ⟨word, rest, key⟩ :=
        List.exists_cons_of_length_pos (valid.length_key sized some (Nat.le_refl _))
      rw [key] at ones ⊢
      exact ones word (by simp)
    rw [if_pos (by omega), compared, if_pos ones]
    by_cases fits : scb.scbLongs - 1 ≤ 64
    · have guarded : ¬(AllOnes (s.key scb scb.scbRecords) ∧ 64 < scb.scbLongs - 1) :=
        fun h => absurd h.2 (by omega)
      rw [if_pos fits, if_neg guarded, ok_bind, if_neg (by simp)]
      rfl
    · rw [if_neg fits, if_pos ⟨ones, by omega⟩]
      rfl
  · have guarded : ¬(AllOnes (s.key scb scb.scbRecords) ∧ 64 < scb.scbLongs - 1) :=
      fun h => ones h.1
    rw [if_neg guarded]
    by_cases close : (s.key scb scb.scbRecords).headD 0 ≥ 4294967295
    · rw [if_pos close, compared, if_neg ones, ok_bind, if_neg (by simp)]
      rfl
    · rw [if_neg close]
      rfl

/-- The records are in order, and every one of them is still pointed to. -/
structure InOrder (scb : Scb) (s s' : SortMemory) : Prop where
  valid : s'.Valid scb
  records : s'.records = s.records
  ordered : ∀ x y, 1 ≤ x → x < y → y ≤ scb.scbRecords → s'.key scb x ≤ s'.key scb y

/-- The records are longer than `high_key`, and the words of one are all ones as far as that goes. -/
def Overlong (scb : Scb) (s : SortMemory) : Prop :=
  64 < scb.scbLongs - 1 ∧ ∃ id, 1 ≤ id ∧ id ≤ scb.scbRecords ∧ AllOnes (s.words scb id)

theorem ordered_last (inOrder : ∀ x y, 1 ≤ x → x < y → y ≤ scb.scbRecords →
    s.key scb x ≤ s.key scb y) {x : Nat} (low : 1 ≤ x) (high : x ≤ scb.scbRecords) :
    s.key scb x ≤ s.key scb scb.scbRecords := by
  rcases Nat.lt_or_eq_of_le high with lt | rfl
  · exact inOrder x _ low lt (Nat.le_refl _)
  · exact le_refl _

/-- The last record is all ones if any record is. -/
theorem ones_last (valid : s.Valid scb) (inOrder : ∀ x y, 1 ≤ x → x < y → y ≤ scb.scbRecords →
    s.key scb x ≤ s.key scb y) {id : Nat} (low : 1 ≤ id) (high : id ≤ scb.scbRecords)
    (ones : AllOnes (s.words scb id)) : AllOnes (s.key scb scb.scbRecords) := by
  obtain ⟨x, lowX, highX, points⟩ := valid.surj low high
  rw [← SortMemory.key_some points] at ones
  obtain ⟨-, -, -, -, -, length, -⟩ := valid.key_eq lowX highX
  obtain ⟨-, -, -, -, -, lengthN, longN⟩ :=
    valid.key_eq (i := scb.scbRecords) (by omega) (Nat.le_refl _)
  exact ones.mono (not_lt.mpr (ordered_last inOrder lowX highX)) (length.trans lengthN.symm) longN

/-- `sort` without the elimination of duplicates. -/
def sortPointers (scb : Scb) (s : SortMemory) : Except SortFault SortMemory := do
  let s ← quick scb s
  fixPairs scb scb.scbRecords 1 s

theorem fixPairs_runs (valid : s.Valid scb) (sized : scb.Sized) {intervals : List (Nat × Nat)}
    (narrow : Narrow intervals) (apart : Apart intervals)
    (settled : Settled (s.key scb) scb.scbRecords intervals) :
    (Overlong scb s → fixPairs scb scb.scbRecords 1 s = .error .outside) ∧
      (¬Overlong scb s → ∃ s', fixPairs scb scb.scbRecords 1 s = .ok s' ∧ InOrder scb s s') := by
  by_cases none : scb.scbRecords = 0
  · refine ⟨fun ⟨_, id, low, high, _⟩ => by omega, fun _ => ⟨s, ?_, valid, rfl, ?_⟩⟩
    · rw [none, fixPairs]
    · intro x y low lt high
      omega
  · obtain ⟨s1, eq, fixed⟩ := fixPairs_spec valid sized narrow apart (scb.scbRecords - 1) (i := 1)
      (Nat.le_refl 1) (by omega) settled.from_one 1
    rw [show scb.scbRecords - 1 + 1 = scb.scbRecords by omega,
      show 1 + (scb.scbRecords - 1) = scb.scbRecords by omega] at eq
    have inOrder : ∀ x y, 1 ≤ x → x < y → y ≤ scb.scbRecords → s1.key scb x ≤ s1.key scb y :=
      fun x y low lt high => fixed.settled.ordered (by omega) low lt high
    rw [eq, fixLast_spec fixed.valid sized (by omega)]
    have overlong : AllOnes (s1.key scb scb.scbRecords) ∧ 64 < scb.scbLongs - 1 ↔
        Overlong scb s := by
      refine ⟨fun ⟨ones, long⟩ => ⟨long, ?_⟩, fun ⟨long, id, low, high, ones⟩ => ⟨?_, long⟩⟩
      · obtain ⟨id, low, high, -, words, -⟩ :=
          fixed.valid.key_eq (i := scb.scbRecords) (by omega) (Nat.le_refl _)
        rw [words_congr fixed.records] at words
        exact ⟨id, low, high, words ▸ ones⟩
      · rw [← words_congr fixed.records] at ones
        exact ones_last fixed.valid inOrder low high ones
    refine ⟨fun wide => if_pos (overlong.mpr wide), fun fits => ⟨s1, ?_, fixed.valid, fixed.records,
      inOrder⟩⟩
    exact if_neg fun h => fits (overlong.mp h)

/-- The records on which no scan and no comparison goes beyond `high_key`. Partitioned again and again
from the middle of what is left behind, no middle record of theirs is all ones without one behind it. -/
structure SortsPointers (scb : Scb) (s : SortMemory) : Prop where
  guarded : Partition.Guarded AllOnes (s.keys scb 1 (scb.scbRecords + 1))
  fits : ¬Overlong scb s

theorem sortPointers_spec (valid : s.Valid scb) (sized : scb.Sized) (h : SortsPointers scb s) :
    ∃ s', sortPointers scb s = .ok s' ∧ InOrder scb s s' := by
  obtain ⟨q, eq, inv, done, records⟩ := quickLoop_spec sized (2 * scb.scbRecords + 2)
    (quickStart_inv valid) (weight_quickStart s) (lastOnly_start s) ((clear_start s).mpr h.guarded)
  obtain ⟨deferred, narrow, apart, settled⟩ := inv.settled
  rw [done] at apart settled
  have fits : ¬Overlong scb q.memory := by
    rintro ⟨long, id, low, high, ones⟩
    exact h.fits ⟨long, id, low, high, words_congr records id ▸ ones⟩
  obtain ⟨s', eq', inOrder⟩ := (fixPairs_runs inv.valid sized narrow apart settled).2 fits
  refine ⟨s', ?_, inOrder.valid, inOrder.records.trans records, inOrder.ordered⟩
  unfold sortPointers quick
  rw [eq, ok_bind, eq']

theorem sortPointers_outside (valid : s.Valid scb) (sized : scb.Sized)
    (h : ¬SortsPointers scb s) : sortPointers scb s = .error .outside := by
  unfold sortPointers quick
  by_cases guarded : Partition.Guarded AllOnes (s.keys scb 1 (scb.scbRecords + 1))
  · obtain ⟨q, eq, inv, done, records⟩ := quickLoop_spec sized (2 * scb.scbRecords + 2)
      (quickStart_inv valid) (weight_quickStart s) (lastOnly_start s) ((clear_start s).mpr guarded)
    obtain ⟨deferred, narrow, apart, settled⟩ := inv.settled
    rw [done] at apart settled
    have wide : Overlong scb q.memory := by
      by_contra fits
      refine h ⟨guarded, fun ⟨long, id, low, high, ones⟩ => fits ⟨long, id, low, high, ?_⟩⟩
      rw [words_congr records]
      exact ones
    rw [eq, ok_bind, (fixPairs_runs inv.valid sized narrow apart settled).1 wide]
  · rw [quickLoop_outside sized _ (quickStart_inv valid) (weight_quickStart s) (lastOnly_start s)
      fun clear => guarded ((clear_start s).mp clear)]
    rfl

end

end InterBase
