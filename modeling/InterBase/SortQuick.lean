import InterBase.Library.Intervals
import InterBase.Library.Partition
import InterBase.SortWords

namespace InterBase

open Intervals KeyOrder

theorem ok_bind {α β : Type} (a : α) (f : α → Except SortFault β) :
    (Except.ok a >>= f) = f a := rfl

/-- The sizes that the sort context block has. -/
structure Scb.Sized (scb : Scb) : Prop where
  words : 1 ≤ scb.scbLongs - 1
  records : scb.scbRecords < 2147483648

section

variable {scb : Scb} {s : SortMemory}

theorem SortMemory.Valid.first_eq (valid : s.Valid scb) (sized : scb.Sized) {i : Nat} (low : 1 ≤ i)
    (high : i ≤ scb.scbRecords + 1) : s.first scb i = .ok ((s.key scb i).headD 0) := by
  unfold SortMemory.first
  by_cases guard : i = scb.scbRecords + 1
  · obtain ⟨pointer, words⟩ := valid.key_high
    rw [guard, pointer, ok_bind, words]
    unfold SortMemory.key
    rw [valid.high]
    exact congrArg Except.ok (by rw [Option.elim_some, words]; rfl)
  · obtain ⟨id, -, -, pointer, words, length, -⟩ := valid.key_eq low (by omega)
    have size := sized.words
    obtain ⟨word, rest, key⟩ := List.exists_cons_of_length_pos (l := s.key scb i) (by omega)
    rw [pointer, ok_bind, words, key]
    rfl

theorem SortMemory.Valid.head_high (valid : s.Valid scb) :
    (s.key scb (scb.scbRecords + 1)).headD 0 = 4294967295 := by
  unfold SortMemory.key
  rw [valid.high, Option.elim_some, valid.key_high.2]
  rfl

theorem SortMemory.Valid.head_le (valid : s.Valid scb) {i : Nat} (low : 1 ≤ i)
    (high : i ≤ scb.scbRecords) : (s.key scb i).headD 0 ≤ 4294967295 := by
  obtain ⟨-, -, -, -, -, -, long⟩ := valid.key_eq low high
  cases key : s.key scb i with
  | nil => simp
  | cons word rest => exact long word (by rw [key]; simp)

theorem SortMemory.Valid.compare_eq (valid : s.Valid scb) {i r : Nat} (low : 1 ≤ i)
    (high : i ≤ scb.scbRecords) (lowR : 1 ≤ r) (highR : r ≤ scb.scbRecords) :
    s.compare scb i r = .ok (cmp (s.key scb i) (s.key scb r)) := by
  obtain ⟨p, -, -, pointerP, wordsP, lengthP, -⟩ := valid.key_eq low high
  obtain ⟨q, -, -, pointerQ, wordsQ, lengthQ, -⟩ := valid.key_eq lowR highR
  unfold SortMemory.compare
  rw [pointerP, pointerQ, ok_bind, ok_bind, wordsP, wordsQ, compareWords_eq lengthP lengthQ]
  rfl

theorem SortMemory.Valid.compare_high (valid : s.Valid scb) {r : Nat} (low : 1 ≤ r)
    (high : r ≤ scb.scbRecords) :
    s.compare scb (scb.scbRecords + 1) r =
      if AllOnes (s.key scb r) then
        if scb.scbLongs - 1 ≤ 64 then .ok .eq else .error .outside
      else .ok .gt := by
  obtain ⟨pointer, words⟩ := valid.key_high
  obtain ⟨q, -, -, pointerQ, wordsQ, lengthQ, long⟩ := valid.key_eq low high
  unfold SortMemory.compare
  rw [pointer, pointerQ, ok_bind, ok_bind, words, wordsQ, compareWords_high lengthQ long]
  by_cases ones : AllOnes (s.key scb r)
  · have all : ∀ word ∈ (s.key scb r).take 64, word = 4294967295 := ones
    rw [if_pos ones, if_pos all]
    by_cases fits : scb.scbLongs - 1 ≤ 64
    · rw [if_pos fits, if_pos fits]
      rfl
    · rw [if_neg fits, if_neg fits]
      rfl
  · have all : ¬∀ word ∈ (s.key scb r).take 64, word = 4294967295 := ones
    rw [if_neg ones, if_neg all]
    rfl

theorem SortMemory.Valid.beyond_error (valid : s.Valid scb) {i : Nat}
    (high : scb.scbRecords + 1 < i) (r : Nat) : s.compare scb i r = .error .outside := by
  unfold SortMemory.compare SortMemory.pointer
  rw [valid.beyond i high]
  rfl

theorem head_lt {p q : List Nat} (hp : 1 ≤ p.length) (hq : 1 ≤ q.length)
    (lt : p.headD 0 < q.headD 0) : p < q := by
  obtain ⟨x, p, rfl⟩ := List.exists_cons_of_length_pos hp
  obtain ⟨y, q, rfl⟩ := List.exists_cons_of_length_pos hq
  exact List.cons_lt_cons_iff.mpr (.inl lt)

/-- The scan over the first words stops at the first one that is not below the key. -/
theorem skipLess_spec (valid : s.Valid scb) (sized : scb.Sized) {key : Nat}
    (bound : key ≤ 4294967295) (left : Nat) {i : Nat} (low : 1 ≤ i)
    (high : i ≤ scb.scbRecords + 1)
    (room : scb.scbRecords + 1 < left + i) :
    ∃ x, skipLess scb s key left i = .ok x ∧ i ≤ x ∧ x ≤ scb.scbRecords + 1 ∧
      key ≤ (s.key scb x).headD 0 ∧ ∀ z, i ≤ z → z < x → (s.key scb z).headD 0 < key := by
  induction left generalizing i with
  | zero => omega
  | succ left ih =>
    unfold skipLess
    rw [valid.first_eq sized low high, ok_bind]
    by_cases less : (s.key scb i).headD 0 < key
    · rw [if_pos less]
      have inside : i ≤ scb.scbRecords := by
        by_contra guard
        rw [show i = scb.scbRecords + 1 by omega, valid.head_high] at less
        omega
      obtain ⟨x, eq, lowX, highX, stop, skipped⟩ :=
        ih (i := i + 1) (by omega) (by omega) (by omega)
      refine ⟨x, eq, by omega, highX, stop, fun z lowZ highZ => ?_⟩
      by_cases first : z = i
      · rw [first]
        exact less
      · exact skipped z (by omega) highZ
    · rw [if_neg less]
      exact ⟨i, rfl, Nat.le_refl i, high, by omega, fun z lowZ highZ => by omega⟩

/-- Where the scan upwards stops: at a record behind the one in `r`, or at `high_key` if that is
behind it. -/
def Stops (scb : Scb) (s : SortMemory) (r x : Nat) : Prop :=
  x ≤ scb.scbRecords ∧ s.key scb r < s.key scb x ∨
    x = scb.scbRecords + 1 ∧ ¬AllOnes (s.key scb r)

theorem passUp_stops (valid : s.Valid scb) {r : Nat} (lowR : 1 ≤ r) (highR : r ≤ scb.scbRecords)
    {left i x : Nat} (low : 1 ≤ i) (le : i ≤ x) (room : x < left + i)
    (passed : ∀ z, i ≤ z → z < x → ¬s.key scb r < s.key scb z) (stops : Stops scb s r x) :
    passUp scb s r left i = .ok x := by
  induction left generalizing i with
  | zero => omega
  | succ left ih =>
    unfold passUp
    have top : x ≤ scb.scbRecords + 1 := by
      rcases stops with ⟨high, -⟩ | ⟨eq, -⟩ <;> omega
    by_cases here : i = x
    · subst here
      rcases stops with ⟨high, behind⟩ | ⟨eq, ones⟩
      · rw [valid.compare_eq low high lowR highR, ok_bind, if_pos (cmp_words_gt.mpr behind)]
        rfl
      · rw [eq, valid.compare_high lowR highR, if_neg ones]
        rfl
    · rw [valid.compare_eq low (by omega) lowR highR, ok_bind,
        if_neg fun gt => passed i (Nat.le_refl i) (by omega) (cmp_words_gt.mp gt)]
      exact ih (by omega) (by omega) (by omega) fun z lowZ highZ => passed z (by omega) highZ

theorem passUp_outside (valid : s.Valid scb) {r : Nat} (lowR : 1 ≤ r)
    (highR : r ≤ scb.scbRecords) (ones : AllOnes (s.key scb r)) {left i : Nat} (low : 1 ≤ i)
    (high : i ≤ scb.scbRecords + 1) (room : scb.scbRecords + 2 < left + i)
    (passed : ∀ z, i ≤ z → z ≤ scb.scbRecords → ¬s.key scb r < s.key scb z) :
    passUp scb s r left i = .error .outside := by
  induction left generalizing i with
  | zero => omega
  | succ left ih =>
    unfold passUp
    by_cases guard : i = scb.scbRecords + 1
    · rw [guard, valid.compare_high lowR highR, if_pos ones]
      by_cases fits : scb.scbLongs - 1 ≤ 64
      · obtain ⟨left, rfl⟩ : ∃ k, left = k + 1 := ⟨left - 1, by omega⟩
        rw [if_pos fits, ok_bind, if_neg (by simp), passUp, valid.beyond_error (by omega)]
        rfl
      · rw [if_neg fits]
        rfl
    · rw [valid.compare_eq low (by omega) lowR highR, ok_bind,
        if_neg fun gt => passed i (Nat.le_refl i) (by omega) (cmp_words_gt.mp gt)]
      exact ih (by omega) (by omega) (by omega) fun z lowZ highZ => passed z (by omega) highZ

theorem SortMemory.Valid.length_key (valid : s.Valid scb) (sized : scb.Sized) {i : Nat}
    (low : 1 ≤ i) (high : i ≤ scb.scbRecords) : 1 ≤ (s.key scb i).length := by
  obtain ⟨-, -, -, -, -, length, -⟩ := valid.key_eq low high
  rw [length]
  exact sized.words

theorem scanUp_stops (valid : s.Valid scb) (sized : scb.Sized) {r i x : Nat} (lowR : 1 ≤ r)
    (highR : r ≤ scb.scbRecords) (low : 1 ≤ i) (le : i ≤ x)
    (passed : ∀ z, i ≤ z → z < x → ¬s.key scb r < s.key scb z) (stops : Stops scb s r x) :
    scanUp scb s ((s.key scb r).headD 0) r i = .ok x := by
  have lengthR := valid.length_key sized lowR highR
  have top : x ≤ scb.scbRecords + 1 := by
    rcases stops with ⟨high, -⟩ | ⟨eq, -⟩ <;> omega
  obtain ⟨y, skip, lowY, highY, stop, skipped⟩ := skipLess_spec valid sized
    (valid.head_le lowR highR) (scb.scbRecords + 2) low (by omega) (by omega)
  -- The word scan comes no further than the record scan.
  have early : y ≤ x := by
    by_contra late
    have less := skipped x le (by omega)
    rcases stops with ⟨high, behind⟩ | ⟨eq, -⟩
    · exact absurd behind (not_lt.mpr (head_lt (valid.length_key sized (by omega) high) lengthR less).le)
    · rw [eq, valid.head_high] at less
      have := valid.head_le lowR highR
      omega
  unfold scanUp
  rw [skip, ok_bind, valid.first_eq sized (by omega) highY, ok_bind]
  by_cases same : (s.key scb y).headD 0 = (s.key scb r).headD 0
  · rw [if_pos same]
    exact passUp_stops valid lowR highR (by omega) early (by omega)
      (fun z lowZ highZ => passed z (by omega) highZ) stops
  · rw [if_neg same]
    have here : y = x := by
      by_contra ne
      have behind := head_lt lengthR (valid.length_key sized (by omega) (by omega))
        (show (s.key scb r).headD 0 < (s.key scb y).headD 0 by omega)
      exact passed y lowY (by omega) behind
    rw [here]
    rfl

theorem scanUp_outside (valid : s.Valid scb) (sized : scb.Sized) {r i : Nat} (lowR : 1 ≤ r)
    (highR : r ≤ scb.scbRecords) (ones : AllOnes (s.key scb r)) (low : 1 ≤ i)
    (high : i ≤ scb.scbRecords + 1)
    (passed : ∀ z, i ≤ z → z ≤ scb.scbRecords → ¬s.key scb r < s.key scb z) :
    scanUp scb s ((s.key scb r).headD 0) r i = .error .outside := by
  have lengthR := valid.length_key sized lowR highR
  obtain ⟨y, skip, lowY, highY, stop, skipped⟩ := skipLess_spec valid sized
    (valid.head_le lowR highR) (scb.scbRecords + 2) low high (by omega)
  have first : (s.key scb r).headD 0 = 4294967295 := by
    obtain ⟨word, rest, key⟩ := List.exists_cons_of_length_pos lengthR
    rw [key] at ones ⊢
    exact ones word (by simp)
  have same : (s.key scb y).headD 0 = (s.key scb r).headD 0 := by
    by_cases guard : y = scb.scbRecords + 1
    · rw [guard, valid.head_high, first]
    · have := valid.head_le (i := y) (by omega) (by omega)
      omega
  unfold scanUp
  rw [skip, ok_bind, valid.first_eq sized (by omega) highY, ok_bind, if_pos same]
  exact passUp_outside valid lowR highR ones (by omega) highY (by omega)
    fun z lowZ highZ => passed z (by omega) highZ

/-- The scan downwards stops at a record in front of the one in `r`, or at `r`. -/
theorem scanDown_spec (valid : s.Valid scb) (sized : scb.Sized) {r j : Nat} (lowR : 1 ≤ r)
    (le : r ≤ j) (high : j ≤ scb.scbRecords) :
    ∃ y, scanDown scb s ((s.key scb r).headD 0) r j = .ok y ∧ r ≤ y ∧ y ≤ j ∧
      (y = r ∨ s.key scb y < s.key scb r) ∧ ∀ z, y < z → z ≤ j → ¬s.key scb z < s.key scb r := by
  have lengthR := valid.length_key sized lowR (le.trans high)
  have words : ∀ j, r ≤ j → j ≤ scb.scbRecords → ∃ y,
      skipGreater scb s ((s.key scb r).headD 0) j = .ok y ∧ r ≤ y ∧ y ≤ j ∧
        (s.key scb y).headD 0 ≤ (s.key scb r).headD 0 ∧
        ∀ z, y < z → z ≤ j → (s.key scb r).headD 0 < (s.key scb z).headD 0 := by
    intro j
    induction j with
    | zero => omega
    | succ j ih =>
      intro le high
      unfold skipGreater
      rw [valid.first_eq sized (by omega) (by omega), ok_bind]
      by_cases greater : (s.key scb r).headD 0 < (s.key scb (j + 1)).headD 0
      · rw [if_pos greater]
        have inside : r ≤ j := by
          by_contra last
          rw [show j + 1 = r by omega] at greater
          omega
        obtain ⟨y, eq, lowY, highY, stop, skipped⟩ := ih inside (by omega)
        refine ⟨y, eq, lowY, by omega, stop, fun z lowZ highZ => ?_⟩
        by_cases first : z = j + 1
        · rw [first]
          exact greater
        · exact skipped z lowZ (by omega)
      · rw [if_neg greater]
        exact ⟨j + 1, rfl, le, Nat.le_refl _, by omega, fun z lowZ highZ => by omega⟩
  have passes : ∀ j, r ≤ j → j ≤ scb.scbRecords → ∃ y, passDown scb s r j = .ok y ∧ r ≤ y ∧ y ≤ j ∧
      (y = r ∨ s.key scb y < s.key scb r) ∧ ∀ z, y < z → z ≤ j → ¬s.key scb z < s.key scb r := by
    intro j
    induction j with
    | zero => omega
    | succ j ih =>
      intro le high
      unfold passDown
      by_cases last : j + 1 = r
      · rw [if_pos last]
        exact ⟨j + 1, rfl, le, Nat.le_refl _, .inl last, fun z lowZ highZ => by omega⟩
      · rw [if_neg last, valid.compare_eq (by omega) high lowR (by omega), ok_bind]
        by_cases less : s.key scb (j + 1) < s.key scb r
        · rw [if_pos (cmp_words_lt.mpr less)]
          exact ⟨j + 1, rfl, le, Nat.le_refl _, .inr less, fun z lowZ highZ => by omega⟩
        · rw [if_neg fun lt => less (cmp_words_lt.mp lt)]
          obtain ⟨y, eq, lowY, highY, stop, passed⟩ := ih (by omega) (by omega)
          refine ⟨y, eq, lowY, by omega, stop, fun z lowZ highZ => ?_⟩
          by_cases first : z = j + 1
          · rw [first]
            exact less
          · exact passed z lowZ (by omega)
  obtain ⟨x, skip, lowX, highX, stopX, skipped⟩ := words j le high
  have greater : ∀ z, x < z → z ≤ j → ¬s.key scb z < s.key scb r := by
    intro z lowZ highZ
    exact not_lt.mpr (head_lt lengthR (valid.length_key sized (by omega) (by omega))
      (skipped z lowZ highZ)).le
  unfold scanDown
  rw [skip, ok_bind, valid.first_eq sized (by omega) (by omega), ok_bind]
  by_cases same : (s.key scb x).headD 0 = (s.key scb r).headD 0
  · rw [if_pos same]
    obtain ⟨y, eq, lowY, highY, stop, passed⟩ := passes x lowX (by omega)
    refine ⟨y, eq, lowY, by omega, stop, fun z lowZ highZ => ?_⟩
    by_cases behind : x < z
    · exact greater z behind highZ
    · exact passed z lowZ (by omega)
  · rw [if_neg same]
    refine ⟨x, rfl, lowX, highX, .inr ?_, greater⟩
    exact head_lt (valid.length_key sized (by omega) (by omega)) lengthR (by omega)

/-- What changes when two slots are exchanged, and what does not. -/
structure Exchanged (scb : Scb) (s s' : SortMemory) (x y : Nat) : Prop where
  valid : s'.Valid scb
  records : s'.records = s.records
  first : s'.key scb x = s.key scb y
  second : s'.key scb y = s.key scb x
  others : ∀ z, z ≠ x → z ≠ y → s'.key scb z = s.key scb z

theorem exchange_spec (valid : s.Valid scb) {x y : Nat} (lowX : 1 ≤ x) (highX : x ≤ scb.scbRecords)
    (lowY : 1 ≤ y) (highY : y ≤ scb.scbRecords) :
    ∃ s', s.exchange x y = .ok s' ∧ Exchanged scb s s' x y := by
  obtain ⟨p, lowP, highP, pointsP, backP⟩ := valid.points x lowX highX
  obtain ⟨q, lowQ, highQ, pointsQ, backQ⟩ := valid.points y lowY highY
  have pointerP : s.pointer x = .ok p := by
    unfold SortMemory.pointer
    rw [pointsP]
  have pointerQ : s.pointer y = .ok q := by
    unfold SortMemory.pointer
    rw [pointsQ]
  let s' : SortMemory := { s with
    pointers := Function.update (Function.update s.pointers x (some q)) y (some p)
    bckptr := Function.update (Function.update s.bckptr p (some y)) q (some x) }
  have at_y : s'.pointers y = some p := Function.update_self _ _ _
  have at_x : s'.pointers x = some q := by
    by_cases same : x = y
    · have ids : q = p := by
        rw [same, pointsQ] at pointsP
        exact Option.some.inj pointsP
      rw [same, at_y, ids]
    · exact (Function.update_of_ne same _ _).trans (Function.update_self _ _ _)
  have other : ∀ z, z ≠ x → z ≠ y → s'.pointers z = s.pointers z := by
    intro z neX neY
    exact (Function.update_of_ne neY _ _).trans (Function.update_of_ne neX _ _)
  have words : ∀ id, s'.words scb id = s.words scb id := fun _ => rfl
  have key : ∀ z z', s'.pointers z = s.pointers z' → s'.key scb z = s.key scb z' := by
    intro z z' eq
    unfold SortMemory.key
    rw [eq]
    rfl
  refine ⟨s', ?_, ⟨?_, ?_, ?_, ?_, valid.ones⟩, rfl, key x y (at_x.trans pointsQ.symm),
    key y x (at_y.trans pointsP.symm), fun z neX neY => key z z (other z neX neY)⟩
  · unfold SortMemory.exchange
    rw [pointerP, pointerQ, ok_bind, ok_bind]
    rfl
  · rw [other 0 (by omega) (by omega), valid.low]
  · rw [other _ (by omega) (by omega), valid.high]
  · intro i high
    rw [other i (by omega) (by omega), valid.beyond i high]
  · intro i low high
    by_cases hx : i = x
    · refine ⟨q, lowQ, highQ, hx ▸ at_x, ?_⟩
      rw [hx]
      exact Function.update_self _ _ _
    · by_cases hy : i = y
      · refine ⟨p, lowP, highP, hy ▸ at_y, ?_⟩
        have ne : p ≠ q := by
          intro same
          rw [same, backQ] at backP
          exact hx (hy.trans (Option.some.inj backP))
        rw [hy]
        exact (Function.update_of_ne ne _ _).trans (Function.update_self _ _ _)
      · obtain ⟨id, lowI, highI, points, back⟩ := valid.points i low high
        refine ⟨id, lowI, highI, (other i hx hy).trans points, ?_⟩
        have neP : id ≠ p := by
          intro same
          rw [same, backP] at back
          exact hx (Option.some.inj back).symm
        have neQ : id ≠ q := by
          intro same
          rw [same, backQ] at back
          exact hy (Option.some.inj back).symm
        exact ((Function.update_of_ne neQ _ _).trans (Function.update_of_ne neP _ _)).trans back

theorem Exchanged.rearranged {s s' : SortMemory} {x y r j : Nat} (h : Exchanged scb s s' x y)
    (lowX : r ≤ x) (highX : x ≤ j) (lowY : r ≤ y) (highY : y ≤ j) :
    Rearranged r j (s.key scb) (s'.key scb) := by
  refine ⟨fun z low high => ?_, fun z out => h.others z (by omega) (by omega)⟩
  by_cases hx : z = x
  · exact ⟨y, lowY, highY, hx ▸ h.first⟩
  · by_cases hy : z = y
    · exact ⟨x, lowX, highX, hy ▸ h.second⟩
    · exact ⟨z, low, high, h.others z hx hy⟩

/-- Where a partition has come to: the slots before `i` hold nothing behind the record in `r`, those
after `j` nothing in front of it. -/
structure Converging (scb : Scb) (s : SortMemory) (r i j stop : Nat) : Prop where
  valid : s.Valid scb
  start : r < i
  order : i ≤ stop + 1
  low : r ≤ j
  high : j ≤ stop
  below : ∀ x, 1 ≤ x → x < i → ¬s.key scb r < s.key scb x
  above : ∀ x, j < x → x ≤ scb.scbRecords → ¬s.key scb x < s.key scb r
  close : i ≤ j + 1
  front : i = r + 1 ∨ s.key scb (i - 1) < s.key scb r

theorem converge_spec (sized : scb.Sized) {r stop : Nat} (lowR : 1 ≤ r)
    (highR : stop ≤ scb.scbRecords) (left : Nat) {i j : Nat} {s : SortMemory}
    (at_ij : Converging scb s r i j stop) (room : j < left + r)
    (behind : AllOnes (s.key scb r) → ∃ x, x ≤ scb.scbRecords ∧ i ≤ x ∧ s.key scb r < s.key scb x) :
    ∃ k s', converge scb ((s.key scb r).headD 0) r left i j s = .ok (k, s') ∧ s'.Valid scb ∧
      s'.records = s.records ∧ r ≤ k ∧ k ≤ stop ∧ s'.key scb r = s.key scb r ∧
      Rearranged (r + 1) stop (s.key scb) (s'.key scb) ∧
      (∀ x, 1 ≤ x → x ≤ k → ¬s.key scb r < s'.key scb x) ∧
      (∀ x, k < x → x ≤ stop → ¬s'.key scb x < s.key scb r) ∧
      values (s'.key scb) (k + 1) (stop + 1) =
        Partition.behind (s.key scb r) (values (s.key scb) i (j + 1)) ++
          values (s.key scb) (j + 1) (stop + 1) := by
  induction left generalizing i j s with
  | zero =>
    have := at_ij.low
    omega
  | succ left ih =>
    have valid := at_ij.valid
    have start := at_ij.start
    have order := at_ij.order
    have lowJ := at_ij.low
    have highJ := at_ij.high
    -- The first slot from `i` on at which the scan upwards stops.
    have stopping : ∃ x, i ≤ x ∧ Stops scb s r x := by
      by_cases ones : AllOnes (s.key scb r)
      · obtain ⟨x, high, low, lt⟩ := behind ones
        exact ⟨x, low, .inl ⟨high, lt⟩⟩
      · exact ⟨scb.scbRecords + 1, by omega, .inr ⟨rfl, ones⟩⟩
    classical
    obtain ⟨lowX, stops⟩ := Nat.find_spec stopping
    have first := fun z => Nat.find_min (H := stopping) (m := z)
    generalize Nat.find stopping = x at *
    have top : x ≤ scb.scbRecords + 1 := by
      rcases stops with ⟨high, -⟩ | ⟨eq, -⟩ <;> omega
    have passed : ∀ z, i ≤ z → z < x → ¬s.key scb r < s.key scb z := by
      intro z low lt behindZ
      exact first z lt ⟨low, .inl ⟨by omega, behindZ⟩⟩
    obtain ⟨y, down, lowY, highY, stopY, skipped⟩ :=
      scanDown_spec valid sized lowR lowJ (by omega)
    unfold converge
    rw [scanUp_stops valid sized lowR (by omega) (by omega) lowX passed stops, ok_bind, down, ok_bind]
    have below : ∀ z, 1 ≤ z → z < x → ¬s.key scb r < s.key scb z := by
      intro z low lt
      by_cases earlier : z < i
      · exact at_ij.below z low earlier
      · exact passed z (by omega) lt
    have above : ∀ z, y < z → z ≤ scb.scbRecords → ¬s.key scb z < s.key scb r := by
      intro z low high
      by_cases later : j < z
      · exact at_ij.above z later high
      · exact skipped z low (by omega)
    have close := at_ij.close
    -- The scan downwards does not go beyond what the last exchange has put in front.
    have back : i ≤ y + 1 := by
      rcases at_ij.front with first | front
      · omega
      · by_contra beyond
        exact skipped (i - 1) (by omega) (by omega) front
    by_cases met : x ≥ y
    · rw [if_pos met]
      refine ⟨y, s, rfl, valid, rfl, lowY, by omega, rfl, Rearranged.refl _ _ _, fun z low le => ?_,
        fun z low high => above z low (by omega), ?_⟩
      swap
      · rw [← values_append (k := y + 1) back (by omega), Partition.behind_done,
          values_append (by omega) (by omega)]
        · intro key mem
          obtain ⟨z, low, high, rfl⟩ := mem_values.mp mem
          by_cases here : z = y
          · rcases stopY with eq | lt
            · omega
            · rw [here]
              exact not_lt.mpr lt.le
          · exact passed z low (by omega)
        · intro key mem
          by_cases some : i < y + 1
          · rw [getLast?_values some] at mem
            obtain rfl := Option.some.inj mem
            rcases stopY with eq | lt
            · omega
            · exact lt
          · rw [values_nil (by omega)] at mem
            cases mem
        · intro key mem
          obtain ⟨z, low, high, rfl⟩ := mem_values.mp mem
          exact skipped z (by omega) (by omega)
      by_cases last : z = x
      · subst last
        obtain rfl : z = y := by omega
        rcases stopY with eq | lt
        · omega
        · exact not_lt.mpr lt.le
      · exact below z low (by omega)
    · rw [if_neg met]
      have inside : x ≤ scb.scbRecords ∧ s.key scb r < s.key scb x := by
        rcases stops with found | ⟨eq, -⟩
        · exact found
        · omega
      have front : s.key scb y < s.key scb r := by
        rcases stopY with eq | lt
        · omega
        · exact lt
      obtain ⟨s', eq, exchanged⟩ := exchange_spec valid (x := x) (y := y) (by omega) (by omega)
        (by omega) (by omega)
      have pivot : s'.key scb r = s.key scb r := exchanged.others r (by omega) (by omega)
      have next : Converging scb s' r (x + 1) (y - 1) stop := by
        refine ⟨exchanged.valid, by omega, by omega, by omega, by omega, fun z low lt => ?_,
          fun z low high => ?_, by omega, .inr ?_⟩
        · rw [pivot]
          by_cases here : z = x
          · rw [here, exchanged.first]
            exact not_lt.mpr front.le
          · rw [exchanged.others z here (by omega)]
            exact below z low (by omega)
        · rw [pivot]
          by_cases here : z = y
          · rw [here, exchanged.second]
            exact not_lt.mpr inside.2.le
          · rw [exchanged.others z (by omega) here]
            exact above z (by omega) high
        · rw [pivot, Nat.add_sub_cancel, exchanged.first]
          exact front
      have behind' : AllOnes (s'.key scb r) →
          ∃ z, z ≤ scb.scbRecords ∧ x + 1 ≤ z ∧ s'.key scb r < s'.key scb z := by
        intro _
        refine ⟨y, by omega, by omega, ?_⟩
        rw [pivot, exchanged.second]
        exact inside.2
      obtain ⟨k, s'', done, valid', records, lowK, highK, pivot', moved, belowK, aboveK, left'⟩ :=
        ih next (by omega) behind'
      rw [eq, ok_bind]
      rw [pivot] at done pivot' belowK aboveK left'
      refine ⟨k, s'', done, valid', records.trans exchanged.records, lowK, highK, pivot', ?_, belowK,
        aboveK, ?_⟩
      swap
      · have split : values (s.key scb) i (j + 1) = values (s.key scb) i x ++ s.key scb x ::
            (values (s.key scb) (x + 1) y ++ s.key scb y :: values (s.key scb) (y + 1) (j + 1)) := by
          rw [← values_append (k := x) lowX (by omega), values_cons (i := x) (by omega),
            ← values_append (i := x + 1) (k := y) (by omega) (by omega), values_cons (i := y) (by omega)]
        have between : values (s'.key scb) (x + 1) y = values (s.key scb) (x + 1) y :=
          values_congr fun z low high => exchanged.others z (by omega) (by omega)
        have after : values (s'.key scb) y (stop + 1) =
            s.key scb x :: values (s.key scb) (y + 1) (stop + 1) := by
          rw [values_cons (by omega), exchanged.second]
          rw [values_congr (g := s.key scb) fun z low high => exchanged.others z (by omega) (by omega)]
        rw [left', show y - 1 + 1 = y by omega, between, after, split, Partition.behind_exchange,
          List.append_assoc, List.cons_append, values_append (by omega) (by omega)]
        · intro key mem
          obtain ⟨z, low, high, rfl⟩ := mem_values.mp mem
          exact passed z low high
        · exact inside.2
        · exact front
        · intro key mem
          obtain ⟨z, low, high, rfl⟩ := mem_values.mp mem
          exact skipped z (by omega) (by omega)
      exact (exchanged.rearranged (by omega) (by omega) (by omega) (by omega)).trans moved

/-- The scan upwards from the middle record would go beyond `high_key`: that record is all ones, and
nothing is behind it. -/
def Unguarded (scb : Scb) (s : SortMemory) (m : Nat) : Prop :=
  AllOnes (s.key scb m) ∧ ∀ x, 1 ≤ x → x ≤ scb.scbRecords → ¬s.key scb m < s.key scb x

/-- The records of an interval are in order with all the others. -/
structure Between (scb : Scb) (s : SortMemory) (r j : Nat) : Prop where
  low : 1 ≤ r
  high : j ≤ scb.scbRecords
  below : ∀ x y, 1 ≤ x → x < r → r ≤ y → y ≤ j → ¬s.key scb y < s.key scb x
  above : ∀ x y, j < x → x ≤ scb.scbRecords → r ≤ y → y ≤ j → ¬s.key scb x < s.key scb y

theorem middle_between {r j : Nat} (wide : r + 2 ≤ j) : r < middle r j ∧ middle r j ≤ j := by
  unfold middle
  omega

theorem converging_start (between : Between scb s r j) {s' : SortMemory} (wide : r + 2 ≤ j)
    (exchanged : Exchanged scb s s' r (middle r j)) : Converging scb s' r (r + 1) j j := by
  obtain ⟨lowM, highM⟩ := middle_between wide
  have low := between.low
  have high := between.high
  refine ⟨exchanged.valid, by omega, by omega, by omega, Nat.le_refl j, fun x lowX lt => ?_,
    fun x gt highX => ?_, by omega, .inl rfl⟩
  · rw [exchanged.first]
    by_cases first : x = r
    · rw [first, exchanged.first]
      exact lt_irrefl _
    · rw [exchanged.others x first (by omega)]
      exact fun lt' => absurd lt' (not_lt.mpr (not_lt.mp
        (between.below x (middle r j) lowX (by omega) (by omega) highM)))
  · rw [exchanged.first, exchanged.others x (by omega) (by omega)]
    exact between.above x (middle r j) gt highX (by omega) highM

theorem partition_outside (valid : s.Valid scb) (sized : scb.Sized) {r j : Nat}
    (between : Between scb s r j) (wide : r + 2 ≤ j) (unguarded : Unguarded scb s (middle r j)) :
    partition scb s r j = .error .outside := by
  obtain ⟨lowM, highM⟩ := middle_between wide
  have low := between.low
  have high := between.high
  obtain ⟨s', eq, exchanged⟩ := exchange_spec valid (x := r) (y := middle r j) (by omega) (by omega)
    (by omega) (by omega)
  have ones : AllOnes (s'.key scb r) := by
    rw [exchanged.first]
    exact unguarded.1
  have nothing : ∀ z, r + 1 ≤ z → z ≤ scb.scbRecords → ¬s'.key scb r < s'.key scb z := by
    intro z lowZ highZ
    rw [exchanged.first]
    by_cases here : z = middle r j
    · rw [here, exchanged.second]
      exact unguarded.2 r low (by omega)
    · rw [exchanged.others z (by omega) here]
      exact unguarded.2 z (by omega) highZ
  unfold partition
  rw [eq, ok_bind, exchanged.valid.first_eq sized low (by omega), ok_bind, converge,
    scanUp_outside exchanged.valid sized low (by omega) ones (by omega) (by omega) nothing]
  rfl

/-- What a partition leaves: the middle record is in `k`, between those that are not behind it and
those that are not in front of it. -/
structure Partitioned (scb : Scb) (s s' : SortMemory) (r k j : Nat) : Prop where
  valid : s'.Valid scb
  records : s'.records = s.records
  low : r ≤ k
  high : k ≤ j
  moved : Rearranged r j (s.key scb) (s'.key scb)
  below : ∀ x, r ≤ x → x < k → s'.key scb x ≤ s'.key scb k
  above : ∀ x, k < x → x ≤ j → s'.key scb k ≤ s'.key scb x
  pivot : s'.key scb k = s.key scb (middle r j)
  behind : values (s'.key scb) (k + 1) (j + 1) = Partition.behind (s.key scb (middle r j))
    ((values (s.key scb) (r + 1) (j + 1)).set ((j - r) / 2 - 1) (s.key scb r))

theorem partition_spec (valid : s.Valid scb) (sized : scb.Sized) {r j : Nat}
    (between : Between scb s r j) (wide : r + 2 ≤ j) (guarded : ¬Unguarded scb s (middle r j)) :
    ∃ k s', partition scb s r j = .ok (k, s') ∧ Partitioned scb s s' r k j := by
  obtain ⟨lowM, highM⟩ := middle_between wide
  have low := between.low
  have high := between.high
  obtain ⟨s1, eq1, exchanged⟩ := exchange_spec valid (x := r) (y := middle r j) (by omega) (by omega)
    (by omega) (by omega)
  have behind : AllOnes (s1.key scb r) →
      ∃ x, x ≤ scb.scbRecords ∧ r + 1 ≤ x ∧ s1.key scb r < s1.key scb x := by
    intro ones
    rw [exchanged.first] at ones ⊢
    unfold Unguarded at guarded
    push Not at guarded
    obtain ⟨x, lowX, highX, lt⟩ := guarded ones
    by_cases first : x = r
    · refine ⟨middle r j, by omega, by omega, ?_⟩
      subst first
      rw [exchanged.second]
      exact lt
    · have ne : x ≠ middle r j := by
        rintro rfl
        exact lt_irrefl _ lt
      refine ⟨x, highX, ?_, by rwa [exchanged.others x first ne]⟩
      by_contra early
      exact between.below x (middle r j) lowX (by omega) (by omega) highM lt
  obtain ⟨k, s2, done, valid2, records2, lowK, highK, pivot, moved, below, above, behind2⟩ :=
    converge_spec sized low high (scb.scbRecords + 1) (converging_start between wide exchanged)
      (by omega) behind
  obtain ⟨s3, eq3, exchanged3⟩ := exchange_spec valid2 (x := r) (y := k) low (by omega) (by omega)
    (by omega)
  have last : s3.key scb k = s1.key scb r := exchanged3.second.trans pivot
  refine ⟨k, s3, ?_, exchanged3.valid, (exchanged3.records.trans records2).trans exchanged.records,
    lowK, highK, ?_, fun x lowX lt => ?_, fun x gt highX => ?_, last.trans exchanged.first, ?_⟩
  · unfold partition
    rw [eq1, ok_bind, exchanged.valid.first_eq sized low (by omega), ok_bind, done, ok_bind, eq3,
      ok_bind]
    rfl
  · exact ((exchanged.rearranged (by omega) (by omega) (by omega) (by omega)).trans
      (moved.widen (by omega))).trans (exchanged3.rearranged (by omega) (by omega) lowK highK)
  · rw [last]
    by_cases first : x = r
    · rw [first, exchanged3.first]
      exact not_lt.mp (below k (by omega) (Nat.le_refl k))
    · rw [exchanged3.others x first (by omega)]
      exact not_lt.mp (below x (by omega) (by omega))
  · rw [last, exchanged3.others x (by omega) (by omega)]
    exact not_lt.mp (above x gt highX)
  · have start : (values (s.key scb) (r + 1) (j + 1)).set ((j - r) / 2 - 1) (s.key scb r) =
        values (s1.key scb) (r + 1) (j + 1) := by
      rw [← exchanged.second, show (j - r) / 2 - 1 = middle r j - (r + 1) by unfold middle; omega]
      exact values_set (by omega) (by omega)
        fun x low' _ ne => exchanged.others x (by omega) ne
    rw [values_congr fun x low' _ => exchanged3.others x (by omega) (by omega), behind2,
      values_nil (Nat.le_refl _), List.append_nil, start, exchanged.first]

end

end InterBase
