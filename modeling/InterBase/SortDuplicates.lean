import InterBase.SortPass

namespace InterBase

open Intervals KeyOrder

section

variable {scb : Scb} {s : SortMemory}

/-- The key of a slot is the one of the next slot. -/
def Repeats (scb : Scb) (s : SortMemory) (x : Nat) : Prop :=
  (s.key scb x).take (scbKeyLength scb.scbDescription) =
    (s.key scb (x + 1)).take (scbKeyLength scb.scbDescription)

/-- What the callback for duplicates relies on: there is a key, within the record, and `diddle_key`
restores what it undid. -/
structure Deduplicable (scb : Scb) (s : SortMemory) : Prop where
  some : 1 ≤ scbKeyLength scb.scbDescription
  within : scbKeyLength scb.scbDescription ≤ scb.scbLongs - 1
  restores : ∀ id, 1 ≤ id → id ≤ scb.scbRecords →
    diddleKey scb.order scb.scbDescription false true
      (diddleKey scb.order scb.scbDescription false false (s.records id)) = s.records id

/-- How many words of two neighbours agree, as far as the elimination of duplicates asks. -/
theorem compareWords_next (valid : s.Valid scb) (h : Deduplicable scb s)
    (fits : ¬Overlong scb s) {x : Nat} (low : 1 ≤ x) (high : x ≤ scb.scbRecords) :
    ∃ p q c, s.pointer x = .ok p ∧ s.pointer (x + 1) = .ok q ∧
      compareWords (scb.scbLongs - 1) (s.words scb p) (s.words scb q) = .ok c ∧
      (scbKeyLength scb.scbDescription ≤ c.1 ↔ Repeats scb s x) := by
  obtain ⟨p, lowP, highP, pointerP, wordsP, lengthP, longP⟩ := valid.key_eq low high
  have within := h.within
  have agree : scbKeyLength scb.scbDescription ≤ common (s.key scb x) (s.key scb (x + 1)) ↔
      Repeats scb s x := by
    refine ⟨fun le => ?_, fun same => le_common (by omega) same⟩
    have whole := take_common (s.key scb x) (s.key scb (x + 1))
    have := congrArg (List.take (scbKeyLength scb.scbDescription)) whole
    rw [List.take_take, List.take_take, Nat.min_eq_left le] at this
    exact this
  by_cases last : x = scb.scbRecords
  · have key_high : s.key scb (scb.scbRecords + 1) = List.replicate 64 4294967295 :=
      (SortMemory.key_some valid.high).trans valid.key_high.2
    refine ⟨p, scb.scbRecords + 1, ?_⟩
    rw [wordsP, valid.key_high.2, compareWords_low lengthP longP]
    by_cases ones : ∀ word ∈ (s.key scb x).take 64, word = 4294967295
    · have short : scb.scbLongs - 1 ≤ 64 := by
        by_contra long
        exact fits ⟨by omega, p, lowP, highP, wordsP ▸ ones⟩
      refine ⟨(scb.scbLongs - 1, .eq), pointerP, last ▸ valid.key_high.1, ?_, ?_⟩
      · rw [if_pos ones, if_pos short]
      · refine ⟨fun _ => ?_, fun _ => within⟩
        have all : s.key scb x = List.replicate (scb.scbLongs - 1) 4294967295 := by
          rw [List.take_of_length_le (by omega)] at ones
          exact List.eq_replicate_iff.mpr ⟨lengthP, ones⟩
        unfold Repeats
        rw [all, last, key_high, List.take_replicate, List.take_replicate,
          Nat.min_eq_left within, Nat.min_eq_left (by omega)]
    · rw [last, key_high, ← last, common_comm] at agree
      exact ⟨(common (List.replicate 64 4294967295) (s.key scb x), .lt), pointerP,
        last ▸ valid.key_high.1, if_neg ones, agree⟩
  · obtain ⟨q, -, -, pointerQ, wordsQ, lengthQ, -⟩ := valid.key_eq (i := x + 1) (by omega) (by omega)
    refine ⟨p, q, (common (s.key scb x) (s.key scb (x + 1)), cmp (s.key scb x) (s.key scb (x + 1))),
      pointerP, pointerQ, ?_, agree⟩
    rw [wordsP, wordsQ, compareWords_eq lengthP lengthQ]

/-- The elimination of duplicates has come to slot `i`: of what lies before, only what its next slot
repeats is gone. -/
structure Dropping (scb : Scb) (s s' : SortMemory) (i : Nat) : Prop where
  dropped : ∀ x, 1 ≤ x → x < i → Repeats scb s x → s'.pointers x = none
  pointers : ∀ x, x = 0 ∨ i ≤ x ∨ ¬Repeats scb s x → s'.pointers x = s.pointers x
  kept : ∀ x id, 1 ≤ x → x ≤ scb.scbRecords → i ≤ x ∨ ¬Repeats scb s x →
    s.pointers x = some id → s'.records id = s.records id ∧ s'.bckptr id = s.bckptr id
  low : s'.records 0 = s.records 0
  high : (1 ≤ scb.scbRecords → i ≤ scb.scbRecords ∨ ¬Repeats scb s scb.scbRecords) →
    s'.records (scb.scbRecords + 1) = s.records (scb.scbRecords + 1)

theorem pointer_eq {id : Nat} (h : s.pointer id = .ok x) : s.pointers id = some x := by
  unfold SortMemory.pointer at h
  cases points : s.pointers id with
  | none =>
    rw [points] at h
    cases h
  | some y =>
    rw [points] at h
    rw [Except.ok.inj h]

/-- A slot that does not repeat is passed. -/
theorem Dropping.pass {s' : SortMemory} {i : Nat} (h : Dropping scb s s' i)
    (unique : ¬Repeats scb s i) : Dropping scb s s' (i + 1) := by
  have weaken : ∀ x, i + 1 ≤ x ∨ ¬Repeats scb s x → i ≤ x ∨ ¬Repeats scb s x := by
    intro x reason
    exact reason.imp_left fun le => by omega
  refine ⟨fun x low lt again => ?_, fun x reason => ?_, fun x id low high reason => ?_, h.low,
    fun reason => h.high fun some => weaken _ (reason some)⟩
  · by_cases here : x = i
    · rw [here] at again
      exact absurd again unique
    · exact h.dropped x low (by omega) again
  · exact h.pointers x (reason.imp_right (weaken x))
  · exact h.kept x id low high (weaken x reason)

/-- A slot that repeats is dropped. -/
theorem Dropping.drop {s' : SortMemory} {i p q : Nat} (h : Dropping scb s s' i)
    (valid : s.Valid scb) (restores : Deduplicable scb s) (low : 1 ≤ i) (high : i ≤ scb.scbRecords)
    (pointsP : s.pointers i = some p) (pointsQ : s.pointers (i + 1) = some q)
    (again : Repeats scb s i) : Dropping scb s (s'.drop scb i p q) (i + 1) := by
  obtain ⟨p', lowP, highP, points, -⟩ := valid.points i low high
  obtain rfl : p' = p := by
    rw [pointsP] at points
    exact (Option.some.inj points).symm
  have other : ∀ id, id ≠ p' → id ≠ q → (s'.drop scb i p' q).records id = s'.records id := by
    intro id neP neQ
    unfold SortMemory.drop SortMemory.diddle
    simp only
    rw [Function.update_of_ne neQ, Function.update_of_ne neQ, Function.update_of_ne neP]
  have lowQ : q ≠ 0 ∧ q ≠ p' := by
    by_cases last : i = scb.scbRecords
    · rw [last, valid.high] at pointsQ
      have := Option.some.inj pointsQ
      omega
    · obtain ⟨q', lowQ, highQ, points, -⟩ := valid.points (i + 1) (by omega) (by omega)
      rw [pointsQ] at points
      have := Option.some.inj points
      refine ⟨by omega, fun same => ?_⟩
      rw [same] at pointsQ
      have := valid.inj low high (by omega) (by omega) pointsP pointsQ
      omega
  refine ⟨fun x lowX lt againX => ?_, fun x reason => ?_, fun x id lowX highX reason points => ?_,
    ?_, fun reason => ?_⟩
  · by_cases here : x = i
    · rw [here]
      exact Function.update_self _ _ _
    · exact (Function.update_of_ne here _ _).trans (h.dropped x lowX (by omega) againX)
  · have ne : x ≠ i := by
      rintro rfl
      rcases reason with zero | le | unique
      · omega
      · omega
      · exact unique again
    exact (Function.update_of_ne ne _ _).trans
      (h.pointers x (reason.imp_right fun r => r.imp_left fun le => by omega))
  · have ne : x ≠ i := by
      rintro rfl
      rcases reason with le | unique
      · omega
      · exact unique again
    have neP : id ≠ p' := by
      intro same
      rw [same] at points
      exact ne (valid.inj lowX highX low high points pointsP)
    obtain ⟨records, back⟩ :=
      h.kept x id lowX highX (reason.imp_left fun le => by omega) points
    refine ⟨?_, (Function.update_of_ne neP _ _).trans back⟩
    by_cases here : id = q
    · have restored : (s'.drop scb i p' q).records q = diddleKey scb.order scb.scbDescription false
          true (diddleKey scb.order scb.scbDescription false false (s'.records q)) := by
        unfold SortMemory.drop SortMemory.diddle
        simp only
        rw [Function.update_self, Function.update_self, Function.update_of_ne lowQ.2]
      obtain ⟨id', lowId, highId, points', -⟩ := valid.points x lowX highX
      rw [points] at points'
      have := Option.some.inj points'
      rw [here] at records ⊢
      rw [restored, records]
      exact restores.restores q (by omega) (by omega)
    · rw [other id neP here, records]
  · rw [other 0 (by omega) (Ne.symm lowQ.1)]
    exact h.low
  · have notLast : i ≠ scb.scbRecords := by
      rintro rfl
      rcases reason low with le | unique
      · omega
      · exact unique again
    obtain ⟨q', -, highQ, points, -⟩ := valid.points (i + 1) (by omega) (by omega)
    rw [pointsQ] at points
    have := Option.some.inj points
    rw [other _ (by omega) (by omega)]
    exact h.high fun _ => .inl high

theorem headD_of_take {p q : List Nat} {k : Nat} (some : 1 ≤ k) (same : p.take k = q.take k) :
    p.headD 0 = q.headD 0 := by
  obtain ⟨k, rfl⟩ : ∃ j, k = j + 1 := ⟨k - 1, by omega⟩
  cases p with
  | nil =>
    cases q with
    | nil => rfl
    | cons y q => cases same
  | cons x p =>
    cases q with
    | nil => cases same
    | cons y q => exact (List.cons.inj same).1

theorem SortMemory.first_congr {s' : SortMemory} {x id : Nat} (points : s.pointers x = some id)
    (pointers : s'.pointers x = s.pointers x) (records : s'.records id = s.records id) :
    s'.first scb x = s.first scb x := by
  unfold SortMemory.first SortMemory.pointer SortMemory.words
  rw [pointers, points]
  simp only [ok_bind]
  rw [records]

theorem dropDuplicates_spec (valid : s.Valid scb) (sized : scb.Sized) (h : Deduplicable scb s)
    (fits : ¬Overlong scb s) (left : Nat) {i : Nat} {s1 : SortMemory} (low : 1 ≤ i)
    (rest : i + left = scb.scbRecords + 1) (at_i : Dropping scb s s1 i) :
    ∃ s', dropDuplicates scb left i s1 = .ok s' ∧ Dropping scb s s' (scb.scbRecords + 1) := by
  induction left generalizing i s1 with
  | zero =>
    obtain rfl : i = scb.scbRecords + 1 := by omega
    exact ⟨s1, by rw [dropDuplicates], at_i⟩
  | succ left ih =>
    obtain ⟨p, q, c, pointerP, pointerQ, compared, agree⟩ :=
      compareWords_next valid h fits low (show i ≤ scb.scbRecords by omega)
    have pointsP := pointer_eq pointerP
    have pointsQ := pointer_eq pointerQ
    have sameP := at_i.pointers i (.inr (.inl (Nat.le_refl i)))
    have sameQ := at_i.pointers (i + 1) (.inr (.inl (by omega)))
    have wordsP : s1.records p = s.records p :=
      (at_i.kept i p low (by omega) (.inl (Nat.le_refl i)) pointsP).1
    have wordsQ : s1.records q = s.records q := by
      by_cases last : i = scb.scbRecords
      · have : q = scb.scbRecords + 1 := by
          rw [last, valid.high] at pointsQ
          exact (Option.some.inj pointsQ).symm
        rw [this]
        exact at_i.high fun _ => .inl (by omega)
      · exact (at_i.kept (i + 1) q (by omega) (by omega) (.inl (by omega)) pointsQ).1
    have pointer1P : s1.pointer i = .ok p := by
      unfold SortMemory.pointer
      rw [sameP, pointsP]
    have pointer1Q : s1.pointer (i + 1) = .ok q := by
      unfold SortMemory.pointer
      rw [sameQ, pointsQ]
    have compared1 : compareWords (scb.scbLongs - 1) (s1.words scb p) (s1.words scb q) = .ok c := by
      unfold SortMemory.words
      rw [wordsP, wordsQ]
      exact compared
    rw [dropDuplicates, SortMemory.first_congr pointsP sameP wordsP,
      SortMemory.first_congr pointsQ sameQ wordsQ, valid.first_eq sized low (by omega), ok_bind,
      valid.first_eq sized (by omega) (by omega), ok_bind]
    by_cases differ : (s.key scb i).headD 0 ≠ (s.key scb (i + 1)).headD 0
    · have unique : ¬Repeats scb s i := fun again => differ (headD_of_take h.some again)
      rw [if_pos differ]
      exact ih (by omega) (by omega) (at_i.pass unique)
    · rw [if_neg differ, pointer1P, ok_bind, pointer1Q, ok_bind, compared1, ok_bind]
      by_cases again : Repeats scb s i
      · rw [if_pos (agree.mpr again)]
        exact ih (by omega) (by omega)
          (at_i.drop valid h low (by omega) pointsP pointsQ again)
      · rw [if_neg fun le => again (agree.mp le)]
        exact ih (by omega) (by omega) (at_i.pass again)

theorem dropping_start (s : SortMemory) : Dropping scb s s 1 :=
  ⟨fun x low lt => by omega, fun _ _ => rfl, fun _ _ _ _ _ _ => ⟨rfl, rfl⟩, rfl, fun _ => rfl⟩

/-- What sorting promises of the pointers, the records and the guards. -/
structure Sorted (scb : Scb) (s s' : SortMemory) : Prop where
  low : s'.pointers 0 = some 0 ∧ s'.records 0 = s.records 0
  high : s'.pointers (scb.scbRecords + 1) = some (scb.scbRecords + 1) ∧
    s'.records (scb.scbRecords + 1) = s.records (scb.scbRecords + 1)
  beyond : ∀ i, scb.scbRecords + 1 < i → s'.pointers i = none
  back : ∀ x id, 1 ≤ x → x ≤ scb.scbRecords → s'.pointers x = some id →
    1 ≤ id ∧ id ≤ scb.scbRecords ∧ s'.bckptr id = some x ∧ s'.records id = s.records id
  ordered : ∀ x y p q, 1 ≤ x → x < y → y ≤ scb.scbRecords → s'.pointers x = some p →
    s'.pointers y = some q → s.words scb p ≤ s.words scb q

/-- The pointers are those there were. -/
def Permuted (scb : Scb) (s s' : SortMemory) : Prop :=
  ((List.range' 1 scb.scbRecords).map s'.pointers).Perm
    ((List.range' 1 scb.scbRecords).map s.pointers)

/-- Of the records with one key, one is left. -/
def OnePerKey (scb : Scb) (s s' : SortMemory) : Prop :=
  ∀ id, 1 ≤ id → id ≤ scb.scbRecords →
    ∃! x, (1 ≤ x ∧ x ≤ scb.scbRecords) ∧ ∃ p, s'.pointers x = some p ∧
      (s.words scb p).take (scbKeyLength scb.scbDescription) =
        (s.words scb id).take (scbKeyLength scb.scbDescription)

def SortsRight (scb : Scb) (s : SortMemory) : Prop :=
  ∃ s', sort scb s = .ok s' ∧ Sorted scb s s' ∧ (scb.scbDupCallback = false → Permuted scb s s') ∧
    (scb.scbDupCallback = true → OnePerKey scb s s')

/-- Some record's key is all ones. -/
def KeyOnes (scb : Scb) (s : SortMemory) : Prop :=
  ∃ id, 1 ≤ id ∧ id ≤ scb.scbRecords ∧
    ∀ word ∈ (s.words scb id).take (scbKeyLength scb.scbDescription), word = 4294967295

theorem take_lt {p q : List Nat} (k : Nat) (lt : p.take k < q.take k) : p < q := by
  induction k generalizing p q with
  | zero => exact absurd lt (lt_irrefl _)
  | succ k ih =>
    cases p with
    | nil =>
      cases q with
      | nil => exact lt
      | cons y q => exact List.nil_lt_cons y q
    | cons x p =>
      cases q with
      | nil => cases lt
      | cons y q =>
        rw [List.take_succ_cons, List.take_succ_cons] at lt
        rcases List.cons_lt_cons_iff.mp lt with first | ⟨same, later⟩
        · exact List.cons_lt_cons_iff.mpr (.inl first)
        · exact List.cons_lt_cons_iff.mpr (.inr ⟨same, ih later⟩)

/-- Between two slots with one key, all have that key. -/
theorem InOrder.between {s' : SortMemory} (h : InOrder scb s s') {k x y : Nat} (low : 1 ≤ x)
    (lt : x < y) (high : y ≤ scb.scbRecords)
    (same : (s'.key scb x).take k = (s'.key scb y).take k) :
    (s'.key scb x).take k = (s'.key scb (x + 1)).take k := by
  have up : ∀ x y, 1 ≤ x → x ≤ y → y ≤ scb.scbRecords →
      ¬(s'.key scb y).take k < (s'.key scb x).take k := by
    intro x y low le high lt
    rcases Nat.lt_or_eq_of_le le with before | rfl
    · exact absurd (take_lt k lt) (not_lt.mpr (h.ordered x y low before high))
    · exact lt_irrefl _ lt
  apply le_antisymm
  · exact not_lt.mp (up x (x + 1) low (by omega) (by omega))
  · rw [same]
    exact not_lt.mp (up (x + 1) y (by omega) (by omega) high)

theorem SortMemory.Valid.nodup (valid : s.Valid scb) :
    ((List.range' 1 scb.scbRecords).map s.pointers).Nodup := by
  apply List.Nodup.map_on _ List.nodup_range'
  intro x memX y memY same
  obtain ⟨lowX, highX⟩ := List.mem_range'_1.mp memX
  obtain ⟨lowY, highY⟩ := List.mem_range'_1.mp memY
  obtain ⟨id, -, -, points, -⟩ := valid.points x lowX (by omega)
  exact valid.inj lowX (by omega) lowY (by omega) points (same ▸ points)

theorem SortMemory.Valid.mem_pointers (valid : s.Valid scb) (a : Option Nat) :
    a ∈ (List.range' 1 scb.scbRecords).map s.pointers ↔
      ∃ id, 1 ≤ id ∧ id ≤ scb.scbRecords ∧ a = some id := by
  refine ⟨fun mem => ?_, fun ⟨id, low, high, eq⟩ => ?_⟩
  · obtain ⟨x, memX, rfl⟩ := List.mem_map.mp mem
    obtain ⟨low, high⟩ := List.mem_range'_1.mp memX
    obtain ⟨id, lowId, highId, points, -⟩ := valid.points x low (by omega)
    exact ⟨id, lowId, highId, points⟩
  · obtain ⟨x, lowX, highX, points⟩ := valid.surj low high
    exact List.mem_map.mpr ⟨x, List.mem_range'_1.mpr ⟨lowX, by omega⟩, eq ▸ points⟩

theorem InOrder.permuted {s' : SortMemory} (h : InOrder scb s s') (valid : s.Valid scb) :
    Permuted scb s s' := by
  apply (List.perm_ext_iff_of_nodup h.valid.nodup valid.nodup).mpr
  intro a
  rw [h.valid.mem_pointers, valid.mem_pointers]

theorem InOrder.sorted {s' : SortMemory} (h : InOrder scb s s') : Sorted scb s s' := by
  refine ⟨⟨h.valid.low, by rw [h.records]⟩, ⟨h.valid.high, by rw [h.records]⟩, h.valid.beyond,
    fun x id low high points => ?_, fun x y p q low lt high pointsP pointsQ => ?_⟩
  · obtain ⟨id', lowId, highId, points', back⟩ := h.valid.points x low high
    rw [points] at points'
    obtain rfl := Option.some.inj points'
    exact ⟨lowId, highId, back, by rw [h.records]⟩
  · have := h.ordered x y low lt high
    rw [SortMemory.key_some pointsP, SortMemory.key_some pointsQ, words_congr h.records,
      words_congr h.records] at this
    exact this

/-- The last slot repeats `high_key` if and only if some key is all ones. -/
theorem repeats_last_iff {s' : SortMemory} (h : InOrder scb s s') (dedup : Deduplicable scb s')
    (fits : ¬Overlong scb s') (some : 1 ≤ scb.scbRecords) :
    Repeats scb s' scb.scbRecords ↔ KeyOnes scb s' := by
  obtain ⟨last, lowL, highL, -, wordsL, lengthL, longL⟩ :=
    h.valid.key_eq (i := scb.scbRecords) some (Nat.le_refl _)
  have within := dedup.within
  unfold Repeats
  rw [(SortMemory.key_some h.valid.high).trans h.valid.key_high.2]
  refine ⟨fun again => ⟨last, lowL, highL, fun word mem => ?_⟩,
    fun ⟨id, low, high, ones⟩ => ?_⟩
  · rw [wordsL, again] at mem
    exact List.eq_of_mem_replicate (List.mem_of_mem_take mem)
  · obtain ⟨x, lowX, highX, points⟩ := h.valid.surj low high
    rw [← SortMemory.key_some points] at ones
    obtain ⟨-, -, -, -, -, lengthX, -⟩ := h.valid.key_eq lowX highX
    have onesL := ones_mono ones (not_lt.mpr (ordered_last h.ordered lowX highX))
      (lengthX.trans lengthL.symm) longL
    have short : scbKeyLength scb.scbDescription ≤ 64 := by
      by_contra deep
      refine fits ⟨by omega, last, lowL, highL, fun word mem => onesL word ?_⟩
      rw [wordsL] at mem
      exact (List.take_sublist_take_left (by omega)).subset mem
    rw [List.take_replicate, Nat.min_eq_left short]
    exact List.eq_replicate_iff.mpr ⟨by rw [List.length_take]; omega, onesL⟩

/-- From a slot on, one is left with the same key. -/
theorem exists_left {s' : SortMemory} (last : 1 ≤ scb.scbRecords → ¬Repeats scb s' scb.scbRecords)
    {x : Nat} (low : 1 ≤ x) (high : x ≤ scb.scbRecords) :
    ∃ y, 1 ≤ y ∧ y ≤ scb.scbRecords ∧ ¬Repeats scb s' y ∧
      (s'.key scb y).take (scbKeyLength scb.scbDescription) =
        (s'.key scb x).take (scbKeyLength scb.scbDescription) := by
  induction fuel : scb.scbRecords - x generalizing x with
  | zero =>
    obtain rfl : x = scb.scbRecords := by omega
    exact ⟨_, low, high, last low, rfl⟩
  | succ left ih =>
    by_cases again : Repeats scb s' x
    · obtain ⟨y, lowY, highY, unique, same⟩ := ih (x := x + 1) (by omega) (by omega) (by omega)
      exact ⟨y, lowY, highY, unique, same.trans again.symm⟩
    · exact ⟨x, low, high, again, rfl⟩

/-- What is left was left by the sort, and does not repeat. -/
theorem Dropping.left {s1 s' : SortMemory} (h : Dropping scb s1 s' (scb.scbRecords + 1)) {x id : Nat}
    (low : 1 ≤ x) (high : x ≤ scb.scbRecords) (points : s'.pointers x = some id) :
    s1.pointers x = some id ∧ ¬Repeats scb s1 x := by
  have unique : ¬Repeats scb s1 x := by
    intro again
    rw [h.dropped x low (by omega) again] at points
    cases points
  exact ⟨(h.pointers x (.inr (.inr unique))).symm.trans points, unique⟩

/-- What is left after the elimination of duplicates is sorted. -/
theorem Dropping.sorted {s1 s' : SortMemory} (h : Dropping scb s1 s' (scb.scbRecords + 1))
    (inOrder : InOrder scb s s1) (last : 1 ≤ scb.scbRecords → ¬Repeats scb s1 scb.scbRecords) :
    Sorted scb s s' := by
  have before := inOrder.sorted
  refine ⟨⟨?_, ?_⟩, ⟨?_, ?_⟩, fun i beyond => ?_, fun x id low high points => ?_,
    fun x y p q low lt high pointsP pointsQ => ?_⟩
  · exact (h.pointers 0 (.inl rfl)).trans before.low.1
  · exact h.low.trans before.low.2
  · exact (h.pointers _ (.inr (.inl (Nat.le_refl _)))).trans before.high.1
  · exact (h.high fun some => .inr (last some)).trans before.high.2
  · exact (h.pointers i (.inr (.inl (by omega)))).trans (before.beyond i beyond)
  · obtain ⟨points1, unique⟩ := h.left low high points
    obtain ⟨lowId, highId, back, records⟩ := before.back x id low high points1
    obtain ⟨records', back'⟩ := h.kept x id low high (.inr unique) points1
    exact ⟨lowId, highId, back'.trans back, records'.trans records⟩
  · exact before.ordered x y p q low lt high (h.left low (by omega) pointsP).1
      (h.left (by omega) high pointsQ).1

theorem Dropping.onePerKey {s1 s' : SortMemory} (h : Dropping scb s1 s' (scb.scbRecords + 1))
    (inOrder : InOrder scb s s1) (last : 1 ≤ scb.scbRecords → ¬Repeats scb s1 scb.scbRecords) :
    OnePerKey scb s s' := by
  intro id low high
  obtain ⟨x, lowX, highX, points⟩ := inOrder.valid.surj low high
  obtain ⟨y, lowY, highY, unique, same⟩ := exists_left last lowX highX
  obtain ⟨p, -, -, pointsY, -⟩ := inOrder.valid.points y lowY highY
  rw [SortMemory.key_some pointsY, SortMemory.key_some points, words_congr inOrder.records,
    words_congr inOrder.records] at same
  refine ⟨y, ⟨⟨lowY, highY⟩, p, (h.pointers y (.inr (.inr unique))).trans pointsY, same⟩, ?_⟩
  -- Of two slots with the same key, the first one would have been dropped.
  have alone : ∀ z z' q q', 1 ≤ z → z < z' → z' ≤ scb.scbRecords → s'.pointers z = some q →
      s'.pointers z' = some q' → (s.words scb q).take (scbKeyLength scb.scbDescription) =
        (s.words scb q').take (scbKeyLength scb.scbDescription) → False := by
    intro z z' q q' lowZ lt highZ pointsZ pointsZ' agree
    obtain ⟨points1, single⟩ := h.left lowZ (by omega) pointsZ
    obtain ⟨points1', -⟩ := h.left (by omega) highZ pointsZ'
    apply single
    apply inOrder.between lowZ lt highZ
    rw [SortMemory.key_some points1, SortMemory.key_some points1', words_congr inOrder.records,
      words_congr inOrder.records]
    exact agree
  intro z holds
  obtain ⟨⟨lowZ, highZ⟩, q, pointsZ, agree⟩ := holds
  have pointsY' := (h.pointers y (.inr (.inr unique))).trans pointsY
  rcases lt_trichotomy z y with lt | eq | gt
  · exact (alone z y q p lowZ lt highY pointsZ pointsY' (agree.trans same.symm)).elim
  · exact eq
  · exact (alone y z p q lowY gt highZ pointsY' pointsZ (same.trans agree.symm)).elim

/-- If the last slot is dropped as well, nothing is left of its key. -/
theorem Dropping.lost {s1 s' : SortMemory} (h : Dropping scb s1 s' (scb.scbRecords + 1))
    (inOrder : InOrder scb s s1) (some : 1 ≤ scb.scbRecords)
    (last : Repeats scb s1 scb.scbRecords) : ¬OnePerKey scb s s' := by
  intro one
  obtain ⟨id, low, high, points, -⟩ := inOrder.valid.points scb.scbRecords some (Nat.le_refl _)
  obtain ⟨x, ⟨⟨lowX, highX⟩, p, pointsX, same⟩, -⟩ := one id low high
  obtain ⟨points1, single⟩ := h.left lowX highX pointsX
  rcases Nat.lt_or_eq_of_le highX with lt | rfl
  · apply single
    apply inOrder.between lowX lt (Nat.le_refl _)
    rw [SortMemory.key_some points1, SortMemory.key_some points, words_congr inOrder.records,
      words_congr inOrder.records]
    exact same
  · exact single last

end

end InterBase
