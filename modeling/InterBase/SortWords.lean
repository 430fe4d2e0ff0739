import InterBase.Library.KeyOrder
import InterBase.Library.LexCompare
import InterBase.Sort

namespace InterBase

open Memory BigEndian KeyOrder

/-- The words of a record are all ones, as far as those of `high_key` go. -/
def AllOnes (words : List Nat) : Prop := ∀ word ∈ words.take 64, word = 4294967295

instance (words : List Nat) : Decidable (AllOnes words) :=
  inferInstanceAs (Decidable (∀ word ∈ words.take 64, _))

def Longwords (words : List Nat) : Prop := ∀ word ∈ words, word ≤ 4294967295

/-- Of two records with enough words, all the words are compared. -/
theorem compareWords_eq {n : Nat} {p q : List Nat} (hp : p.length = n) (hq : q.length = n) :
    compareWords n p q = .ok (common p q, cmp p q) := by
  induction n generalizing p q with
  | zero =>
    rw [List.length_eq_zero_iff.mp hp, List.length_eq_zero_iff.mp hq]
    rfl
  | succ n ih =>
    obtain ⟨x, p, rfl⟩ := List.exists_cons_of_length_eq_add_one hp
    obtain ⟨y, q, rfl⟩ := List.exists_cons_of_length_eq_add_one hq
    have rest := ih (p := p) (q := q) (by simpa using hp) (by simpa using hq)
    unfold compareWords
    rw [rest, common_cons, cmp_cons]
    by_cases same : x = y
    · rw [if_pos same, if_pos same, same, cmp_self_eq_eq]
      rfl
    · rw [if_neg same, if_neg same]
      rcases Nat.lt_or_gt_of_ne same with lt | gt
      · rw [(cmp_eq_lt_iff x y).mpr lt]
        rfl
      · rw [(cmp_eq_gt_iff x y).mpr gt]
        rfl

theorem cmp_words_gt {p q : List Nat} : cmp p q = .gt ↔ q < p := by
  unfold cmp cmpUsing
  rcases lt_trichotomy p q with lt | rfl | gt
  · simp [lt, lt.not_gt]
  · simp
  · simp [gt, gt.not_gt]

theorem cmp_words_lt {p q : List Nat} : cmp p q = .lt ↔ p < q := by
  unfold cmp cmpUsing
  rcases lt_trichotomy p q with lt | rfl | gt
  · simp [lt]
  · simp
  · simp [gt, gt.not_gt]

/-- Against `high_key`, or what is left of it: the comparison decides unless all is ones. -/
theorem compareWords_high {n m : Nat} {q : List Nat} (hq : q.length = n) (long : Longwords q) :
    compareWords n (List.replicate m 4294967295) q =
      if ∀ word ∈ q.take m, word = 4294967295 then
        if n ≤ m then .ok (n, .eq) else .error .outside
      else .ok (common (List.replicate m 4294967295) q, .gt) := by
  induction n generalizing m q with
  | zero =>
    rw [List.length_eq_zero_iff.mp hq]
    simp [compareWords]
  | succ n ih =>
    obtain ⟨y, q, rfl⟩ := List.exists_cons_of_length_eq_add_one hq
    cases m with
    | zero => simp [compareWords]
    | succ m =>
      have bound := long y (by simp)
      rw [List.replicate_succ, compareWords, common_cons,
        ih (q := q) (m := m) (by simpa using hq) fun word mem => long word (by simp [mem])]
      by_cases ones : y = 4294967295
      · rw [if_pos ones.symm, if_pos ones.symm]
        simp only [List.take_succ_cons, List.mem_cons, forall_eq_or_imp, ones, true_and,
          Nat.add_le_add_iff_right]
        by_cases rest : ∀ word ∈ q.take m, word = 4294967295
        · rw [if_pos rest, if_pos rest]
          by_cases fits : n ≤ m
          · rw [if_pos fits, if_pos fits]
          · rw [if_neg fits, if_neg fits]
        · rw [if_neg rest, if_neg rest]
      · have gt : cmp 4294967295 y = .gt := (cmp_eq_gt_iff _ _).mpr (by omega)
        rw [if_neg (Ne.symm ones), if_neg (Ne.symm ones), gt, if_neg]
        intro all
        exact ones (all y (by simp))

theorem compareWords_swap (n : Nat) (p q : List Nat) :
    compareWords n q p = (compareWords n p q).map fun c => (c.1, c.2.swap) := by
  induction n generalizing p q with
  | zero => rfl
  | succ n ih =>
    cases p with
    | nil => cases q <;> rfl
    | cons x p =>
      cases q with
      | nil => rfl
      | cons y q =>
        unfold compareWords
        rw [ih p q]
        by_cases same : x = y
        · rw [if_pos same, if_pos same.symm]
          cases compareWords n p q <;> rfl
        · rw [if_neg same, if_neg (Ne.symm same), ← cmp_swap x y]
          rfl

theorem compareWords_low {n m : Nat} {p : List Nat} (hp : p.length = n) (long : Longwords p) :
    compareWords n p (List.replicate m 4294967295) =
      if ∀ word ∈ p.take m, word = 4294967295 then
        if n ≤ m then .ok (n, .eq) else .error .outside
      else .ok (common (List.replicate m 4294967295) p, .lt) := by
  rw [compareWords_swap, compareWords_high hp long]
  by_cases ones : ∀ word ∈ p.take m, word = 4294967295
  · rw [if_pos ones, if_pos ones]
    by_cases fits : n ≤ m
    · rw [if_pos fits]
      rfl
    · rw [if_neg fits]
      rfl
  · rw [if_neg ones, if_neg ones]
    rfl

/-- What sorts after words that begin with ones begins with ones. -/
theorem ones_mono {m : Nat} {p q : List Nat} (ones : ∀ word ∈ p.take m, word = 4294967295)
    (le : ¬q < p) (length : p.length = q.length) (long : Longwords q) :
    ∀ word ∈ q.take m, word = 4294967295 := by
  induction m generalizing p q with
  | zero =>
    intro word mem
    cases mem
  | succ m ih =>
    intro word mem
    cases p with
    | nil =>
      rw [List.eq_nil_of_length_eq_zero length.symm] at mem
      cases mem
    | cons x p =>
      cases q with
      | nil => cases length
      | cons y q =>
        have first : x = 4294967295 := ones x (by simp)
        have bound := long y (by simp)
        rw [List.cons_lt_cons_iff] at le
        push Not at le
        have same : y = x := by omega
        rcases List.mem_cons.mp mem with rfl | mem
        · omega
        · exact ih (fun w h => ones w (by simp [h])) (not_lt.mpr (le.2 same))
            (by simpa using length) (fun w h => long w (by simp [h])) word mem

theorem AllOnes.mono {p q : List Nat} (h : AllOnes p) (le : ¬q < p) (length : p.length = q.length)
    (long : Longwords q) : AllOnes q :=
  ones_mono h le length long

section

variable (scb : Scb)

/-- The key that a slot points to. -/
def SortMemory.key (s : SortMemory) (slot : Nat) : List Nat :=
  (s.pointers slot).elim [] (s.words scb)

/-- The guards are in place, and every slot between them holds a record that points back to it. -/
structure SortMemory.Valid (s : SortMemory) : Prop where
  low : s.pointers 0 = some 0
  high : s.pointers (scb.scbRecords + 1) = some (scb.scbRecords + 1)
  beyond : ∀ i, scb.scbRecords + 1 < i → s.pointers i = none
  points : ∀ i, 1 ≤ i → i ≤ scb.scbRecords → ∃ id, 1 ≤ id ∧ id ≤ scb.scbRecords ∧
    s.pointers i = some id ∧ s.bckptr id = some i
  ones : s.records (scb.scbRecords + 1) = fun _ => 255

variable {scb} {s : SortMemory}

theorem longword_le (order : ByteOrder) (record : Nat → UInt8) (k : Nat) :
    longword order record k ≤ 4294967295 := by
  have bound : ∀ xs : List UInt8, xs.length = 4 → value xs ≤ 4294967295 := by
    intro xs four
    have := value_lt xs
    rw [four] at this
    omega
  unfold longword
  cases order with
  | vax => exact bound _ (by rw [List.length_reverse, length_slice])
  | nonVax => exact bound _ (length_slice _ _ _)

theorem words_longwords (s : SortMemory) (id : Nat) : Longwords (s.words scb id) := by
  intro word mem
  obtain ⟨k, -, rfl⟩ := List.mem_map.mp mem
  exact longword_le _ _ _

theorem SortMemory.Valid.key_eq (valid : s.Valid scb) {i : Nat} (low : 1 ≤ i)
    (high : i ≤ scb.scbRecords) : ∃ id, 1 ≤ id ∧ id ≤ scb.scbRecords ∧ s.pointer i = .ok id ∧
      s.words scb id = s.key scb i ∧ (s.key scb i).length = scb.scbLongs - 1 ∧
      Longwords (s.key scb i) := by
  obtain ⟨id, pos, le, points, -⟩ := valid.points i low high
  have key : s.key scb i = s.words scb id := by
    unfold SortMemory.key
    rw [points]
    rfl
  refine ⟨id, pos, le, ?_, key.symm, ?_, key ▸ words_longwords s id⟩
  · unfold SortMemory.pointer
    rw [points]
  · rw [key, SortMemory.words, List.length_map, List.length_range, recordLongs,
      if_neg (by omega), if_neg (by omega)]

theorem SortMemory.Valid.key_high (valid : s.Valid scb) :
    s.pointer (scb.scbRecords + 1) = .ok (scb.scbRecords + 1) ∧
      s.words scb (scb.scbRecords + 1) = List.replicate 64 4294967295 := by
  have ones : ∀ k, longword scb.order (fun _ => 255) k = 4294967295 := by
    intro k
    have cells : slice (fun _ => (255 : UInt8)) (4 * k) 4 = [255, 255, 255, 255] := by
      simp [slice]
    unfold longword
    rw [cells]
    cases scb.order <;> decide
  refine ⟨?_, ?_⟩
  · unfold SortMemory.pointer
    rw [valid.high]
  · unfold SortMemory.words recordLongs
    rw [if_neg (by omega), if_pos rfl, valid.ones, funext ones, List.map_const',
      List.length_range]

end

end InterBase
