import InterBase.SortDuplicates

namespace InterBase

section

variable {scb : Scb}

theorem start_valid (records : Nat → Nat → UInt8) : (SortMemory.start scb records).Valid scb := by
  refine ⟨?_, ?_, fun i beyond => ?_, fun i low high => ⟨i, low, high, ?_, ?_⟩, ?_⟩
  · unfold SortMemory.start
    simp
  · exact if_pos (Nat.le_refl _)
  · exact if_neg (by omega)
  · exact if_pos (by omega)
  · exact if_pos ⟨low, high⟩
  · unfold SortMemory.start
    simp

theorem sort_eq (s : SortMemory) : sort scb s = sortPointers scb s >>= fun s =>
    if scb.scbDupCallback then dropDuplicates scb scb.scbRecords 1 s else .ok s := by
  unfold sort sortPointers
  cases quick scb s <;> rfl

theorem Overlong.congr {s s' : SortMemory} (same : s'.records = s.records)
    (h : Overlong scb s') : Overlong scb s := by
  obtain ⟨long, id, low, high, ones⟩ := h
  rw [words_congr same] at ones
  exact ⟨long, id, low, high, ones⟩

theorem KeyOnes.congr {s s' : SortMemory} (same : s'.records = s.records)
    (h : KeyOnes scb s') : KeyOnes scb s := by
  obtain ⟨id, low, high, ones⟩ := h
  rw [words_congr same] at ones
  exact ⟨id, low, high, ones⟩

/-- The sort is right unless the scan goes beyond `high_key`, a comparison does, or a key is taken
for a duplicate of `high_key`. -/
theorem sort_sorts_iff (sized : scb.Sized) (records : Nat → Nat → UInt8)
    (dedup : scb.scbDupCallback = true → Deduplicable scb (SortMemory.start scb records)) :
    SortsRight scb (SortMemory.start scb records) ↔
      SortsPointers scb (SortMemory.start scb records) ∧
        (scb.scbDupCallback = true → ¬KeyOnes scb (SortMemory.start scb records)) := by
  have valid : (SortMemory.start scb records).Valid scb := start_valid records
  generalize SortMemory.start scb records = s at *
  unfold SortsRight
  rw [sort_eq]
  by_cases h : SortsPointers scb s
  · obtain ⟨s1, eq, inOrder⟩ := sortPointers_spec valid sized h
    rw [eq, ok_bind]
    by_cases callback : scb.scbDupCallback = true
    · have deduplicable : Deduplicable scb s1 := by
        obtain ⟨some, within, restores⟩ := dedup callback
        exact ⟨some, within, inOrder.records ▸ restores⟩
      have fits : ¬Overlong scb s1 := fun wide => h.fits (wide.congr inOrder.records)
      obtain ⟨s', eq', dropping⟩ := dropDuplicates_spec inOrder.valid sized deduplicable fits
        scb.scbRecords (Nat.le_refl 1) (by omega) (dropping_start s1)
      rw [if_pos callback, eq']
      refine ⟨fun ⟨s2, done, _, _, one⟩ => ⟨h, fun _ ones => ?_⟩, fun ⟨_, distinct⟩ => ?_⟩
      · obtain rfl := Except.ok.inj done
        have some : 1 ≤ scb.scbRecords := by
          obtain ⟨id, low, high, -⟩ := ones
          omega
        exact dropping.lost inOrder some
          ((repeats_last_iff inOrder deduplicable fits some).mpr (ones.congr inOrder.records.symm))
          (one callback)
      · have last : 1 ≤ scb.scbRecords → ¬Repeats scb s1 scb.scbRecords := by
          intro some again
          exact distinct callback
            (((repeats_last_iff inOrder deduplicable fits some).mp again).congr inOrder.records)
        refine ⟨s', rfl, dropping.sorted inOrder last, fun off => ?_,
          fun _ => dropping.onePerKey inOrder last⟩
        rw [callback] at off
        cases off
    · rw [if_neg callback]
      refine ⟨fun _ => ⟨h, fun on => absurd on callback⟩, fun _ => ?_⟩
      exact ⟨s1, rfl, inOrder.sorted, fun _ => inOrder.permuted valid, fun on => absurd on callback⟩
  · rw [sortPointers_outside valid sized h]
    refine ⟨fun ⟨s', done, _⟩ => ?_, fun right => absurd right.1 h⟩
    cases done

/-- Where no record is all ones, the sort of the pointers is right. -/
theorem sortsPointers_of_no_ones {s : SortMemory} (valid : s.Valid scb)
    (none : ∀ id, 1 ≤ id → id ≤ scb.scbRecords → ¬AllOnes (s.words scb id)) :
    SortsPointers scb s := by
  refine ⟨Partition.guarded_of_none _ fun key mem ones => ?_,
    fun ⟨_, id, low, high, ones⟩ => none id low high ones⟩
  obtain ⟨x, lowX, highX, rfl⟩ := Intervals.mem_values.mp mem
  obtain ⟨id, low, high, -, words, -⟩ := valid.key_eq lowX (Nat.le_of_lt_succ highX)
  exact none id low high (words ▸ ones)

end

/-- Records of one longword, sorted by an unsigned number: four times the same byte each. -/
def ofLongs (scbRecords : Nat) (scbDupCallback : Bool) : Scb where
  order := .vax
  scbDescription := [⟨.ulong, false, false, 4, 0, 0⟩]
  scbLongs := 2
  scbRecords := scbRecords
  scbDupCallback := scbDupCallback

def longs (bytes : List UInt8) (id : Nat) : Nat → UInt8 := fun _ => bytes.getD (id - 1) 0

def startLongs (bytes : List UInt8) (scbDupCallback : Bool) : SortMemory :=
  SortMemory.start (ofLongs bytes.length scbDupCallback) (longs bytes)

theorem ofLongs_sized {scbRecords : Nat} (scbDupCallback : Bool) (few : scbRecords < 2147483648) :
    (ofLongs scbRecords scbDupCallback).Sized where
  words := Nat.le_refl 1
  records := few

example : (sort (ofLongs 3 true) (startLongs [5, 2, 5] true)).toOption.map
    (fun s => [s.pointers 1, s.pointers 2, s.pointers 3]) = some [some 2, none, some 3] := by
  decide

theorem ofLongs_deduplicable (bytes : List UInt8) :
    Deduplicable (ofLongs bytes.length true) (startLongs bytes true) := by
  refine ⟨Nat.le_refl 1, Nat.le_refl 1, fun id _ _ => ?_⟩
  have same : ∀ direction record, diddleKey (ofLongs bytes.length true).order
      (ofLongs bytes.length true).scbDescription false direction record = record := by
    intro direction record
    cases direction <;>
      simp [ofLongs, diddleKey, diddleOne, stash, unstash, diddleField, complemented, diddleVax,
        Memory.write_slice_self]
  rw [same, same]

theorem keys_five : (startLongs [5, 255, 2, 9, 1] false).keys (ofLongs 5 false) 1 6 =
    [[84215045], [4294967295], [33686018], [151587081], [16843009]] := by decide

/-- The record of all ones is exchanged to the end, and is never in the middle. -/
theorem guarded_five : Partition.Guarded AllOnes
    ((startLongs [5, 255, 2, 9, 1] false).keys (ofLongs 5 false) 1 6) := by
  have inner : Partition.behind [33686018] [[84215045], [151587081]] = [[84215045], [151587081]] :=
    Partition.behind_done (List.forall_mem_nil _) (fun _ mem => nomatch mem) (by decide)
  have first : Partition.behind [33686018] [[4294967295], [84215045], [151587081], [16843009]] =
      [[84215045], [151587081], [4294967295]] := by
    have exchanged : Partition.behind [33686018]
        ([] ++ [4294967295] :: ([[84215045], [151587081]] ++ [16843009] :: [])) =
          Partition.behind [33686018] [[84215045], [151587081]] ++ [[4294967295]] :=
      Partition.behind_exchange (by simp) (by decide) (by decide) (by simp)
    rw [inner] at exchanged
    exact exchanged
  rw [keys_five, Partition.guarded_cons (p := [33686018]) (by decide) rfl]
  refine ⟨fun ones => absurd ones (by decide), ?_⟩
  have around : Partition.Guarded AllOnes [[84215045], [151587081], [4294967295]] := by
    rw [Partition.guarded_cons (p := [151587081]) (by decide) rfl]
    refine ⟨fun ones => absurd ones (by decide), Partition.guarded_short ?_⟩
    exact Partition.length_behind_le _ _
  exact first ▸ around

theorem sort_sorts_iff_five :
    SortsRight (ofLongs 5 true) (startLongs [5, 2, 9, 5, 1] true) ∧
      SortsRight (ofLongs 5 false) (startLongs [5, 255, 2, 9, 1] false) := by
  constructor
  · apply (sort_sorts_iff (ofLongs_sized true (by decide)) (longs [5, 2, 9, 5, 1])
      fun _ => ofLongs_deduplicable [5, 2, 9, 5, 1]).mpr
    refine ⟨sortsPointers_of_no_ones (start_valid _) ?_, ?_⟩
    · intro id low high
      have five : id ≤ 5 := high
      interval_cases id <;> decide
    · rintro - ⟨id, low, high, ones⟩
      have five : id ≤ 5 := high
      interval_cases id <;> exact absurd ones (by decide)
  · apply (sort_sorts_iff (ofLongs_sized false (by decide)) (longs [5, 255, 2, 9, 1])
      fun callback => nomatch callback).mpr
    exact ⟨⟨guarded_five, fun overlong => absurd overlong.1 (by decide)⟩, fun callback => nomatch callback⟩

/-- A record that is all ones in the middle of three. -/
theorem sort_beyond_high_key : ¬SortsRight (ofLongs 3 false) (startLongs [5, 255, 2] false) := by
  have outside : sort (ofLongs 3 false) (startLongs [5, 255, 2] false) = .error .outside := by
    rfl
  intro ⟨s', done, _⟩
  rw [outside] at done
  cases done

end InterBase
