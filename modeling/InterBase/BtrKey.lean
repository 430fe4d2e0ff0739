import InterBase.Btr
import InterBase.Library.Groups

namespace InterBase

open BigEndian Groups

/-- `STUFF_COUNT`. -/
def stuffCountMax : Nat := 4

/-- `while (p > key->key_data) if (*--p != pad) break;` from `p` bytes on. -/
def chopPad (pad : UInt8) (keyData : Key) : Nat → Nat
  | 0 => 0
  | p + 1 => if keyData.getD p 0 ≠ pad then p else chopPad pad keyData p

/-- The string half of `compress` on the bytes at `ptr`; the pad is a blank for `idx_string` and
zero for byte arrays, metadata and international keys. -/
def compressString (pad : UInt8) (ptr : List UInt8) : Key :=
  let keyData := if ptr = [] then [pad] else ptr.take maxKey
  keyData.take (chopPad pad keyData keyData.length + 1)

/-- One segment behind another in `BTR_key`: `stuff_count` bytes are still owed to the group. -/
def stuffSegment (marker : UInt8) : Key → Key × Nat → Key × Nat
  | [], s => s
  | b :: temp, (p, stuffCount) =>
    if stuffCount = 0 then stuffSegment marker temp (p ++ [marker, b], stuffCountMax - 1)
    else stuffSegment marker temp (p ++ [b], stuffCount - 1)

/-- The segments of `BTR_key` from the `n`th on, given what `compress` made of each. -/
def btrKeyLoop (idxCount : Nat) : List Key → Nat → Key × Nat → Key × Nat
  | [], _, s => s
  | temp :: tail, n, (p, stuffCount) =>
    btrKeyLoop idxCount tail (n + 1)
      (stuffSegment (UInt8.ofNat (idxCount - n)) temp (p ++ List.replicate stuffCount 0, 0))

/-- `BTR_key` for an ascending index of more than one segment. -/
def btrKey (temps : List Key) : Key := (btrKeyLoop temps.length temps 0 ([], 0)).1

theorem chopPad_le (pad : UInt8) (keyData : Key) (p : Nat) : chopPad pad keyData p ≤ p := by
  induction p with
  | zero => exact le_rfl
  | succ p ih =>
    rw [chopPad]
    split <;> omega

theorem chopPad_lt (pad : UInt8) (keyData : Key) {p : Nat} (h : 0 < p) :
    chopPad pad keyData p < p := by
  obtain ⟨p, rfl⟩ : ∃ q, p = q + 1 := ⟨p - 1, by omega⟩
  have := chopPad_le pad keyData p
  rw [chopPad]
  split <;> omega

theorem compressString_ne_nil (pad : UInt8) (ptr : List UInt8) : compressString pad ptr ≠ [] := by
  unfold compressString
  intro h
  rcases List.take_eq_nil_iff.mp h with h | h
  · omega
  · split at h
    next => simp at h
    next hptr =>
      rcases List.take_eq_nil_iff.mp h with h | h
      · exact absurd h (by decide)
      · exact hptr h

/-- A segment ends in its pad only when it is nothing else. -/
theorem chopPad_last (pad : UInt8) (keyData : Key) (p : Nat) (h : 0 < chopPad pad keyData p) :
    keyData.getD (chopPad pad keyData p) 0 ≠ pad := by
  induction p with
  | zero => exact absurd h (by simp [chopPad])
  | succ p ih =>
    rw [chopPad] at h ⊢
    split
    next hp => exact hp
    next hp =>
      rw [if_neg hp] at h
      exact ih h

/-- A key longer than its pad does not end in it. -/
theorem compressString_last (pad : UInt8) (ptr : List UInt8)
    (long : 1 < (compressString pad ptr).length) :
    (compressString pad ptr).getLast? ≠ some pad := by
  unfold compressString at long ⊢
  dsimp only at long ⊢
  generalize (if ptr = [] then [pad] else ptr.take maxKey) = keyData at long ⊢
  rw [List.length_take] at long
  have hlt := chopPad_lt pad keyData (show 0 < keyData.length by omega)
  have hpos : 0 < chopPad pad keyData keyData.length := by omega
  have hlast := chopPad_last pad keyData keyData.length hpos
  intro h
  rw [List.getLast?_eq_getElem?, List.length_take, Nat.min_eq_left (by omega),
    Nat.add_sub_cancel, List.getElem?_take_of_lt (by omega)] at h
  rw [List.getD_eq_getElem?_getD, h] at hlast
  exact hlast rfl

theorem stuffSegment_groups (marker : UInt8) (temp p : Key) (k : Nat) :
    (stuffSegment marker temp (p, k)).1 =
      p ++ temp.take k ++ groups marker stuffCountMax (temp.drop k) := by
  induction temp generalizing p k with
  | nil => simp [stuffSegment]
  | cons b temp ih =>
    rw [stuffSegment]
    split
    next hz =>
      subst hz
      rw [ih, List.drop_zero, groups_ne_nil (by decide) marker (List.cons_ne_nil b temp)]
      simp [stuffCountMax]
    next hz =>
      obtain ⟨k, rfl⟩ : ∃ j, k = j + 1 := ⟨k - 1, by omega⟩
      rw [Nat.add_sub_cancel, ih]
      simp

theorem stuffSegment_count (marker : UInt8) (temp p : Key) {k : Nat} (h : k < 4) :
    (stuffSegment marker temp (p, k)).2 < 4 ∧
      (temp.length + (stuffSegment marker temp (p, k)).2) % 4 = k := by
  induction temp generalizing p k with
  | nil => exact ⟨h, by rw [stuffSegment, List.length_nil, Nat.zero_add, Nat.mod_eq_of_lt h]⟩
  | cons b temp ih =>
    rw [stuffSegment, List.length_cons]
    split
    next hz =>
      have := ih (p ++ [marker, b]) (show stuffCountMax - 1 < 4 by decide)
      simp only [stuffCountMax] at this ⊢
      omega
    next hz =>
      have := ih (p ++ [b]) (show k - 1 < 4 by omega)
      omega

/-- A segment in whole groups, as it stands before another one. -/
def fill (temp : Key) : Key := filled 0 stuffCountMax temp

theorem stuffSegment_append (marker : UInt8) (xs ys : Key) (s : Key × Nat) :
    stuffSegment marker (xs ++ ys) s = stuffSegment marker ys (stuffSegment marker xs s) := by
  induction xs generalizing s with
  | nil => rfl
  | cons x xs ih =>
    obtain ⟨p, stuffCount⟩ := s
    rw [List.cons_append, stuffSegment, stuffSegment]
    split
    · exact ih _
    · exact ih _

theorem stuffSegment_owed (marker : UInt8) (p : Key) (k : Nat) :
    stuffSegment marker (List.replicate k 0) (p, k) = (p ++ List.replicate k 0, 0) := by
  induction k generalizing p with
  | zero => simp [stuffSegment]
  | succ k ih =>
    rw [List.replicate_succ, stuffSegment, if_neg (by omega), Nat.add_sub_cancel, ih]
    simp

/-- A segment and the zeros before the next one are whole groups. -/
theorem stuffSegment_fill (marker : UInt8) (temp p : Key) :
    (stuffSegment marker temp (p, 0)).1 ++
        List.replicate (stuffSegment marker temp (p, 0)).2 0 =
      p ++ groups marker stuffCountMax (fill temp) := by
  obtain ⟨hlt, hmod⟩ := stuffSegment_count marker temp p (show 0 < 4 by omega)
  have howed : (stuffSegment marker temp (p, 0)).2 =
      (stuffCountMax - temp.length % stuffCountMax) % stuffCountMax := by
    simp only [stuffCountMax]
    omega
  have hfill := stuffSegment_append marker temp
    (List.replicate (stuffSegment marker temp (p, 0)).2 0) (p, 0)
  have hbytes := congrArg Prod.fst (hfill.trans (stuffSegment_owed marker _ _))
  rw [stuffSegment_groups, howed] at hbytes
  rw [howed]
  refine hbytes.symm.trans ?_
  simp [fill, filled]

/-- The tuple as its key shows it: every segment but the last in whole groups. -/
def filledTuple : List Key → List Key
  | [] => []
  | [temp] => [temp]
  | temp :: tail => fill temp :: filledTuple tail

/-- The key of the segments from one on, whose marker counts down to the last. -/
def stuffedKey : List Key → Key
  | [] => []
  | temp :: tail => groups (UInt8.ofNat (tail.length + 1)) stuffCountMax temp ++ stuffedKey tail

theorem filledTuple_cons (temp : Key) {tail : List Key} (h : tail ≠ []) :
    filledTuple (temp :: tail) = fill temp :: filledTuple tail := by
  cases tail with
  | nil => exact absurd rfl h
  | cons next tail => rfl

theorem length_filledTuple (temps : List Key) : (filledTuple temps).length = temps.length := by
  induction temps with
  | nil => rfl
  | cons temp tail ih =>
    by_cases h : tail = []
    · subst h
      rfl
    · rw [filledTuple_cons temp h, List.length_cons, List.length_cons, ih]

theorem btrKeyLoop_stuffed (idxCount : Nat) (temps : List Key) (n : Nat) (s : Key × Nat)
    (h : n + temps.length = idxCount) (hne : temps ≠ []) :
    (btrKeyLoop idxCount temps n s).1 =
      s.1 ++ List.replicate s.2 0 ++ stuffedKey (filledTuple temps) := by
  induction temps generalizing n s with
  | nil => exact absurd rfl hne
  | cons temp tail ih =>
    obtain ⟨p, stuffCount⟩ := s
    rw [List.length_cons] at h
    have hmarker : idxCount - n = tail.length + 1 := by omega
    rw [btrKeyLoop, hmarker]
    by_cases last : tail = []
    · subst last
      rw [btrKeyLoop, stuffSegment_groups]
      simp [filledTuple, stuffedKey]
    · rw [ih (n + 1) _ (by omega) last, stuffSegment_fill, filledTuple_cons temp last, stuffedKey,
        length_filledTuple, List.append_assoc]

theorem btrKey_stuffed {temps : List Key} (h : temps ≠ []) :
    btrKey temps = stuffedKey (filledTuple temps) := by
  rw [btrKey, btrKeyLoop_stuffed temps.length temps 0 ([], 0) (by omega) h]
  simp

theorem filledTuple_ne_nil {temps : List Key} (h : ∀ temp ∈ temps, temp ≠ []) :
    ∀ temp ∈ filledTuple temps, temp ≠ [] := by
  induction temps with
  | nil => exact h
  | cons first tail ih =>
    by_cases last : tail = []
    · subst last
      exact h
    · rw [filledTuple_cons first last]
      intro temp hm
      rcases List.mem_cons.mp hm with rfl | hm
      · exact filled_ne_nil (h first (by simp))
      · exact ih (fun next hn => h next (by simp [hn])) temp hm

/-- What the index promises of two tuples: their keys sort as they do, and only equal tuples share
a key. -/
def SortsAsTuples (s t : List Key) : Prop :=
  (btrKey s < btrKey t ↔ s < t) ∧ (btrKey s = btrKey t → s = t)

/-- From the first segments that differ on: they are the last ones, or they still differ once they
are filled with zeros, or else the segments behind them happen to sort the same way. -/
def ToldApart : List Key → List Key → Prop
  | a :: s, b :: t =>
    if a = b then ToldApart s t
    else s = [] ∨ fill a ≠ fill b ∨
      (a < b ∧ filledTuple s < filledTuple t) ∨ (b < a ∧ filledTuple t < filledTuple s)
  | _, _ => True

section Order

local instance byteOrder : LinearOrder UInt8 where
  le_refl := UInt8.le_refl
  le_trans := fun _ _ _ => UInt8.le_trans
  le_antisymm := fun _ _ => UInt8.le_antisymm
  le_total := UInt8.le_total
  lt_iff_le_not_ge := Std.LawfulOrderLT.lt_iff
  toDecidableLE := inferInstance
  toDecidableEq := inferInstance
  toDecidableLT := inferInstance

theorem stuffedKey_below (tail : List Key) {n : Nat} (h : tail.length = n + 1) (small : n < 254)
    (hne : ∀ temp ∈ tail, temp ≠ []) : Below (UInt8.ofNat (n + 2)) (stuffedKey tail) := by
  cases tail with
  | nil => simp at h
  | cons temp tail =>
    rw [stuffedKey, groups_ne_nil (by decide) _ (hne temp (by simp)), List.cons_append]
    refine ⟨_, _, rfl, ?_⟩
    rw [UInt8.lt_iff_toNat_lt, UInt8.toNat_ofNat', UInt8.toNat_ofNat']
    rw [List.length_cons] at h
    omega

theorem fill_lt_iff {a b : Key} (apart : fill a ≠ fill b) : fill a < fill b ↔ a < b :=
  filled_lt_iff (fun _ => UInt8.zero_le) (by decide) apart

/-- Keys compare as the tuples they show. -/
theorem stuffedKey_compare {s t : List Key} (h : s.length = t.length) (small : s.length ≤ 255)
    (hs : ∀ temp ∈ s, temp ≠ []) (ht : ∀ temp ∈ t, temp ≠ []) :
    (stuffedKey (filledTuple s) < stuffedKey (filledTuple t) ↔ filledTuple s < filledTuple t) ∧
      (stuffedKey (filledTuple s) = stuffedKey (filledTuple t) ↔
        filledTuple s = filledTuple t) := by
  induction s generalizing t with
  | nil =>
    have empty : t = [] := List.eq_nil_of_length_eq_zero h.symm
    subst empty
    exact ⟨by simp [filledTuple, stuffedKey], by simp⟩
  | cons a s ih =>
    cases t with
    | nil => simp at h
    | cons b t =>
      have hlen : s.length = t.length := by simpa using h
      rw [List.length_cons] at small
      by_cases last : s = []
      · have last' : t = [] := List.eq_nil_of_length_eq_zero (by rw [← hlen, last]; rfl)
        subst last last'
        simp only [filledTuple, stuffedKey, List.append_nil, List.length_nil]
        refine ⟨?_, ?_⟩
        · refine (groups_lt_iff (by decide) _ a b).trans ?_
          rw [List.cons_lt_cons_iff]
          simp
        · rw [groups_inj (by decide)]
          simp
      · have more : t ≠ [] := fun e => last (List.eq_nil_of_length_eq_zero (by rw [hlen, e]; rfl))
        have hpos := List.length_pos_iff.mpr last
        have hs' : ∀ temp ∈ s, temp ≠ [] := fun temp hm => hs temp (by simp [hm])
        have ht' : ∀ temp ∈ t, temp ≠ [] := fun temp hm => ht temp (by simp [hm])
        obtain ⟨hlt, heq⟩ := ih hlen (by omega) hs' ht'
        obtain ⟨n, hn⟩ : ∃ n, s.length = n + 1 := ⟨s.length - 1, by omega⟩
        have hbelow := stuffedKey_below (filledTuple s) (n := n)
          (by rw [length_filledTuple, hn]) (by omega) (filledTuple_ne_nil hs')
        have hbelow' := stuffedKey_below (filledTuple t) (n := n)
          (by rw [length_filledTuple, ← hlen, hn]) (by omega) (filledTuple_ne_nil ht')
        have ha : stuffCountMax ∣ (fill a).length := length_filled (by decide) 0 a
        have hb : stuffCountMax ∣ (fill b).length := length_filled (by decide) 0 b
        rw [filledTuple_cons a last, filledTuple_cons b more, stuffedKey, stuffedKey,
          length_filledTuple, length_filledTuple, ← hlen, hn]
        refine ⟨?_, ?_⟩
        · refine (groups_append_lt_iff (by decide) ha hb hbelow hbelow').trans ?_
          rw [List.cons_lt_cons_iff]
          exact or_congr Iff.rfl (and_congr Iff.rfl hlt)
        · rw [groups_append_inj (by decide) ha hb hbelow hbelow', heq, List.cons.injEq]

theorem key_trichotomy (a b : Key) : a < b ∨ a = b ∨ b < a := lt_trichotomy a b

theorem key_lt_irrefl (a : Key) : ¬a < a := lt_irrefl a

theorem tuple_trichotomy (s t : List Key) : s < t ∨ s = t ∨ t < s := lt_trichotomy s t

theorem tuple_lt_asymm {s t : List Key} (h : s < t) : ¬t < s := lt_asymm h

theorem key_lt_asymm {a b : Key} (h : a < b) : ¬b < a := lt_asymm h

end Order

theorem sortsAsTuples_iff_filled {s t : List Key} (h : s.length = t.length) (some_ : s ≠ [])
    (small : s.length ≤ 255) (hs : ∀ temp ∈ s, temp ≠ []) (ht : ∀ temp ∈ t, temp ≠ []) :
    SortsAsTuples s t ↔
      (filledTuple s < filledTuple t ↔ s < t) ∧ (filledTuple s = filledTuple t → s = t) := by
  have some' : t ≠ [] := fun e => some_ (List.eq_nil_of_length_eq_zero (by rw [h, e]; rfl))
  obtain ⟨hlt, heq⟩ := stuffedKey_compare h small hs ht
  unfold SortsAsTuples
  rw [btrKey_stuffed some_, btrKey_stuffed some', hlt, heq]

theorem toldApart_iff_filled {s t : List Key} (h : s.length = t.length) :
    ((filledTuple s < filledTuple t ↔ s < t) ∧ (filledTuple s = filledTuple t → s = t)) ↔
      ToldApart s t := by
  induction s generalizing t with
  | nil =>
    have empty : t = [] := List.eq_nil_of_length_eq_zero h.symm
    subst empty
    simp [ToldApart, filledTuple]
  | cons a s ih =>
    cases t with
    | nil => simp at h
    | cons b t =>
      have hlen : s.length = t.length := by simpa using h
      rw [ToldApart]
      by_cases last : s = []
      · have last' : t = [] := List.eq_nil_of_length_eq_zero (by rw [← hlen, last]; rfl)
        subst last last'
        simp [filledTuple, ToldApart]
      · have more : t ≠ [] := fun e => last (List.eq_nil_of_length_eq_zero (by rw [hlen, e]; rfl))
        rw [filledTuple_cons a last, filledTuple_cons b more, List.cons_lt_cons_iff,
          List.cons_lt_cons_iff, List.cons.injEq, List.cons.injEq]
        by_cases same : a = b
        · subst same
          rw [if_pos rfl, ← ih hlen]
          simp [key_lt_irrefl]
        · rw [if_neg same]
          by_cases apart : fill a = fill b
          · have hirrefl := key_lt_irrefl (fill b)
            simp only [apart, hirrefl, same, last, false_or, true_and, false_and, or_false, ne_eq,
              not_true_eq_false, imp_false]
            constructor
            · rintro ⟨order, distinct⟩
              rcases tuple_trichotomy (filledTuple s) (filledTuple t) with lt | eq | gt
              · exact Or.inl ⟨order.mp lt, lt⟩
              · exact absurd eq distinct
              · refine Or.inr ⟨?_, gt⟩
                rcases key_trichotomy a b with lt | eq | gt'
                · exact absurd (order.mpr lt) (tuple_lt_asymm gt)
                · exact absurd eq same
                · exact gt'
            · rintro (⟨hab, lt⟩ | ⟨hba, gt⟩)
              · refine ⟨⟨fun _ => hab, fun _ => lt⟩, fun eq => ?_⟩
                rw [eq] at lt
                exact tuple_lt_asymm lt lt
              · refine ⟨⟨fun lt => absurd lt (tuple_lt_asymm gt),
                  fun hab => absurd hab (key_lt_asymm hba)⟩, fun eq => ?_⟩
                rw [eq] at gt
                exact tuple_lt_asymm gt gt
          · simp [apart, same, fill_lt_iff apart]

/-- The keys of an index sort as its tuples do exactly where zero fill does not blur them. -/
theorem btrKey_sortsAsTuples_iff (s t : List Key) (h : s.length = t.length) (two : 2 ≤ s.length)
    (small : s.length ≤ 255) (hs : ∀ temp ∈ s, temp ≠ []) (ht : ∀ temp ∈ t, temp ≠ []) :
    SortsAsTuples s t ↔ ToldApart s t := by
  have some_ : s ≠ [] := List.length_pos_iff.mp (by omega)
  rw [sortsAsTuples_iff_filled h some_ small hs ht, toldApart_iff_filled h]

/-- Two keys whose pad is zero are told apart by more than zeros. -/
theorem fill_compressString_inj {x y : List UInt8}
    (h : fill (compressString 0 x) = fill (compressString 0 y)) :
    compressString 0 x = compressString 0 y := by
  have shorter : ∀ {a b : Key} {i j : Nat}, a ≠ [] → (1 < b.length → b.getLast? ≠ some 0) →
      a.length ≤ b.length → a ++ List.replicate i 0 = b ++ List.replicate j 0 → a = b := by
    intro a b i j nonempty last hle eq
    obtain ⟨tail, rfl⟩ : a <+: b := by
      apply List.prefix_of_prefix_length_le (List.prefix_append a (List.replicate i 0)) _ hle
      rw [eq]
      exact List.prefix_append b _
    by_cases htail : tail = []
    · rw [htail, List.append_nil]
    · have hpos := List.length_pos_iff.mpr nonempty
      have htpos := List.length_pos_iff.mpr htail
      refine absurd ?_ (last (by rw [List.length_append]; omega))
      rw [List.append_assoc] at eq
      have hzero : ∀ c ∈ tail, c = 0 := by
        intro c hc
        have hmem : c ∈ List.replicate i 0 := by
          rw [List.append_cancel_left eq]
          exact List.mem_append_left _ hc
        exact List.eq_of_mem_replicate hmem
      rw [List.getLast?_append_of_ne_nil a htail, List.getLast?_eq_some_getLast htail,
        hzero _ (List.getLast_mem htail)]
  rcases Nat.le_total (compressString 0 x).length (compressString 0 y).length with hle | hle
  · exact shorter (compressString_ne_nil 0 x) (compressString_last 0 y) hle h
  · exact (shorter (compressString_ne_nil 0 y) (compressString_last 0 x) hle h.symm).symm

/-- Segments whose pad is zero, as all but blank-padded texts have it, sort as tuples. -/
theorem btrKey_sortsAsTuples_of_zero_pad (s t : List (List UInt8)) (h : s.length = t.length)
    (two : 2 ≤ s.length) (small : s.length ≤ 255) :
    SortsAsTuples (s.map (compressString 0)) (t.map (compressString 0)) := by
  have hne : ∀ u : List (List UInt8), ∀ temp ∈ u.map (compressString 0), temp ≠ [] := by
    intro u temp hm
    obtain ⟨x, _, rfl⟩ := List.mem_map.mp hm
    exact compressString_ne_nil 0 x
  have some_ : s.map (compressString 0) ≠ [] := by
    intro e
    have := congrArg List.length e
    simp only [List.length_map, List.length_nil] at this
    omega
  rw [sortsAsTuples_iff_filled (by simpa using h) some_ (by simpa using small) (hne s) (hne t),
    toldApart_iff_filled (by simpa using h)]
  clear two small some_
  induction s generalizing t with
  | nil =>
    cases t with
    | nil => trivial
    | cons y t => simp at h
  | cons x s ih =>
    cases t with
    | nil => simp at h
    | cons y t =>
      rw [List.map_cons, List.map_cons, ToldApart]
      split
      next => exact ih t (by simpa using h)
      next apart => exact Or.inr (Or.inl fun same => apart (fill_compressString_inj same))

theorem btrKey_sortsAsTuples_names :
    SortsAsTuples [compressString 32 [65, 66, 32], compressString 32 [67]]
        [compressString 32 [65], compressString 32 [68]] ↔
      ToldApart [compressString 32 [65, 66, 32], compressString 32 [67]]
        [compressString 32 [65], compressString 32 [68]] :=
  btrKey_sortsAsTuples_iff _ _ rfl (by decide) (by decide)
    (by simp [compressString_ne_nil]) (by simp [compressString_ne_nil])

/-- A text that ends in a zero byte: the pad of `idx_string` is a blank, so the byte stays, and the
fill of the group hides it. -/
theorem btrKey_shared :
    btrKey [compressString 32 [65], compressString 32 [66]] =
        btrKey [compressString 32 [65, 0], compressString 32 [66]] ∧
      ¬SortsAsTuples [compressString 32 [65], compressString 32 [66]]
        [compressString 32 [65, 0], compressString 32 [66]] := by
  have hshared : btrKey [compressString 32 [65], compressString 32 [66]] =
      btrKey [compressString 32 [65, 0], compressString 32 [66]] := by decide
  refine ⟨hshared, fun sorts => ?_⟩
  exact absurd (sorts.2 hshared) (by decide)

end InterBase
