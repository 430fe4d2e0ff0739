import Mathlib.Data.List.Count
import Mathlib.Data.List.Sigma
import Mathlib.Order.Basic
import Mathlib.Data.List.Basic
import Mathlib.Data.Nat.Find
import Mathlib.Algebra.Order.Group.Int

/- Rows in the order of a list of columns, each ascending or descending, and lists of columns that
are put in the order of another one by exchanges. -/

namespace SortList

section Order

variable {K V : Type*} [LinearOrder V]

/-- The row `a` does not come behind the row `b`. -/
def Precedes : List (K × Bool) → (K → V) → (K → V) → Prop
  | [], _, _ => True
  | (x, descending) :: keys, a, b =>
    (if descending then b x < a x else a x < b x) ∨ a x = b x ∧ Precedes keys a b

def Sorted (keys : List (K × Bool)) (rows : List (K → V)) : Prop :=
  rows.Pairwise (Precedes keys)

variable {keys keys' : List (K × Bool)} {a b : K → V}

/-- A longer list of columns refines the order. -/
theorem Precedes.left (h : Precedes (keys ++ keys') a b) : Precedes keys a b := by
  induction keys with
  | nil => exact trivial
  | cons key keys ih =>
    rcases h with before | ⟨same, h⟩
    · exact .inl before
    · exact .inr ⟨same, ih h⟩

theorem Sorted.left {rows : List (K → V)} (h : Sorted (keys ++ keys') rows) : Sorted keys rows :=
  List.Pairwise.imp Precedes.left h

theorem sorted_pair : Sorted keys [a, b] ↔ Precedes keys a b := by
  simp [Sorted]

/-- The columns of other rows. -/
theorem precedes_map {K' : Type*} {f : K' → K} {keys : List (K' × Bool)} :
    Precedes (keys.map fun key => (f key.1, key.2)) a b ↔
      Precedes keys (fun x => a (f x)) (fun x => b (f x)) := by
  induction keys with
  | nil => exact Iff.rfl
  | cons key keys ih =>
    obtain ⟨x, descending⟩ := key
    rw [List.map_cons, Precedes, Precedes, ih]

theorem precedes_congr {a' b' : K → V} (same : ∀ key ∈ keys, a key.1 = a' key.1)
    (same' : ∀ key ∈ keys, b key.1 = b' key.1) : Precedes keys a b ↔ Precedes keys a' b' := by
  induction keys with
  | nil => exact Iff.rfl
  | cons key keys ih =>
    have rest := ih (fun key h => same key (List.mem_cons_of_mem _ h))
      (fun key h => same' key (List.mem_cons_of_mem _ h))
    have first := same key List.mem_cons_self
    have first' := same' key List.mem_cons_self
    obtain ⟨x, descending⟩ := key
    dsimp only at first first'
    rw [Precedes, Precedes, rest, first, first']

/-- The order of a list of columns of rows that are made from others. -/
theorem sorted_map {K' : Type*} (f : K' → K) (keys : List (K' × Bool)) (rows : List (K → V)) :
    Sorted keys (rows.map fun row x => row (f x)) ↔
      Sorted (keys.map fun key => (f key.1, key.2)) rows := by
  unfold Sorted
  rw [List.pairwise_map]
  constructor
  · exact List.Pairwise.imp fun h => precedes_map.mpr h
  · exact List.Pairwise.imp fun h => precedes_map.mp h

variable [DecidableEq K]

/-- Each column where it occurs first. -/
def firsts : List (K × Bool) → List (K × Bool)
  | [] => []
  | key :: keys => key :: (firsts keys).filter fun key' => key'.1 ≠ key.1

theorem nodup_firsts (keys : List (K × Bool)) : ((firsts keys).map Prod.fst).Nodup := by
  induction keys with
  | nil => exact List.nodup_nil
  | cons key keys ih =>
    refine List.nodup_cons.mpr ⟨fun mem => ?_, ih.sublist (List.filter_sublist.map Prod.fst)⟩
    obtain ⟨key', mem, same⟩ := List.mem_map.mp mem
    exact of_decide_eq_true (List.mem_filter.mp mem).2 same

theorem firsts_append (keys keys' : List (K × Bool)) : firsts keys <+: firsts (keys ++ keys') := by
  induction keys with
  | nil => exact List.nil_prefix
  | cons key keys ih => exact (List.prefix_cons_inj key).mpr (ih.filter _)

/-- A column in which the rows are the same decides nothing. -/
theorem precedes_filter {x : K} (same : a x = b x) :
    Precedes (keys.filter fun key => key.1 ≠ x) a b ↔ Precedes keys a b := by
  induction keys with
  | nil => exact Iff.rfl
  | cons key keys ih =>
    obtain ⟨y, descending⟩ := key
    by_cases equal : y = x
    · subst equal
      rw [List.filter_cons_of_neg (by simp), ih, Precedes]
      simp [same]
    · rw [List.filter_cons_of_pos (by simp [equal]), Precedes, Precedes, ih]

/-- A column that occurs again decides nothing there. -/
theorem precedes_firsts : Precedes (firsts keys) a b ↔ Precedes keys a b := by
  induction keys with
  | nil => exact Iff.rfl
  | cons key keys ih =>
    obtain ⟨x, descending⟩ := key
    rw [firsts, Precedes, Precedes]
    refine or_congr Iff.rfl (and_congr_right fun same => ?_)
    rw [precedes_filter same, ih]

theorem Sorted.refine {keys keys' : List (K × Bool)} {rows : List (K → V)} (sorted : Sorted keys rows)
    (isPrefix : firsts keys' <+: firsts keys) : Sorted keys' rows := by
  obtain ⟨more, equal⟩ := isPrefix
  refine List.Pairwise.imp (fun h => ?_) sorted
  have first := precedes_firsts.mpr h
  rw [← equal] at first
  exact precedes_firsts.mp first.left

/-- Columns that differ make different orders. -/
theorem exists_disordered (key key' : K × Bool) (ne : key ≠ key') (keys keys' : List (K × Bool)) :
    ∃ a b : K → Int, Precedes (key :: keys) a b ∧ ¬ Precedes (key' :: keys') a b := by
  obtain ⟨x, descending⟩ := key
  obtain ⟨x', descending'⟩ := key'
  -- the rows are in order in the one column, and out of order in the other one if it is another
  refine ⟨fun y => if y = x then if descending then 1 else 0 else if descending' then 0 else 1,
    fun y => if y = x then if descending then 0 else 1 else if descending' then 1 else 0, ?_, ?_⟩
  · refine .inl ?_
    cases descending <;> simp
  · unfold Precedes
    by_cases same : x' = x
    · subst same
      have other : descending ≠ descending' := fun equal => ne (by rw [equal])
      cases descending <;> cases descending' <;> simp at other ⊢
    · cases descending' <;> simp [same]

/-- One list of columns without repetitions refines the order of another one only if it begins with
its columns. -/
theorem prefix_of_refines {keys keys' : List (K × Bool)} (nodup : (keys.map Prod.fst).Nodup)
    (nodup' : (keys'.map Prod.fst).Nodup)
    (refines : ∀ a b : K → Int, Precedes keys a b → Precedes keys' a b) : keys' <+: keys := by
  induction keys' generalizing keys with
  | nil => exact List.nil_prefix
  | cons key' keys' ih =>
    cases keys with
    | nil =>
      obtain ⟨a, b, -, not⟩ :=
        exists_disordered (key'.1, !key'.2) key' (fun equal => by simpa using congrArg Prod.snd equal)
          [] keys'
      exact absurd (refines a b trivial) not
    | cons key keys =>
      obtain rfl : key = key' := by
        by_contra ne
        obtain ⟨a, b, precedes, not⟩ := exists_disordered key key' ne keys keys'
        exact not (refines a b precedes)
      obtain ⟨x, descending⟩ := key
      rw [List.map_cons, List.nodup_cons] at nodup nodup'
      refine (List.prefix_cons_inj _).mpr (ih nodup.2 nodup'.2 fun a b precedes => ?_)
      -- the same rows, with one value in the column that has been dealt with
      have elsewhere : ∀ {ks : List (K × Bool)}, x ∉ ks.map Prod.fst → ∀ c : K → Int,
          ∀ key ∈ ks, c key.1 = if key.1 = x then 0 else c key.1 := by
        intro ks fresh c key mem
        exact (if_neg fun same => fresh (List.mem_map.mpr ⟨key, mem, same⟩)).symm
      have moved : Precedes keys (fun y => if y = x then 0 else a y)
          (fun y => if y = x then 0 else b y) :=
        (precedes_congr (elsewhere nodup.1 a) (elsewhere nodup.1 b)).mp precedes
      have found := refines _ _ (.inr ⟨by simp, moved⟩)
      rcases found with before | ⟨-, rest⟩
      · simp at before
      · exact (precedes_congr (elsewhere nodup'.1 a) (elsewhere nodup'.1 b)).mpr rest

/-- Rows in the order of one list of columns are in that of another one, whatever they are, if and
only if its columns, each where it occurs first, begin with those of the other. -/
theorem refines_iff (keys keys' : List (K × Bool)) :
    (∀ rows : List (K → Int), Sorted keys rows → Sorted keys' rows) ↔
      firsts keys' <+: firsts keys := by
  constructor
  · intro refines
    refine prefix_of_refines (nodup_firsts keys) (nodup_firsts keys') fun a b precedes => ?_
    refine precedes_firsts.mpr (sorted_pair.mp (refines [a, b] (sorted_pair.mpr ?_)))
    exact precedes_firsts.mp precedes
  · rintro isPrefix rows sorted
    exact sorted.refine isPrefix

end Order

section Exchange

variable {α : Type*} {t : List α} {i j k : Nat}

theorem getElem?_swap (hi : i < t.length) (hj : j < t.length) : (t.swap i j)[k]? =
    if k = i then t[j]? else if k = j then t[i]? else t[k]? := by
  by_cases hk : k < t.length
  · rw [List.getElem?_eq_getElem (by rw [List.length_swap]; exact hk), List.getElem_swap]
    split_ifs with h₁ h₂ h₃ h₄ h₅ h₆ <;> grind
  · rw [List.getElem?_eq_none (by rw [List.length_swap]; exact Nat.not_lt.mp hk), if_neg (by omega),
      if_neg (by omega), List.getElem?_eq_none (Nat.not_lt.mp hk)]

/-- The exchange of equal entries changes nothing. -/
theorem swap_same (hi : i < t.length) (hj : j < t.length) (same : t[i]? = t[j]?) :
    t.swap i j = t := by
  refine List.ext_getElem? fun k => ?_
  rw [getElem?_swap hi hj]
  split_ifs with h₁ h₂
  · rw [h₁, same]
  · rw [h₂, same]
  · rfl

/-- Exchanges every entry that is found among the first `n` with the one at `i`. -/
def swapLoop (found : α → Bool) (i : Nat) (js : List Nat) (t : List α) : List α :=
  js.foldl (fun t j => if (t[j]?).any found then t.swap i j else t) t

/-- The loop exchanges once, with the first entry that is found, if all entries that are found are
equal. -/
theorem swapLoop_eq {found : α → Bool} {x : α} (hi : i < t.length)
    (hj : j < t.length) (only : ∀ y ∈ t, found y = true ↔ y = x) (here : t[j]? = some x)
    (first : ∀ k < j, t[k]? ≠ some x) :
    swapLoop found i (List.range t.length) t = t.swap i j := by
  have finds : ∀ u : List α, u.Perm t → ∀ k : Nat, (u[k]?).any found = true ↔ u[k]? = some x := by
    intro u perm k
    cases h : u[k]? with
    | none => simp
    | some y =>
      rw [Option.any_some, only y (perm.mem_iff.mp (List.mem_of_getElem? h)), Option.some_inj]
  have run : ∀ m ≤ t.length,
      swapLoop found i (List.range m) t = if j < m then t.swap i j else t := by
    intro m hm
    induction m with
    | zero => rfl
    | succ m ih =>
      unfold swapLoop at ih ⊢
      rw [List.range_succ, List.foldl_append, ih (by omega), List.foldl_cons, List.foldl_nil]
      rcases Nat.lt_trichotomy m j with before | rfl | after
      · have none : ¬ (t[m]?).any found = true := by
          rw [finds t (List.Perm.refl t)]
          exact first m before
        rw [if_neg (show ¬ j < m by omega), if_neg (show ¬ j < m + 1 by omega), if_neg none]
      · rw [if_neg (Nat.lt_irrefl m), if_pos (show m < m + 1 by omega),
          if_pos ((finds t (List.Perm.refl t) m).mpr here)]
      · rw [if_pos after, if_pos (show j < m + 1 by omega)]
        have top : (t.swap i j)[i]? = some x := by
          rw [getElem?_swap hi hj, if_pos rfl, here]
        split
        · rename_i again
          refine swap_same (by rw [List.length_swap]; omega) (by rw [List.length_swap]; omega) ?_
          rw [top, (finds _ (List.swap_perm t i j) m).mp again]
        · rfl
  rw [run t.length (Nat.le_refl _), if_pos hj]

theorem swapLoop_perm (found : α → Bool) (i : Nat) (js : List Nat) (t : List α) :
    (swapLoop found i js t).Perm t := by
  unfold swapLoop
  induction js generalizing t with
  | nil => exact List.Perm.refl t
  | cons j js ih =>
    rw [List.foldl_cons]
    refine (ih _).trans ?_
    split
    · exact List.swap_perm t i j
    · exact List.Perm.refl t

theorem swap_append {u : List α} (v : List α) (hi : i < u.length) (hj : j < u.length) :
    (u ++ v).swap i j = u.swap i j ++ v := by
  refine List.ext_getElem? fun k => ?_
  have length : (u ++ v).length = u.length + v.length := List.length_append
  rw [getElem?_swap (by omega) (by omega), List.getElem?_append_left hi,
    List.getElem?_append_left hj]
  by_cases hk : k < u.length
  · rw [List.getElem?_append_left hk, List.getElem?_append_left (by rwa [List.length_swap]),
      getElem?_swap hi hj]
  · rw [if_neg (by omega), if_neg (by omega), List.getElem?_append_right (Nat.not_lt.mp hk),
      List.getElem?_append_right (by rw [List.length_swap]; exact Nat.not_lt.mp hk),
      List.length_swap]

/-- What stands behind the entries that are looked at stays there. -/
theorem swapLoop_append {found : α → Bool} {js : List Nat} {u : List α} (v : List α)
    (hi : i < u.length) (inside : ∀ j ∈ js, j < u.length) :
    swapLoop found i js (u ++ v) = swapLoop found i js u ++ v := by
  unfold swapLoop
  induction js generalizing u with
  | nil => rfl
  | cons j js ih =>
    obtain ⟨hj, inside⟩ := List.forall_mem_cons.mp inside
    rw [List.foldl_cons, List.foldl_cons, List.getElem?_append_left hj]
    split
    · rw [swap_append v hi hj]
      exact ih (by rw [List.length_swap]; exact hi) fun j h => by
        rw [List.length_swap]
        exact inside j h
    · exact ih hi inside

variable {β : Type*}

/-- Puts the entries that are found for the columns of another list into their order. -/
def arrange (found : β → α → Bool) (n : Nat) : List β → Nat → List α → List α
  | [], _, t => t
  | x :: xs, i, t => arrange found n xs (i + 1) (swapLoop (found x) i (List.range n) t)

/-- Entries come into an order by exchanges of which none moves an entry away that is in its
place. -/
inductive Settles : List α → List α → List α → Prop
  | nil {done : List α} : Settles done [] []
  | placed {done xs ts : List α} {x : α} : Settles (done ++ [x]) xs ts →
      Settles done (x :: xs) (x :: ts)
  | exchanged {done xs before after : List α} {x y : α} : y ≠ x → x ∉ done → x ∉ before →
      Settles (done ++ [x]) xs (before ++ y :: after) →
        Settles done (x :: xs) (y :: (before ++ x :: after))

/-- Entries of which none is repeated come into any order. -/
theorem settles_of_nodup {done xs ts : List α} (nodup : (done ++ xs).Nodup) (all : xs ⊆ ts)
    (length : ts.length = xs.length) : Settles done xs ts := by
  classical
  induction xs generalizing done ts with
  | nil =>
    rw [List.eq_nil_of_length_eq_zero length]
    exact .nil
  | cons x xs ih =>
    have apart := (List.nodup_append.mp nodup).2.2
    have once := (List.nodup_append.mp nodup).2.1
    have rest : ((done ++ [x]) ++ xs).Nodup := by
      rw [List.append_assoc]
      exact nodup
    have new : ∀ z ∈ xs, z ≠ x := fun z hz same => (List.nodup_cons.mp once).1 (same ▸ hz)
    cases ts with
    | nil => exact absurd length (by simp)
    | cons y ts =>
      by_cases same : y = x
      · subst same
        refine .placed (ih rest (fun z hz => ?_) (Nat.succ.inj length))
        exact (List.mem_cons.mp (all (List.mem_cons_of_mem _ hz))).resolve_left (new z hz)
      · have mem := (List.mem_cons.mp (all List.mem_cons_self)).resolve_left (Ne.symm same)
        obtain ⟨before, after, rfl, fresh⟩ := List.eq_append_cons_of_mem mem
        refine .exchanged same (fun again => apart x again x List.mem_cons_self rfl) fresh
          (ih rest (fun z hz => ?_) ?_)
        · have found := all (List.mem_cons_of_mem x hz)
          have other := new z hz
          simp only [List.mem_cons, List.mem_append] at found ⊢
          tauto
        · simp only [List.length_cons, List.length_append] at length ⊢
          omega

section

variable {found : β → α → Bool} {key : β → α} {n : Nat} {xs : List β} {done ts : List α}

theorem arrange_perm (found : β → α → Bool) (n : Nat) (xs : List β) (i : Nat) (t : List α) :
    (arrange found n xs i t).Perm t := by
  induction xs generalizing i t with
  | nil => exact List.Perm.refl t
  | cons x xs ih => exact (ih _ _).trans (swapLoop_perm _ _ _ _)

theorem arrange_rest {u : List α} (v : List α) (inside : i + xs.length ≤ u.length) :
    arrange found u.length xs i (u ++ v) = arrange found u.length xs i u ++ v := by
  induction xs generalizing i u with
  | nil => rfl
  | cons x xs ih =>
    rw [List.length_cons] at inside
    have same : (swapLoop (found x) i (List.range u.length) u).length = u.length :=
      (swapLoop_perm _ _ _ _).length_eq
    rw [arrange, arrange, swapLoop_append v (by omega) fun j h => List.mem_range.mp h]
    have rest := ih (i := i + 1) (u := swapLoop (found x) i (List.range u.length) u) (by omega)
    rw [same] at rest
    exact rest

/-- An entry that is exchanged with the first one that is found behind it. -/
theorem swap_split (done before after : List α) (x y : α) :
    (done ++ y :: (before ++ x :: after)).swap done.length (done.length + 1 + before.length) =
      done ++ x :: (before ++ y :: after) := by
  refine List.ext_getElem? fun k => ?_
  have length : (done ++ y :: (before ++ x :: after)).length =
      done.length + 1 + before.length + 1 + after.length := by
    simp only [List.length_append, List.length_cons]
    omega
  rw [getElem?_swap (by omega) (by omega)]
  simp only [List.getElem?_append, List.getElem?_cons]
  grind

/-- Entries that come into the order of the list are put into it. -/
theorem arrange_settles (settles : Settles done (xs.map key) ts)
    (only : ∀ x ∈ xs, ∀ y ∈ done ++ ts, found x y = true ↔ y = key x) :
    arrange found (done ++ ts).length xs done.length (done ++ ts) = done ++ xs.map key := by
  induction xs generalizing done ts with
  | nil =>
    cases settles with
    | nil => rfl
  | cons x xs ih =>
    obtain ⟨first, others⟩ := List.forall_mem_cons.mp only
    have length : (done ++ [key x]).length = done.length + 1 := by simp
    rw [List.map_cons] at settles ⊢
    rw [arrange]
    cases settles with
    | @placed _ _ ts _ settles =>
      have whole : done ++ key x :: ts = (done ++ [key x]) ++ ts := by simp
      have inside : done.length < (done ++ key x :: ts).length := by simp
      have here : (done ++ key x :: ts)[done.length]? = some (key x) := by simp
      obtain ⟨j, found_j, least⟩ : ∃ j, (done ++ key x :: ts)[j]? = some (key x) ∧
          ∀ k < j, (done ++ key x :: ts)[k]? ≠ some (key x) := by
        classical
        have exists_index : ∃ j, (done ++ key x :: ts)[j]? = some (key x) := ⟨_, here⟩
        exact ⟨Nat.find exists_index, Nat.find_spec exists_index, fun k less =>
          Nat.find_min exists_index less⟩
      have hj := (List.getElem?_eq_some_iff.mp found_j).1
      rw [swapLoop_eq inside hj first found_j least, swap_same inside hj (here.trans found_j.symm),
        whole, ← length, ih settles (by rw [← whole]; exact others)]
      simp
    | @exchanged _ _ before after _ y ne fresh fresh' settles =>
      have size : (done ++ y :: (before ++ key x :: after)).length =
          done.length + 1 + before.length + 1 + after.length := by
        simp only [List.length_append, List.length_cons]
        omega
      have found_j : (done ++ y :: (before ++ key x :: after))[done.length + 1 + before.length]? =
          some (key x) := by
        simp only [List.getElem?_append, List.getElem?_cons]
        grind
      have least : ∀ k < done.length + 1 + before.length,
          (done ++ y :: (before ++ key x :: after))[k]? ≠ some (key x) := by
        intro k less same
        have split : done ++ y :: (before ++ key x :: after) =
            (done ++ y :: before) ++ key x :: after := by simp
        rw [split, List.getElem?_append_left (by simp; omega)] at same
        have mem := List.mem_of_getElem? same
        rw [List.mem_append, List.mem_cons] at mem
        rcases mem with mem | mem | mem
        · exact fresh mem
        · exact ne mem.symm
        · exact fresh' mem
      have whole : done ++ key x :: (before ++ y :: after) =
          (done ++ [key x]) ++ (before ++ y :: after) := by simp
      have same : (done ++ y :: (before ++ key x :: after)).length =
          ((done ++ [key x]) ++ (before ++ y :: after)).length := by
        simp only [List.length_append, List.length_cons, List.length_nil]
        omega
      rw [swapLoop_eq (by omega) (by omega) first found_j least, swap_split, whole, same, ← length,
        ih settles fun z hz w hw => others z hz w ?_]
      · simp
      · simp only [List.mem_append, List.mem_cons, List.not_mem_nil, or_false] at hw ⊢
        tauto

end

end Exchange

end SortList
