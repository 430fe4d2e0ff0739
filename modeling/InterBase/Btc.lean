import Mathlib.Data.Fintype.Card
import Mathlib.Data.Set.Insert
import InterBase.Library.PrunedTree

namespace InterBase

open LinkedTree

/-- Why a function of the page cache does not return. -/
inductive CacheStop where
  | looping
  | bugcheck (number : Nat)
  | unwound
  deriving DecidableEq

/-- The links of the dirty page tree between the `n` buffers of the cache. -/
abbrev Btree (n : Nat) := Links (Fin n)

section

variable {n : Nat}

/-- Where `while (go (node)) node = go (node)` ends. -/
def descend (go : Fin n → Option (Fin n)) : Nat → Fin n → Except CacheStop (Fin n)
  | 0, _ => .error .looping
  | fuel + 1, node =>
    match go node with
    | none => .ok node
    | some next => descend go fuel next

variable (page : Fin n → Int)

def btcInsertLoop (bdb : Fin n) : Nat → Fin n → Btree n → Except CacheStop (Btree n)
  | 0, _, _ => .error .looping
  | fuel + 1, node, s =>
    if page bdb = page node then .ok s
    else if page bdb < page node then
      match s.left node with
      | none => .ok ((s.setLeft node (some bdb)).setParent bdb (some node))
      | some left => btcInsertLoop bdb fuel left s
    else
      match s.right node with
      | none => .ok ((s.setRight node (some bdb)).setParent bdb (some node))
      | some right => btcInsertLoop bdb fuel right s

def btcInsert (bdb : Fin n) (s : Btree n) : Except CacheStop (Btree n) :=
  if (s.parent bdb).isSome then .ok s
  else
    match s.root with
    | none => .ok { s with root := some bdb }
    | some node => btcInsertLoop page bdb n node s

/-- The new child made out of the left and right children. -/
def btcNewChild (bdb : Fin n) (s : Btree n) : Except CacheStop (Option (Fin n) × Btree n) :=
  match s.left bdb with
  | none => .ok (s.right bdb, s)
  | some child =>
    (descend s.right n child).map fun ptr =>
      (some child, (s.setRight ptr (s.right bdb)).setParentOf (s.right bdb) (some ptr))

/-- The parent is linked with the new child. -/
def btcLinkParent (bdb : Fin n) (newChild : Option (Fin n)) (s : Btree n) : Btree n :=
  match s.parent bdb with
  | none => { s with root := newChild }
  | some parent =>
    if s.left parent = some bdb then s.setLeft parent newChild else s.setRight parent newChild

def btcRemove (bdb : Fin n) (mustWrite dirty : Bool) (s : Btree n) :
    Except CacheStop (Btree n) :=
  if s.root = none ∨
      (s.parent bdb = none ∧ s.left bdb = none ∧ s.right bdb = none ∧ s.root ≠ some bdb) then
    if mustWrite ∨ ¬ dirty then .ok s else .error (.bugcheck 211)
  else
    (btcNewChild bdb s).map fun (newChild, s') =>
      ((btcLinkParent bdb newChild s').setParentOf newChild (s'.parent bdb)).clear bdb

inductive BtcOp (n : Nat) where
  | insert (bdb : Fin n)
  | remove (bdb : Fin n) (mustWrite dirty : Bool)

def btcStep : BtcOp n → Btree n → Except CacheStop (Btree n)
  | .insert bdb, s => btcInsert page bdb s
  | .remove bdb mustWrite dirty, s => btcRemove bdb mustWrite dirty s

def btcRun : List (BtcOp n) → Btree n → Except CacheStop (Btree n)
  | [], s => .ok s
  | op :: ops, s => (btcStep page op s).bind fun s' => btcRun ops s'

def btcEmpty : Btree n := ⟨none, fun _ => none, fun _ => none, fun _ => none⟩

def BtcOp.hold : BtcOp n → Set (Fin n) → Set (Fin n)
  | insert bdb, held => Insert.insert bdb held
  | remove bdb _ _, held => held \ {bdb}

/-- The buffers that are inserted and not yet removed. -/
def btcHeld (ops : List (BtcOp n)) (held : Set (Fin n)) : Set (Fin n) :=
  ops.foldl (fun held op => op.hold held) held

/-- An operation that asks for the removal of a buffer which is worth writing and not there. -/
def BtcMisuse (op : BtcOp n) (held : Set (Fin n)) : Prop :=
  ∃ bdb, op = .remove bdb false true ∧ bdb ∉ held

/-- The links are those of a search tree by page numbers. -/
structure DirtyTree (s : Btree n) (t : LinkTree (Fin n)) : Prop where
  holds : Holds s t
  sorted : t.toList.Pairwise (page · < page ·)

variable {page} {s : Btree n} {t : LinkTree (Fin n)} {fs : List (Frame (Fin n))} {bdb : Fin n}

theorem DirtyTree.nodup (h : DirtyTree page s t) : t.toList.Nodup :=
  h.sorted.imp fun lt e => by
    rw [e] at lt
    exact absurd lt (Int.lt_irrefl _)

theorem DirtyTree.length_le (h : DirtyTree page s t) : t.toList.length ≤ n := by
  have card := h.nodup.length_le_card
  rwa [Fintype.card_fin] at card

theorem descend_right {p : Option (Fin n)} {x : Fin n} {fuel : Nat} (h : Rep s p t)
    (top : t.top = some x) (room : t.toList.length ≤ fuel) :
    ∃ ptr, descend s.right fuel x = .ok ptr ∧ t.toList.getLast? = some ptr := by
  induction t generalizing p x fuel with
  | leaf => simp [LinkTree.top] at top
  | node l y m _ ih =>
    obtain rfl : y = x := Option.some.inj top
    obtain ⟨-, -, right, -, rep⟩ := h
    obtain _ | fuel := fuel
    · simp at room
    cases m with
    | leaf =>
      refine ⟨y, ?_, by simp⟩
      unfold descend
      rw [right]
      rfl
    | node m₁ z m₂ =>
      have less : (LinkTree.node m₁ z m₂).toList.length ≤ fuel := by
        rw [LinkTree.toList_node] at room
        simp only [List.length_append, List.length_cons] at room ⊢
        omega
      obtain ⟨ptr, run, last⟩ := ih rep rfl less
      refine ⟨ptr, ?_, ?_⟩
      · unfold descend
        rw [right]
        exact run
      · rw [LinkTree.toList_node, List.append_cons, List.getLast?_append_of_ne_nil _ (by simp)]
        exact last

/-- The tree stays sorted when nodes leave it. -/
theorem DirtyTree.pruned_sorted (h : DirtyTree page s t) (gone : Fin n → Bool) :
    (t.prune gone).toList.Pairwise (page · < page ·) := by
  rw [LinkTree.toList_prune]
  exact h.sorted.sublist List.filter_sublist

theorem btcLinkParent_eq {s' : Btree n} {l r : LinkTree (Fin n)} {c : Option (Fin n)}
    (h : RepAbove s' (some bdb) fs) (parent : s'.parent bdb = above fs)
    (nodup : (plug fs (.node l bdb r)).toList.Nodup) :
    btcLinkParent bdb c s' = s'.setHole fs c := by
  unfold btcLinkParent
  rw [parent]
  cases fs with
  | nil => rfl
  | cons f fs =>
    cases f with
    | left y m =>
      obtain ⟨-, left, -⟩ := h
      exact if_pos left
    | right m y =>
      obtain ⟨-, left, -⟩ := h
      refine if_neg fun e => ?_
      have mem : bdb ∈ m.toList := LinkTree.top_mem (left.symm.trans e)
      rw [toList_plug] at nodup
      have first := (List.nodup_append.mp (List.nodup_append.mp nodup).1).2.2
      exact first bdb (by simp [before, Frame.before, mem]) bdb (by simp) rfl

theorem btcRemove_spec (h : DirtyTree page s t) (mem : bdb ∈ t.toList) (mustWrite dirty : Bool) :
    ∃ s', btcRemove bdb mustWrite dirty s = .ok s' ∧ DirtyTree page s' (t.prune (· = bdb)) := by
  have nodup := h.nodup
  have there : ¬ (s.root = none ∨
      (s.parent bdb = none ∧ s.left bdb = none ∧ s.right bdb = none ∧ s.root ≠ some bdb)) := by
    rintro (none | ⟨orphan, -, -, other⟩)
    · rw [LinkTree.top_none (h.holds.root.symm.trans none)] at mem
      simp at mem
    · exact (h.holds.parent_or_root mem).elim (fun ne => ne orphan) other
  have sorted := h.pruned_sorted (· = bdb)
  obtain ⟨fs, l, r, rfl⟩ := exists_plug mem
  obtain ⟨around, parent, left, right, repl, -⟩ := h.holds.plug_iff
  rw [prune_single nodup] at sorted ⊢
  cases l with
  | leaf =>
    have child : btcNewChild bdb s = .ok (r.top, s) := by
      unfold btcNewChild
      rw [left, right]
      rfl
    refine ⟨_, ?_, h.holds.remove_leaf nodup, sorted⟩
    unfold btcRemove
    rw [if_neg there, child]
    show Except.ok (((btcLinkParent bdb r.top s).setParentOf r.top (s.parent bdb)).clear bdb) = _
    rw [btcLinkParent_eq around parent nodup, parent]
  | node l₁ z l₂ =>
    have room : (LinkTree.node l₁ z l₂).toList.length ≤ n := by
      have all := h.length_le
      rw [toList_plug, LinkTree.toList_node] at all
      simp only [List.length_append] at all
      omega
    obtain ⟨ptr, run, last⟩ := descend_right repl rfl room
    have child : btcNewChild bdb s = .ok (some z, s.attach ptr r.top) := by
      unfold btcNewChild
      rw [left, right]
      show (descend s.right n z).map _ = _
      rw [run]
      rfl
    obtain ⟨around', same⟩ := h.holds.around_attach nodup last
    have parent' : (s.attach ptr r.top).parent bdb = above fs := same.1.trans parent
    refine ⟨_, ?_, h.holds.remove_node nodup last, sorted⟩
    unfold btcRemove
    rw [if_neg there, child]
    show Except.ok (((btcLinkParent bdb (some z) (s.attach ptr r.top)).setParentOf (some z)
      ((s.attach ptr r.top).parent bdb)).clear bdb) = _
    rw [btcLinkParent_eq around' parent' nodup, parent']
    rfl

theorem btcRemove_absent (h : DirtyTree page s t) (absent : bdb ∉ t.toList)
    (mustWrite dirty : Bool) : btcRemove bdb mustWrite dirty s =
      if mustWrite ∨ ¬ dirty then .ok s else .error (.bugcheck 211) := by
  obtain ⟨parent, left, right⟩ := h.holds.outside bdb absent
  unfold btcRemove
  exact if_pos (.inr ⟨parent, left, right, h.holds.root_ne absent⟩)

/-- Inserting a buffer keeps the tree, whether it is there already or not. -/
theorem btcInsertLoop_spec (distinct : Function.Injective page) {sub : LinkTree (Fin n)}
    {node : Fin n} {fuel : Nat} (h : DirtyTree page s (plug fs sub)) (top : sub.top = some node)
    (room : sub.toList.length ≤ fuel) (low : ∀ x ∈ before fs, page x < page bdb)
    (high : ∀ x ∈ after fs, page bdb < page x) :
    ∃ s' t', btcInsertLoop page bdb fuel node s = .ok s' ∧ DirtyTree page s' t' ∧
      ∀ x, x ∈ t'.toList ↔ x = bdb ∨ x ∈ (plug fs sub).toList := by
  -- below the places where it belongs the search comes to an empty one
  have leaf : ∀ gs, (plug gs .leaf).toList = (plug fs sub).toList →
      DirtyTree page s (plug gs .leaf) → (∀ x ∈ before gs, page x < page bdb) →
      (∀ x ∈ after gs, page bdb < page x) →
      ∃ t', DirtyTree page ((s.setHole gs (some bdb)).setParent bdb (above gs)) t' ∧
        ∀ x, x ∈ t'.toList ↔ x = bdb ∨ x ∈ (plug fs sub).toList := by
    intro gs same h low high
    have listed : (plug gs .leaf).toList = before gs ++ after gs := by
      rw [toList_plug]
      simp
    have fresh : bdb ∉ (plug gs .leaf).toList := by
      rw [listed]
      intro mem
      rcases List.mem_append.mp mem with mem | mem
      · exact Int.lt_irrefl _ (low bdb mem)
      · exact Int.lt_irrefl _ (high bdb mem)
    refine ⟨plug gs (.node .leaf bdb .leaf), ⟨h.holds.insert h.nodup fresh, ?_⟩, ?_⟩
    · have sorted := h.sorted
      rw [listed] at sorted
      rw [toList_plug_node]
      refine List.pairwise_append.mpr ⟨(List.pairwise_append.mp sorted).1, ?_, ?_⟩
      · exact List.pairwise_cons.mpr ⟨high, (List.pairwise_append.mp sorted).2.1⟩
      · intro x hx y hy
        rcases List.mem_cons.mp hy with rfl | hy
        · exact low x hx
        · exact (List.pairwise_append.mp sorted).2.2 x hx y hy
    · intro x
      rw [← same, listed, toList_plug_node]
      simp only [LinkTree.toList_leaf, List.nil_append, List.mem_append, List.mem_cons]
      exact or_left_comm
  induction fuel generalizing fs sub node with
  | zero =>
    have mem := LinkTree.top_mem top
    rw [List.length_eq_zero_iff.mp (Nat.le_zero.mp room)] at mem
    simp at mem
  | succ fuel ih =>
    cases sub with
    | leaf => simp [LinkTree.top] at top
    | node l y r =>
      obtain rfl : y = node := Option.some.inj top
      obtain ⟨-, -, left, right, -, -⟩ := h.holds.plug_iff
      have sorted := h.sorted
      rw [toList_plug_node] at sorted
      have inner := (List.pairwise_append.mp sorted).2.1
      have roots := List.pairwise_append.mp inner
      have above := List.pairwise_cons.mp roots.2.1
      simp only [LinkTree.toList_node, List.length_append, List.length_cons] at room
      unfold btcInsertLoop
      by_cases same : page bdb = page y
      · rw [if_pos same]
        refine ⟨s, _, rfl, h, fun x => ⟨.inr, ?_⟩⟩
        rintro (rfl | mem)
        · rw [toList_plug_node, distinct same]
          simp
        · exact mem
      · rw [if_neg same]
        by_cases less : page bdb < page y
        · rw [if_pos less, left]
          have high' : ∀ x ∈ after (Frame.left y r :: fs), page bdb < page x := by
            intro x hx
            rcases List.mem_cons.mp hx with rfl | hx
            · exact less
            · exact less.trans (above.1 x hx)
          have low' : ∀ x ∈ before (Frame.left y r :: fs), page x < page bdb := by
            intro x hx
            exact low x (by simpa [before, Frame.before] using hx)
          cases l with
          | leaf =>
            obtain ⟨t', h', members⟩ := leaf (.left y r :: fs) rfl h low' high'
            exact ⟨_, t', rfl, h', members⟩
          | node l₁ z l₂ =>
            have top : (LinkTree.node l₁ z l₂).top = some z := rfl
            have next := ih (by exact h) top (by omega) low' high' leaf
            exact next
        · rw [if_neg less, right]
          have more : page y < page bdb := by omega
          have high' : ∀ x ∈ after (Frame.right l y :: fs), page bdb < page x := by
            intro x hx
            exact high x (by simpa [after, Frame.after] using hx)
          have low' : ∀ x ∈ before (Frame.right l y :: fs), page x < page bdb := by
            intro x hx
            simp only [before, Frame.before, List.mem_append, List.mem_singleton] at hx
            rcases hx with hx | hx | rfl
            · exact low x hx
            · exact (roots.2.2 x hx y List.mem_cons_self).trans more
            · exact more
          cases r with
          | leaf =>
            obtain ⟨t', h', members⟩ := leaf (.right l y :: fs) rfl h low' high'
            exact ⟨_, t', rfl, h', members⟩
          | node r₁ z r₂ =>
            have top : (LinkTree.node r₁ z r₂).top = some z := rfl
            have next := ih (by exact h) top (by omega) low' high' leaf
            exact next

theorem btcInsert_spec (distinct : Function.Injective page) (h : DirtyTree page s t)
    (bdb : Fin n) : ∃ s' t', btcInsert page bdb s = .ok s' ∧ DirtyTree page s' t' ∧
      ∀ x, x ∈ t'.toList ↔ x = bdb ∨ x ∈ t.toList := by
  unfold btcInsert
  by_cases linked : (s.parent bdb).isSome
  · rw [if_pos linked]
    refine ⟨s, t, rfl, h, fun x => ⟨.inr, ?_⟩⟩
    rintro (rfl | mem)
    · by_contra absent
      rw [(h.holds.outside x absent).1] at linked
      simp at linked
    · exact mem
  · rw [if_neg linked, h.holds.root]
    cases t with
    | leaf =>
      have root : s.parent bdb = none := Option.not_isSome_iff_eq_none.mp linked
      have hole : Holds s (plug [] .leaf) := h.holds
      have h' := hole.insert List.nodup_nil (List.not_mem_nil (a := bdb))
      have same : (s.setHole [] (some bdb)).setParent bdb (above ([] : List (Frame (Fin n)))) =
          { s with root := some bdb } := by
        show { s with root := some bdb, parent := Function.update s.parent bdb none } = _
        rw [← root, Function.update_eq_self]
      rw [same] at h'
      refine ⟨_, _, rfl, ⟨h', by simp [plug]⟩, fun x => ?_⟩
      simp [plug]
    | node l y r =>
      have top : (LinkTree.node l y r).top = some y := rfl
      have low : ∀ x ∈ before ([] : List (Frame (Fin n))), page x < page bdb := by simp [before]
      have high : ∀ x ∈ after ([] : List (Frame (Fin n))), page bdb < page x := by simp [after]
      exact btcInsertLoop_spec distinct h top h.length_le low high

/-- One operation keeps the tree, or it is a misuse. -/
theorem btcStep_spec (distinct : Function.Injective page) (h : DirtyTree page s t) (op : BtcOp n) :
    (∃ s' t', btcStep page op s = .ok s' ∧ DirtyTree page s' t' ∧
      {x | x ∈ t'.toList} = op.hold {x | x ∈ t.toList}) ∨
    btcStep page op s = .error (.bugcheck 211) ∧ BtcMisuse op {x | x ∈ t.toList} := by
  cases op with
  | insert bdb =>
    obtain ⟨s', t', run, h', members⟩ := btcInsert_spec distinct h bdb
    exact .inl ⟨s', t', run, h', Set.ext members⟩
  | remove bdb mustWrite dirty =>
    by_cases mem : bdb ∈ t.toList
    · obtain ⟨s', run, h'⟩ := btcRemove_spec h mem mustWrite dirty
      refine .inl ⟨s', _, run, h', Set.ext fun x => ?_⟩
      exact LinkTree.mem_prune.trans (and_congr_right fun _ => decide_eq_false_iff_not)
    · have absent := btcRemove_absent h mem mustWrite dirty
      have held : {x | x ∈ t.toList} \ {bdb} = {x | x ∈ t.toList} := by
        refine Set.sdiff_singleton_eq_self ?_
        exact mem
      cases mustWrite with
      | true => exact .inl ⟨s, t, absent, h, held.symm⟩
      | false =>
        cases dirty with
        | false => exact .inl ⟨s, t, absent, h, held.symm⟩
        | true => exact .inr ⟨absent, bdb, rfl, mem⟩

/-- Every run ends, in a search tree of the buffers inserted and not yet removed or in the bugcheck
of a misuse. -/
theorem btcRun_spec (distinct : Function.Injective page) (h : DirtyTree page s t)
    (ops : List (BtcOp n)) :
    (∃ s' t', btcRun page ops s = .ok s' ∧ DirtyTree page s' t' ∧
      {x | x ∈ t'.toList} = btcHeld ops {x | x ∈ t.toList}) ∨
    btcRun page ops s = .error (.bugcheck 211) ∧
      ∃ done op rest, ops = done ++ op :: rest ∧
        BtcMisuse op (btcHeld done {x | x ∈ t.toList}) := by
  induction ops generalizing s t with
  | nil => exact .inl ⟨s, t, rfl, h, rfl⟩
  | cons op ops ih =>
    rcases btcStep_spec distinct h op with ⟨s', t', run, h', held⟩ | ⟨stop, misuse⟩
    · have next : btcRun page (op :: ops) s = btcRun page ops s' := by
        unfold btcRun
        rw [run]
        cases ops <;> rfl
      rw [next]
      rcases ih h' with ⟨s'', t'', run', h'', held'⟩ | ⟨stop, done, o, rest, rfl, misuse⟩
      · refine .inl ⟨s'', t'', run', h'', held'.trans ?_⟩
        rw [held]
        rfl
      · refine .inr ⟨stop, op :: done, o, rest, rfl, ?_⟩
        rw [held] at misuse
        exact misuse
    · refine .inr ⟨?_, [], op, ops, rfl, misuse⟩
      unfold btcRun
      rw [stop]
      rfl

theorem dirtyTree_empty : DirtyTree page (btcEmpty : Btree n) .leaf where
  holds := ⟨rfl, trivial, fun _ _ => ⟨rfl, rfl, rfl⟩⟩
  sorted := List.Pairwise.nil

end

end InterBase
