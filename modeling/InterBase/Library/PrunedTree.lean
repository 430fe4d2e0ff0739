import InterBase.Library.LinkedTree

namespace LinkedTree

variable {α : Type*} {gone gone' : α → Bool} {fs : List (Frame α)} {t t' t'' l r : LinkTree α} {x : α}

namespace LinkTree

theorem splice_leaf (l : LinkTree α) : l.splice leaf = l := by
  induction l with
  | leaf => rfl
  | node l x m _ ih =>
    show node l x (m.splice leaf) = _
    rw [ih]

theorem splice_assoc (l m r : LinkTree α) : (l.splice m).splice r = l.splice (m.splice r) := by
  induction l with
  | leaf => rfl
  | node l x k _ ih =>
    show node l x ((k.splice m).splice r) = node l x (k.splice (m.splice r))
    rw [ih]

/-- Some nodes are removed, and what was below each of them is joined. -/
def prune (gone : α → Bool) : LinkTree α → LinkTree α
  | leaf => leaf
  | node l x r =>
    if gone x then (l.prune gone).splice (r.prune gone) else node (l.prune gone) x (r.prune gone)

theorem prune_gone (h : gone x = true) :
    (node l x r).prune gone = (l.prune gone).splice (r.prune gone) := if_pos h

theorem prune_kept (h : gone x = false) :
    (node l x r).prune gone = node (l.prune gone) x (r.prune gone) :=
  if_neg (by simp [h])

theorem toList_prune (gone : α → Bool) (t : LinkTree α) :
    (t.prune gone).toList = t.toList.filter fun x => ! gone x := by
  induction t with
  | leaf => rfl
  | node l x r ihl ihr =>
    rw [toList_node, List.filter_append, List.filter_cons]
    cases h : gone x with
    | true => rw [prune_gone h, toList_splice, ihl, ihr, if_neg (by simp)]
    | false => rw [prune_kept h, toList_node, ihl, ihr, if_pos (by simp)]

theorem mem_prune : x ∈ (t.prune gone).toList ↔ x ∈ t.toList ∧ gone x = false := by
  rw [toList_prune, List.mem_filter, Bool.not_eq_true']

theorem prune_splice (l r : LinkTree α) :
    (l.splice r).prune gone = (l.prune gone).splice (r.prune gone) := by
  induction l with
  | leaf => rfl
  | node l x m _ ih =>
    show (node l x (m.splice r)).prune gone = _
    cases h : gone x with
    | true => rw [prune_gone h, prune_gone h, ih, splice_assoc]
    | false =>
      rw [prune_kept h, prune_kept h, ih]
      rfl

/-- The order in which nodes are removed makes no difference. -/
theorem prune_prune (t : LinkTree α) :
    (t.prune gone).prune gone' = t.prune fun x => gone x || gone' x := by
  induction t with
  | leaf => rfl
  | node l x r ihl ihr =>
    cases h : gone x with
    | true =>
      rw [prune_gone h, prune_splice, ihl, ihr]
      exact (prune_gone (by simp [h])).symm
    | false =>
      rw [prune_kept h]
      cases h' : gone' x with
      | true =>
        rw [prune_gone h', ihl, ihr]
        exact (prune_gone (by simp [h'])).symm
      | false =>
        rw [prune_kept h', ihl, ihr]
        exact (prune_kept (by simp [h, h'])).symm

theorem prune_none (none : ∀ x ∈ t.toList, gone x = false) : t.prune gone = t := by
  induction t with
  | leaf => rfl
  | node l x r ihl ihr =>
    rw [prune_kept (none x (by simp)), ihl fun y hy => none y (by simp [hy]),
      ihr fun y hy => none y (by simp [hy])]

end LinkTree

open LinkTree

theorem prune_plug (none : ∀ y, y ∈ before fs ∨ y ∈ after fs → gone y = false) :
    (plug fs t).prune gone = plug fs (t.prune gone) := by
  induction fs generalizing t with
  | nil => rfl
  | cons f fs ih =>
    have outer : ∀ y, y ∈ before fs ∨ y ∈ after fs → gone y = false := fun y hy =>
      none y (hy.imp (List.mem_append_left _) (List.mem_append_right _))
    refine (ih outer).trans ?_
    cases f with
    | left y k =>
      have kept : ∀ z ∈ (Frame.left y k).after, gone z = false := fun z hz =>
        none z (.inr (List.mem_append_left _ hz))
      show plug fs ((LinkTree.node t y k).prune gone) = plug fs (.node (t.prune gone) y k)
      rw [prune_kept (kept y (by simp [Frame.after])),
        prune_none (t := k) fun z hz => kept z (by simp [Frame.after, hz])]
    | right k y =>
      have kept : ∀ z ∈ (Frame.right k y).before, gone z = false := fun z hz =>
        none z (.inl (List.mem_append_right _ hz))
      show plug fs ((LinkTree.node k y t).prune gone) = plug fs (.node k y (t.prune gone))
      rw [prune_kept (kept y (by simp [Frame.before])),
        prune_none (t := k) fun z hz => kept z (by simp [Frame.before, hz])]

/-- A single node is removed. -/
theorem prune_single [DecidableEq α] (nodup : (plug fs (.node l x r)).toList.Nodup) :
    (plug fs (.node l x r)).prune (· = x) = plug fs (l.splice r) := by
  rw [toList_plug_node, ← List.append_assoc] at nodup
  have gone := (List.nodup_cons.mp (List.nodup_middle.mp nodup)).1
  simp only [List.mem_append, not_or] at gone
  have other : ∀ y, y ≠ x → decide (y = x) = false := fun y ne => decide_eq_false ne
  rw [prune_plug, prune_gone (by simp), prune_none (t := l), prune_none (t := r)]
  · rintro y hy
    exact other y fun e => gone.2.1 (e ▸ hy)
  · rintro y hy
    exact other y fun e => gone.1.2 (e ▸ hy)
  · rintro y (hy | hy)
    · exact other y fun e => gone.1.1 (e ▸ hy)
    · exact other y fun e => gone.2.2 (e ▸ hy)

/-- What is joined to a tree goes below the last places of it, behind which there is nothing. -/
theorem exists_spine (l : LinkTree α) :
    ∃ gs : List (Frame α), after gs = [] ∧ ∀ m, l.splice m = plug gs m := by
  induction l with
  | leaf => exact ⟨[], rfl, fun _ => rfl⟩
  | node l x k _ ih =>
    obtain ⟨gs, last, same⟩ := ih
    refine ⟨gs ++ [.right l x], ?_, fun m => ?_⟩
    · have app : ∀ hs : List (Frame α), after (hs ++ [Frame.right l x]) = after hs := by
        intro hs
        induction hs with
        | nil => rfl
        | cons h hs ih => exact congrArg (h.after ++ ·) ih
      exact (app gs).trans last
    · rw [plug_append, ← same]
      rfl

theorem after_append (gs fs : List (Frame α)) : after (gs ++ fs) = after gs ++ after fs := by
  induction gs with
  | nil => rfl
  | cons g gs ih =>
    show g.after ++ after (gs ++ fs) = (g.after ++ after gs) ++ after fs
    rw [ih, List.append_assoc]

/-- A subtree stays where it is, and only nodes that stood behind it are joined to it. -/
theorem exists_prune_plug (gone : α → Bool) (fs : List (Frame α)) (t : LinkTree α) :
    ∃ fs' joined, (plug fs t).prune gone = plug fs' ((t.prune gone).splice joined) ∧
      (∀ x ∈ joined.toList, x ∈ after fs) ∧ ∀ x ∈ after fs', x ∈ after fs := by
  induction fs generalizing t with
  | nil => exact ⟨[], .leaf, (splice_leaf _).symm, fun _ h => h, fun _ h => h⟩
  | cons f fs ih =>
    obtain ⟨fs', joined, tree, inside, behind⟩ := ih (f.fill t)
    cases f with
    | left y k =>
      have tree : (plug fs (.node t y k)).prune gone =
        plug fs' (((LinkTree.node t y k).prune gone).splice joined) := tree
      have rest : ∀ x ∈ ((k.prune gone).splice joined).toList,
          x ∈ after (Frame.left y k :: fs) := by
        intro x hx
        rw [toList_splice, List.mem_append] at hx
        rcases hx with hx | hx
        · exact List.mem_append_left _ (List.mem_cons_of_mem _ (mem_prune.mp hx).1)
        · exact List.mem_append_right _ (inside x hx)
      cases h : gone y with
      | true =>
        rw [prune_gone h, splice_assoc] at tree
        exact ⟨fs', _, tree, rest, fun x hx => List.mem_append_right _ (behind x hx)⟩
      | false =>
        rw [prune_kept h] at tree
        refine ⟨.left y ((k.prune gone).splice joined) :: fs', .leaf, ?_, by simp, ?_⟩
        · rw [splice_leaf]
          exact tree
        · intro x hx
          rcases List.mem_append.mp hx with hx | hx
          · rcases List.mem_cons.mp hx with rfl | hx
            · exact List.mem_append_left _ List.mem_cons_self
            · exact rest x hx
          · exact List.mem_append_right _ (behind x hx)
    | right k y =>
      have tree : (plug fs (.node k y t)).prune gone =
        plug fs' (((LinkTree.node k y t).prune gone).splice joined) := tree
      cases h : gone y with
      | true =>
        obtain ⟨gs, last, spine⟩ := exists_spine (k.prune gone)
        rw [prune_gone h, splice_assoc, spine, ← plug_append] at tree
        refine ⟨gs ++ fs', joined, tree, inside, fun x hx => ?_⟩
        rw [after_append, last] at hx
        exact behind x hx
      | false =>
        rw [prune_kept h] at tree
        exact ⟨.right (k.prune gone) y :: fs', joined, tree, inside, behind⟩

/-- Some nodes have been removed. -/
def Pruned (t t' : LinkTree α) : Prop := ∃ gone, t' = t.prune gone

theorem Pruned.refl (t : LinkTree α) : Pruned t t :=
  ⟨fun _ => false, (prune_none fun _ _ => rfl).symm⟩

theorem Pruned.trans (h : Pruned t t') (h' : Pruned t' t'') : Pruned t t'' := by
  obtain ⟨gone, rfl⟩ := h
  obtain ⟨gone', rfl⟩ := h'
  exact ⟨_, prune_prune t⟩

theorem Pruned.mem (h : Pruned t t') (mem : x ∈ t'.toList) : x ∈ t.toList := by
  obtain ⟨gone, rfl⟩ := h
  exact (mem_prune.mp mem).1

/-- A node that is still there has below it, to the right, what is left of what was there, and
behind this only nodes that stood behind. -/
theorem Pruned.right (h : Pruned (plug fs (.node l x r)) t') (stays : x ∈ t'.toList) :
    ∃ fs' l' r' joined, t' = plug fs' (.node l' x (r'.splice joined)) ∧ Pruned r r' ∧
      (∀ y ∈ joined.toList, y ∈ after fs) ∧ ∀ y ∈ after fs', y ∈ after fs := by
  obtain ⟨gone, rfl⟩ := h
  obtain ⟨fs', joined, tree, inside, behind⟩ := exists_prune_plug gone fs (.node l x r)
  rw [prune_kept (mem_prune.mp stays).2] at tree
  exact ⟨fs', _, _, joined, tree, ⟨gone, rfl⟩, inside, behind⟩

end LinkedTree
