import Mathlib.Data.List.Nodup
import Mathlib.Logic.Function.Basic
import Mathlib.Logic.Relation
import Mathlib.Tactic.Common

namespace LinkedTree

variable {α : Type*}

inductive LinkTree (α : Type*) where
  | leaf
  | node (left : LinkTree α) (x : α) (right : LinkTree α)

namespace LinkTree

def top : LinkTree α → Option α
  | leaf => none
  | node _ x _ => some x

/-- The nodes in order. -/
def toList : LinkTree α → List α
  | leaf => []
  | node l x r => l.toList ++ x :: r.toList

@[simp] theorem toList_leaf : (leaf : LinkTree α).toList = [] := rfl

@[simp] theorem toList_node (l r : LinkTree α) (x : α) :
    (node l x r).toList = l.toList ++ x :: r.toList := rfl

/-- `r` goes below the last node of `l`. -/
def splice : LinkTree α → LinkTree α → LinkTree α
  | leaf, r => r
  | node l x m, r => node l x (m.splice r)

@[simp] theorem toList_splice (l r : LinkTree α) : (l.splice r).toList = l.toList ++ r.toList := by
  induction l with
  | leaf => rfl
  | node l x m _ ih =>
    show l.toList ++ x :: (m.splice r).toList = (l.toList ++ x :: m.toList) ++ r.toList
    rw [ih, List.append_assoc, List.cons_append]

theorem top_mem {t : LinkTree α} {x : α} (h : t.top = some x) : x ∈ t.toList := by
  cases t with
  | leaf => simp [top] at h
  | node l y r =>
    cases h
    simp

theorem top_none {t : LinkTree α} (h : t.top = none) : t = leaf := by
  cases t with
  | leaf => rfl
  | node l y r => simp [top] at h

end LinkTree

/-- A place above a subtree: the node, and the other child of it. -/
inductive Frame (α : Type*) where
  | left (x : α) (right : LinkTree α)
  | right (left : LinkTree α) (x : α)

namespace Frame

def node : Frame α → α
  | left x _ => x
  | right _ x => x

def other : Frame α → LinkTree α
  | left _ r => r
  | right l _ => l

def fill : Frame α → LinkTree α → LinkTree α
  | left x r, t => .node t x r
  | right l x, t => .node l x t

/-- The nodes that stand before the subtree in order. -/
def before : Frame α → List α
  | left _ _ => []
  | right l x => l.toList ++ [x]

def after : Frame α → List α
  | left x r => x :: r.toList
  | right _ _ => []

theorem toList_fill (f : Frame α) (t : LinkTree α) :
    (f.fill t).toList = f.before ++ t.toList ++ f.after := by
  cases f with
  | left x r => simp [fill, before, after]
  | right l x => simp [fill, before, after]

end Frame

/-- The tree whose subtree below the places is `t`. -/
def plug : List (Frame α) → LinkTree α → LinkTree α
  | [], t => t
  | f :: fs, t => plug fs (f.fill t)

def above : List (Frame α) → Option α
  | [] => none
  | f :: _ => some f.node

def before : List (Frame α) → List α
  | [] => []
  | f :: fs => before fs ++ f.before

def after : List (Frame α) → List α
  | [] => []
  | f :: fs => f.after ++ after fs

theorem toList_plug (fs : List (Frame α)) (t : LinkTree α) :
    (plug fs t).toList = before fs ++ t.toList ++ after fs := by
  induction fs generalizing t with
  | nil => simp [plug, before, after]
  | cons f fs ih =>
    unfold plug before after
    rw [ih, Frame.toList_fill]
    simp only [List.append_assoc]

theorem plug_append (fs gs : List (Frame α)) (t : LinkTree α) :
    plug (fs ++ gs) t = plug gs (plug fs t) := by
  induction fs generalizing t with
  | nil => rfl
  | cons f fs ih => exact ih (f.fill t)

/-- Every node is the top of a subtree. -/
theorem exists_plug {t : LinkTree α} {x : α} (h : x ∈ t.toList) :
    ∃ fs l r, t = plug fs (.node l x r) := by
  induction t with
  | leaf => simp at h
  | node l y r ihl ihr =>
    obtain hl | rfl | hr : x ∈ l.toList ∨ x = y ∨ x ∈ r.toList := by simpa using h
    · obtain ⟨fs, l', r', rfl⟩ := ihl hl
      exact ⟨fs ++ [.left y r], l', r', by rw [plug_append]; rfl⟩
    · exact ⟨[], l, r, rfl⟩
    · obtain ⟨fs, l', r', rfl⟩ := ihr hr
      exact ⟨fs ++ [.right l y], l', r', by rw [plug_append]; rfl⟩

/-- The pointers of a tree and of its nodes. -/
structure Links (α : Type*) where
  root : Option α
  left : α → Option α
  right : α → Option α
  parent : α → Option α

section

variable {s s' : Links α} {fs : List (Frame α)} {t l r : LinkTree α} {x : α} {p : Option α}

/-- The node has the same links. -/
def Same (s s' : Links α) (x : α) : Prop :=
  s'.parent x = s.parent x ∧ s'.left x = s.left x ∧ s'.right x = s.right x

/-- The links of the nodes of the subtree, whose top has the parent `p`. -/
def Rep (s : Links α) : Option α → LinkTree α → Prop
  | _, .leaf => True
  | p, .node l x r => s.parent x = p ∧ s.left x = l.top ∧ s.right x = r.top ∧
      Rep s (some x) l ∧ Rep s (some x) r

/-- The links around a subtree whose top is `p`. -/
def RepAbove (s : Links α) : Option α → List (Frame α) → Prop
  | p, [] => s.root = p
  | p, .left x r :: fs => s.parent x = above fs ∧ s.left x = p ∧ s.right x = r.top ∧
      Rep s (some x) r ∧ RepAbove s (some x) fs
  | p, .right l x :: fs => s.parent x = above fs ∧ s.left x = l.top ∧ s.right x = p ∧
      Rep s (some x) l ∧ RepAbove s (some x) fs

/-- The links are those of the tree; a node outside it has none. -/
structure Holds (s : Links α) (t : LinkTree α) : Prop where
  root : s.root = t.top
  rep : Rep s none t
  outside : ∀ x, x ∉ t.toList → s.parent x = none ∧ s.left x = none ∧ s.right x = none

theorem rep_plug : s.root = (plug fs t).top ∧ Rep s none (plug fs t) ↔
    RepAbove s t.top fs ∧ Rep s (above fs) t := by
  induction fs generalizing t with
  | nil => exact Iff.rfl
  | cons f fs ih =>
    refine ih.trans ?_
    cases f with
    | left y r =>
      simp only [RepAbove, Rep, Frame.fill, above, Frame.node, LinkTree.top]
      tauto
    | right l y =>
      simp only [RepAbove, Rep, Frame.fill, above, Frame.node, LinkTree.top]
      tauto

theorem Holds.plug_iff (h : Holds s (plug fs t)) :
    RepAbove s t.top fs ∧ Rep s (above fs) t :=
  rep_plug.mp ⟨h.root, h.rep⟩

/-- A node of the tree is the root or has a parent. -/
theorem Holds.parent_or_root (h : Holds s t) (mem : x ∈ t.toList) :
    s.parent x ≠ none ∨ s.root = some x := by
  obtain ⟨fs, l, r, rfl⟩ := exists_plug mem
  obtain ⟨around, parent, -⟩ := h.plug_iff
  cases fs with
  | nil => exact .inr around
  | cons f fs =>
    left
    rw [parent]
    exact Option.some_ne_none _

theorem Holds.root_ne (h : Holds s t) (absent : x ∉ t.toList) : s.root ≠ some x := by
  intro e
  exact absent (LinkTree.top_mem (h.root ▸ e))

theorem Rep.congr (h : Rep s p t) (same : ∀ x ∈ t.toList, Same s s' x) : Rep s' p t := by
  induction t generalizing p with
  | leaf => trivial
  | node l y r ihl ihr =>
    obtain ⟨hp, hl, hr, repl, repr⟩ := h
    simp only [LinkTree.toList_node, List.mem_append, List.mem_cons] at same
    obtain ⟨sp, sl, sr⟩ := same y (.inr (.inl rfl))
    refine ⟨sp.trans hp, sl.trans hl, sr.trans hr, ?_, ?_⟩
    · exact ihl repl fun x hx => same x (.inl hx)
    · exact ihr repr fun x hx => same x (.inr (.inr hx))

theorem RepAbove.congr (h : RepAbove s p fs) (root : s'.root = s.root)
    (same : ∀ x, x ∈ before fs ∨ x ∈ after fs → Same s s' x) : RepAbove s' p fs := by
  induction fs generalizing p with
  | nil => exact root.trans h
  | cons f fs ih =>
    simp only [before, after, List.mem_append] at same
    cases f with
    | left y r =>
      obtain ⟨hp, hl, hr, rep, rest⟩ := h
      simp only [Frame.before, Frame.after, List.mem_cons] at same
      obtain ⟨sp, sl, sr⟩ := same y (.inr (.inl (.inl rfl)))
      refine ⟨sp.trans hp, sl.trans hl, sr.trans hr, ?_, ?_⟩
      · exact rep.congr fun x hx => same x (.inr (.inl (.inr hx)))
      · exact ih rest fun x hx => same x (hx.imp .inl .inr)
    | right l y =>
      obtain ⟨hp, hl, hr, rep, rest⟩ := h
      simp only [Frame.before, Frame.after, List.mem_append, List.mem_singleton] at same
      obtain ⟨sp, sl, sr⟩ := same y (.inl (.inr (.inr rfl)))
      refine ⟨sp.trans hp, sl.trans hl, sr.trans hr, ?_, ?_⟩
      · exact rep.congr fun x hx => same x (.inl (.inr (.inl hx)))
      · exact ih rest fun x hx => same x (hx.imp .inl .inr)

theorem Same.trans {s₁ s₂ s₃ : Links α} (h : Same s₁ s₂ x) (h' : Same s₂ s₃ x) :
    Same s₁ s₃ x :=
  ⟨h'.1.trans h.1, h'.2.1.trans h.2.1, h'.2.2.trans h.2.2⟩

theorem above_mem (h : above fs = some x) : x ∈ before fs ∨ x ∈ after fs := by
  cases fs with
  | nil => simp [above] at h
  | cons f fs =>
    cases f with
    | left y r =>
      cases h
      exact .inr (by simp [after, Frame.after, Frame.node])
    | right l y =>
      cases h
      exact .inl (by simp [before, Frame.before, Frame.node])

theorem splice_top (h : l ≠ .leaf) : (l.splice r).top = l.top := by
  cases l with
  | leaf => exact absurd rfl h
  | node l x m => rfl

theorem toList_plug_node : (plug fs (.node l x r)).toList =
    before fs ++ (l.toList ++ x :: (r.toList ++ after fs)) := by
  rw [toList_plug]
  simp

theorem toList_plug_splice : (plug fs (l.splice r)).toList =
    before fs ++ (l.toList ++ (r.toList ++ after fs)) := by
  rw [toList_plug, LinkTree.toList_splice, List.append_assoc, List.append_assoc]

/-- Once the node is gone, the others still are distinct. -/
theorem nodup_splice (nodup : (plug fs (.node l x r)).toList.Nodup) :
    x ∉ (plug fs (l.splice r)).toList ∧ (plug fs (l.splice r)).toList.Nodup := by
  rw [toList_plug_node, ← List.append_assoc] at nodup
  rw [toList_plug_splice, ← List.append_assoc]
  exact List.nodup_cons.mp (List.nodup_middle.mp nodup)

end

namespace Links

variable [DecidableEq α]

def setLeft (x : α) (p : Option α) (s : Links α) : Links α :=
  { s with left := Function.update s.left x p }

def setRight (x : α) (p : Option α) (s : Links α) : Links α :=
  { s with right := Function.update s.right x p }

def setParent (x : α) (p : Option α) (s : Links α) : Links α :=
  { s with parent := Function.update s.parent x p }

/-- Where there is such a node, it gets the parent. -/
def setParentOf (c p : Option α) (s : Links α) : Links α :=
  match c with
  | none => s
  | some x => s.setParent x p

/-- The pointer to the subtree below the places. -/
def setHole (fs : List (Frame α)) (c : Option α) (s : Links α) : Links α :=
  match fs with
  | [] => { s with root := c }
  | .left x _ :: _ => s.setLeft x c
  | .right _ x :: _ => s.setRight x c

def clear (x : α) (s : Links α) : Links α :=
  ((s.setLeft x none).setRight x none).setParent x none

theorem same_setLeft {s : Links α} {x y : α} {p : Option α} (h : y ≠ x) :
    Same s (s.setLeft x p) y :=
  ⟨rfl, Function.update_of_ne h _ _, rfl⟩

theorem same_setRight {s : Links α} {x y : α} {p : Option α} (h : y ≠ x) :
    Same s (s.setRight x p) y :=
  ⟨rfl, rfl, Function.update_of_ne h _ _⟩

theorem same_setParent {s : Links α} {x y : α} {p : Option α} (h : y ≠ x) :
    Same s (s.setParent x p) y :=
  ⟨Function.update_of_ne h _ _, rfl, rfl⟩

theorem same_setParentOf {s : Links α} {y : α} {c p : Option α} (h : c ≠ some y) :
    Same s (s.setParentOf c p) y := by
  cases c with
  | none => exact ⟨rfl, rfl, rfl⟩
  | some x => exact same_setParent fun e => h (congrArg some e.symm)

theorem same_setHole {s : Links α} {y : α} {fs : List (Frame α)} {c : Option α}
    (h : above fs ≠ some y) : Same s (s.setHole fs c) y := by
  cases fs with
  | nil => exact ⟨rfl, rfl, rfl⟩
  | cons f fs =>
    cases f with
    | left x r => exact same_setLeft fun e => h (congrArg some e.symm)
    | right l x => exact same_setRight fun e => h (congrArg some e.symm)

theorem same_clear {s : Links α} {x y : α} (h : y ≠ x) : Same s (s.clear x) y :=
  ⟨Function.update_of_ne h _ _, Function.update_of_ne h _ _, Function.update_of_ne h _ _⟩

theorem setParentOf_root {s : Links α} {c p : Option α} : (s.setParentOf c p).root = s.root := by
  cases c with
  | none => rfl
  | some x => rfl

end Links

section

variable [DecidableEq α] {s : Links α} {fs : List (Frame α)} {t l r : LinkTree α} {x y ptr : α}
  {p q c : Option α}

/-- The top of a subtree gets another parent. -/
theorem Rep.setParentOf (h : Rep s p t) (nodup : t.toList.Nodup) :
    Rep (s.setParentOf t.top q) q t := by
  cases t with
  | leaf => trivial
  | node l x r =>
    obtain ⟨hp, hl, hr, repl, repr⟩ := h
    have split := List.nodup_middle.mp nodup
    have fresh : ∀ a ∈ l.toList ++ r.toList, a ≠ x := fun a ha e =>
      (List.nodup_cons.mp split).1 (e ▸ ha)
    refine ⟨Function.update_self .., hl, hr, ?_, ?_⟩
    · exact repl.congr fun a ha => Links.same_setParent (fresh a (List.mem_append_left _ ha))
    · exact repr.congr fun a ha => Links.same_setParent (fresh a (List.mem_append_right _ ha))

/-- Another subtree is put below the places. -/
theorem RepAbove.setHole (h : RepAbove s p fs) (nodup : (before fs ++ after fs).Nodup) :
    RepAbove (s.setHole fs c) c fs := by
  cases fs with
  | nil => rfl
  | cons f fs =>
    cases f with
    | left y r =>
      obtain ⟨hp, hl, hr, rep, rest⟩ := h
      have split : (y :: (before fs ++ (r.toList ++ after fs))).Nodup := by
        refine List.nodup_middle.mp ?_
        simpa [before, after, Frame.before, Frame.after] using nodup
      have fresh : ∀ a ∈ before fs ++ (r.toList ++ after fs), a ≠ y := fun a ha e =>
        (List.nodup_cons.mp split).1 (e ▸ ha)
      simp only [List.mem_append] at fresh
      refine ⟨hp, Function.update_self .., hr, ?_, ?_⟩
      · exact rep.congr fun a ha => Links.same_setLeft (fresh a (.inr (.inl ha)))
      · exact rest.congr rfl fun a ha => Links.same_setLeft (fresh a (ha.imp_right .inr))
    | right l y =>
      obtain ⟨hp, hl, hr, rep, rest⟩ := h
      have split : (y :: ((before fs ++ l.toList) ++ after fs)).Nodup := by
        refine List.nodup_middle.mp ?_
        simpa [before, after, Frame.before, Frame.after] using nodup
      have fresh : ∀ a ∈ (before fs ++ l.toList) ++ after fs, a ≠ y := fun a ha e =>
        (List.nodup_cons.mp split).1 (e ▸ ha)
      simp only [List.mem_append] at fresh
      refine ⟨hp, hl, Function.update_self .., ?_, ?_⟩
      · exact rep.congr fun a ha => Links.same_setRight (fresh a (.inl (.inr ha)))
      · exact rest.congr rfl fun a ha => Links.same_setRight (fresh a (ha.imp_left .inl))

/-- The last node of the first tree gets the second one as its right child. -/
theorem Rep.splice (hl : Rep s p l) (hr : Rep s q r) (nodup : (l.toList ++ r.toList).Nodup)
    (last : l.toList.getLast? = some ptr) :
    Rep ((s.setRight ptr r.top).setParentOf r.top (some ptr)) p (l.splice r) := by
  induction l generalizing p with
  | leaf => simp at last
  | node l y m _ ih =>
    obtain ⟨hp, left, right, repl, repm⟩ := hl
    have apart : ∀ a ∈ (LinkTree.node l y m).toList, r.top ≠ some a := fun a ha e =>
      (List.nodup_append.mp nodup).2.2 a ha a (LinkTree.top_mem e) rfl
    have nodupl := (List.nodup_append.mp nodup).1
    have nodupr := (List.nodup_append.mp nodup).2.1
    have mem : ptr ∈ (LinkTree.node l y m).toList := List.mem_of_getLast? last
    have top := Links.same_setParentOf (s := s.setRight ptr r.top) (p := some ptr)
      (apart y (by simp))
    cases m with
    | leaf =>
      obtain rfl : y = ptr := by simpa using last
      have fresh : ∀ a ∈ l.toList, a ≠ y := by
        rintro a ha rfl
        exact (List.nodup_cons.mp (List.nodup_middle.mp nodupl)).1 (List.mem_append_left _ ha)
      refine ⟨top.1.trans hp, top.2.1.trans left, top.2.2.trans (Function.update_self ..), ?_, ?_⟩
      · refine repl.congr fun a ha => ?_
        exact (Links.same_setRight (fresh a ha)).trans
          (Links.same_setParentOf (apart a (by simp [ha])))
      · refine Rep.setParentOf (hr.congr fun a ha => ?_) nodupr
        refine Links.same_setRight ?_
        rintro rfl
        exact (List.nodup_append.mp nodup).2.2 _ mem _ ha rfl
    | node m₁ z m₂ =>
      have last' : (LinkTree.node m₁ z m₂).toList.getLast? = some ptr := by
        rw [LinkTree.toList_node, List.append_cons] at last
        rwa [List.getLast?_append_of_ne_nil _ (by simp)] at last
      have inside := List.mem_of_getLast? last'
      have split := List.nodup_middle.mp nodupl
      have fresh : ∀ a ∈ l.toList ++ [y], a ≠ ptr := by
        rintro a ha rfl
        rcases List.mem_append.mp ha with ha | ha
        · have := (List.nodup_append.mp (List.nodup_cons.mp split).2).2.2
          exact this a ha a inside rfl
        · obtain rfl := List.mem_singleton.mp ha
          exact (List.nodup_cons.mp split).1 (List.mem_append_right _ inside)
      have other : (s.setRight ptr r.top).right y = s.right y :=
        (Links.same_setRight (fresh y (by simp))).2.2
      refine ⟨top.1.trans hp, top.2.1.trans left, (top.2.2.trans other).trans right, ?_, ?_⟩
      · refine repl.congr fun a ha => ?_
        exact (Links.same_setRight (fresh a (by simp [ha]))).trans
          (Links.same_setParentOf (apart a (by simp [ha])))
      · refine ih repm ?_ last'
        refine nodup.sublist (List.Sublist.append_right ?_ _)
        exact (List.sublist_cons_self y _).trans (List.sublist_append_right _ _)

/-- The subtree `t` takes the place of the one at `x`, which leaves the tree. -/
theorem RepAbove.replace (h : RepAbove s (some x) fs) (rep : Rep s p t)
    (nodup : (plug fs t).toList.Nodup) (gone : x ∉ (plug fs t).toList)
    (outside : ∀ y, y ∉ (plug fs t).toList → y ≠ x →
      s.parent y = none ∧ s.left y = none ∧ s.right y = none) :
    Holds (((s.setHole fs t.top).setParentOf t.top (above fs)).clear x) (plug fs t) := by
  have listed := toList_plug fs t
  rw [List.append_assoc] at listed
  have inside : ∀ y ∈ t.toList, y ∈ (plug fs t).toList := by
    intro y hy
    rw [listed]
    simp [hy]
  have around : ∀ y, y ∈ before fs ∨ y ∈ after fs → y ∈ (plug fs t).toList := by
    intro y hy
    rw [listed]
    rcases hy with hy | hy <;> simp [hy]
  rw [listed] at nodup
  have holeNodup : (before fs ++ after fs).Nodup :=
    nodup.sublist (List.Sublist.append_left (List.sublist_append_right _ _) _)
  have apart : ∀ y ∈ t.toList, ∀ z, z ∈ before fs ∨ z ∈ after fs → y ≠ z := by
    rintro y hy z hz rfl
    have whole := List.nodup_append.mp nodup
    rcases hz with hz | hz
    · exact whole.2.2 y hz y (List.mem_append_left _ hy) rfl
    · exact (List.nodup_append.mp whole.2.1).2.2 y hy y hz rfl
  have holeOf : ∀ y ∈ t.toList, above fs ≠ some y := fun y hy e => apart y hy y (above_mem e) rfl
  have rep' : Rep (((s.setHole fs t.top).setParentOf t.top (above fs)).clear x) (above fs) t := by
    refine Rep.congr (s := (s.setHole fs t.top).setParentOf t.top (above fs)) ?_ ?_
    · refine Rep.setParentOf (rep.congr fun y hy => ?_) ?_
      · exact Links.same_setHole (holeOf y hy)
      · exact (List.nodup_append.mp (List.nodup_append.mp nodup).2.1).1
    · rintro y hy
      exact Links.same_clear fun e => gone (e ▸ inside y hy)
  have above' : RepAbove (((s.setHole fs t.top).setParentOf t.top (above fs)).clear x) t.top fs := by
    refine (h.setHole holeNodup).congr ?_ ?_
    · exact Links.setParentOf_root
    · intro y hy
      refine (Links.same_setParentOf fun e => ?_).trans (Links.same_clear fun e => ?_)
      · exact apart y (LinkTree.top_mem e) y hy rfl
      · exact gone (e ▸ around y hy)
  obtain ⟨root, rep⟩ := rep_plug.mpr ⟨above', rep'⟩
  refine ⟨root, rep, fun y hy => ?_⟩
  by_cases e : y = x
  · subst e
    exact ⟨Function.update_self .., Function.update_self .., Function.update_self ..⟩
  · obtain ⟨hp, hl, hr⟩ := outside y hy e
    have same := ((Links.same_setHole fun e => hy (around y (above_mem e))).trans
      (Links.same_setParentOf fun e => hy (inside y (LinkTree.top_mem e)))).trans
      (Links.same_clear (s := (s.setHole fs t.top).setParentOf t.top (above fs)) e)
    exact ⟨same.1.trans hp, same.2.1.trans hl, same.2.2.trans hr⟩

/-- The links that are set when the tree `r` goes below the last node `ptr` of another one. -/
def Links.attach (ptr : α) (r : Option α) (s : Links α) : Links α :=
  (s.setRight ptr r).setParentOf r (some ptr)

theorem Links.same_attach (last : l.toList.getLast? = some ptr) (hl : y ∉ l.toList)
    (hr : y ∉ r.toList) : Same s (s.attach ptr r.top) y := by
  refine (Links.same_setRight ?_).trans (Links.same_setParentOf fun e => hr (LinkTree.top_mem e))
  rintro rfl
  exact hl (List.mem_of_getLast? last)

/-- Nothing around the node notices the new place of its right child. -/
theorem Holds.around_attach (h : Holds s (plug fs (.node l x r)))
    (nodup : (plug fs (.node l x r)).toList.Nodup) (last : l.toList.getLast? = some ptr) :
    RepAbove (s.attach ptr r.top) (some x) fs ∧ Same s (s.attach ptr r.top) x := by
  obtain ⟨gone, whole⟩ := nodup_splice nodup
  rw [toList_plug_splice] at gone whole
  have inner := (List.nodup_append.mp whole).2.1
  have right := (List.nodup_append.mp inner).2.1
  refine ⟨?_, ?_⟩
  · refine h.plug_iff.1.congr Links.setParentOf_root fun y hy => Links.same_attach last ?_ ?_
    · intro hm
      rcases hy with hy | hy
      · exact (List.nodup_append.mp whole).2.2 y hy y (List.mem_append_left _ hm) rfl
      · exact (List.nodup_append.mp inner).2.2 y hm y (List.mem_append_right _ hy) rfl
    · intro hm
      rcases hy with hy | hy
      · refine (List.nodup_append.mp whole).2.2 y hy y ?_ rfl
        exact List.mem_append_right _ (List.mem_append_left _ hm)
      · exact (List.nodup_append.mp right).2.2 y hm y hy rfl
  · simp only [List.mem_append, not_or] at gone
    exact Links.same_attach last gone.2.1 gone.2.2.1

/-- A node without a left child leaves the tree. -/
theorem Holds.remove_leaf (h : Holds s (plug fs (.node .leaf x r)))
    (nodup : (plug fs (.node .leaf x r)).toList.Nodup) :
    Holds (((s.setHole fs r.top).setParentOf r.top (above fs)).clear x) (plug fs r) := by
  obtain ⟨around, -, -, -, -, rep⟩ := h.plug_iff
  obtain ⟨gone, whole⟩ := nodup_splice nodup
  refine around.replace rep whole gone fun y hy hne => h.outside y ?_
  have hy' : y ∉ (plug fs ((LinkTree.leaf).splice r)).toList := hy
  rw [toList_plug_splice] at hy'
  rw [toList_plug_node]
  simp_all

/-- A node leaves the tree, and its right child goes below the last node of the left one. -/
theorem Holds.remove_node (h : Holds s (plug fs (.node l x r)))
    (nodup : (plug fs (.node l x r)).toList.Nodup) (last : l.toList.getLast? = some ptr) :
    Holds ((((s.attach ptr r.top).setHole fs l.top).setParentOf l.top (above fs)).clear x)
      (plug fs (l.splice r)) := by
  obtain ⟨-, -, -, -, repl, repr⟩ := h.plug_iff
  obtain ⟨gone, whole⟩ := nodup_splice nodup
  have pair : (l.toList ++ r.toList).Nodup := by
    have part := (List.nodup_append.mp (toList_plug_splice ▸ whole)).2.1
    exact part.sublist (List.Sublist.append_left (List.sublist_append_left _ _) _)
  have top : l.top = (l.splice r).top := by
    refine (splice_top ?_).symm
    rintro rfl
    simp at last
  rw [top]
  refine (h.around_attach nodup last).1.replace (repl.splice repr pair last) whole gone ?_
  intro y hy hne
  have hy' : y ∉ (plug fs (.node l x r)).toList := by
    rw [toList_plug_splice] at hy
    rw [toList_plug_node]
    simp_all
  rw [toList_plug_splice] at hy
  simp only [List.mem_append, not_or] at hy
  have same : Same s (s.attach ptr r.top) y := Links.same_attach last hy.2.1 hy.2.2.1
  obtain ⟨hp, hl, hr⟩ := h.outside y hy'
  exact ⟨same.1.trans hp, same.2.1.trans hl, same.2.2.trans hr⟩

/-- A node from outside becomes a leaf of the tree. -/
theorem Holds.insert (h : Holds s (plug fs .leaf)) (nodup : (plug fs .leaf).toList.Nodup)
    (fresh : x ∉ (plug fs .leaf).toList) :
    Holds ((s.setHole fs (some x)).setParent x (above fs)) (plug fs (.node .leaf x .leaf)) := by
  obtain ⟨around, -⟩ := h.plug_iff
  obtain ⟨-, left, right⟩ := h.outside x fresh
  have listed : (plug fs .leaf).toList = before fs ++ after fs := by
    rw [toList_plug]
    simp
  rw [listed] at nodup fresh
  have hole : above fs ≠ some x := fun e => fresh (List.mem_append.mpr (above_mem e))
  have kept := Links.same_setHole (s := s) (c := some x) hole
  have rep : Rep ((s.setHole fs (some x)).setParent x (above fs)) (above fs)
      (.node .leaf x .leaf) :=
    ⟨Function.update_self .., kept.2.1.trans left, kept.2.2.trans right, trivial, trivial⟩
  have above' : RepAbove ((s.setHole fs (some x)).setParent x (above fs)) (some x) fs := by
    refine (around.setHole nodup).congr rfl fun y hy => Links.same_setParent ?_
    rintro rfl
    exact fresh (List.mem_append.mpr hy)
  obtain ⟨root, rep⟩ := rep_plug.mpr ⟨above', rep⟩
  refine ⟨root, rep, fun y hy => ?_⟩
  have hy' : y ∉ (plug fs .leaf).toList ∧ y ≠ x := by
    rw [toList_plug] at hy ⊢
    simp_all
  obtain ⟨hp, hl, hr⟩ := h.outside y hy'.1
  have same : Same s ((s.setHole fs (some x)).setParent x (above fs)) y := by
    refine (Links.same_setHole fun e => ?_).trans (Links.same_setParent hy'.2)
    exact hy'.1 (listed ▸ List.mem_append.mpr (above_mem e))
  exact ⟨same.1.trans hp, same.2.1.trans hl, same.2.2.trans hr⟩

end

end LinkedTree
