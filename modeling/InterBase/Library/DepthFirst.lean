import Mathlib

/- Search for a cycle, depth first: the vertices on the path so far are grey, those that the search
is through with are black. -/

namespace DepthFirst

open Relation

variable {α : Type*}

def searchAll (visit : α → List α → Option (Option α × List α)) :
    List α → List α → Option (Option α × List α)
  | [], black => some (none, black)
  | w :: ws, black =>
    (visit w black).bind fun r => if r.1.isSome then some r else searchAll visit ws r.2

/-- The vertex at which a cycle closes, if there is one, and the black vertices. The search goes at
most `depth` vertices deep. -/
def search [DecidableEq α] (succ : α → List α) : Nat → List α → α → List α → Option (Option α × List α)
  | 0, _, _, _ => none
  | depth + 1, grey, v, black =>
    if v ∈ black then some (none, black)
    else if v ∈ grey then some (some v, black)
    else
      (searchAll (search succ depth (v :: grey)) (succ v) black).map fun r =>
        if r.1.isSome then r else (none, v :: r.2)

def Edge (succ : α → List α) (v w : α) : Prop := w ∈ succ v

/-- A vertex from which a cycle can be reached, and one of that cycle. -/
def Reaches (edge : α → α → Prop) (v w : α) : Prop := ReflTransGen edge v w ∧ TransGen edge w w

theorem Reaches.next {edge : α → α → Prop} {v w : α} (h : Reaches edge v w) :
    ∃ u, edge v u ∧ Reaches edge u w := by
  have path : TransGen edge v w := TransGen.trans_right h.1 h.2
  obtain ⟨u, hu, rest⟩ := TransGen.head'_iff.mp path
  exact ⟨u, hu, rest, h.2⟩

theorem Reaches.imp {edge edge' : α → α → Prop} (h : ∀ v w, edge v w → edge' v w) {v w : α}
    (reaches : Reaches edge v w) : Reaches edge' v w :=
  ⟨ReflTransGen.mono h _ _ reaches.1, TransGen.mono h _ _ reaches.2⟩

/-- A way to a cycle needs only the edges between the vertices from which one can be reached. -/
theorem Reaches.mono {edge edge' : α → α → Prop} {P : α → Prop}
    (h : ∀ v u w, P v → edge v u → Reaches edge u w → P u ∧ edge' v u) {v w : α} (hv : P v)
    (reaches : Reaches edge v w) : Reaches edge' v w := by
  have path : ∀ u x, ReflTransGen edge u x → Reaches edge x w → P u →
      P x ∧ ReflTransGen edge' u x := by
    intro u x hux hx
    induction hux using ReflTransGen.head_induction_on with
    | refl => exact fun hu => ⟨hu, .refl⟩
    | head first rest ih =>
      intro hu
      obtain ⟨hnext, edge⟩ := h _ _ w hu first ⟨rest.trans hx.1, hx.2⟩
      obtain ⟨hlast, way⟩ := ih hnext
      exact ⟨hlast, way.head edge⟩
  obtain ⟨hw, way⟩ := path v w reaches.1 ⟨.refl, reaches.2⟩ hv
  obtain ⟨u, hu, rest⟩ := TransGen.head'_iff.mp reaches.2
  obtain ⟨hnext, edge⟩ := h w u w hw hu ⟨rest, reaches.2⟩
  exact ⟨way, TransGen.head' edge (path u w rest ⟨.refl, reaches.2⟩ hnext).2⟩

theorem searchAll_found {visit : α → List α → Option (Option α × List α)} {w : α} :
    ∀ {ws black black' : List α}, searchAll visit ws black = some (some w, black') →
      ∃ x ∈ ws, ∃ b b', visit x b = some (some w, b') := by
  intro ws
  induction ws with
  | nil =>
    intro black black' h
    cases h
  | cons x ws ih =>
    intro black black' h
    unfold searchAll at h
    obtain ⟨r, hr, h⟩ := Option.bind_eq_some_iff.mp h
    split at h
    · cases h
      exact ⟨x, List.mem_cons_self, black, _, hr⟩
    · obtain ⟨y, hy, rest⟩ := ih h
      exact ⟨y, List.mem_cons_of_mem x hy, rest⟩

variable {succ : α → List α}

theorem search_found [DecidableEq α] {depth : Nat} {w : α} :
    ∀ {grey : List α} {v : α} {black black' : List α},
      (∀ g ∈ grey, TransGen (Edge succ) g v) →
      search succ depth grey v black = some (some w, black') → Reaches (Edge succ) v w := by
  induction depth with
  | zero =>
    intro grey v black black' _ h
    cases h
  | succ depth ih =>
    intro grey v black black' path h
    unfold search at h
    split at h
    · cases h
    split at h
    next back =>
      cases h
      exact ⟨ReflTransGen.refl, path _ back⟩
    obtain ⟨⟨found, b⟩, hr, h⟩ := Option.map_eq_some_iff.mp h
    cases found with
    | none => cases h
    | some u =>
      cases h
      obtain ⟨x, hx, b₁, b₂, hvisit⟩ := searchAll_found hr
      have edge : Edge succ v x := hx
      have child : Reaches (Edge succ) x w := by
        refine ih ?_ hvisit
        intro g hg
        rcases List.mem_cons.mp hg with rfl | hg
        · exact TransGen.single edge
        · exact (path g hg).tail edge
      exact ⟨child.1.head edge, child.2⟩

/-- What holds of the black vertices: no way leads out of them, and no cycle is among them. -/
structure Done (succ : α → List α) (black : List α) : Prop where
  closed : ∀ v ∈ black, ∀ w, Edge succ v w → w ∈ black
  acyclic : ∀ v ∈ black, ¬TransGen (Edge succ) v v

theorem Done.reach {black : List α} (h : Done succ black) {v w : α} (hv : v ∈ black)
    (path : ReflTransGen (Edge succ) v w) : w ∈ black := by
  induction path with
  | refl => exact hv
  | tail _ edge ih => exact h.closed _ ih _ edge

theorem Done.cons {black : List α} (h : Done succ black) {v : α} (new : v ∉ black)
    (through : ∀ w ∈ succ v, w ∈ black) : Done succ (v :: black) where
  closed x hx w edge := by
    rcases List.mem_cons.mp hx with rfl | hx
    · exact List.mem_cons_of_mem _ (through w edge)
    · exact List.mem_cons_of_mem _ (h.closed x hx w edge)
  acyclic x hx cycle := by
    rcases List.mem_cons.mp hx with rfl | hx
    · obtain ⟨w, edge, path⟩ := TransGen.head'_iff.mp cycle
      exact new (h.reach (through w edge) path)
    · exact h.acyclic x hx cycle

/-- What a search without success does to the black vertices. -/
structure Explored (succ : α → List α) (grey ws black black' : List α) : Prop where
  done : Done succ black'
  grow : ∀ x ∈ black, x ∈ black'
  through : ∀ w ∈ ws, w ∈ black'
  apart : ∀ g ∈ grey, g ∉ black'

theorem searchAll_explored {visit : α → List α → Option (Option α × List α)} {grey : List α}
    (hvisit : ∀ w b b', Done succ b → (∀ g ∈ grey, g ∉ b) → visit w b = some (none, b') →
      Explored succ grey [w] b b') :
    ∀ {ws black black' : List α}, Done succ black → (∀ g ∈ grey, g ∉ black) →
      searchAll visit ws black = some (none, black') → Explored succ grey ws black black' := by
  intro ws
  induction ws with
  | nil =>
    intro black black' done apart h
    cases h
    exact ⟨done, fun _ hx => hx, nofun, apart⟩
  | cons w ws ih =>
    intro black black' done apart h
    unfold searchAll at h
    obtain ⟨⟨found, b⟩, hr, h⟩ := Option.bind_eq_some_iff.mp h
    cases found with
    | some u => cases h
    | none =>
      have first := hvisit w black b done apart hr
      have rest := ih first.done first.apart h
      refine ⟨rest.done, fun x hx => rest.grow x (first.grow x hx), ?_, rest.apart⟩
      intro x hx
      rcases List.mem_cons.mp hx with rfl | hx
      · exact rest.grow x (first.through x (List.mem_singleton_self x))
      · exact rest.through x hx

theorem search_explored [DecidableEq α] {depth : Nat} :
    ∀ {grey : List α} {v : α} {black black' : List α}, Done succ black →
      (∀ g ∈ grey, g ∉ black) → search succ depth grey v black = some (none, black') →
      Explored succ grey [v] black black' := by
  induction depth with
  | zero =>
    intro grey v black black' _ _ h
    cases h
  | succ depth ih =>
    intro grey v black black' done apart h
    unfold search at h
    split at h
    next seen =>
      cases h
      exact ⟨done, fun _ hx => hx, fun w hw => List.mem_singleton.mp hw ▸ seen, apart⟩
    split at h
    · cases h
    next new fresh =>
      obtain ⟨⟨found, b⟩, hr, h⟩ := Option.map_eq_some_iff.mp h
      cases found with
      | some u => cases h
      | none =>
        cases h
        have apart' : ∀ g ∈ v :: grey, g ∉ black := by
          intro g hg
          rcases List.mem_cons.mp hg with rfl | hg
          · exact new
          · exact apart g hg
        have inner := searchAll_explored (fun w b b' hd ha hv => ih hd ha hv) done apart' hr
        refine ⟨inner.done.cons (inner.apart v List.mem_cons_self) inner.through,
          fun x hx => List.mem_cons_of_mem v (inner.grow x hx),
          fun w hw => List.mem_singleton.mp hw ▸ List.mem_cons_self, ?_⟩
        intro g hg hmem
        rcases List.mem_cons.mp hmem with rfl | hmem
        · exact fresh hg
        · exact inner.apart g (List.mem_cons_of_mem v hg) hmem

theorem searchAll_isSome {visit : α → List α → Option (Option α × List α)} :
    ∀ {ws : List α}, (∀ w ∈ ws, ∀ b, (visit w b).isSome = true) →
      ∀ black, (searchAll visit ws black).isSome = true := by
  intro ws
  induction ws with
  | nil =>
    intro _ black
    rfl
  | cons w ws ih =>
    intro hvisit black
    obtain ⟨r, hr⟩ := Option.isSome_iff_exists.mp (hvisit w List.mem_cons_self black)
    unfold searchAll
    rw [hr, Option.bind_some]
    split
    · rfl
    · exact ih (fun x hx => hvisit x (List.mem_cons_of_mem w hx)) _

/-- The grey vertices are distinct, so the search does not go deeper than there are vertices. -/
theorem search_isSome [DecidableEq α] {vertices : List α}
    (closed : ∀ v ∈ vertices, ∀ w ∈ succ v, w ∈ vertices)
    {depth : Nat} :
    ∀ {grey : List α} {v : α} {black : List α}, grey.Nodup → (∀ g ∈ grey, g ∈ vertices) →
      v ∈ vertices → vertices.length < depth + grey.length →
      (search succ depth grey v black).isSome = true := by
  induction depth with
  | zero =>
    intro grey v black nodup sub _ room
    have le : grey.length ≤ vertices.length := (nodup.subperm sub).length_le
    omega
  | succ depth ih =>
    intro grey v black nodup sub mem room
    unfold search
    split
    · rfl
    split
    · rfl
    next new fresh =>
      rw [Option.isSome_map]
      apply searchAll_isSome
      intro w hw b
      refine ih (List.nodup_cons.mpr ⟨fresh, nodup⟩) ?_ (closed v mem w hw) ?_
      · intro g hg
        rcases List.mem_cons.mp hg with rfl | hg
        · exact mem
        · exact sub g hg
      · rw [List.length_cons]
        omega

/-- The search ends, and it finds a cycle if and only if there is one to reach. -/
theorem search_correct [DecidableEq α] {vertices : List α}
    (closed : ∀ v ∈ vertices, ∀ w ∈ succ v, w ∈ vertices)
    {v : α} (mem : v ∈ vertices) {depth : Nat} (room : vertices.length < depth) :
    ∃ found black, search succ depth [] v [] = some (found, black) ∧
      (∀ w, found = some w → Reaches (Edge succ) v w) ∧ (found = none → ∀ w, ¬Reaches (Edge succ) v w) := by
  have ends : (search succ depth [] v []).isSome = true :=
    search_isSome closed List.nodup_nil nofun mem room
  obtain ⟨⟨found, black⟩, hr⟩ := Option.isSome_iff_exists.mp ends
  refine ⟨found, black, hr, ?_, ?_⟩
  · intro w hw
    subst hw
    exact search_found (List.forall_mem_nil _) hr
  · intro hnone w hw
    subst hnone
    have none : Done succ [] := ⟨List.forall_mem_nil _, List.forall_mem_nil _⟩
    have explored := search_explored none (List.forall_mem_nil _) hr
    have inside := explored.through v (List.mem_singleton_self v)
    exact explored.done.acyclic w (explored.done.reach inside hw.1) hw.2

end DepthFirst
