import Mathlib.Data.List.Pairwise
import Mathlib.Data.List.Perm.Basic
import Mathlib.Order.Lattice
import Mathlib.Tactic.Common

namespace Arena

structure Extent where
  first : Nat
  length : Nat
deriving Repr, DecidableEq

def Extent.stop (e : Extent) : Nat := e.first + e.length

def Extent.Covers (e : Extent) (x : Nat) : Prop := e.first ≤ x ∧ x < e.stop

def Extent.Apart (a b : Extent) : Prop := a.stop ≤ b.first ∨ b.stop ≤ a.first

/-- Apart, with some room between. -/
def Extent.Gap (room : Nat) (a b : Extent) : Prop :=
  a.stop + room ≤ b.first ∨ b.stop + room ≤ a.first

def Extent.Within (a b : Extent) : Prop := b.first ≤ a.first ∧ a.stop ≤ b.stop

section

variable {a b c : Extent} {room : Nat}

theorem Extent.Apart.symm (h : a.Apart b) : b.Apart a := Or.symm h

theorem Extent.Gap.symm (h : a.Gap room b) : b.Gap room a := Or.symm h

instance : Std.Symm Extent.Apart := ⟨fun _ _ apart => apart.symm⟩

instance (room : Nat) : Std.Symm (Extent.Gap room) := ⟨fun _ _ gap => gap.symm⟩

theorem Extent.Within.refl (a : Extent) : a.Within a := ⟨Nat.le_refl _, Nat.le_refl _⟩

theorem Extent.Within.trans (h : a.Within b) (h' : b.Within c) : a.Within c :=
  ⟨h'.1.trans h.1, h.2.trans h'.2⟩

theorem Extent.Within.apart (h : a.Within b) (apart : b.Apart c) : a.Apart c := by
  obtain ⟨low, high⟩ := h
  unfold Extent.Apart at apart ⊢
  omega

theorem Extent.Gap.within {a' b' : Extent} (gap : a.Gap room b) (ha : a'.Within a)
    (hb : b'.Within b) : a'.Gap room b' := by
  obtain ⟨lowA, highA⟩ := ha
  obtain ⟨lowB, highB⟩ := hb
  unfold Extent.Gap at gap ⊢
  omega

theorem Extent.Gap.apart (gap : a.Gap room b) : a.Apart b := by
  unfold Extent.Gap at gap
  unfold Extent.Apart
  omega

theorem Extent.Apart.not_covers (apart : a.Apart b) {x : Nat} (h : a.Covers x) : ¬ b.Covers x := by
  intro h'
  unfold Extent.Covers at h h'
  unfold Extent.Apart at apart
  omega

/-- Two extents that follow each other without room between do not lie in two areas. -/
theorem Extent.Gap.not_follows {a' b' : Extent} (gap : a.Gap room b) (pos : 0 < room)
    (ha : a'.Within a) (hb : b'.Within b) (lengthA : 0 < a'.length) (lengthB : 0 < b'.length) :
    a'.stop ≠ b'.first := by
  intro follows
  have apart := gap.within ha hb
  unfold Extent.Gap at apart
  unfold Extent.stop at apart follows
  omega

end

/-- Areas, with the extents of them that are free and those that are in use. -/
structure State where
  areas : List Extent
  free : List Extent
  used : List Extent

def State.Inside (s : State) (e : Extent) : Prop := ∃ area ∈ s.areas, e.Within area

/-- The free extents ascend with something between any two of them. -/
structure State.Sound (room : Nat) (s : State) : Prop where
  areasApart : s.areas.Pairwise (Extent.Gap room)
  spaced : s.free.Pairwise fun a b => a.stop < b.first
  positive : ∀ f ∈ s.free, 0 < f.length
  freeInside : ∀ f ∈ s.free, s.Inside f
  usedInside : ∀ u ∈ s.used, s.Inside u
  usedApart : s.used.Pairwise Extent.Apart
  usedPositive : ∀ u ∈ s.used, 0 < u.length
  freeApart : ∀ f ∈ s.free, ∀ u ∈ s.used, f.Apart u

section

variable {room : Nat} {areas free used before after : List Extent} {e f u : Extent}

theorem State.Sound.areas_gap (h : State.Sound room ⟨areas, free, used⟩) {a b : Extent}
    (ha : a ∈ areas) (hb : b ∈ areas) (ne : a ≠ b) : a.Gap room b :=
  h.areasApart.forall ha hb ne

theorem State.Sound.sublist {kept : List Extent} (h : State.Sound room ⟨areas, free, used⟩)
    (sub : kept.Sublist free) : State.Sound room ⟨areas, kept, used⟩ where
  areasApart := h.areasApart
  spaced := h.spaced.sublist sub
  positive f hf := h.positive f (sub.subset hf)
  freeInside f hf := h.freeInside f (sub.subset hf)
  usedInside := h.usedInside
  usedApart := h.usedApart
  usedPositive := h.usedPositive
  freeApart f hf := h.freeApart f (sub.subset hf)

theorem State.Sound.used_subperm {kept : List Extent} (h : State.Sound room ⟨areas, free, used⟩)
    (sub : kept.Subperm used) : State.Sound room ⟨areas, free, kept⟩ where
  areasApart := h.areasApart
  spaced := h.spaced
  positive := h.positive
  freeInside := h.freeInside
  usedInside u hu := h.usedInside u (sub.subset hu)
  usedApart := by
    obtain ⟨l, perm, sublist⟩ := sub
    exact (List.Perm.pairwise_iff (fun apart => Extent.Apart.symm apart) perm).mp
      (h.usedApart.sublist sublist)
  usedPositive u hu := h.usedPositive u (sub.subset hu)
  freeApart f hf u hu := h.freeApart f hf u (sub.subset hu)

theorem State.Sound.addArea {area : Extent} (h : State.Sound room ⟨areas, free, used⟩)
    (gap : ∀ a ∈ areas, area.Gap room a) : State.Sound room ⟨area :: areas, free, used⟩ where
  areasApart := List.pairwise_cons.mpr ⟨gap, h.areasApart⟩
  spaced := h.spaced
  positive := h.positive
  freeInside f hf := (h.freeInside f hf).imp fun _ ⟨mem, within⟩ => ⟨List.mem_cons_of_mem _ mem, within⟩
  usedInside u hu := (h.usedInside u hu).imp fun _ ⟨mem, within⟩ => ⟨List.mem_cons_of_mem _ mem, within⟩
  usedApart := h.usedApart
  usedPositive := h.usedPositive
  freeApart := h.freeApart

/-- What lies in none of the areas is apart from all that lies in one. -/
theorem State.apart_of_gap {s : State} {area : Extent} (gap : ∀ a ∈ s.areas, area.Gap room a)
    (inside : s.Inside e) : area.Apart e := by
  obtain ⟨a, mem, within⟩ := inside
  exact ((gap a mem).within (Extent.Within.refl area) within).apart

/-- An extent is put between the free extents before and after it. -/
theorem State.Sound.put (h : State.Sound room ⟨areas, before ++ after, used⟩) (pos : 0 < e.length)
    (inside : State.Inside ⟨areas, before ++ after, used⟩ e)
    (above : ∀ f ∈ before, f.stop < e.first) (below : ∀ f ∈ after, e.stop < f.first)
    (apart : ∀ u ∈ used, e.Apart u) : State.Sound room ⟨areas, before ++ e :: after, used⟩ := by
  have mem : ∀ f, f ∈ before ++ e :: after → f = e ∨ f ∈ before ++ after := by
    intro f hf
    simp only [List.mem_append, List.mem_cons] at hf ⊢
    tauto
  refine ⟨h.areasApart, ?_, ?_, ?_, h.usedInside, h.usedApart, h.usedPositive, ?_⟩
  · obtain ⟨hbefore, hafter, hboth⟩ := List.pairwise_append.mp h.spaced
    refine List.pairwise_append.mpr ⟨hbefore, List.pairwise_cons.mpr ⟨below, hafter⟩, ?_⟩
    intro f hf next hnext
    obtain rfl | hnext := List.mem_cons.mp hnext
    · exact above f hf
    · exact hboth f hf next hnext
  · intro f hf
    obtain rfl | hf := mem f hf
    · exact pos
    · exact h.positive f hf
  · intro f hf
    obtain rfl | hf := mem f hf
    · exact inside
    · exact h.freeInside f hf
  · intro f hf
    obtain rfl | hf := mem f hf
    · exact apart
    · exact h.freeApart f hf

/-- An extent that is nowhere in use or free becomes used. -/
theorem State.Sound.use (h : State.Sound room ⟨areas, free, used⟩) (pos : 0 < u.length)
    (inside : State.Inside ⟨areas, free, used⟩ u) (apart : ∀ w ∈ used, u.Apart w)
    (clear : ∀ f ∈ free, f.Apart u) : State.Sound room ⟨areas, free, u :: used⟩ where
  areasApart := h.areasApart
  spaced := h.spaced
  positive := h.positive
  freeInside := h.freeInside
  usedInside w hw := by
    obtain rfl | hw := List.mem_cons.mp hw
    · exact inside
    · exact h.usedInside w hw
  usedApart := List.pairwise_cons.mpr ⟨apart, h.usedApart⟩
  usedPositive w hw := by
    obtain rfl | hw := List.mem_cons.mp hw
    · exact pos
    · exact h.usedPositive w hw
  freeApart f hf w hw := by
    obtain rfl | hw := List.mem_cons.mp hw
    · exact clear f hf
    · exact h.freeApart f hf w hw

/-- The neighbours of a free extent. -/
theorem State.Sound.neighbours (h : State.Sound room ⟨areas, before ++ f :: after, used⟩) :
    (∀ g ∈ before, g.stop < f.first) ∧ ∀ g ∈ after, f.stop < g.first := by
  obtain ⟨-, hcons, hboth⟩ := List.pairwise_append.mp h.spaced
  exact ⟨fun g hg => hboth g hg f List.mem_cons_self, (List.pairwise_cons.mp hcons).1⟩

theorem sublist_without (before after : List Extent) (f : Extent) :
    (before ++ after).Sublist (before ++ f :: after) :=
  (List.Sublist.refl before).append (List.sublist_cons_self f after)

/-- A free extent is used as a whole. -/
theorem State.Sound.takeWhole (h : State.Sound room ⟨areas, before ++ f :: after, used⟩) :
    State.Sound room ⟨areas, before ++ after, f :: used⟩ := by
  have mem : f ∈ before ++ f :: after := by simp
  obtain ⟨above, below⟩ := h.neighbours
  refine (h.sublist (sublist_without before after f)).use (h.positive f mem) (h.freeInside f mem) (h.freeApart f mem) ?_
  intro g hg
  obtain hg | hg := List.mem_append.mp hg
  · exact .inl (above g hg).le
  · exact .inr (below g hg).le

/-- The end of a free extent is used, and the rest of it stays free. -/
theorem State.Sound.takeEnd (h : State.Sound room ⟨areas, before ++ f :: after, used⟩)
    (first : e.first = f.first) (pos : 0 < e.length) (posU : 0 < u.length)
    (meet : e.stop = u.first) (last : u.stop = f.stop) :
    State.Sound room ⟨areas, before ++ e :: after, u :: used⟩ := by
  have mem : f ∈ before ++ f :: after := by simp
  have withinE : e.Within f := by
    unfold Extent.stop at *
    exact ⟨first.ge, by unfold Extent.stop; omega⟩
  have withinU : u.Within f := by
    unfold Extent.stop at *
    exact ⟨by omega, by unfold Extent.stop; omega⟩
  have inside : ∀ g : Extent, g.Within f → State.Inside ⟨areas, before ++ after, used⟩ g := by
    intro g within
    obtain ⟨area, hmem, harea⟩ := h.freeInside f mem
    exact ⟨area, hmem, within.trans harea⟩
  obtain ⟨above, below⟩ := h.neighbours
  have rest := h.sublist (sublist_without before after f)
  have shrunk := rest.put pos (inside e withinE) (fun g hg => first ▸ above g hg)
    (fun g hg => withinE.2.trans_lt (below g hg))
    (fun w hw => withinE.apart (h.freeApart f mem w hw))
  refine shrunk.use posU (inside u withinU) (fun w hw => withinU.apart (h.freeApart f mem w hw)) ?_
  intro g hg
  simp only [List.mem_append, List.mem_cons] at hg
  obtain hg | rfl | hg := hg
  · exact .inl ((above g hg).le.trans withinU.1)
  · exact .inl meet.le
  · exact .inr (withinU.2.trans (below g hg).le)

/-- Two extents that follow each other lie in one area. -/
theorem State.Sound.join_inside (h : State.Sound room ⟨areas, free, used⟩) (gap : 0 < room)
    (hf : State.Inside ⟨areas, free, used⟩ f) (he : State.Inside ⟨areas, free, used⟩ e)
    (lengthF : 0 < f.length) (lengthE : 0 < e.length) (meet : f.stop = e.first) :
    State.Inside ⟨areas, free, used⟩ ⟨f.first, f.length + e.length⟩ := by
  obtain ⟨a, memA, withinF⟩ := hf
  obtain ⟨b, memB, withinE⟩ := he
  have same : a = b := by
    by_contra ne
    exact (h.areas_gap memA memB ne).not_follows gap withinF withinE lengthF lengthE meet
  subst same
  refine ⟨a, memA, withinF.1, ?_⟩
  have last := withinE.2
  unfold Extent.stop at *
  simp only
  omega

theorem Extent.Apart.join (hf : f.Apart u) (he : e.Apart u) (pos : 0 < u.length)
    (meet : f.stop = e.first) : Extent.Apart ⟨f.first, f.length + e.length⟩ u := by
  unfold Extent.Apart Extent.stop at *
  simp only
  omega

end

end Arena
