import Mathlib.Data.List.Nodup
import Mathlib.Logic.Function.Basic
import Mathlib.Tactic.Common

namespace Links

variable {α : Type*} {fwd back fwd' back' : α → α}

/-- The nodes from `x` on are those of the list, and `y` is behind them. -/
def Seg (fwd back : α → α) : α → List α → α → Prop
  | x, [], y => fwd x = y ∧ back y = x
  | x, z :: l, y => fwd x = z ∧ back z = x ∧ Seg fwd back z l y

/-- A ring with its head. -/
def Ring (fwd back : α → α) (h : α) (l : List α) : Prop := Seg fwd back h l h

theorem seg_append {l m : List α} {x y z : α} :
    Seg fwd back x (l ++ z :: m) y ↔ Seg fwd back x l z ∧ Seg fwd back z m y := by
  induction l generalizing x with
  | nil => exact and_assoc.symm
  | cons w l ih =>
    show _ ∧ _ ∧ Seg fwd back w (l ++ z :: m) y ↔ (_ ∧ _ ∧ Seg fwd back w l z) ∧ _
    rw [ih, and_assoc, and_assoc]

/-- Other links do not matter. -/
theorem Seg.congr {l : List α} {x y : α} (h : Seg fwd back x l y)
    (forward : ∀ a ∈ x :: l, fwd' a = fwd a) (backward : ∀ a ∈ l ++ [y], back' a = back a) :
    Seg fwd' back' x l y := by
  induction l generalizing x with
  | nil =>
    obtain ⟨next, previous⟩ := h
    exact ⟨(forward x List.mem_cons_self).trans next,
      (backward y List.mem_cons_self).trans previous⟩
  | cons z l ih =>
    obtain ⟨next, previous, rest⟩ := h
    refine ⟨(forward x List.mem_cons_self).trans next,
      (backward z List.mem_cons_self).trans previous, ih rest ?_ ?_⟩
    · exact fun a ha => forward a (List.mem_cons_of_mem _ ha)
    · exact fun a ha => backward a (List.mem_cons_of_mem _ ha)

theorem Seg.back_mem {l : List α} {x y : α} (h : Seg fwd back x l y) : back y ∈ x :: l := by
  induction l generalizing x with
  | nil =>
    rw [h.2]
    exact List.mem_cons_self
  | cons z l ih => exact List.mem_cons_of_mem _ (ih h.2.2)

theorem Seg.getLast?_eq {l : List α} {x y : α} (h : Seg fwd back x l y) :
    (x :: l).getLast? = some (back y) := by
  induction l generalizing x with
  | nil =>
    rw [h.2]
    rfl
  | cons z l ih =>
    rw [List.getLast?_cons_cons]
    exact ih h.2.2

theorem Seg.fwd_mem {l : List α} {x y : α} (h : Seg fwd back x l y) : fwd x ∈ l ++ [y] := by
  cases l with
  | nil =>
    rw [h.1]
    exact List.mem_cons_self
  | cons z l =>
    rw [h.1]
    exact List.mem_cons_self

/-- The last link of a segment points to what is behind it. -/
theorem Seg.fwd_back {l : List α} {x y : α} (h : Seg fwd back x l y) : fwd (back y) = y := by
  induction l generalizing x with
  | nil =>
    rw [h.2]
    exact h.1
  | cons z l ih => exact ih h.2.2

/-- The last node gets another one behind it. -/
theorem Seg.redirect {l : List α} {x y z : α} (h : Seg fwd back x l y) (nodup : (x :: l).Nodup)
    (forward : ∀ a ∈ x :: l, a ≠ back y → fwd' a = fwd a) (backward : ∀ a ∈ l, back' a = back a)
    (next : fwd' (back y) = z) (previous : back' z = back y) : Seg fwd' back' x l z := by
  induction l generalizing x with
  | nil =>
    rw [h.2] at next previous
    exact ⟨next, previous⟩
  | cons w l ih =>
    obtain ⟨there, again, rest⟩ := h
    obtain ⟨first, nodup⟩ := List.nodup_cons.mp nodup
    have inner : x ≠ back y := fun same => first (same ▸ rest.back_mem)
    refine ⟨(forward x List.mem_cons_self inner).trans there,
      (backward w List.mem_cons_self).trans again, ih rest nodup ?_ ?_⟩
    · exact fun a ha => forward a (List.mem_cons_of_mem _ ha)
    · exact fun a ha => backward a (List.mem_cons_of_mem _ ha)

section

variable [DecidableEq α]

/-- A node behind the others of a ring: its own links, then those of its neighbours. -/
theorem Ring.insert {h node : α} {l : List α} (ring : Ring fwd back h l) (nodup : (h :: l).Nodup)
    (fresh : node ∉ h :: l) :
    Ring (Function.update (Function.update fwd node h) (back h) node)
      (Function.update (Function.update back node (back h)) h node) h (l ++ [node]) := by
  have notHead : node ≠ h := fun same => fresh (same ▸ List.mem_cons_self)
  have prior : node ≠ back h := fun same => fresh (same ▸ Seg.back_mem ring)
  have old : ∀ a ∈ h :: l, a ≠ node := fun a ha same => fresh (same ▸ ha)
  unfold Ring
  rw [seg_append]
  refine ⟨Seg.redirect ring nodup ?_ ?_ ?_ ?_, ?_, ?_⟩
  · intro a ha inner
    rw [Function.update_of_ne inner, Function.update_of_ne (old a ha)]
  · intro a ha
    have other : a ≠ h := fun same => (List.nodup_cons.mp nodup).1 (same ▸ ha)
    rw [Function.update_of_ne other, Function.update_of_ne (old a (List.mem_cons_of_mem _ ha))]
  · exact Function.update_self ..
  · rw [Function.update_of_ne notHead, Function.update_self]
  · rw [Function.update_of_ne prior, Function.update_self]
  · exact Function.update_self ..

/-- The neighbours of a node of a ring point to each other. -/
theorem Ring.remove {h node : α} {pre post : List α} (ring : Ring fwd back h (pre ++ node :: post))
    (nodup : (h :: (pre ++ node :: post)).Nodup) :
    Ring (Function.update fwd (back node) (fwd node))
      (Function.update back (fwd node) (back node)) h (pre ++ post) := by
  obtain ⟨before, behind⟩ := seg_append.mp ring
  rw [← List.cons_append] at nodup
  obtain ⟨first, second, apart⟩ := List.nodup_append.mp nodup
  have front : ∀ a ∈ pre, a ∉ post ++ [h] := by
    intro a ha ha'
    obtain ha' | same := List.mem_append.mp ha'
    · exact apart a (List.mem_cons_of_mem _ ha) a (List.mem_cons_of_mem _ ha') rfl
    · rw [List.mem_singleton.mp same] at ha
      exact (List.nodup_cons.mp first).1 ha
  have forward : ∀ a ∈ h :: pre, a ≠ back node →
      Function.update fwd (back node) (fwd node) a = fwd a :=
    fun a _ inner => Function.update_of_ne inner ..
  have backward : ∀ a ∈ pre, Function.update back (fwd node) (back node) a = back a := by
    intro a ha
    have other : a ≠ fwd node := by
      intro same
      subst same
      exact front _ ha behind.fwd_mem
    exact Function.update_of_ne other ..
  have joined := before.redirect first forward backward (Function.update_self ..)
    (Function.update_self ..)
  cases post with
  | nil =>
    rw [List.append_nil]
    rwa [behind.1] at joined ⊢
  | cons z post =>
    obtain ⟨there, again, rest⟩ := behind
    unfold Ring
    rw [seg_append]
    rw [there] at joined ⊢
    refine ⟨joined, rest.congr ?_ ?_⟩
    · intro a ha
      refine Function.update_of_ne (fun same => ?_) ..
      exact apart _ before.back_mem a (List.mem_cons_of_mem _ ha) same.symm
    · intro a ha
      refine Function.update_of_ne (fun same => ?_) ..
      subst same
      obtain ha | same := List.mem_append.mp ha
      · exact (List.nodup_cons.mp (List.nodup_cons.mp second).2).1 ha
      · rw [List.mem_singleton.mp same] at apart
        exact apart h List.mem_cons_self h (List.mem_cons_of_mem _ List.mem_cons_self) rfl

end

end Links
