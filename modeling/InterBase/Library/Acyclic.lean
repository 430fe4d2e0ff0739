import Mathlib

namespace Edges

open Relation

variable {α : Type*} {r r' : α → α → Prop} {a b u v : α}

/-- No element comes back to itself. -/
def Acyclic (r : α → α → Prop) : Prop := ∀ a, ¬TransGen r a a

theorem Acyclic.mono (h : Acyclic r) (sub : ∀ a b, r' a b → r a b) : Acyclic r' :=
  fun a cycle => h a (TransGen.mono sub _ _ cycle)

/-- A way in a relation with one more edge goes over the edge or not. -/
theorem transGen_insert (path : TransGen (fun a b => r a b ∨ a = u ∧ b = v) a b) :
    TransGen r a b ∨ ReflTransGen r a u ∧ ReflTransGen r v b := by
  induction path with
  | single edge =>
    rcases edge with edge | ⟨rfl, rfl⟩
    · exact .inl (.single edge)
    · exact .inr ⟨.refl, .refl⟩
  | tail _ edge ih =>
    rcases edge with edge | ⟨rfl, rfl⟩
    · rcases ih with path | ⟨first, last⟩
      · exact .inl (path.tail edge)
      · exact .inr ⟨first, last.tail edge⟩
    · rcases ih with path | ⟨first, -⟩
      · exact .inr ⟨path.to_reflTransGen, .refl⟩
      · exact .inr ⟨first, .refl⟩

/-- An edge may be added where no way leads back. -/
theorem Acyclic.insert (h : Acyclic r) (back : ¬ReflTransGen r v u) :
    Acyclic fun a b => r a b ∨ a = u ∧ b = v := by
  intro a cycle
  rcases transGen_insert cycle with path | ⟨first, last⟩
  · exact h a path
  · exact back (last.trans first)

/-- Where only finitely many elements have an edge to them, there is no infinite way. -/
theorem Acyclic.exists_rank (h : Acyclic r) (finite : {b | ∃ a, r a b}.Finite) :
    ∃ rank : α → Nat, ∀ a b, r a b → rank b < rank a := by
  have reached : ∀ a, {b | TransGen r a b}.Finite := by
    intro a
    refine finite.subset ?_
    intro b path
    obtain ⟨c, -, edge⟩ := TransGen.tail'_iff.mp path
    exact ⟨c, edge⟩
  refine ⟨fun a => {b | TransGen r a b}.ncard, ?_⟩
  intro a b edge
  apply Set.ncard_lt_ncard _ (reached a)
  refine ⟨fun c path => TransGen.head edge path, ?_⟩
  intro all
  exact h b (all (.single edge))

end Edges
