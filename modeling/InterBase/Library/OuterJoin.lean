import Mathlib.Data.List.Basic
import Mathlib.Tactic.Common

namespace OuterJoin

variable {α β : Type*}

/-- The rows joined to one outer row: those that match, or a null. -/
def matching (p : β → Bool) (bs : List β) : List (Option β) :=
  if bs.filter p = [] then [none] else (bs.filter p).map some

def leftJoin (on : α → β → Bool) (as : List α) (bs : List β) : List (α × Option β) :=
  as.flatMap fun a => (matching (on a) bs).map fun b => (a, b)

/-- The inner rows that no outer row matches. -/
def unmatched (on : α → β → Bool) (as : List α) (bs : List β) : List β :=
  bs.filter fun b => !as.any fun a => on a b

def fullJoin (on : α → β → Bool) (as : List α) (bs : List β) : List (Option α × Option β) :=
  (leftJoin on as bs).map (fun row => (some row.1, row.2)) ++
    (unmatched on as bs).map fun b => (none, some b)

theorem matching_of_forall {p : β → Bool} {bs : List β} (h : ∀ b ∈ bs, p b = false) :
    matching p bs = [none] := by
  apply if_pos
  apply List.filter_eq_nil_iff.mpr
  intro b hb
  rw [h b hb]
  exact Bool.false_ne_true

theorem unmatched_of_forall {on : α → β → Bool} {as : List α} (bs : List β)
    (h : ∀ a ∈ as, ∀ b, on a b = false) : unmatched on as bs = bs := by
  apply List.filter_eq_self.mpr
  intro b _
  have hnone : as.any (fun a => on a b) = false := by
    apply List.any_eq_false.mpr
    intro a ha
    rw [h a ha b]
    exact Bool.false_ne_true
  rw [hnone]
  rfl

theorem mem_unmatched {on : α → β → Bool} {as : List α} {bs : List β} {b : β} :
    b ∈ unmatched on as bs ↔ b ∈ bs ∧ ∀ a ∈ as, on a b = false := by
  rw [unmatched, List.mem_filter, Bool.not_eq_true', List.any_eq_false]
  simp only [Bool.not_eq_true]

end OuterJoin
