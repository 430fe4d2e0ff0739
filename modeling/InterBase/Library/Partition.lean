import Mathlib.Data.List.DropRight
import Mathlib.Data.List.Perm.Subperm
import Mathlib.Order.Lattice
import Mathlib.Tactic.Common

namespace Partition

section

variable {α : Type*} {f g : α → Bool} {x : α} {xs rest tail : List α}

theorem length_between_lt (h : (xs.rdropWhile f).dropWhile g = x :: rest) :
    rest.length - 1 < xs.length := by
  have fewer := (List.dropWhile_sublist g (l := xs.rdropWhile f)).length_le
  have all := (List.rdropWhile_prefix f xs).length_le
  rw [h, List.length_cons] at fewer
  omega

theorem rdropWhile_append_of_forall (xs : List α) (h : ∀ z ∈ tail, f z) :
    (xs ++ tail).rdropWhile f = xs.rdropWhile f := by
  induction tail using List.reverseRecOn with
  | nil => rw [List.append_nil]
  | append_singleton tail z ih =>
    rw [← List.append_assoc, List.rdropWhile_concat_pos _ _ _ (h z (by simp))]
    exact ih fun z mem => h z (List.mem_append_left _ mem)

theorem rtakeWhile_append_of_forall (xs : List α) (h : ∀ z ∈ tail, f z) :
    (xs ++ tail).rtakeWhile f = xs.rtakeWhile f ++ tail := by
  induction tail using List.reverseRecOn with
  | nil => rw [List.append_nil, List.append_nil]
  | append_singleton tail z ih =>
    rw [← List.append_assoc, List.rtakeWhile_concat_pos _ _ _ (h z (by simp)),
      ih fun z mem => h z (List.mem_append_left _ mem), List.append_assoc]

end

variable {α : Type*} [LinearOrder α]

/-- What a partition around `p` that converges from both ends leaves behind `p`: the records at the
end that are not in front of it, and in the place of the last one that is, the first that is behind
it. -/
def behind (p : α) (xs : List α) : List α :=
  match h : (xs.rdropWhile fun x => ¬x < p).dropWhile fun x => ¬p < x with
  | [] => xs.rtakeWhile fun x => ¬x < p
  | x :: rest =>
    have : rest.length - 1 < xs.length := length_between_lt h
    behind p rest.dropLast ++ x :: xs.rtakeWhile fun x => ¬x < p
termination_by xs.length

variable {p x y : α} {low mid tail : List α}

/-- Nothing is left to exchange. -/
theorem behind_done (front : ∀ z ∈ low, ¬p < z) (last : ∀ z ∈ low.getLast?, z < p)
    (back : ∀ z ∈ tail, ¬z < p) : behind p (low ++ tail) = tail := by
  have dropped : (low ++ tail).rdropWhile (fun z => ¬z < p) = low := by
    rw [rdropWhile_append_of_forall low (by simpa using back), List.rdropWhile_eq_self_iff]
    intro some
    simpa using last _ (List.getLast?_eq_getLast_of_ne_nil some)
  have taken : (low ++ tail).rtakeWhile (fun z => ¬z < p) = tail := by
    have all := List.rdropWhile_append_rtakeWhile (p := fun z => ¬z < p) (l := low ++ tail)
    rw [dropped] at all
    exact List.append_cancel_left all
  have none : low.dropWhile (fun z => ¬p < z) = [] := by
    rw [List.dropWhile_eq_nil_iff]
    simpa using front
  rw [behind]
  split
  · exact taken
  · rename_i h
    rw [dropped, none] at h
    cases h

theorem behind_exchange (front : ∀ z ∈ low, ¬p < z) (hx : p < x) (hy : y < p)
    (back : ∀ z ∈ tail, ¬z < p) :
    behind p (low ++ x :: (mid ++ y :: tail)) = behind p mid ++ x :: tail := by
  have shape : low ++ x :: (mid ++ y :: tail) = low ++ x :: mid ++ [y] ++ tail := by simp
  have dropped : (low ++ x :: (mid ++ y :: tail)).rdropWhile (fun z => ¬z < p) =
      low ++ x :: (mid ++ [y]) := by
    rw [shape, rdropWhile_append_of_forall _ (by simpa using back),
      List.rdropWhile_concat_neg _ _ _ (by simpa using hy)]
    simp
  have taken : (low ++ x :: (mid ++ y :: tail)).rtakeWhile (fun z => ¬z < p) = tail := by
    rw [shape, rtakeWhile_append_of_forall _ (by simpa using back),
      List.rtakeWhile_concat_neg _ _ _ (by simpa using hy), List.nil_append]
  have found : (low ++ x :: (mid ++ [y])).dropWhile (fun z => ¬p < z) = x :: (mid ++ [y]) := by
    rw [List.dropWhile_append_of_pos (by simpa using front), List.dropWhile_cons_of_neg (by simpa using hx)]
  rw [behind]
  split
  · rename_i h
    rw [dropped, found] at h
    cases h
  · rename_i z rest h
    rw [dropped, found] at h
    obtain ⟨rfl, rfl⟩ := List.cons.inj h
    rw [taken, List.dropLast_concat]

theorem behind_subperm (p : α) (xs : List α) : (behind p xs).Subperm xs := by
  induction xs using behind.induct p with
  | case1 xs h =>
    rw [behind]
    split
    · exact (List.rtakeWhile_suffix _ xs).sublist.subperm
    · rename_i h'
      rw [h] at h'
      cases h'
  | case2 xs x rest h less ih =>
    rw [behind]
    split
    · rename_i h'
      rw [h] at h'
      cases h'
    · rename_i z rest' h'
      rw [h] at h'
      obtain ⟨rfl, rfl⟩ := List.cons.inj h'
      have between : (x :: rest).Sublist (xs.rdropWhile fun x => ¬x < p) := h ▸ List.dropWhile_sublist _
      have below : (behind p rest.dropLast).Subperm rest :=
        ih.trans (List.dropLast_sublist rest).subperm
      have moved : (behind p rest.dropLast ++ x :: xs.rtakeWhile fun x => ¬x < p).Subperm
          ((x :: rest) ++ xs.rtakeWhile fun x => ¬x < p) :=
        ((List.subperm_append_right _).mpr below).trans List.perm_middle.subperm
      refine moved.trans (List.Sublist.subperm ?_)
      conv_rhs => rw [← List.rdropWhile_append_rtakeWhile (p := fun x => ¬x < p) (l := xs)]
      exact between.append (List.Sublist.refl _)

theorem length_behind_le (p : α) (xs : List α) : (behind p xs).length ≤ xs.length :=
  (behind_subperm p xs).length_le

/-- An interval of three records or more is partitioned around its middle record, for which the first
one takes the place in the middle, and what is left behind it is partitioned in turn. `Guarded` says
that each of these partition records that is `last` has a record behind it. -/
def Guarded (last : α → Prop) : List α → Prop
  | [] => True
  | x :: rest =>
    if h : 2 ≤ rest.length then
      let p := rest.get ⟨rest.length / 2 - 1, by omega⟩
      have : (behind p (rest.set (rest.length / 2 - 1) x)).length < (x :: rest).length := by
        have := length_behind_le p (rest.set (rest.length / 2 - 1) x)
        rw [List.length_set] at this
        exact Nat.lt_succ_of_le this
      (last p → ∃ y ∈ x :: rest, p < y) ∧
        Guarded last (behind p (rest.set (rest.length / 2 - 1) x))
    else True
termination_by xs => xs.length
decreasing_by exact this

variable {last : α → Prop} {rest : List α}

theorem guarded_cons (h : 2 ≤ rest.length) {p : α}
    (middle : rest[rest.length / 2 - 1]? = some p) : Guarded last (x :: rest) ↔
      (last p → ∃ y ∈ x :: rest, p < y) ∧
        Guarded last (behind p (rest.set (rest.length / 2 - 1) x)) := by
  have eq : rest.get ⟨rest.length / 2 - 1, by omega⟩ = p := by
    rw [List.getElem?_eq_getElem (by omega)] at middle
    exact Option.some.inj middle
  rw [Guarded, dif_pos h]
  simp only [eq]

theorem guarded_short {xs : List α} (h : xs.length ≤ 2) : Guarded last xs := by
  cases xs with
  | nil =>
    rw [Guarded]
    trivial
  | cons x rest =>
    rw [List.length_cons] at h
    rw [Guarded, dif_neg (by omega)]
    trivial

theorem guarded_of_none (xs : List α) (none : ∀ x ∈ xs, ¬last x) : Guarded last xs := by
  induction xs using Guarded.induct with
  | case1 => exact guarded_short (Nat.zero_le 2)
  | case2 x rest h p less ih =>
    rw [guarded_cons h (List.getElem?_eq_getElem (by omega))]
    have middle : p ∈ x :: rest := List.mem_cons_of_mem x (List.get_mem rest _)
    refine ⟨fun hp => absurd hp (none p middle), ih fun y mem => none y ?_⟩
    rcases List.mem_or_eq_of_mem_set ((behind_subperm p _).subset mem) with inside | rfl
    · exact List.mem_cons_of_mem x inside
    · exact List.mem_cons_self
  | case3 x rest h => exact guarded_short (by rw [List.length_cons]; omega)

end Partition
