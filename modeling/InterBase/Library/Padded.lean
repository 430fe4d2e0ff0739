import Mathlib.Data.List.Basic
import Mathlib.Order.Defs.Unbundled
import Mathlib.Tactic.Common

namespace Padded

variable {α : Type*}

theorem flatten_eq_nil {ps : List (List α)} (h : ∀ k ∈ ps.map List.length, k = 0) :
    ps.flatten = [] := by
  apply List.flatten_eq_nil_iff.mpr
  intro p hp
  exact List.eq_nil_of_length_eq_zero (h _ (List.mem_map_of_mem hp))

theorem flatten_nil_of_lengths {xs xs' : List (List α)}
    (lengths : xs'.map List.length = xs.map List.length) (none : xs.flatten = []) :
    xs'.flatten = [] := by
  apply flatten_eq_nil
  rw [lengths]
  intro k hk
  obtain ⟨x, hx, rfl⟩ := List.mem_map.mp hk
  rw [List.flatten_eq_nil_iff.mp none x hx]
  rfl

/-- A place behind a piece is a place in what comes behind it. -/
theorem take_behind {r xs ys : List α} {k m : Nat} (le : r.length ≤ k) (begins : xs.take m = ys.take m)
    (shorter : r.length < k → xs = [] ∧ ys = []) :
    (r ++ xs).take (k + m) = (r ++ ys).take (k + m) := by
  obtain lt | equal := Nat.lt_or_eq_of_le le
  · obtain ⟨rfl, rfl⟩ := shorter lt
    rfl
  · rw [← equal, List.take_length_add_append, List.take_length_add_append, begins]

theorem not_blank_of_flatten {ps : List (List α)} (some : ps.flatten ≠ []) :
    ¬ ∀ k ∈ ps.map List.length, k = 0 := fun zero => some (flatten_eq_nil zero)

/-- Pieces of these lengths that are blank. -/
def blanks (blank : α) (ks : List Nat) : List (List α) := ks.map fun k => List.replicate k blank

theorem length_blanks (blank : α) (ks : List Nat) : (blanks blank ks).map List.length = ks := by
  unfold blanks
  rw [List.map_map]
  exact (List.map_congr_left fun k _ => List.length_replicate).trans (List.map_id ks)

theorem mem_blanks {blank : α} {ks : List Nat} (x : α) (h : x ∈ (blanks blank ks).flatten) :
    x = blank := by
  obtain ⟨p, hp, hx⟩ := List.mem_flatten.mp h
  obtain ⟨k, -, rfl⟩ := List.mem_map.mp hp
  exact List.eq_of_mem_replicate hx

/-- Pieces of these lengths whose first element is another one, with blanks behind it. -/
theorem exists_mark (blank z : α) (ks : List Nat) : ¬ (∀ k ∈ ks, k = 0) →
    ∃ (ps : List (List α)) (rest : List α), ps.map List.length = ks ∧
      ps.flatten = z :: rest ∧ ∀ x ∈ rest, x = blank := by
  induction ks with
  | nil => exact fun h => absurd (fun k hk => absurd hk List.not_mem_nil) h
  | cons k ks ih =>
    intro h
    cases k with
    | zero =>
      obtain ⟨ps, rest, lengths, first, others⟩ :=
        ih fun zero => h (List.forall_mem_cons.mpr ⟨rfl, zero⟩)
      exact ⟨[] :: ps, rest, by rw [List.map_cons, lengths]; rfl, first, others⟩
    | succ k =>
      refine ⟨(z :: List.replicate k blank) :: blanks blank ks, _, ?_, List.cons_append, ?_⟩
      · rw [List.map_cons, length_blanks blank, List.length_cons, List.length_replicate]
      · intro x hx
        obtain hx | hx := List.mem_append.mp hx
        · exact List.eq_of_mem_replicate hx
        · exact mem_blanks x hx

def pad (blank : α) (n : Nat) (xs : List α) : List α := xs ++ List.replicate (n - xs.length) blank

theorem pad_nil (blank : α) (n : Nat) : pad blank n [] = List.replicate n blank := rfl

theorem pad_cons (blank : α) (n : Nat) (x : α) (xs : List α) :
    pad blank (n + 1) (x :: xs) = x :: pad blank n xs := by
  unfold pad
  rw [List.length_cons, Nat.add_sub_add_right, List.cons_append]

section

variable [LT α] [DecidableLT α]

/-- The sign of a difference. -/
def sign (x y : α) : Int := if x < y then -1 else 1

theorem sign_ne_zero (x y : α) : sign x y ≠ 0 := by
  unfold sign
  split
  · decide
  · decide

theorem sign_swap [Std.Asymm (α := α) (· < ·)] [Std.Trichotomous (α := α) (· < ·)] {x y : α}
    (h : x ≠ y) : sign y x = -sign x y := by
  unfold sign
  by_cases lt : x < y
  · rw [if_pos lt, if_neg (Std.Asymm.asymm _ _ lt)]
    rfl
  · have gt : y < x := by
      by_contra not
      exact h (Std.Trichotomous.trichotomous x y lt not)
    rw [if_pos gt, if_neg lt]

variable [DecidableEq α]

/-- The sign of the first difference, or 0 when there is none up to the end of one list. -/
def common : List α → List α → Int
  | x :: xs, y :: ys => if x ≠ y then sign x y else common xs ys
  | _, _ => 0

/-- The sign of the first difference of two lists when the shorter is filled up with blanks. -/
def compare (blank : α) (xs ys : List α) : Int :=
  common (pad blank ys.length xs) (pad blank xs.length ys)

/-- What a comparison of piece with piece finds first; it ends with the first piece that has no
other piece to be compared with. -/
def pieces (blank : α) : List (List α) → List (List α) → Int
  | p :: ps, q :: qs => if compare blank p q ≠ 0 then compare blank p q else pieces blank ps qs
  | [], q :: _ => compare blank [] q
  | p :: _, [] => compare blank p []
  | [], [] => 0

/-- How many elements have been compared when a piece is filled up although more comes behind it, or
when the comparison ends although there is more than blanks left. Nothing where a difference is
found before, or where all is compared. -/
def outOfStep (blank : α) : List (List α) → List (List α) → Option Nat
  | p :: ps, q :: qs =>
    let n := min p.length q.length
    if p.take n ≠ q.take n then none
    else if p.length < q.length ∧ ps.flatten ≠ [] ∨ q.length < p.length ∧ qs.flatten ≠ [] then
      some n
    else if compare blank p q ≠ 0 then none
    else (outOfStep blank ps qs).map (max p.length q.length + ·)
  | [], q :: qs =>
    if compare blank [] q = 0 ∧ compare blank [] qs.flatten ≠ 0 then some q.length else none
  | p :: ps, [] =>
    if compare blank p [] = 0 ∧ compare blank ps.flatten [] ≠ 0 then some p.length else none
  | [], [] => none

variable {blank : α}

theorem compare_cons (x y : α) (xs ys : List α) : compare blank (x :: xs) (y :: ys) =
    if x ≠ y then sign x y else compare blank xs ys := by
  unfold compare
  rw [List.length_cons, List.length_cons, pad_cons, pad_cons]
  rfl

@[simp] theorem compare_nil_nil : compare blank [] [] = 0 := rfl

theorem compare_nil_cons (y : α) (ys : List α) : compare blank [] (y :: ys) =
    if blank ≠ y then sign blank y else compare blank [] ys := by
  unfold compare
  rw [List.length_cons, pad_nil, List.replicate_succ]
  unfold pad
  rw [List.length_nil, Nat.zero_sub, Nat.zero_sub]
  rfl

theorem compare_cons_nil (x : α) (xs : List α) : compare blank (x :: xs) [] =
    if x ≠ blank then sign x blank else compare blank xs [] := by
  unfold compare
  rw [List.length_cons, pad_nil, List.replicate_succ]
  unfold pad
  rw [List.length_nil, Nat.zero_sub, Nat.zero_sub]
  rfl

/-- What stands in front in both lists is compared first. -/
theorem compare_append {xs ys : List α} (h : xs.length = ys.length) (xs' ys' : List α) :
    compare blank (xs ++ xs') (ys ++ ys') =
      if compare blank xs ys ≠ 0 then compare blank xs ys else compare blank xs' ys' := by
  induction xs generalizing ys with
  | nil =>
    obtain rfl := List.eq_nil_of_length_eq_zero h.symm
    rw [compare_nil_nil, if_neg (not_not_intro rfl)]
    rfl
  | cons x xs ih =>
    cases ys with
    | nil => cases h
    | cons y ys =>
      rw [List.cons_append, List.cons_append, compare_cons, compare_cons, ih (Nat.succ.inj h)]
      by_cases same : x = y
      · rw [if_neg (not_not_intro same), if_neg (not_not_intro same)]
      · rw [if_pos same, if_pos same, if_pos (sign_ne_zero x y)]

/-- A list behind the other one is compared with blanks. -/
theorem compare_append_right {xs ys : List α} (h : xs.length ≤ ys.length) (ws : List α) :
    compare blank xs (ys ++ ws) =
      if compare blank xs ys ≠ 0 then compare blank xs ys else compare blank [] ws := by
  induction ys generalizing xs with
  | nil =>
    obtain rfl := List.eq_nil_of_length_eq_zero (Nat.le_zero.mp h)
    rw [compare_nil_nil, if_neg (not_not_intro rfl)]
    rfl
  | cons y ys ih =>
    cases xs with
    | nil =>
      rw [List.cons_append, compare_nil_cons, compare_nil_cons, ih (Nat.zero_le _)]
      by_cases same : blank = y
      · rw [if_neg (not_not_intro same), if_neg (not_not_intro same)]
      · rw [if_pos same, if_pos same, if_pos (sign_ne_zero blank y)]
    | cons x xs =>
      rw [List.cons_append, compare_cons, compare_cons, ih (Nat.le_of_succ_le_succ h)]
      by_cases same : x = y
      · rw [if_neg (not_not_intro same), if_neg (not_not_intro same)]
      · rw [if_pos same, if_pos same, if_pos (sign_ne_zero x y)]

theorem compare_blanks (xs : List α) : ∀ {ys : List α}, (∀ x ∈ xs, x = blank) →
    (∀ y ∈ ys, y = blank) → compare blank xs ys = 0 := by
  induction xs with
  | nil =>
    intro ys _ hy
    induction ys with
    | nil => rfl
    | cons y ys ih =>
      rw [compare_nil_cons, if_neg (not_not_intro (hy y List.mem_cons_self).symm)]
      exact ih fun y h => hy y (List.mem_cons_of_mem _ h)
  | cons x xs ih =>
    intro ys hx hy
    have rest : ∀ x ∈ xs, x = blank := fun x h => hx x (List.mem_cons_of_mem _ h)
    cases ys with
    | nil =>
      rw [compare_cons_nil, if_neg (not_not_intro (hx x List.mem_cons_self))]
      exact ih rest hy
    | cons y ys =>
      have same : x = y := (hx x List.mem_cons_self).trans (hy y List.mem_cons_self).symm
      rw [compare_cons, if_neg (not_not_intro same)]
      exact ih rest fun y h => hy y (List.mem_cons_of_mem _ h)

/-- Pieces that differ where both have something are told apart there. -/
theorem compare_differ (p : List α) : ∀ {q : List α},
    p.take (min p.length q.length) ≠ q.take (min p.length q.length) → ∀ xs ys : List α,
      compare blank p q ≠ 0 ∧ compare blank (p ++ xs) (q ++ ys) = compare blank p q := by
  induction p with
  | nil =>
    intro q differ
    rw [List.length_nil, Nat.zero_min, List.take_zero, List.take_zero] at differ
    exact absurd rfl differ
  | cons x p ih =>
    intro q differ xs ys
    cases q with
    | nil =>
      rw [List.length_nil, Nat.min_zero, List.take_zero, List.take_zero] at differ
      exact absurd rfl differ
    | cons y q =>
      rw [List.cons_append, List.cons_append, compare_cons, compare_cons]
      by_cases same : x = y
      · rw [if_neg (not_not_intro same), if_neg (not_not_intro same)]
        rw [List.length_cons, List.length_cons, Nat.succ_min_succ, List.take_succ_cons,
          List.take_succ_cons, same] at differ
        exact ih (fun equal => differ (congrArg (y :: ·) equal)) xs ys
      · rw [if_pos same, if_pos same]
        exact ⟨sign_ne_zero x y, rfl⟩

/-- Lists of pieces of these lengths, the same up to a place, that the comparison gets wrong. -/
def Misled (blank : α) (n : Nat) (ps qs : List (List α)) : Prop :=
  ∃ ps' qs' : List (List α), ps'.map List.length = ps.map List.length ∧
    qs'.map List.length = qs.map List.length ∧ ps'.flatten.take n = ps.flatten.take n ∧
      qs'.flatten.take n = qs.flatten.take n ∧
        pieces blank ps' qs' ≠ compare blank ps'.flatten qs'.flatten

theorem misled_self {n : Nat} {ps qs : List (List α)}
    (ne : pieces blank ps qs ≠ compare blank ps.flatten qs.flatten) : Misled blank n ps qs :=
  ⟨ps, qs, rfl, rfl, rfl, rfl, ne⟩

/-- Where the one side has no pieces left, the comparison may be over too early. -/
theorem misled_of_ended {q : List α} {qs : List (List α)} {n : Nat}
    (out : outOfStep blank [] (q :: qs) = some n) : Misled blank n [] (q :: qs) := by
  unfold outOfStep at out
  split at out
  next more =>
    refine misled_self ?_
    show compare blank [] q ≠ compare blank [] (q ++ qs.flatten)
    rw [compare_append_right (Nat.zero_le _), more.1, if_neg (not_not_intro rfl)]
    exact more.2.symm
  next => cases out

variable [Std.Asymm (α := α) (· < ·)] [Std.Trichotomous (α := α) (· < ·)]

theorem common_swap (xs : List α) : ∀ ys : List α, common ys xs = -common xs ys := by
  induction xs with
  | nil =>
    intro ys
    cases ys with
    | nil => rfl
    | cons y ys => rfl
  | cons x xs ih =>
    intro ys
    cases ys with
    | nil => rfl
    | cons y ys =>
      unfold common
      by_cases same : x = y
      · rw [if_neg (not_not_intro same), if_neg (not_not_intro same.symm), ih]
      · rw [if_pos same, if_pos (Ne.symm same), sign_swap same]

theorem compare_swap (xs ys : List α) : compare blank ys xs = -compare blank xs ys :=
  common_swap _ _

theorem compare_append_left {xs ys : List α} (h : ys.length ≤ xs.length) (ws : List α) :
    compare blank (xs ++ ws) ys =
      if compare blank xs ys ≠ 0 then compare blank xs ys else compare blank ws [] := by
  rw [compare_swap, compare_append_right h, compare_swap xs ys, compare_swap ws []]
  by_cases same : compare blank xs ys = 0
  · rw [if_neg (not_not_intro same), if_neg, Int.neg_neg]
    exact not_not_intro (Int.neg_eq_zero.mpr same)
  · rw [if_pos same, if_pos (Int.neg_ne_zero.mpr same), Int.neg_neg]

theorem compare_self (xs : List α) : compare blank xs xs = 0 := by
  have swap : compare blank xs xs = -compare blank xs xs := compare_swap xs xs
  omega

theorem pieces_swap (ps : List (List α)) : ∀ qs : List (List α),
    pieces blank qs ps = -pieces blank ps qs := by
  induction ps with
  | nil =>
    intro qs
    cases qs with
    | nil => rfl
    | cons q qs => exact compare_swap [] q
  | cons p ps ih =>
    intro qs
    cases qs with
    | nil => exact compare_swap p []
    | cons q qs =>
      unfold pieces
      rw [compare_swap p q]
      by_cases same : compare blank p q = 0
      · rw [if_neg (not_not_intro (Int.neg_eq_zero.mpr same)), if_neg (not_not_intro same), ih]
      · rw [if_pos (Int.neg_ne_zero.mpr same), if_pos same]

theorem outOfStep_swap (ps : List (List α)) : ∀ qs : List (List α),
    outOfStep blank qs ps = outOfStep blank ps qs := by
  induction ps with
  | nil =>
    intro qs
    cases qs with
    | nil => rfl
    | cons q qs =>
      unfold outOfStep
      simp only [compare_swap [] q, compare_swap [] qs.flatten, ne_eq, Int.neg_eq_zero]
  | cons p ps ih =>
    intro qs
    cases qs with
    | nil =>
      unfold outOfStep
      simp only [compare_swap p [], compare_swap ps.flatten [], ne_eq, Int.neg_eq_zero]
    | cons q qs =>
      have either : q.length < p.length ∧ qs.flatten ≠ [] ∨ p.length < q.length ∧ ps.flatten ≠ [] ↔
          p.length < q.length ∧ ps.flatten ≠ [] ∨ q.length < p.length ∧ qs.flatten ≠ [] := or_comm
      have common : q.take (min p.length q.length) = p.take (min p.length q.length) ↔
          p.take (min p.length q.length) = q.take (min p.length q.length) := eq_comm
      unfold outOfStep
      rw [Nat.min_comm q.length, Nat.max_comm q.length]
      simp only [ih, compare_swap p q, ne_eq, Int.neg_eq_zero, common]
      simp only [either, ne_eq]

/-- Pieces that have the same length, or the shorter one of which has nothing behind it, are compared
in front of what comes behind them. -/
theorem compare_step {p q xs ys : List α}
    (step : ¬ (p.length < q.length ∧ xs ≠ [] ∨ q.length < p.length ∧ ys ≠ [])) :
    compare blank (p ++ xs) (q ++ ys) =
      if compare blank p q ≠ 0 then compare blank p q else compare blank xs ys := by
  obtain ⟨shorter, longer⟩ := not_or.mp step
  obtain lt | same | gt := Nat.lt_trichotomy p.length q.length
  · have none : xs = [] := not_not.mp fun some => shorter ⟨lt, some⟩
    rw [none, List.append_nil, compare_append_right (Nat.le_of_lt lt)]
  · exact compare_append same xs ys
  · have none : ys = [] := not_not.mp fun some => longer ⟨gt, some⟩
    rw [none, List.append_nil, compare_append_left (Nat.le_of_lt gt)]

/-- Pieces that stay in step compare as the lists they make up. -/
theorem pieces_eq (ps : List (List α)) : ∀ {qs : List (List α)},
    outOfStep blank ps qs = none →
      pieces blank ps qs = compare blank ps.flatten qs.flatten := by
  -- a list of pieces that has no other to be compared with
  have ends : ∀ {q : List α} {qs : List (List α)},
      ¬ (compare blank [] q = 0 ∧ compare blank [] qs.flatten ≠ 0) →
        compare blank [] q = compare blank [] (q ++ qs.flatten) := by
    intro q qs inStep
    rw [compare_append_right (Nat.zero_le _)]
    by_cases same : compare blank [] q = 0
    · rw [if_neg (not_not_intro same), same]
      exact (not_not.mp fun more => inStep ⟨same, more⟩).symm
    · rw [if_pos same]
  induction ps with
  | nil =>
    intro qs inStep
    cases qs with
    | nil => rfl
    | cons q qs =>
      unfold outOfStep at inStep
      rw [List.flatten_cons]
      exact ends fun more => absurd ((if_pos more).symm.trans inStep) (Option.some_ne_none _)
  | cons p ps ih =>
    intro qs inStep
    cases qs with
    | nil =>
      rw [← outOfStep_swap] at inStep
      unfold outOfStep at inStep
      rw [← Int.neg_inj, ← pieces_swap, ← compare_swap, List.flatten_cons]
      exact ends fun more => absurd ((if_pos more).symm.trans inStep) (Option.some_ne_none _)
    | cons q qs =>
      rw [List.flatten_cons, List.flatten_cons]
      unfold pieces
      unfold outOfStep at inStep
      simp only at inStep
      by_cases differ : p.take (min p.length q.length) ≠ q.take (min p.length q.length)
      · obtain ⟨found, same⟩ :=
          (compare_differ p differ ps.flatten qs.flatten : compare blank p q ≠ 0 ∧ _)
        rw [if_pos found, same]
      rw [if_neg differ] at inStep
      by_cases out : p.length < q.length ∧ ps.flatten ≠ [] ∨ q.length < p.length ∧ qs.flatten ≠ []
      · rw [if_pos out] at inStep
        exact absurd inStep (Option.some_ne_none _)
      rw [if_neg out] at inStep
      rw [compare_step out]
      by_cases found : compare blank p q ≠ 0
      · rw [if_pos found, if_pos found]
      · rw [if_neg found, Option.map_eq_none_iff] at inStep
        rw [if_neg found, if_neg found, ih inStep]

/-- Where the shorter of two pieces has something behind it, lists that are the same up to blanks
come out different. -/
theorem exists_shorter {z : α} (other : blank ≠ z) {p q : List α} (lt : p.length < q.length)
    (same : p.take (min p.length q.length) = q.take (min p.length q.length)) {ks : List Nat}
    (ls : List Nat) (more : ¬ ∀ k ∈ ks, k = 0) : ∃ ps q' qs,
      ps.map List.length = ks ∧ q'.length = q.length ∧ qs.map List.length = ls ∧
        q'.take p.length = q.take p.length ∧
          pieces blank (p :: ps) (q' :: qs) ≠
            compare blank (p :: ps).flatten (q' :: qs).flatten := by
  obtain ⟨ps, rest, lengths, first, others⟩ := exists_mark blank z ks more
  rw [Nat.min_eq_left (Nat.le_of_lt lt), List.take_length] at same
  refine ⟨ps, p ++ z :: List.replicate (q.length - p.length - 1) blank, blanks blank ls, lengths,
    ?_, length_blanks blank ls, ?_, ?_⟩
  · rw [List.length_append, List.length_cons, List.length_replicate]
    omega
  · exact List.take_left.trans same
  · have found : compare blank p (p ++ z :: List.replicate (q.length - p.length - 1) blank) =
        sign blank z := by
      rw [compare_append_right (Nat.le_refl _), compare_self, if_neg (not_not_intro rfl),
        compare_nil_cons, if_pos other]
    have whole : compare blank (p :: ps).flatten
        ((p ++ z :: List.replicate (q.length - p.length - 1) blank) ::
          blanks blank ls).flatten = 0 := by
      rw [List.flatten_cons, List.flatten_cons, List.append_assoc, compare_append rfl, compare_self,
        if_neg (not_not_intro rfl), first, List.cons_append, compare_cons,
        if_neg (not_not_intro rfl)]
      refine compare_blanks rest others fun x hx => ?_
      obtain hx | hx := List.mem_append.mp hx
      · exact List.eq_of_mem_replicate hx
      · exact mem_blanks x hx
    unfold pieces
    rw [whole, found, if_pos (sign_ne_zero blank z)]
    exact sign_ne_zero blank z

theorem Misled.swap {n : Nat} {ps qs : List (List α)} (h : Misled blank n ps qs) :
    Misled blank n qs ps := by
  obtain ⟨ps', qs', lengths1, lengths2, begins1, begins2, ne⟩ := h
  refine ⟨qs', ps', lengths2, lengths1, begins2, begins1, fun same => ne ?_⟩
  rw [pieces_swap, compare_swap] at same
  exact Int.neg_inj.mp same

theorem misled_shorter {z : α} (other : blank ≠ z) {p q : List α} (lt : p.length < q.length)
    (same : p.take (min p.length q.length) = q.take (min p.length q.length))
    {ps : List (List α)} (more : ps.flatten ≠ []) (qs : List (List α)) :
    Misled blank (min p.length q.length) (p :: ps) (q :: qs) := by
  obtain ⟨ps', q', qs', lengths1, long, lengths2, begins, ne⟩ :=
    exists_shorter other lt same (qs.map List.length) (not_blank_of_flatten more)
  rw [Nat.min_eq_left (Nat.le_of_lt lt)]
  refine ⟨p :: ps', q' :: qs', ?_, ?_, ?_, ?_, ne⟩
  · rw [List.map_cons, List.map_cons, lengths1]
  · rw [List.map_cons, List.map_cons, long, lengths2]
  · rw [List.flatten_cons, List.flatten_cons, List.take_left, List.take_left]
  · rw [List.flatten_cons, List.flatten_cons, List.take_append_of_le_length (by omega),
      List.take_append_of_le_length (by omega), begins]

/-- Where a comparison gets out of step, what it has not compared decides whether it is right. -/
theorem misled_of_outOfStep {z : α} (other : blank ≠ z) (ps : List (List α)) :
    ∀ {qs : List (List α)} {n : Nat}, outOfStep blank ps qs = some n → Misled blank n ps qs := by
  induction ps with
  | nil =>
    intro qs n out
    cases qs with
    | nil => cases out
    | cons q qs => exact misled_of_ended out
  | cons p ps ih =>
    intro qs n out
    cases qs with
    | nil =>
      rw [← outOfStep_swap] at out
      exact (misled_of_ended out).swap
    | cons q qs =>
      unfold outOfStep at out
      simp only at out
      by_cases differ : p.take (min p.length q.length) ≠ q.take (min p.length q.length)
      · rw [if_pos differ] at out
        cases out
      rw [if_neg differ] at out
      have same := not_not.mp differ
      by_cases step : p.length < q.length ∧ ps.flatten ≠ [] ∨ q.length < p.length ∧ qs.flatten ≠ []
      · rw [if_pos step] at out
        obtain rfl := Option.some.inj out
        obtain ⟨lt, more⟩ | ⟨gt, more⟩ := step
        · exact misled_shorter other lt same more qs
        · rw [Nat.min_comm]
          rw [Nat.min_comm] at same
          exact (misled_shorter other gt same.symm more ps).swap
      rw [if_neg step] at out
      by_cases found : compare blank p q ≠ 0
      · rw [if_pos found] at out
        cases out
      rw [if_neg found] at out
      obtain ⟨m, rest, rfl⟩ := Option.map_eq_some_iff.mp out
      obtain ⟨ps', qs', lengths1, lengths2, begins1, begins2, ne⟩ := ih rest
      have step' : ¬ (p.length < q.length ∧ ps'.flatten ≠ [] ∨
          q.length < p.length ∧ qs'.flatten ≠ []) := by
        rintro (⟨lt, more⟩ | ⟨gt, more⟩)
        · exact more (flatten_nil_of_lengths lengths1 (not_not.mp fun some => step (.inl ⟨lt, some⟩)))
        · exact more (flatten_nil_of_lengths lengths2 (not_not.mp fun some => step (.inr ⟨gt, some⟩)))
      refine ⟨p :: ps', q :: qs', ?_, ?_, ?_, ?_, ?_⟩
      · rw [List.map_cons, List.map_cons, lengths1]
      · rw [List.map_cons, List.map_cons, lengths2]
      · refine take_behind (Nat.le_max_left ..) begins1 fun lt => ?_
        have none : ps.flatten = [] := not_not.mp fun some => step (.inl ⟨by omega, some⟩)
        exact ⟨flatten_nil_of_lengths lengths1 none, none⟩
      · refine take_behind (Nat.le_max_right ..) begins2 fun gt => ?_
        have none : qs.flatten = [] := not_not.mp fun some => step (.inr ⟨by omega, some⟩)
        exact ⟨flatten_nil_of_lengths lengths2 none, none⟩
      · rw [List.flatten_cons, List.flatten_cons, compare_step step']
        unfold pieces
        rw [if_neg found, if_neg found]
        exact ne

end

end Padded
