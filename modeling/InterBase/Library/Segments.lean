import Mathlib.Data.List.Basic
import Mathlib.Tactic.Common

namespace Segments

variable {α : Type*}

/-- The segments of a list follow one another without a gap, from `first` on. -/
def Consecutive (base : α → Nat) (width first : Nat) (xs : List α) : Prop :=
  xs.map base = List.range' first xs.length width

/-- The first segment that ends above `n`. -/
def locate (base : α → Nat) (width n : Nat) (xs : List α) : Option α :=
  xs.find? fun x => n < base x + width

/-- Changes the first element with a property. -/
def updateFirst (p : α → Bool) (f : α → α) : List α → List α
  | [] => []
  | x :: xs => if p x then f x :: xs else x :: updateFirst p f xs

theorem map_updateFirst {β : Type*} (g : α → β) (p : α → Bool) {f : α → α}
    (same : ∀ x, g (f x) = g x) (xs : List α) : (updateFirst p f xs).map g = xs.map g := by
  induction xs with
  | nil => rfl
  | cons x xs ih =>
    unfold updateFirst
    split
    · rw [List.map_cons, List.map_cons, same]
    · rw [List.map_cons, List.map_cons, ih]

/-- Where at most one element has the property `q`, and the search stops there, no element with
`q` is left as it was. -/
theorem mem_updateFirst {p : α → Bool} {q : α → Prop} {f : α → α} {xs : List α}
    (stops : ∀ x, q x → p x = true) (pair : xs.Pairwise fun x y => p x = true → ¬q y) {y : α}
    (mem : y ∈ updateFirst p f xs) :
    (∃ x, xs.find? p = some x ∧ y = f x) ∨ y ∈ xs ∧ ¬q y := by
  induction xs with
  | nil => cases mem
  | cons x xs ih =>
    rw [List.pairwise_cons] at pair
    unfold updateFirst at mem
    split at mem
    next found =>
      rcases List.mem_cons.mp mem with rfl | mem
      · exact .inl ⟨x, List.find?_cons_of_pos found, rfl⟩
      · exact .inr ⟨List.mem_cons_of_mem _ mem, pair.1 y mem found⟩
    next missed =>
      rcases List.mem_cons.mp mem with rfl | mem
      · exact .inr ⟨List.mem_cons_self, fun hq => missed (stops y hq)⟩
      · rcases ih pair.2 mem with ⟨z, hz, rfl⟩ | ⟨hy, hq⟩
        · exact .inl ⟨z, by rw [List.find?_cons_of_neg missed, hz], rfl⟩
        · exact .inr ⟨List.mem_cons_of_mem _ hy, hq⟩

section

variable {base : α → Nat} {width first n : Nat} {x y : α} {xs ys : List α}

theorem consecutive_nil : Consecutive base width first [] := rfl

theorem consecutive_cons : Consecutive base width first (x :: xs) ↔
    base x = first ∧ Consecutive base width (first + width) xs := by
  unfold Consecutive
  rw [List.map_cons, List.length_cons, List.range'_succ, List.cons.injEq]

theorem consecutive_append : Consecutive base width first (xs ++ ys) ↔
    Consecutive base width first xs ∧ Consecutive base width (first + width * xs.length) ys := by
  induction xs generalizing first with
  | nil => simp [consecutive_nil]
  | cons x xs ih =>
    rw [List.cons_append, consecutive_cons, consecutive_cons, ih, and_assoc, List.length_cons]
    have next : first + width + width * xs.length = first + width * (xs.length + 1) := by
      rw [Nat.mul_succ]
      omega
    rw [next]

theorem Consecutive.congr (h : Consecutive base width first xs) (same : ys.map base = xs.map base) :
    Consecutive base width first ys := by
  have length : ys.length = xs.length := by
    have := congrArg List.length same
    rwa [List.length_map, List.length_map] at this
  unfold Consecutive at h ⊢
  rw [same, length, h]


theorem Consecutive.first_le (h : Consecutive base width first xs) (mem : x ∈ xs) :
    first ≤ base x := by
  induction xs generalizing first with
  | nil => cases mem
  | cons z xs ih =>
    obtain ⟨hbase, h⟩ := consecutive_cons.mp h
    rcases List.mem_cons.mp mem with rfl | mem
    · omega
    · have := ih h mem
      omega

theorem Consecutive.dvd (h : Consecutive base width first xs) (start : width ∣ first)
    (mem : x ∈ xs) : width ∣ base x := by
  induction xs generalizing first with
  | nil => cases mem
  | cons z xs ih =>
    obtain ⟨hbase, h⟩ := consecutive_cons.mp h
    rcases List.mem_cons.mp mem with rfl | mem
    · exact hbase ▸ start
    · exact ih h (Nat.dvd_add start (Nat.dvd_refl width)) mem

theorem Consecutive.le_end (h : Consecutive base width first xs) (mem : x ∈ xs) :
    base x + width ≤ first + width * xs.length := by
  induction xs generalizing first with
  | nil => cases mem
  | cons z xs ih =>
    obtain ⟨hbase, h⟩ := consecutive_cons.mp h
    rw [List.length_cons, Nat.mul_succ]
    rcases List.mem_cons.mp mem with rfl | mem
    · omega
    · have := ih h mem
      omega

/-- Later segments begin where earlier ones have ended. -/
theorem Consecutive.pairwise (h : Consecutive base width first xs) :
    xs.Pairwise fun x y => base x + width ≤ base y := by
  induction xs generalizing first with
  | nil => exact List.Pairwise.nil
  | cons z xs ih =>
    obtain ⟨hbase, h⟩ := consecutive_cons.mp h
    rw [List.pairwise_cons]
    exact ⟨fun y hy => hbase ▸ h.first_le hy, ih h⟩

/-- The first segment that ends above `n` contains `n`. -/
theorem Consecutive.locate_contains (h : Consecutive base width first xs) (low : first ≤ n)
    (found : locate base width n xs = some x) : base x ≤ n ∧ n < base x + width := by
  unfold locate at found
  induction xs generalizing first with
  | nil => cases found
  | cons z xs ih =>
    obtain ⟨hbase, h⟩ := consecutive_cons.mp h
    by_cases stop : n < base z + width
    · rw [List.find?_cons_of_pos (by simpa using stop)] at found
      cases Option.some.inj found
      exact ⟨by omega, stop⟩
    · rw [List.find?_cons_of_neg (by simpa using stop)] at found
      exact ih h (by omega) found

theorem Consecutive.locate_eq_none (h : Consecutive base width first xs) :
    locate base width n xs = none ↔ xs = [] ∨ first + width * xs.length ≤ n := by
  unfold locate
  induction xs generalizing first with
  | nil => simp
  | cons z xs ih =>
    obtain ⟨hbase, h⟩ := consecutive_cons.mp h
    have length : first + width * (z :: xs).length = first + width + width * xs.length := by
      rw [List.length_cons, Nat.mul_succ]
      omega
    have rest : first + width ≤ first + width + width * xs.length := Nat.le_add_right _ _
    rw [length, eq_false (List.cons_ne_nil z xs), false_or]
    by_cases stop : n < base z + width
    · rw [List.find?_cons_of_pos (by simpa using stop)]
      constructor
      · intro hnone
        cases hnone
      · intro hle
        omega
    · rw [List.find?_cons_of_neg (by simpa using stop), ih h]
      constructor
      · rintro (rfl | hle)
        · simp only [List.length_nil, Nat.mul_zero, Nat.add_zero]
          omega
        · exact hle
      · exact .inr

theorem Consecutive.end_getLast (h : Consecutive base width first xs)
    (last : xs.getLast? = some x) : base x + width = first + width * xs.length := by
  obtain ⟨ys, rfl⟩ := List.getLast?_eq_some_iff.mp last
  obtain ⟨-, h⟩ := consecutive_append.mp h
  obtain ⟨hbase, -⟩ := consecutive_cons.mp h
  rw [List.length_append, List.length_singleton, Nat.mul_succ]
  omega

/-- Dropping the segments that end at or below a bound leaves a consecutive list. -/
theorem Consecutive.dropWhile (h : Consecutive base width first xs) (bound : Nat) :
    ∃ k ≤ xs.length, Consecutive base width (first + width * k)
        (xs.dropWhile fun x => base x + width ≤ bound) ∧
      (xs.dropWhile fun x => base x + width ≤ bound) = xs.drop k ∧
      (k = 0 ∨ first + width * k ≤ bound) := by
  induction xs generalizing first with
  | nil => exact ⟨0, Nat.le_refl 0, consecutive_nil, rfl, .inl rfl⟩
  | cons z xs ih =>
    obtain ⟨hbase, hxs⟩ := consecutive_cons.mp h
    by_cases out : base z + width ≤ bound
    · obtain ⟨k, hk, hdrop, heq, hbound⟩ := ih hxs
      rw [List.dropWhile_cons_of_pos (by simpa using out)]
      have next : first + width + width * k = first + width * (k + 1) := by
        rw [Nat.mul_succ]
        omega
      rw [next] at hdrop hbound
      refine ⟨k + 1, by rw [List.length_cons]; omega, hdrop, heq, .inr ?_⟩
      rcases hbound with rfl | hbound
      · rw [Nat.zero_add, Nat.mul_one]
        omega
      · exact hbound
    · rw [List.dropWhile_cons_of_neg (by simpa using out)]
      exact ⟨0, Nat.zero_le _, by rwa [Nat.mul_zero, Nat.add_zero], rfl, .inl rfl⟩

end

end Segments
