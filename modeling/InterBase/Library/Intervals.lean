import Mathlib.Data.List.Pairwise
import Mathlib.Order.Lattice
import Mathlib.Tactic.Common

namespace Intervals

variable {α : Type*} [Preorder α]

/-- Positions from 1 to `n` are in order unless one of the intervals covers both. -/
def Settled (f : Nat → α) (n : Nat) (intervals : List (Nat × Nat)) : Prop :=
  ∀ x y, 1 ≤ x → x < y → y ≤ n → f x ≤ f y ∨ ∃ I ∈ intervals, I.1 ≤ x ∧ y ≤ I.2

def Apart (intervals : List (Nat × Nat)) : Prop :=
  intervals.Pairwise fun I J => I.2 < J.1 ∨ J.2 < I.1

/-- What lies in the interval has been rearranged, and nothing else. -/
structure Rearranged {β : Type*} (r j : Nat) (f f' : Nat → β) : Prop where
  inside : ∀ x, r ≤ x → x ≤ j → ∃ y, r ≤ y ∧ y ≤ j ∧ f' x = f y
  outside : ∀ x, x < r ∨ j < x → f' x = f x

theorem Rearranged.refl {β : Type*} (r j : Nat) (f : Nat → β) : Rearranged r j f f :=
  ⟨fun x low high => ⟨x, low, high, rfl⟩, fun _ _ => rfl⟩

theorem Rearranged.trans {β : Type*} {r j : Nat} {f f' f'' : Nat → β} (h : Rearranged r j f f')
    (h' : Rearranged r j f' f'') : Rearranged r j f f'' := by
  refine ⟨fun x low high => ?_, fun x out => (h'.outside x out).trans (h.outside x out)⟩
  obtain ⟨y, lowY, highY, eq⟩ := h'.inside x low high
  obtain ⟨z, lowZ, highZ, eq'⟩ := h.inside y lowY highY
  exact ⟨z, lowZ, highZ, eq.trans eq'⟩

theorem Rearranged.widen {β : Type*} {r j : Nat} {f f' : Nat → β} (h : Rearranged (r + 1) j f f')
    (le : r ≤ j) : Rearranged r j f f' := by
  refine ⟨fun x low high => ?_, fun x out => h.outside x (by omega)⟩
  by_cases first : x = r
  · exact ⟨r, Nat.le_refl r, le, by rw [first]; exact h.outside r (by omega)⟩
  · obtain ⟨y, lowY, highY, eq⟩ := h.inside x (by omega) high
    exact ⟨y, by omega, highY, eq⟩

theorem Settled.perm {f : Nat → α} {n : Nat} {intervals intervals' : List (Nat × Nat)}
    (h : Settled f n intervals) (sub : ∀ I ∈ intervals, I ∈ intervals') :
    Settled f n intervals' := by
  intro x y low lt high
  rcases h x y low lt high with le | ⟨I, mem, covers⟩
  · exact .inl le
  · exact .inr ⟨I, sub I mem, covers⟩

/-- An interval that has been partitioned gives way to its two halves. -/
theorem Settled.split {f f' : Nat → α} {n r k j : Nat} {rest : List (Nat × Nat)}
    (h : Settled f n ((r, j) :: rest)) (apart : Apart ((r, j) :: rest))
    (moved : Rearranged r j f f') (pos : 1 ≤ r) (last : j ≤ n)
    (below : ∀ x, r ≤ x → x < k → f' x ≤ f' k) (above : ∀ x, k < x → x ≤ j → f' k ≤ f' x) :
    Settled f' n ((r, k - 1) :: (k + 1, j) :: rest) := by
  obtain ⟨others, -⟩ := List.pairwise_cons.mp apart
  -- An interval of the rest covers nothing that it shares with the one that was partitioned.
  have clear : ∀ I ∈ rest, ∀ z, r ≤ z → z ≤ j → ¬(I.1 ≤ z ∧ z ≤ I.2) := by
    intro I mem z low high
    have := others I mem
    simp only at this
    omega
  intro x y low lt high
  by_cases hx : r ≤ x ∧ x ≤ j
  · by_cases hy : y ≤ j
    · by_cases cross : x ≤ k ∧ k ≤ y
      · refine .inl (le_trans (b := f' k) ?_ ?_)
        · rcases Nat.lt_or_eq_of_le cross.1 with lt' | eq
          · exact below x hx.1 lt'
          · rw [eq]
        · rcases Nat.lt_or_eq_of_le cross.2 with lt' | eq
          · exact above y lt' hy
          · rw [eq]
      · by_cases side : y < k
        · exact .inr ⟨(r, k - 1), by simp, hx.1, by simp only; omega⟩
        · exact .inr ⟨(k + 1, j), by simp, by simp only; omega, hy⟩
    · obtain ⟨x', lowX, highX, eq⟩ := moved.inside x hx.1 hx.2
      rw [eq, moved.outside y (by omega)]
      rcases h x' y (by omega) (by omega) high with le | ⟨I, mem, covers⟩
      · exact .inl le
      · rcases List.mem_cons.mp mem with rfl | mem
        · simp only at covers
          omega
        · exact absurd ⟨covers.1, by omega⟩ (clear I mem x' lowX highX)
  · by_cases hy : r ≤ y ∧ y ≤ j
    · obtain ⟨y', lowY, highY, eq⟩ := moved.inside y hy.1 hy.2
      rw [eq, moved.outside x (by omega)]
      rcases h x y' low (by omega) (by omega) with le | ⟨I, mem, covers⟩
      · exact .inl le
      · rcases List.mem_cons.mp mem with rfl | mem
        · simp only at covers
          omega
        · exact absurd ⟨by omega, covers.2⟩ (clear I mem y' lowY highY)
    · rw [moved.outside x (by omega), moved.outside y (by omega)]
      rcases h x y low lt high with le | ⟨I, mem, covers⟩
      · exact .inl le
      · rcases List.mem_cons.mp mem with rfl | mem
        · simp only at covers
          omega
        · exact .inr ⟨I, by simp [mem], covers⟩

theorem Apart.split {r k j : Nat} {rest : List (Nat × Nat)} (apart : Apart ((r, j) :: rest))
    (pos : 1 ≤ r) (hr : r ≤ k) (hj : k ≤ j) : Apart ((r, k - 1) :: (k + 1, j) :: rest) := by
  obtain ⟨others, apart'⟩ := List.pairwise_cons.mp apart
  refine List.pairwise_cons.mpr ⟨?_, List.pairwise_cons.mpr ⟨?_, apart'⟩⟩
  · intro J mem
    rcases List.mem_cons.mp mem with rfl | mem
    · simp only
      omega
    · have := others J mem
      simp only at this ⊢
      omega
  · intro J mem
    have := others J mem
    simp only at this ⊢
    omega

/-- No two of the intervals hold more than two positions together with the same one. -/
def Narrow (intervals : List (Nat × Nat)) : Prop := ∀ I ∈ intervals, I.2 ≤ I.1 + 1

/-- The positions below `i` are in order with all behind them; the others as far as the small
intervals leave them. -/
def SettledFrom (f : Nat → α) (n i : Nat) (intervals : List (Nat × Nat)) : Prop :=
  ∀ x y, 1 ≤ x → x < y → y ≤ n → f x ≤ f y ∨ i ≤ x ∧ ∃ I ∈ intervals, I.1 ≤ x ∧ y ≤ I.2

theorem Settled.from_one {f : Nat → α} {n : Nat} {intervals : List (Nat × Nat)}
    (h : Settled f n intervals) : SettledFrom f n 1 intervals := by
  intro x y low lt high
  exact (h x y low lt high).imp_right fun covers => ⟨low, covers⟩

theorem SettledFrom.ordered {f : Nat → α} {n i : Nat} {intervals : List (Nat × Nat)}
    (h : SettledFrom f n i intervals) (all : n ≤ i) {x y : Nat} (low : 1 ≤ x) (lt : x < y)
    (high : y ≤ n) : f x ≤ f y := by
  rcases h x y low lt high with le | ⟨late, -⟩
  · exact le
  · omega

theorem SettledFrom.keep {f : Nat → α} {n i : Nat} {intervals : List (Nat × Nat)}
    (h : SettledFrom f n i intervals) (small : Narrow intervals)
    (ordered : i + 1 ≤ n → f i ≤ f (i + 1)) : SettledFrom f n (i + 1) intervals := by
  intro x y low lt high
  rcases h x y low lt high with le | ⟨late, I, mem, covers⟩
  · exact .inl le
  · by_cases first : x = i
    · have := small I mem
      obtain rfl : y = x + 1 := by omega
      rw [first] at high ⊢
      exact .inl (ordered high)
    · exact .inr ⟨by omega, I, mem, covers⟩

/-- A pair that is out of order is an interval of its own, so it can be swapped. -/
theorem SettledFrom.swap {f f' : Nat → α} {n i : Nat} {intervals : List (Nat × Nat)}
    (h : SettledFrom f n i intervals) (small : Narrow intervals) (apart : Apart intervals)
    (pos : 1 ≤ i) (room : i + 1 ≤ n) (disordered : ¬f i ≤ f (i + 1)) (swapped : f' i ≤ f' (i + 1))
    (first : f' i = f (i + 1)) (second : f' (i + 1) = f i)
    (others : ∀ x, x ≠ i → x ≠ i + 1 → f' x = f x) : SettledFrom f' n (i + 1) intervals := by
  obtain ⟨-, I, memI, coversI⟩ := (h i (i + 1) pos (by omega) room).resolve_left disordered
  -- The interval of the pair is the only one that reaches into it.
  have alone : ∀ J ∈ intervals, ∀ x y, J.1 ≤ x → y ≤ J.2 → x < y →
      (x = i ∨ x = i + 1) → y ≠ i + 1 → False := by
    intro J mem x y low high lt here other
    have smallI := small I memI
    have smallJ := small J mem
    by_cases same : I = J
    · subst same
      omega
    · have symmetric : Std.Symm fun I J : Nat × Nat => I.2 < J.1 ∨ J.2 < I.1 :=
        ⟨fun _ _ h => h.symm⟩
      have := List.Pairwise.forall apart memI mem same
      omega
  intro x y low lt high
  by_cases hx : x = i ∨ x = i + 1
  · by_cases hy : y = i + 1
    · subst hy
      obtain rfl : x = i := by omega
      exact .inl swapped
    · have moved : ∃ x', (x' = i ∨ x' = i + 1) ∧ f' x = f x' := by
        rcases hx with rfl | rfl
        · exact ⟨x + 1, .inr rfl, first⟩
        · exact ⟨i, .inl rfl, second⟩
      obtain ⟨x', here, eq⟩ := moved
      have behind : i + 1 < y := by omega
      rw [eq, others y (by omega) (by omega)]
      rcases h x' y (by omega) (by omega) high with le | ⟨-, J, mem, covers⟩
      · exact .inl le
      · exact (alone J mem x' y covers.1 covers.2 (by omega) here (by omega)).elim
  · rw [others x (fun eq => hx (.inl eq)) (fun eq => hx (.inr eq))]
    by_cases hy : y = i ∨ y = i + 1
    · have moved : ∃ y', (y' = i ∨ y' = i + 1) ∧ f' y = f y' := by
        rcases hy with rfl | rfl
        · exact ⟨y + 1, .inr rfl, first⟩
        · exact ⟨i, .inl rfl, second⟩
      obtain ⟨y', here, eq⟩ := moved
      rw [eq]
      rcases h x y' low (by omega) (by omega) with le | ⟨late, -⟩
      · exact .inl le
      · omega
    · rw [others y (fun eq => hy (.inl eq)) (fun eq => hy (.inr eq))]
      rcases h x y low lt high with le | ⟨late, covers⟩
      · exact .inl le
      · exact .inr ⟨by omega, covers⟩

section

variable {β : Type*} {f g : Nat → β} {i j k : Nat}

/-- What lies in the positions from `i` up to `j`, without `j`. -/
def values (f : Nat → β) (i j : Nat) : List β := (List.range' i (j - i)).map f

theorem length_values (f : Nat → β) (i j : Nat) : (values f i j).length = j - i := by
  rw [values, List.length_map, List.length_range']

theorem values_nil (le : j ≤ i) : values f i j = [] := by
  rw [values, Nat.sub_eq_zero_of_le le]
  rfl

theorem values_cons (lt : i < j) : values f i j = f i :: values f (i + 1) j := by
  rw [values, values, show j - i = j - (i + 1) + 1 by omega, List.range'_succ, List.map_cons]

theorem values_append (low : i ≤ k) (high : k ≤ j) :
    values f i k ++ values f k j = values f i j := by
  have split : List.range' i (k - i) ++ List.range' k (j - k) = List.range' i (j - i) := by
    have joined : List.range' i (k - i) ++ List.range' (i + 1 * (k - i)) (j - k) =
        List.range' i (k - i + (j - k)) := List.range'_append
    rw [show i + 1 * (k - i) = k by omega, show k - i + (j - k) = j - i by omega] at joined
    exact joined
  rw [values, values, ← List.map_append, split, values]

theorem values_congr (same : ∀ x, i ≤ x → x < j → f x = g x) : values f i j = values g i j := by
  refine List.map_congr_left fun x mem => ?_
  obtain ⟨low, high⟩ := List.mem_range'_1.mp mem
  exact same x low (by omega)

theorem mem_values {y : β} : y ∈ values f i j ↔ ∃ x, i ≤ x ∧ x < j ∧ f x = y := by
  rw [values, List.mem_map]
  constructor
  · rintro ⟨x, mem, eq⟩
    obtain ⟨low, high⟩ := List.mem_range'_1.mp mem
    exact ⟨x, low, by omega, eq⟩
  · rintro ⟨x, low, high, eq⟩
    exact ⟨x, List.mem_range'_1.mpr ⟨low, by omega⟩, eq⟩

theorem getElem?_values (n : Nat) (lt : i + n < j) : (values f i j)[n]? = some (f (i + n)) := by
  rw [values, List.getElem?_map, List.getElem?_range' (by omega), Option.map_some, Nat.one_mul]

theorem getLast?_values (lt : i < j) : (values f i j).getLast? = some (f (j - 1)) := by
  rw [List.getLast?_eq_getElem?, length_values, getElem?_values _ (by omega)]
  rw [show i + (j - i - 1) = j - 1 by omega]

/-- A position that has got another value. -/
theorem values_set (low : i ≤ k) (high : k < j) (others : ∀ x, i ≤ x → x < j → x ≠ k → g x = f x) :
    (values f i j).set (k - i) (g k) = values g i j := by
  rw [← values_append (f := f) low high.le, ← values_append (f := g) low high.le, values_cons high,
    values_cons high, List.set_append_right _ _ (by rw [length_values]), length_values, Nat.sub_self,
    List.set_cons_zero]
  rw [values_congr (f := f) (g := g) fun x low' high' => (others x low' (by omega) (by omega)).symm,
    values_congr (f := f) (g := g) fun x low' high' => (others x (by omega) high' (by omega)).symm]

end

end Intervals
