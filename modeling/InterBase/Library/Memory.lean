import Mathlib.Data.List.Basic
import Mathlib.Tactic.Common

namespace Memory

variable {α : Type*}

/-- The `l` cells from address `a` on. -/
def slice (m : Nat → α) : Nat → Nat → List α
  | _, 0 => []
  | a, l + 1 => m a :: slice m (a + 1) l

def write (m : Nat → α) (a : Nat) (xs : List α) : Nat → α :=
  fun i => if i < a then m i else xs[i - a]?.getD (m i)

/-- The effect of `memmove`: the source is read before the destination changes. -/
def move (m : Nat → α) (src dst l : Nat) : Nat → α :=
  write m dst (slice m src l)

/-- The loop `do *q++ = *p++; while (--l)`. -/
def copyUp (m : Nat → α) (p q : Nat) : Nat → Nat → α
  | 0 => m
  | l + 1 => copyUp (write m q [m p]) (p + 1) (q + 1) l

/-- The loop `do *--q = *--p; while (--l)`. -/
def copyDown (m : Nat → α) (p q : Nat) : Nat → Nat → α
  | 0 => m
  | l + 1 => copyDown (write m (q - 1) [m (p - 1)]) (p - 1) (q - 1) l

/-- The cells from `a` on are exactly `xs`. -/
def Holds (m : Nat → α) (a : Nat) (xs : List α) : Prop :=
  slice m a xs.length = xs

@[simp] theorem length_slice (m : Nat → α) (a l : Nat) : (slice m a l).length = l := by
  induction l generalizing a with
  | zero => rfl
  | succ l ih => simp [slice, ih]

theorem getElem?_slice (m : Nat → α) {a l i : Nat} (h : i < l) :
    (slice m a l)[i]? = some (m (a + i)) := by
  induction l generalizing a i with
  | zero => omega
  | succ l ih =>
    cases i with
    | zero => simp [slice]
    | succ i =>
      have hh := ih (a := a + 1) (i := i) (by omega)
      simpa [slice, Nat.add_assoc, Nat.add_comm 1 i] using hh

theorem slice_eq_iff {m : Nat → α} {a l : Nat} {xs : List α} :
    slice m a l = xs ↔ xs.length = l ∧ ∀ i < l, xs[i]? = some (m (a + i)) := by
  constructor
  · rintro rfl
    exact ⟨length_slice m a l, fun i hi => getElem?_slice m hi⟩
  · rintro ⟨hl, hx⟩
    apply List.ext_getElem?
    intro i
    by_cases hi : i < l
    · rw [getElem?_slice m hi, hx i hi]
    · rw [List.getElem?_eq_none (by simpa using hi), List.getElem?_eq_none (by omega)]

theorem slice_append (m : Nat → α) (a k l : Nat) :
    slice m a (k + l) = slice m a k ++ slice m (a + k) l := by
  induction k generalizing a with
  | zero => simp [slice]
  | succ k ih => simp [slice, Nat.succ_add, ih, Nat.add_assoc]

theorem take_slice (m : Nat → α) {a k l : Nat} (h : k ≤ l) : (slice m a l).take k = slice m a k := by
  obtain ⟨j, rfl⟩ : ∃ j, l = k + j := ⟨l - k, by omega⟩
  have length := length_slice m a k
  rw [slice_append, List.take_append_of_le_length (Nat.le_of_eq length.symm),
    List.take_of_length_le (Nat.le_of_eq length)]

theorem slice_congr {m m' : Nat → α} {a l : Nat}
    (h : ∀ i, a ≤ i → i < a + l → m i = m' i) : slice m a l = slice m' a l := by
  refine slice_eq_iff.mpr ⟨length_slice m' a l, fun i hi => ?_⟩
  rw [getElem?_slice m' hi, h (a + i) (by omega) (by omega)]

theorem write_below (m : Nat → α) {a i : Nat} (xs : List α) (h : i < a) :
    write m a xs i = m i := by
  simp [write, h]

theorem write_above (m : Nat → α) {a i : Nat} (xs : List α) (h : a + xs.length ≤ i) :
    write m a xs i = m i := by
  have hx : xs[i - a]? = none := List.getElem?_eq_none (by omega)
  simp [write, hx]

theorem write_inside (m : Nat → α) {a i : Nat} (xs : List α) (h : i < xs.length) :
    some (write m a xs (a + i)) = xs[i]? := by
  have above : ¬a + i < a := by omega
  simp [write, h, above]

/-- Copying a slice of another store. -/
theorem write_slice (m m' : Nat → α) (a b l i : Nat) : write m a (slice m' b l) i =
    if a ≤ i ∧ i < a + l then m' (b + (i - a)) else m i := by
  split
  next h =>
    have hi : i - a < l := by omega
    rw [write, if_neg (by omega), getElem?_slice m' hi]
    rfl
  next h =>
    by_cases hi : i < a
    · exact write_below m _ hi
    · exact write_above m _ (by rw [length_slice]; omega)

@[simp] theorem write_nil (m : Nat → α) (a : Nat) : write m a [] = m := by
  funext i
  simp [write]

theorem write_append (m : Nat → α) (a : Nat) (xs ys : List α) :
    write m a (xs ++ ys) = write (write m a xs) (a + xs.length) ys := by
  funext i
  simp only [write]
  by_cases h : i < a
  · simp [h, show i < a + xs.length by omega]
  · by_cases hi : i < a + xs.length
    · simp [h, hi, List.getElem?_append_left (show i - a < xs.length by omega)]
    · have hx : xs[i - a]? = none := List.getElem?_eq_none (by omega)
      have hs : i - a - xs.length = i - (a + xs.length) := by omega
      simp [h, hi, hx, hs, List.getElem?_append_right (show xs.length ≤ i - a by omega)]

theorem write_comm (m : Nat → α) {a b : Nat} {xs ys : List α} (h : a + xs.length ≤ b) :
    write (write m a xs) b ys = write (write m b ys) a xs := by
  funext i
  by_cases hi : i < b
  · rw [write_below _ ys hi]
    simp only [write, if_pos hi]
  · have outside : a + xs.length ≤ i := by omega
    rw [write_above _ xs outside]
    simp only [write, if_neg hi, show ¬i < a by omega, if_false]
    rw [List.getElem?_eq_none (l := xs) (by omega)]
    rfl

theorem slice_write_self (m : Nat → α) (a : Nat) (xs : List α) :
    slice (write m a xs) a xs.length = xs :=
  slice_eq_iff.mpr ⟨rfl, fun _ hi => (write_inside m xs hi).symm⟩

theorem slice_write_disjoint (m : Nat → α) {a b l : Nat} (xs : List α)
    (h : b + l ≤ a ∨ a + xs.length ≤ b) : slice (write m a xs) b l = slice m b l := by
  apply slice_congr
  intro i hb hl
  rcases h with h | h
  · exact write_below m xs (by omega)
  · exact write_above m xs (by omega)

/-- Writing right behind a stretch. -/
theorem slice_write_end (m : Nat → α) (a l : Nat) (xs : List α) :
    slice (write m (a + l) xs) a (l + xs.length) = slice m a l ++ xs := by
  rw [slice_append, slice_write_disjoint m xs (Or.inl (Nat.le_refl _)), slice_write_self]

/-- Writing into the middle of a stretch that has just been written. -/
theorem write_inner (m : Nat → α) {a k : Nat} {xs ys : List α} (h : k + ys.length ≤ xs.length) :
    write (write m a xs) (a + k) ys = write m a (xs.take k ++ ys ++ xs.drop (k + ys.length)) := by
  funext i
  unfold write
  by_cases below : i < a
  · rw [if_pos (by omega), if_pos below, if_pos below]
  · rw [if_neg below, if_neg below]
    obtain ⟨j, rfl⟩ : ∃ j, i = a + j := ⟨i - a, by omega⟩
    have first : (xs.take k).length = k := by
      rw [List.length_take]
      omega
    rw [Nat.add_sub_cancel_left]
    by_cases hj : j < k
    · rw [if_pos (by omega), List.append_assoc, List.getElem?_append_left (by omega),
        List.getElem?_take_of_lt hj]
    · rw [if_neg (by omega), show a + j - (a + k) = j - k by omega, List.append_assoc,
        List.getElem?_append_right (by omega), first]
      by_cases inside : j - k < ys.length
      · rw [List.getElem?_append_left inside, List.getElem?_eq_getElem inside]
        rfl
      · rw [List.getElem?_eq_none (by omega), List.getElem?_append_right (by omega),
          List.getElem?_drop, show k + ys.length + (j - k - ys.length) = j by omega]
        rfl

theorem write_slice_self (m : Nat → α) (a l : Nat) : write m a (slice m a l) = m := by
  funext i
  rw [write_slice]
  split
  next h => rw [Nat.add_sub_of_le h.1]
  next => rfl

@[simp] theorem holds_nil (m : Nat → α) (a : Nat) : Holds m a [] := rfl

theorem holds_append {m : Nat → α} {a : Nat} {xs ys : List α} :
    Holds m a (xs ++ ys) ↔ Holds m a xs ∧ Holds m (a + xs.length) ys := by
  unfold Holds
  rw [List.length_append, slice_append]
  constructor
  · intro h
    exact List.append_inj h (length_slice m a xs.length)
  · rintro ⟨hx, hy⟩
    rw [hx, hy]

theorem holds_cons {m : Nat → α} {a : Nat} {x : α} {xs : List α} :
    Holds m a (x :: xs) ↔ m a = x ∧ Holds m (a + 1) xs := by
  simp [Holds, slice]

theorem holds_slice (m : Nat → α) (a l : Nat) : Holds m a (slice m a l) := by
  simp [Holds]

theorem Holds.congr {m m' : Nat → α} {a : Nat} {xs : List α} (h : Holds m a xs)
    (same : ∀ i, a ≤ i → i < a + xs.length → m' i = m i) : Holds m' a xs :=
  (slice_congr same).trans h

theorem holds_write (m : Nat → α) (a : Nat) (xs : List α) : Holds (write m a xs) a xs :=
  slice_write_self m a xs

theorem Holds.write {m : Nat → α} {a b : Nat} {xs : List α} (h : Holds m a xs) (ys : List α)
    (apart : a + xs.length ≤ b ∨ b + ys.length ≤ a) : Holds (write m b ys) a xs :=
  (slice_write_disjoint m ys apart).trans h

theorem Holds.move {m : Nat → α} {src dst : Nat} {xs : List α} (h : Holds m src xs) :
    Holds (move m src dst xs.length) dst xs := by
  unfold Memory.move
  rw [h]
  exact holds_write m dst xs

/-- Writing again what the store `held` has there keeps what is as in `held`. -/
theorem Holds.write_common {held m : Nat → α} {a b : Nat} {xs ys : List α} (hx : Holds held a xs)
    (hy : Holds held b ys) (h : Holds m a xs) : Holds (Memory.write m b ys) a xs := by
  refine (slice_congr fun i low high => ?_).trans hx
  rw [← hy, write_slice]
  split
  next inside => rw [Nat.add_sub_of_le inside.1]
  next =>
    obtain ⟨j, rfl⟩ : ∃ j, i = a + j := ⟨i - a, by omega⟩
    have source := (slice_eq_iff.mp hx).2 j (by omega)
    rw [(slice_eq_iff.mp h).2 j (by omega)] at source
    exact Option.some.inj source

theorem Holds.apply {m : Nat → α} {a i : Nat} {xs : List α} (h : Holds m a xs)
    (hi : i < xs.length) : xs[i]? = some (m (a + i)) :=
  (slice_eq_iff.mp h).2 i hi

/-- Copying upwards from the front is a move when the data travels to lower addresses. -/
theorem copyUp_eq_move (m : Nat → α) {p q : Nat} (h : q ≤ p) (l : Nat) :
    copyUp m p q l = move m p q l := by
  induction l generalizing m p q with
  | zero => simp [copyUp, move, slice]
  | succ l ih =>
    rw [copyUp, ih _ (by omega)]
    have later : slice (write m q [m p]) (p + 1) l = slice m (p + 1) l :=
      slice_write_disjoint m [m p] (Or.inr (by simp; omega))
    simp only [move, slice, later]
    exact (write_append m q [m p] (slice m (p + 1) l)).symm

/-- Copying downwards from the back is a move when the data travels to higher addresses. -/
theorem copyDown_eq_move (m : Nat → α) {p q l : Nat} (h : p ≤ q) (hl : l ≤ p) :
    copyDown m p q l = move m (p - l) (q - l) l := by
  induction l generalizing m p q with
  | zero => simp [copyDown, move, slice]
  | succ l ih =>
    rw [copyDown, ih _ (by omega) (by omega)]
    have hp : p - 1 - l = p - (l + 1) := by omega
    have hq : q - 1 - l = q - (l + 1) := by omega
    have earlier : slice (write m (q - 1) [m (p - 1)]) (p - (l + 1)) l = slice m (p - (l + 1)) l :=
      slice_write_disjoint m [m (p - 1)] (Or.inl (by omega))
    have whole : slice m (p - (l + 1)) (l + 1) = slice m (p - (l + 1)) l ++ [m (p - 1)] := by
      rw [slice_append, show p - (l + 1) + l = p - 1 by omega]
      rfl
    have hqi : q - (l + 1) + l = q - 1 := by omega
    rw [hp, hq]
    simp only [move, whole, earlier, write_append, length_slice, hqi]
    exact (write_comm m (by simp; omega)).symm

/-- Two moves of neighbouring stretches to lower addresses are one move. -/
theorem move_move (m : Nat → α) {a b : Nat} (h : b ≤ a) (k l : Nat) :
    move (move m a b k) (a + k) (b + k) l = move m a b (k + l) := by
  have later : slice (write m b (slice m a k)) (a + k) l = slice m (a + k) l :=
    slice_write_disjoint m _ (Or.inr (by rw [length_slice]; omega))
  rw [move, move, later, move, slice_append, write_append, length_slice]

end Memory
