import InterBase.RestoreArray

namespace InterBase

namespace RestoreArray

open RowMajor

section

variable {field : Fld} {dimensions currentDim count fuel length base : Nat} {r : Int × Int}
  {pre rs rect : List (Int × Int)} {xs lasts : List Int} {written : Int} {puts : List Put}

theorem length_sdlLoops (rect : List (Int × Int)) : (sdlLoops rect).length = 12 * rect.length := by
  have each : ∀ pairs : List ((Int × Int) × Nat),
      ((pairs.map fun pair => sdlDo2 pair.2 pair.1).flatten).length = 12 * pairs.length := by
    intro pairs
    induction pairs with
    | nil => rfl
    | cons pair pairs ih =>
      rw [List.map_cons, List.flatten_cons, List.length_append, ih, List.length_cons]
      have one : (sdlDo2 pair.2 pair.1).length = 12 := rfl
      omega
  rw [sdlLoops]
  exact (each _).trans (by rw [List.length_zipIdx])

theorem length_sdlTrailer (dimensions : Nat) : (sdlTrailer dimensions).length = 2 * dimensions + 6 := by
  have each : ((List.range dimensions).flatMap fun count => [(7 : UInt8), lowerByte count]).length =
      2 * dimensions := by
    simp [List.length_flatMap, Nat.mul_comm]
  simp only [sdlTrailer, List.length_append, each, List.length_cons, List.length_nil]
  omega

theorem length_sdl (field : Fld) (rect : List (Int × Int)) : (sdl field rect).length =
    (sdlHeader field).length + 12 * rect.length + (2 * field.fldRanges.length + 6) := by
  simp only [sdl, List.length_append, length_sdlLoops, length_sdlTrailer]

theorem length_sdlPartial (field : Fld) (rect : List (Int × Int)) (lower : Int) :
    (sdlPartial field rect lower).length = (sdlHeader field).length + 12 * rect.length + 8 := by
  have four : (stuffLong lower).length = 4 := rfl
  simp only [sdlPartial, List.length_append, length_sdlLoops, List.length_cons, List.length_nil, four]

/-- The description of a slice fits in `blr_buffer`. -/
def Fld.Described (field : Fld) : Prop :=
  (sdlHeader field).length + 14 * field.fldRanges.length + 6 ≤ blrBufferSize

theorem foldl_slong (solid : Solid rs) (fits : length * (cells rs).length < 2147483648) :
    rs.foldl (fun n range => slong (n * (range.2 - range.1 + 1))) (length : Int) =
      length * (cells rs).length := by
  induction rs generalizing length with
  | nil => simp [cells]
  | cons r rs ih =>
    have first := solid.head
    obtain ⟨size, extent⟩ : ∃ size : Nat, r.2 - r.1 + 1 = size := ⟨_, (Int.toNat_of_nonneg (by omega)).symm⟩
    rw [length_cells_cons, extent, Int.toNat_natCast, ← Nat.mul_assoc] at fits
    have room : length * size < 2147483648 :=
      Nat.lt_of_le_of_lt (Nat.le_mul_of_pos_right _ (cells_pos solid.tail)) fits
    have exact : slong ((length : Int) * (r.2 - r.1 + 1)) = ((length * size : Nat) : Int) := by
      rw [extent, ← Nat.cast_mul]
      exact slong_of_mem (by omega) (by omega)
    rw [List.foldl_cons, exact, ih solid.tail fits, length_cells_cons, extent, Int.toNat_natCast]
    push_cast
    ring

theorem divisor_eq (solid : Solid rs) (fits : (cells rs).length < 2147483648) :
    divisor rs = (cells rs).length := by
  have product := foldl_slong solid (show 1 * (cells rs).length < 2147483648 by rwa [Nat.one_mul])
  rw [Nat.cast_one, one_mul] at product
  exact product

/-- The first coordinate of the `k`-th cell, and what is left for the directions behind it. -/
theorem lastElementDim_cons {k : Nat} (solid : Solid (r :: rs)) (low : -2147483648 ≤ r.1)
    (high : r.2 < 2147483648) (fits : (cells (r :: rs)).length < 2147483648) (positive : 0 < k)
    (inside : k ≤ (cells (r :: rs)).length) : ∃ d rest : Nat,
      lastElementDim (r :: rs) k = (r.1 + d) :: lastElementDim rs rest ∧ r.1 + d ≤ r.2 ∧
      k = d * (cells rs).length + rest ∧ 0 < rest ∧ rest ≤ (cells rs).length := by
  have more := cells_pos solid.tail
  rw [length_cells_cons] at fits inside
  have less : (cells rs).length < 2147483648 := by
    have first := solid.head
    exact Nat.lt_of_le_of_lt (Nat.le_mul_of_pos_left _ (by omega)) fits
  have exact := divisor_eq solid.tail less
  have parts := Nat.div_add_mod (k - 1) (cells rs).length
  have layer := Nat.mod_lt (k - 1) more
  have room : (k - 1) / (cells rs).length < (r.2 - r.1 + 1).toNat :=
    Nat.div_lt_of_lt_mul (by rw [Nat.mul_comm]; omega)
  have quotient : ((k : Int) - 1).tdiv (divisor rs) = ((k - 1) / (cells rs).length : Nat) := by
    rw [exact, show (k : Int) - 1 = ((k - 1 : Nat) : Int) by omega]
    rfl
  rw [Nat.mul_comm] at parts
  generalize (k - 1) / (cells rs).length = d at parts room quotient
  generalize (k - 1) % (cells rs).length = rest at parts layer
  have last : slong (((k : Int) - 1).tdiv (divisor rs) + r.1) = r.1 + d := by
    rw [quotient, slong_of_mem (by omega) (by omega), Int.add_comm]
  have left : slong ((k : Int) - (r.1 + d - r.1) * divisor rs) = ((rest + 1 : Nat) : Int) := by
    have layers : (r.1 + (d : Int) - r.1) * divisor rs = ((d * (cells rs).length : Nat) : Int) := by
      rw [exact]
      push_cast
      ring
    rw [layers, slong_of_mem (by omega) (by omega)]
    omega
  refine ⟨d, rest + 1, ?_, by omega, by omega, by omega, by omega⟩
  rw [lastElementDim]
  simp only [last, left]

/-- The dimensions in front of `current_dim` are held fast. -/
theorem chop_fixed (behind : count + pre.length = currentDim) (equal : xs.length = pre.length) :
    chop dimensions currentDim count (pre ++ rs) (xs ++ lasts) rect 1 =
      chop dimensions currentDim currentDim rs lasts (rect ++ xs.map fun x => (x, x)) 1 := by
  induction pre generalizing xs count rect with
  | nil =>
    obtain rfl : xs = [] := List.eq_nil_of_length_eq_zero equal
    obtain rfl : count = currentDim := behind
    simp
  | cons p pre ih =>
    obtain ⟨x, xs, rfl⟩ := List.exists_cons_of_length_eq_add_one (show xs.length = pre.length + 1 from equal)
    simp only [List.length_cons] at behind equal
    have apart : merges dimensions currentDim count (pre ++ rs) (xs ++ lasts) = none := by
      unfold merges
      split
      next => exact if_neg (by omega)
      next => rfl
    have fixed : bounds dimensions currentDim count p x = some (x, x) := by
      unfold bounds
      rw [if_neg (by omega), if_neg (by omega)]
    simp only [List.cons_append, chop, apart, fixed]
    rw [show slong (1 * (x - x + 1)) = 1 by simp [slong], ih (by omega) (by omega)]
    simp

/-- The dimensions behind `current_dim` are written whole. -/
theorem chop_whole (behind : currentDim < count) (equal : lasts.length = rs.length) :
    chop dimensions currentDim count rs lasts rect written = .write (rect ++ rs)
      (rs.foldl (fun n range => slong (n * (range.2 - range.1 + 1))) written) false := by
  induction rs generalizing lasts count rect written with
  | nil =>
    obtain rfl : lasts = [] := List.eq_nil_of_length_eq_zero equal
    simp [chop]
  | cons r rs ih =>
    obtain ⟨x, lasts, rfl⟩ :=
      List.exists_cons_of_length_eq_add_one (show lasts.length = rs.length + 1 from equal)
    simp only [List.length_cons] at equal
    have apart : merges dimensions currentDim count rs lasts = none := by
      unfold merges
      split
      next => exact if_neg (by omega)
      next => rfl
    have whole : bounds dimensions currentDim count r x = some r := by
      unfold bounds
      rw [if_neg (by omega), if_pos behind]
    simp only [chop, apart, whole]
    rw [ih (by omega) (by omega), List.append_assoc]
    rfl

/-- The dimensions in front of `current_dim`, each at its last coordinate. -/
def fixed (xs : List Int) : List (Int × Int) := xs.map fun x => (x, x)

/-- The last round. -/
theorem chop_last {last : Int} (equal : xs.length = pre.length) (above : r.1 ≤ last) :
    chop (pre.length + 1) pre.length 0 (pre ++ [r]) (xs ++ [last]) [] 1 =
      .write (fixed xs ++ [(r.1, last)]) (slong (1 * (last - r.1 + 1))) false := by
  have here : bounds (pre.length + 1) pre.length pre.length r last = some (r.1, last) := by
    unfold bounds
    rw [if_pos rfl, if_pos rfl, if_neg (by omega)]
  rw [chop_fixed (Nat.zero_add _) equal]
  simp only [chop, merges, here, List.nil_append, fixed]

/-- The last two rounds in one. -/
theorem chop_merged (r next : Int × Int) (last : Int) (equal : xs.length = pre.length) :
    chop (pre.length + 2) pre.length 0 (pre ++ [r, next]) (xs ++ [last, next.2]) [] 1 =
      .write (fixed xs ++ [(r.1, last), next])
        (slong (slong (1 * (last - r.1 + 1)) * (next.2 - next.1 + 1))) true := by
  have both : merges (pre.length + 2) pre.length pre.length [next] [next.2] = some next := by
    unfold merges
    exact if_pos ⟨rfl, rfl, rfl⟩
  rw [chop_fixed (Nat.zero_add _) equal]
  simp only [chop, both, List.nil_append, fixed]

/-- The round does not write its last dimension together with the next one, nor is it the last. -/
def Apart (dimensions currentDim : Nat) (rs : List (Int × Int)) (lasts : List Int) : Prop :=
  currentDim + 1 ≠ dimensions ∧ merges dimensions currentDim currentDim rs lasts = none

/-- No element is in a whole layer: there is nothing to write in this round. -/
theorem chop_none {last : Int} (equal : xs.length = pre.length)
    (single : Apart dimensions pre.length rs lasts) (none : slong (last - 1) < r.1) :
    chop dimensions pre.length 0 (pre ++ r :: rs) (xs ++ last :: lasts) [] 1 =
      .dontWrite (fixed xs) r.1 := by
  have here : bounds dimensions pre.length pre.length r last = Option.none := by
    unfold bounds
    rw [if_pos rfl, if_neg single.1, if_pos none]
  rw [chop_fixed (Nat.zero_add _) equal]
  simp only [chop, single.2, here, List.nil_append, fixed]

/-- The whole layers. -/
theorem chop_layers {last : Int} (equal : xs.length = pre.length)
    (single : Apart dimensions pre.length rs lasts) (some : r.1 ≤ slong (last - 1))
    (rest : lasts.length = rs.length) :
    chop dimensions pre.length 0 (pre ++ r :: rs) (xs ++ last :: lasts) [] 1 =
      .write (fixed xs ++ (r.1, slong (last - 1)) :: rs)
        (rs.foldl (fun n range => slong (n * (range.2 - range.1 + 1)))
          (slong (1 * (slong (last - 1) - r.1 + 1)))) false := by
  have here : bounds dimensions pre.length pre.length r last = Option.some (r.1, slong (last - 1)) := by
    unfold bounds
    rw [if_pos rfl, if_neg single.1, if_neg (by omega)]
  rw [chop_fixed (Nat.zero_add _) equal]
  simp only [chop, single.2, here]
  rw [chop_whole (Nat.lt_succ_self _) rest]
  simp [fixed]

/-- A round that writes. -/
theorem rounds_write {elements dataAt : Int} {merged : Bool} (described : field.Described)
    (more : currentDim < field.fldRanges.length) (full : rect.length = field.fldRanges.length)
    (chopped : chop field.fldRanges.length currentDim 0 field.fldRanges lasts [] 1 =
      .write rect elements merged) :
    rounds field lasts (fuel + 1) currentDim dataAt = do
      let puts ← rounds field lasts fuel (if merged then currentDim + 2 else currentDim + 1)
        (slong (dataAt + slong (elements * field.fldLength)))
      return ⟨rect, sdl field rect, slong (elements * field.fldLength), dataAt, dataAt == 0⟩ ::
        puts := by
  have fits : ¬blrBufferSize < (sdl field rect).length := by
    unfold Fld.Described at described
    rw [length_sdl, full]
    omega
  rw [rounds, if_pos more]
  simp only [chopped]
  rw [if_neg fits]

theorem rounds_dontWrite {dataAt lower : Int} (described : field.Described)
    (more : currentDim < field.fldRanges.length) (part : rect.length < field.fldRanges.length)
    (chopped : chop field.fldRanges.length currentDim 0 field.fldRanges lasts [] 1 =
      .dontWrite rect lower) :
    rounds field lasts (fuel + 1) currentDim dataAt =
      rounds field lasts fuel (currentDim + 1) dataAt := by
  have fits : ¬blrBufferSize < (sdlPartial field rect lower).length := by
    unfold Fld.Described at described
    rw [length_sdlPartial]
    omega
  rw [rounds, if_pos more]
  simp only [chopped]
  rw [if_neg fits]

theorem rounds_end {dataAt : Int} (done : field.fldRanges.length ≤ currentDim) :
    rounds field lasts fuel currentDim dataAt = .ok [] := by
  cases fuel with
  | zero => rfl
  | succ fuel =>
    rw [rounds, if_neg (by omega)]

/-- The calls hand out `rest` one after the other, from the element `base` of the buffer on; an element
takes `length` bytes. -/
inductive Tiled (length : Nat) : Nat → List Put → List (List Int) → Prop where
  | nil (base : Nat) : Tiled length base [] []
  | cons {base : Nat} {put : Put} {puts : List Put} {rest : List (List Int)}
    (some : cells put.rect ≠ [])
    (dataAt : put.dataAt = (base * length : Nat))
    (sliceLength : put.sliceLength = ((cells put.rect).length * length : Nat))
    (reads : put.reads = (put.dataAt == 0))
    (tiled : Tiled length (base + (cells put.rect).length) puts rest) :
    Tiled length base (put :: puts) (cells put.rect ++ rest)

/-- No round takes one from the least `SLONG`. -/
def Bounded : List (Int × Int) → List Int → Prop
  | _ :: next :: ranges, last :: nextLast :: lasts =>
    (last ≠ -2147483648 ∨ ranges = [] ∧ nextLast = next.2) ∧ Bounded (next :: ranges) (nextLast :: lasts)
  | _, _ => True

theorem length_lastElementDim (rs : List (Int × Int)) (k : Int) :
    (lastElementDim rs k).length = rs.length := by
  induction rs generalizing k with
  | nil => rfl
  | cons r rs ih => rw [lastElementDim, List.length_cons, ih, List.length_cons]

theorem lastElementDim_nil (k : Int) : lastElementDim [] k = [] := rfl

theorem cells_fixed_append (xs : List Int) (rs : List (Int × Int)) :
    cells (fixed xs ++ rs) = (cells rs).map (xs ++ ·) := cells_fixed xs rs

/-- One more call in front. -/
theorem Tiled.put (field : Fld) (xs : List Int) {box : List (Int × Int)} {later : List (List Int)} {elements : Int}
    (some : cells box ≠ []) (exact : elements = (cells box).length)
    (fits : (base + (cells box).length) * length < 2147483648)
    (tiled : Tiled length (base + (cells box).length) puts later) :
    slong (((base * length : Nat) : Int) + slong (elements * length)) =
        ((base + (cells box).length) * length : Nat) ∧
      Tiled length base (⟨fixed xs ++ box, sdl field (fixed xs ++ box), slong (elements * length),
        (base * length : Nat), ((base * length : Nat) : Int) == 0⟩ :: puts)
        ((cells box).map (xs ++ ·) ++ later) := by
  have size : (cells (fixed xs ++ box)).length = (cells box).length := by
    rw [cells_fixed_append, List.length_map]
  have parts : (base + (cells box).length) * length = base * length + (cells box).length * length :=
    Nat.add_mul _ _ _
  have written : slong (elements * length) = ((cells box).length * length : Nat) := by
    rw [exact, ← Nat.cast_mul]
    exact slong_of_mem (by omega) (by omega)
  constructor
  · rw [written, slong_of_mem (by omega) (by omega)]
    omega
  · rw [← cells_fixed_append]
    refine .cons ?_ rfl ?_ rfl ?_
    · rw [cells_fixed_append]
      simpa using some
    · change slong (elements * length) = _
      rw [written, size]
    · change Tiled length (base + (cells (fixed xs ++ box)).length) puts later
      rwa [size]

end

end RestoreArray

end InterBase
