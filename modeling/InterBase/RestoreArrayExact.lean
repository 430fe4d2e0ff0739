import InterBase.RestoreArrayRun

namespace InterBase

namespace RestoreArray

open RowMajor

section

variable {field : Fld} {length base n k fuel currentDim dimensions count : Nat} {puts : List Put} {put : Put}
  {rest front cellsLeft : List (List Int)} {pre suf rs rect ranges : List (Int × Int)}
  {xs lasts : List Int} {cell : List Int}

theorem Tiled.mem (tiled : Tiled length base puts rest) :
    (∃ put ∈ puts, cell ∈ cells put.rect) ↔ cell ∈ rest := by
  induction tiled with
  | nil => simp
  | cons _ _ _ _ _ ih =>
    rw [List.mem_append, ← ih]
    simp

theorem Tiled.apart (tiled : Tiled length base puts rest) (nodup : rest.Nodup) :
    puts.Pairwise fun a b => (cells a.rect).Disjoint (cells b.rect) := by
  induction tiled with
  | nil => exact List.Pairwise.nil
  | cons _ _ _ _ later ih =>
    obtain ⟨_, nodup, disjoint⟩ := List.nodup_append'.mp nodup
    refine List.pairwise_cons.mpr ⟨fun b mem cell here there => ?_, ih nodup⟩
    exact disjoint here (later.mem.mp ⟨b, mem, there⟩)

theorem Tiled.lengths (tiled : Tiled length base puts rest) :
    ∀ put ∈ puts, put.sliceLength = ((cells put.rect).length * length : Nat) := by
  induction tiled with
  | nil => simp
  | cons _ _ sliceLength _ _ ih =>
    intro put mem
    rcases List.mem_cons.mp mem with rfl | mem
    · exact sliceLength
    · exact ih put mem

/-- An element is taken from the place that its number gives. -/
theorem Tiled.own (tiled : Tiled length base puts rest) (place : front.length = base) :
    ∀ put ∈ puts, ∀ (k : Nat) (cell : List Int), (cells put.rect)[k]? = some cell →
      ∃ j : Nat, (front ++ rest)[j]? = some cell ∧ put.dataAt + k * length = j * length := by
  induction tiled generalizing front with
  | nil => simp
  | @cons base put puts rest some dataAt _ _ _ ih =>
    intro other mem k cell there
    rcases List.mem_cons.mp mem with rfl | mem
    · refine ⟨base + k, ?_, ?_⟩
      · have bound := (List.getElem?_eq_some_iff.mp there).1
        rw [List.getElem?_append_right (by omega), place, Nat.add_sub_cancel_left,
          List.getElem?_append_left bound, there]
      · rw [dataAt]
        push_cast
        ring
    · have later := ih (show (front ++ cells put.rect).length = base + (cells put.rect).length by
        rw [List.length_append, place]) other mem k cell there
      rwa [List.append_assoc] at later

theorem Tiled.filled_later (tiled : Tiled length base puts rest) (positive : 0 < length)
    (behind : 0 < base) : ∀ put ∈ puts, put.reads = false := by
  induction tiled with
  | nil => simp
  | @cons base put puts rest some dataAt _ reads _ ih =>
    intro other mem
    rcases List.mem_cons.mp mem with rfl | mem
    · have place : 0 < base * length := Nat.mul_pos behind positive
      rw [reads, dataAt]
      exact beq_false_of_ne (by omega)
    · exact ih (by omega) other mem

theorem Tiled.filled (tiled : Tiled length 0 puts rest) (positive : 0 < length) :
    ∀ i put, puts[i]? = some put → (put.reads = true ↔ i = 0) := by
  intro i put there
  cases tiled with
  | nil => simp at there
  | cons some dataAt _ reads later =>
    cases i with
    | zero =>
      obtain rfl := Option.some.inj there
      rw [reads, dataAt]
      simp
    | succ i =>
      have size := List.length_pos_iff.mpr some
      rw [List.getElem?_cons_succ] at there
      have mem := List.mem_of_getElem? there
      rw [later.filled_later positive (by omega) put mem]
      simp

theorem tiles_of_tiled (tiled : Tiled field.fieldLength 0 puts ((cells field.fldRanges).take n))
    (positive : 0 < field.fieldLength) : Tiles field n puts where
  apart := tiled.apart ((List.take_sublist _ _).nodup (nodup_cells _))
  cover := fun _ => tiled.mem
  own := fun put mem k cell there => by
    obtain ⟨j, taken, place⟩ := tiled.own (show ([] : List (List Int)).length = 0 from rfl) put mem k cell there
    rw [List.nil_append] at taken
    have bound := (List.getElem?_eq_some_iff.mp taken).1
    rw [List.length_take] at bound
    rw [List.getElem?_take_of_lt (by omega)] at taken
    exact ⟨j, taken, place⟩
  length := fun put mem => by
    rw [tiled.lengths put mem]
    push_cast
    rfl
  filled := tiled.filled positive

theorem Fld.fieldLength_eq (field : Fld) :
    field.fieldLength = field.fldLength + if field.fldType = .varying then 2 else 0 := by
  have small := field.length_lt
  exact ushort_of_lt (by split <;> omega)

theorem Fld.fieldLength_pos (field : Fld) : 0 < field.fieldLength := by
  have positive := field.length_pos
  rw [field.fieldLength_eq]
  omega

/-- Something is written when there is an element. -/
theorem Tiles.some (tiles : Tiles field n puts) (positive : 0 < n) : ∃ put, put ∈ puts ∧ cells put.rect ≠ [] := by
  have more := cells_pos field.solid
  have first : (cells field.fldRanges)[0] ∈ (cells field.fldRanges).take n := by
    refine List.mem_of_getElem? (i := 0) ?_
    rw [List.getElem?_take_of_lt positive, List.getElem?_eq_getElem more]
  obtain ⟨put, mem, here⟩ := (tiles.cover _).mpr first
  exact ⟨put, mem, List.ne_nil_of_mem here⟩

theorem length_chop {elements written : Int} {merged : Bool} (whole : count + rs.length = dimensions)
    (equal : lasts.length = rs.length) {box : List (Int × Int)}
    (chopped : chop dimensions currentDim count rs lasts rect written = .write box elements merged) :
    box.length = rect.length + rs.length := by
  induction rs generalizing count lasts rect written with
  | nil =>
    obtain rfl : lasts = [] := List.eq_nil_of_length_eq_zero equal
    simp only [chop, Chopped.write.injEq] at chopped
    rw [← chopped.1]
    simp
  | cons r rs ih =>
    obtain ⟨x, lasts, rfl⟩ :=
      List.exists_cons_of_length_eq_add_one (show lasts.length = rs.length + 1 from equal)
    simp only [List.length_cons] at whole equal
    rw [chop] at chopped
    split at chopped
    next next both =>
      have two : rs.length = 1 := by
        unfold merges at both
        split at both
        next =>
          split at both
          next h => omega
          next => simp at both
        next => simp at both
      simp only [Chopped.write.injEq] at chopped
      rw [← chopped.1]
      simp [two]
    next =>
      split at chopped
      next => simp at chopped
      next =>
        have later := ih (by omega) (by omega) chopped
        rw [later]
        simp
        omega

/-- A description that does not fit is never handed over. -/
theorem rounds_outside {dataAt : Int} (equal : lasts.length = field.fldRanges.length)
    (long : ¬field.Described) (ran : rounds field lasts fuel currentDim dataAt = .ok puts) :
    puts = [] := by
  induction fuel generalizing currentDim dataAt puts with
  | zero => exact (Except.ok.inj ran).symm
  | succ fuel ih =>
    rw [rounds] at ran
    split at ran
    next =>
      split at ran
      next =>
        split at ran
        next => simp at ran
        next => exact ih ran
      next box _ _ chopped =>
        have full := length_chop (Nat.zero_add _) equal chopped
        rw [List.length_nil, Nat.zero_add] at full
        have tooLong : blrBufferSize < (sdl field box).length := by
          unfold Fld.Described at long
          rw [length_sdl, full]
          omega
        rw [if_pos tooLong] at ran
        simp at ran
    next => exact (Except.ok.inj ran).symm

/-- Taking one from the least `SLONG` gives the greatest: the round goes past the upper bound. -/
theorem rounds_unbounded {dataAt : Int} (described : field.Described)
    (split : field.fldRanges = pre ++ suf) (equal : xs.length = pre.length) (positive : 0 < k)
    (inside : k ≤ (cells suf).length) (unbounded : ¬Bounded suf (lastElementDim suf k))
    (enough : suf.length ≤ fuel)
    (ran : rounds field (xs ++ lastElementDim suf k) fuel pre.length dataAt = .ok puts) :
    ∃ put ∈ puts, ∃ cell ∈ cells put.rect, cell ∉ cells field.fldRanges := by
  induction suf generalizing pre xs k dataAt fuel puts with
  | nil => exact absurd trivial unbounded
  | cons r rs ih =>
    obtain ⟨solid, bounds, small⟩ := Fld.suffix split
    obtain ⟨low, high⟩ := bounds r List.mem_cons_self
    obtain ⟨fuel, rfl⟩ : ∃ f, fuel = f + 1 := ⟨fuel - 1, by rw [List.length_cons] at enough; omega⟩
    obtain ⟨d, rest, lasts, room, parts, left, layer⟩ :=
      lastElementDim_cons solid low high small positive inside
    have deep : d < 2147483647 := by
      have most : d ≤ d * (cells rs).length := Nat.le_mul_of_pos_right _ (cells_pos solid.tail)
      omega
    have dimensions : field.fldRanges.length = pre.length + (rs.length + 1) := by
      rw [split, List.length_append, List.length_cons]
    rw [lasts] at unbounded ran
    cases rs with
    | nil => exact absurd trivial unbounded
    | cons next rs =>
      obtain ⟨lowNext, highNext⟩ := bounds next (List.mem_cons_of_mem _ List.mem_cons_self)
      have split' : field.fldRanges = (pre ++ [r]) ++ next :: rs := by
        rw [split, List.append_assoc]
        rfl
      obtain ⟨_, _, smallNext⟩ := Fld.suffix split'
      obtain ⟨d', rest', lasts', _, _, _, _⟩ :=
        lastElementDim_cons solid.tail lowNext highNext smallNext left layer
      have merged : ¬(rs = [] ∧ next.1 + (d' : Int) = next.2) := by
        rintro ⟨rfl, same⟩
        refine unbounded ?_
        rw [lasts']
        exact ⟨.inr ⟨rfl, same⟩, trivial⟩
      have apart := (apart_iff pre rs (lastElementDim rs rest')).mpr merged
      rw [show pre.length + (rs.length + 2) = field.fldRanges.length from dimensions.symm,
        ← lasts'] at apart
      have others : (lastElementDim (next :: rs) rest).length = (next :: rs).length :=
        length_lastElementDim _ _
      have more : pre.length < field.fldRanges.length := by omega
      have thin : (fixed xs).length < field.fldRanges.length := by
        rw [fixed, List.length_map, equal]
        exact more
      have layers (some : r.1 ≤ slong (r.1 + (d : Int) - 1)) : ∃ put dataAt' puts',
          rounds field (xs ++ (r.1 + (d : Int)) :: lastElementDim (next :: rs) rest) fuel
            (pre.length + 1) dataAt' = .ok puts' ∧
          put.rect = fixed xs ++ (r.1, slong (r.1 + (d : Int) - 1)) :: next :: rs ∧
          puts = put :: puts' := by
        have chopped := chop_layers equal apart some others
        rw [← split] at chopped
        rw [rounds_write described more
          (by rw [List.length_append, fixed, List.length_map, equal, dimensions]; rfl) chopped] at ran
        cases later : rounds field (xs ++ (r.1 + (d : Int)) :: lastElementDim (next :: rs) rest) fuel
            (pre.length + 1) (slong (dataAt + slong ((next :: rs).foldl
              (fun n range => slong (n * (range.2 - range.1 + 1)))
              (slong (1 * (slong (r.1 + (d : Int) - 1) - r.1 + 1))) * field.fldLength))) with
        | error e =>
          rw [if_neg (by decide), later] at ran
          simp [bind, Except.bind] at ran
        | ok puts' =>
          rw [if_neg (by decide), later] at ran
          exact ⟨_, _, puts', later, rfl, (Except.ok.inj ran).symm⟩
      by_cases least : r.1 + (d : Int) = -2147483648
      · have wraps : slong (r.1 + (d : Int) - 1) = 2147483647 := by
          rw [least]
          rfl
        obtain ⟨put, dataAt', puts', _, box, rfl⟩ := layers (by omega)
        refine ⟨put, List.mem_cons_self, xs ++ 2147483647 :: (next :: rs).map Prod.fst, ?_, ?_⟩
        · rw [box, cells_fixed_append, wraps]
          refine List.mem_map.mpr ⟨_, mem_cells.mpr (.cons ⟨by omega, Int.le_refl _⟩ ?_), rfl⟩
          exact mem_cells.mp (List.mem_of_mem_head? (head_cells solid.tail))
        · intro mem
          rw [split] at mem
          have forall₂ := mem_cells.mp mem
          have back := List.forall₂_drop pre.length forall₂
          rw [List.drop_left' equal, List.drop_left' rfl] at back
          cases back with
          | cons inside _ =>
            have extent : (cells (r :: next :: rs)).length =
                (r.2 - r.1 + 1).toNat * (cells (next :: rs)).length := length_cells_cons _ _
            have wide : (r.2 - r.1 + 1).toNat ≤
                (r.2 - r.1 + 1).toNat * (cells (next :: rs)).length :=
              Nat.le_mul_of_pos_right _ (cells_pos solid.tail)
            omega
      · have again : ¬Bounded (next :: rs) (lastElementDim (next :: rs) rest) := by
          intro bounded
          refine unbounded ?_
          rw [lasts'] at bounded ⊢
          exact ⟨.inl least, bounded⟩
        have equal' : (xs ++ [r.1 + (d : Int)]).length = (pre ++ [r]).length := by
          simp [equal]
        have place : (pre ++ [r]).length = pre.length + 1 := by simp
        have lastsEq : xs ++ (r.1 + (d : Int)) :: lastElementDim (next :: rs) rest =
            (xs ++ [r.1 + (d : Int)]) ++ lastElementDim (next :: rs) rest := by simp
        by_cases some : r.1 ≤ slong (r.1 + (d : Int) - 1)
        · obtain ⟨_, dataAt', puts', later, _, rfl⟩ := layers some
          rw [lastsEq, ← place] at later
          obtain ⟨put, mem, outside⟩ := ih split' equal' left layer again (by simpa using enough) later
          exact ⟨put, List.mem_cons_of_mem _ mem, outside⟩
        · have chopped := chop_none equal apart (show slong (r.1 + (d : Int) - 1) < r.1 by omega)
          rw [← split] at chopped
          rw [rounds_dontWrite described more thin chopped, lastsEq, ← place] at ran
          exact ih split' equal' left layer again (by simpa using enough) ran

/-- What has to hold of a field, of the ranges in the backup and of the number of elements for them to
be restored. Only ranges that make up the length of the value are used. -/
def Restored (field : Fld) (ranges : List (Int × Int)) (n : Nat) : Prop :=
  field.Described ∧
    if ((n * field.fieldLength : Nat) : Int) = fileLength field ranges then
      Corner field.fldRanges ranges
    else field.fldType ≠ .varying ∧ Bounded field.fldRanges (lastElementDim field.fldRanges n)

theorem elements_remaining (field : Fld) (n : Nat) :
    ((n * field.fieldLength : Nat) : Int).tdiv field.fieldLength = n := by
  have positive := field.fieldLength_pos
  rw [Nat.cast_mul, Int.mul_tdiv_cancel _ (by omega)]

theorem Fld.bytes_lt (field : Fld) (inside : n ≤ (cells field.fldRanges).length) :
    n * field.fieldLength < 2147483648 := by
  have total := field.total
  rw [← field.fieldLength_eq] at total
  exact Nat.lt_of_le_of_lt (Nat.mul_le_mul_right _ inside) total

theorem getArray_rounded
    (differ : ((n * field.fieldLength : Nat) : Int) ≠ fileLength field ranges) :
    getArray field ranges (n * field.fieldLength : Nat) =
      rounds field (lastElementDim field.fldRanges n) field.fldRanges.length 0 0 := by
  unfold getArray
  rw [if_pos differ, elements_remaining]

/-- A value of fewer elements than the ranges in the backup make up. -/
theorem partial_tiled (described : field.Described) (positive : 0 < n)
    (inside : n ≤ (cells field.fldRanges).length)
    (bounded : Bounded field.fldRanges (lastElementDim field.fldRanges n))
    (differ : ((n * field.fieldLength : Nat) : Int) ≠ fileLength field ranges) : ∃ puts,
      getArray field ranges (n * field.fieldLength : Nat) = .ok puts ∧
      Tiled field.fldLength 0 puts ((cells field.fldRanges).take n) := by
  have bytes := field.bytes_lt inside
  have shorter : n * field.fldLength ≤ n * field.fieldLength := by
    refine Nat.mul_le_mul_left _ ?_
    rw [field.fieldLength_eq]
    omega
  have some : field.fldRanges ≠ [] := List.length_pos_iff.mp field.dimensions_pos
  obtain ⟨puts, ran, tiled⟩ := rounds_tiled described
    (show field.fldRanges = [] ++ field.fldRanges from (List.nil_append _).symm)
    (show ([] : List Int).length = _ from rfl) some positive inside
    (show (0 + n) * field.fldLength < 2147483648 by rw [Nat.zero_add]; omega) bounded (Nat.le_refl _)
  refine ⟨puts, ?_, by simpa using tiled⟩
  rw [getArray_rounded differ]
  simpa using ran

theorem not_tiles_varying (varying : field.fldType = .varying) (positive : 0 < n)
    (tiled : Tiled field.fldLength 0 puts ((cells field.fldRanges).take n)) :
    ¬Tiles field n puts := by
  intro tiles
  obtain ⟨put, mem, some⟩ := tiles.some positive
  have written := tiled.lengths put mem
  have size := List.length_pos_iff.mpr some
  have needed := tiles.length put mem
  rw [field.fieldLength_eq, if_pos varying, written] at needed
  have product : (cells put.rect).length * field.fldLength =
      (cells put.rect).length * (field.fldLength + 2) := by
    exact_mod_cast needed
  rw [Nat.mul_add] at product
  omega

/-- The ranges in the backup make up the length of the value. -/
theorem regular_tiles (described : field.Described) (corner : Corner field.fldRanges ranges)
    (equal : ((n * field.fieldLength : Nat) : Int) = fileLength field ranges) : ∃ puts,
      getArray field ranges (n * field.fieldLength : Nat) = .ok puts ∧ Tiles field n puts := by
  have positive := field.fieldLength_pos
  have first := corner.isPrefix field.solid
  have some : cells ranges ≠ [] := corner.cells_ne_nil field.solid
  have bytes := field.bytes_lt first.length_le
  have length : n = (cells ranges).length := by
    have product := foldl_slong (solid_of_cells some)
      (show field.fieldLength * (cells ranges).length < 2147483648 by rw [Nat.mul_comm]; exact bytes)
    have same : n * field.fieldLength = field.fieldLength * (cells ranges).length := by
      exact_mod_cast equal.trans product
    rw [Nat.mul_comm] at same
    exact Nat.eq_of_mul_eq_mul_left positive same
  have taken : (cells field.fldRanges).take n = cells ranges := by
    rw [length]
    exact (List.prefix_iff_eq_take.mp first).symm
  have fits : ¬blrBufferSize < (sdl field ranges).length := by
    unfold Fld.Described at described
    rw [length_sdl, corner.length_eq]
    omega
  refine ⟨[⟨ranges, sdl field ranges, (n * field.fieldLength : Nat), 0, true⟩], ?_, ?_⟩
  · unfold getArray
    rw [if_neg (not_not.mpr equal), if_neg fits]
  · refine tiles_of_tiled ?_ positive
    rw [taken, ← List.append_nil (cells ranges)]
    refine .cons some ?_ ?_ rfl (.nil _)
    · rw [Nat.zero_mul]
      rfl
    · rw [length]

theorem regular_corner (same : ranges.length = field.fldRanges.length) (positive : 0 < n)
    (equal : ((n * field.fieldLength : Nat) : Int) = fileLength field ranges)
    (ran : getArray field ranges (n * field.fieldLength : Nat) = .ok puts)
    (tiles : Tiles field n puts) : field.Described ∧ Corner field.fldRanges ranges := by
  unfold getArray at ran
  rw [if_neg (not_not.mpr equal)] at ran
  split at ran
  next => simp at ran
  next fits =>
    rw [length_sdl, same] at fits
    obtain rfl := Except.ok.inj ran
    obtain ⟨put, mem, some⟩ := tiles.some positive
    obtain rfl := List.mem_singleton.mp mem
    refine ⟨by unfold Fld.Described; omega, corner_of_prefix field.solid same some ?_⟩
    have width := field.fieldLength_pos
    refine List.prefix_iff_getElem?.mpr fun i bound => ?_
    obtain ⟨j, there, place⟩ := tiles.own _ mem i _ (List.getElem?_eq_getElem bound)
    have numbers : i * field.fieldLength = j * field.fieldLength := by
      have cast : (0 : Int) + (i * field.fieldLength : Nat) = (j * field.fieldLength : Nat) := by
        push_cast
        exact place
      omega
    have number := Nat.eq_of_mul_eq_mul_right width numbers
    exact (congrArg (fun i => (cells field.fldRanges)[i]?) number).trans there

/-- The field `A` of the relation `R`, an array of `INTEGER` in 3 rows of 2. -/
def integerField : Fld where
  relName := [82]
  fldName := [65]
  fldType := .long
  fldLength := 4
  fldScale := 0
  fldCharacterSetId := 0
  fldRanges := [(1, 3), (1, 2)]
  length_pos := by decide
  length_lt := by decide
  dimensions_pos := by decide
  dimensions_le := by decide
  solid := by simp [Solid]
  bounds := by simp
  total := by decide

/-- The field `A` of the relation `R`, an array of two `VARCHAR (1)`. -/
def varcharField : Fld where
  relName := [82]
  fldName := [65]
  fldType := .varying
  fldLength := 1
  fldScale := 0
  fldCharacterSetId := 0
  fldRanges := [(1, 2)]
  length_pos := by decide
  length_lt := by decide
  dimensions_pos := by decide
  dimensions_le := by decide
  solid := by simp [Solid]
  bounds := by simp
  total := by decide

end

end RestoreArray

end InterBase
