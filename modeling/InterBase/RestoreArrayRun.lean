import InterBase.RestoreArrayTiling

namespace InterBase

namespace RestoreArray

open RowMajor

section

variable {field : Fld} {fuel base k : Nat} {r next : Int × Int} {pre suf rs : List (Int × Int)}
  {xs lasts : List Int}

theorem Fld.suffix (split : field.fldRanges = pre ++ suf) :
    Solid suf ∧ (∀ r ∈ suf, -2147483648 ≤ r.1 ∧ r.2 < 2147483648) ∧
      (cells suf).length < 2147483648 := by
  have solid := field.solid
  have total := field.total
  have bounds := field.bounds
  have positive := field.length_pos
  rw [split] at solid total bounds
  have front : Solid pre := fun r mem => solid r (List.mem_append_left _ mem)
  have back : Solid suf := fun r mem => solid r (List.mem_append_right _ mem)
  refine ⟨back, fun r mem => bounds r (List.mem_append_right _ mem), ?_⟩
  rw [length_cells_append] at total
  have whole : (cells suf).length ≤ (cells pre).length * (cells suf).length :=
    Nat.le_mul_of_pos_left _ (cells_pos front)
  have bytes : (cells pre).length * (cells suf).length ≤ (cells pre).length * (cells suf).length *
      (field.fldLength + if field.fldType = .varying then 2 else 0) :=
    Nat.le_mul_of_pos_right _ (by omega)
  omega

theorem apart_iff (pre rs : List (Int × Int)) {last : Int} (others : List Int) :
    Apart (pre.length + (rs.length + 2)) pre.length (next :: rs) (last :: others) ↔
      ¬(rs = [] ∧ last = next.2) := by
  unfold Apart merges
  constructor
  · rintro ⟨_, none⟩ ⟨rfl, rfl⟩
    simp at none
  · intro apart
    refine ⟨by omega, if_neg ?_⟩
    rintro ⟨one, _, same⟩
    exact apart ⟨List.eq_nil_of_length_eq_zero (by omega), same⟩

/-- The rounds from `current_dim` on hand out the first `k` cells behind the coordinates `xs`. -/
theorem rounds_tiled (described : field.Described) (split : field.fldRanges = pre ++ suf)
    (equal : xs.length = pre.length) (some : suf ≠ []) (positive : 0 < k)
    (inside : k ≤ (cells suf).length) (fits : (base + k) * field.fldLength < 2147483648)
    (bounded : Bounded suf (lastElementDim suf k)) (enough : suf.length ≤ fuel) : ∃ puts,
      rounds field (xs ++ lastElementDim suf k) fuel pre.length (base * field.fldLength : Nat) =
        .ok puts ∧
      Tiled field.fldLength base puts (((cells suf).take k).map (xs ++ ·)) := by
  induction suf generalizing pre xs k base fuel with
  | nil => exact absurd rfl some
  | cons r rs ih =>
    obtain ⟨solid, bounds, small⟩ := Fld.suffix split
    obtain ⟨low, high⟩ := bounds r List.mem_cons_self
    obtain ⟨fuel, rfl⟩ : ∃ f, fuel = f + 1 := ⟨fuel - 1, by rw [List.length_cons] at enough; omega⟩
    obtain ⟨d, rest, lasts, room, parts, left, layer⟩ :=
      lastElementDim_cons solid low high small positive inside
    have dimensions : field.fldRanges.length = pre.length + (rs.length + 1) := by
      rw [split, List.length_append, List.length_cons]
    rw [lasts] at bounded ⊢
    have whole (extent : rest = (cells rs).length) :
        (cells (r :: rs)).take k = cells ((r.1, r.1 + d) :: rs) := by
      rw [parts, extent, ← Nat.succ_mul]
      exact take_layers room
    have size : (cells ((r.1, r.1 + (d : Int)) :: rs)).length = (d + 1) * (cells rs).length := by
      rw [length_cells_cons]
      simp only
      congr 1
      omega
    have deep : d < 2147483647 := by
      have most : d ≤ d * (cells rs).length := Nat.le_mul_of_pos_right _ (cells_pos solid.tail)
      omega
    cases rs with
    | nil =>
      have cells_nil : (cells []).length = 1 := rfl
      have one : rest = (cells []).length := by omega
      have count : (cells [(r.1, r.1 + (d : Int))]).length = k := by
        rw [size, parts, one]
        exact Nat.succ_mul _ _
      have chopped := chop_last equal (show r.1 ≤ r.1 + (d : Int) by omega)
      rw [show pre.length + 1 = field.fldRanges.length by simpa using dimensions.symm, ← split,
        ← lastElementDim_nil rest] at chopped
      have exact : slong (1 * (r.1 + d - r.1 + 1)) = (cells [(r.1, r.1 + (d : Int))]).length := by
        have extent : d + 1 = k := by
          rw [parts, one, cells_nil, Nat.mul_one]
        rw [slong_of_mem (by omega) (by omega), count]
        omega
      have inFile : (base + (cells [(r.1, r.1 + (d : Int))]).length) * field.fldLength < 2147483648 := by
        rw [count]
        exact fits
      obtain ⟨_, tiled⟩ := Tiled.put field xs (List.ne_nil_of_length_pos (by omega)) exact inFile
        (.nil _)
      refine ⟨_, ?_, by rw [whole one, ← List.append_nil (List.map _ _)]; exact tiled⟩
      rw [rounds_write described (by rw [dimensions]; omega)
        (by rw [List.length_append, fixed, List.length_map, equal, dimensions]; rfl) chopped,
        rounds_end (by rw [dimensions]; simp)]
      rfl
    | cons next rs =>
      obtain ⟨lowNext, highNext⟩ := bounds next (List.mem_cons_of_mem _ List.mem_cons_self)
      obtain ⟨_, _, smallNext⟩ := Fld.suffix
        (show field.fldRanges = (pre ++ [r]) ++ next :: rs by rw [split, List.append_assoc]; rfl)
      obtain ⟨d', rest', lasts', room', parts', left', layer'⟩ :=
        lastElementDim_cons solid.tail lowNext highNext smallNext left layer
      have dimensions' : field.fldRanges.length = pre.length + (rs.length + 2) := dimensions
      by_cases merged : rs = [] ∧ next.1 + (d' : Int) = next.2
      · obtain ⟨rfl, same⟩ := merged
        have cells_nil : (cells []).length = 1 := rfl
        have cells_next : (cells [next]).length = d' + 1 := by
          rw [length_cells_cons, cells_nil]
          omega
        have full : rest = (cells [next]).length := by
          rw [cells_next, parts', cells_nil]
          rw [cells_nil] at layer'
          omega
        have chopped := chop_merged r next (r.1 + d) equal
        rw [show pre.length + 2 = field.fldRanges.length from dimensions'.symm, ← split, ← same,
          ← lastElementDim_nil rest', ← lasts'] at chopped
        have count : (cells [(r.1, r.1 + (d : Int)), next]).length = k := by
          rw [size, parts, full]
          exact Nat.succ_mul _ _
        have exact : slong (slong (1 * (r.1 + d - r.1 + 1)) * (next.1 + d' - next.1 + 1)) =
            (cells [(r.1, r.1 + (d : Int)), next]).length := by
          have product : (d + 1) * (d' + 1) = k := by
            rw [← count, size, cells_next]
          have inner : slong (1 * (r.1 + d - r.1 + 1)) = ((d + 1 : Nat) : Int) := by
            rw [slong_of_mem (by omega) (by omega)]
            omega
          have outer : ((d + 1 : Nat) : Int) * (next.1 + d' - next.1 + 1) = (k : Int) := by
            rw [← product]
            push_cast
            ring
          rw [inner, outer, count]
          exact slong_of_mem (by omega) (by omega)
        have inFile : (base + (cells [(r.1, r.1 + (d : Int)), next]).length) * field.fldLength <
            2147483648 := by
          rw [count]
          exact fits
        obtain ⟨_, tiled⟩ := Tiled.put field xs (List.ne_nil_of_length_pos (by omega)) exact inFile
          (.nil _)
        refine ⟨_, ?_, by rw [whole full, ← List.append_nil (List.map _ _)]; exact tiled⟩
        rw [rounds_write described (by rw [dimensions]; omega)
          (by rw [List.length_append, fixed, List.length_map, equal, dimensions]; rfl) chopped,
          rounds_end (by rw [dimensions]; simp)]
        rfl
      · have split' : field.fldRanges = (pre ++ [r]) ++ next :: rs := by
          rw [split, List.append_assoc]
          rfl
        have equal' : (xs ++ [r.1 + (d : Int)]).length = (pre ++ [r]).length := by
          simp [equal]
        have apart := (apart_iff pre rs (lastElementDim rs rest')).mpr merged
        rw [← dimensions', ← lasts'] at apart
        have others : (lastElementDim (next :: rs) rest).length = (next :: rs).length :=
          length_lastElementDim _ _
        have bound := bounded
        rw [lasts'] at bound
        obtain ⟨least, boundedRest⟩ := bound
        have above : r.1 + (d : Int) ≠ -2147483648 := least.resolve_right merged
        rw [← lasts'] at boundedRest
        have one : slong (r.1 + (d : Int) - 1) = r.1 + d - 1 := slong_of_mem (by omega) (by omega)
        have shift (base' : Nat) (fits' : (base' + rest) * field.fldLength < 2147483648) :=
          ih split' equal' (by simp) left layer fits' boundedRest
            (show (next :: rs).length ≤ fuel by simpa using enough)
        have lastsEq : xs ++ (r.1 + (d : Int)) :: lastElementDim (next :: rs) rest =
            (xs ++ [r.1 + (d : Int)]) ++ lastElementDim (next :: rs) rest := by simp
        have place : (pre ++ [r]).length = pre.length + 1 := by simp
        by_cases none : d = 0
        · subst none
          have empty : slong (r.1 + ((0 : Nat) : Int) - 1) < r.1 := by omega
          have chopped := chop_none equal apart empty
          rw [← split] at chopped
          obtain ⟨puts, ran, tiled⟩ := shift base (by rw [parts] at fits; simpa using fits)
          refine ⟨puts, ?_, ?_⟩
          · rw [rounds_dontWrite described (by rw [dimensions]; omega)
              (by rw [fixed, List.length_map, equal, dimensions]; omega) chopped, lastsEq, ← place]
            exact ran
          · have first := take_first solid.head layer
            rw [parts, Nat.zero_mul, Nat.zero_add,
              show cells (r :: next :: rs) = cells ((r.1, r.2) :: next :: rs) from rfl, first,
              List.map_map]
            convert tiled using 2
            funext cell
            simp
        · have some : r.1 ≤ slong (r.1 + (d : Int) - 1) := by omega
          have chopped := chop_layers equal apart some others
          rw [← split, one] at chopped
          have layers : (cells ((r.1, r.1 + (d : Int) - 1) :: next :: rs)).length =
              d * (cells (next :: rs)).length := by
            rw [length_cells_cons]
            simp only
            congr 1
            omega
          have inner : slong (1 * (r.1 + d - 1 - r.1 + 1)) = (d : Int) := by
            rw [slong_of_mem (by omega) (by omega)]
            omega
          have exact : (next :: rs).foldl (fun n range => slong (n * (range.2 - range.1 + 1)))
              (slong (1 * (r.1 + d - 1 - r.1 + 1))) =
              (cells ((r.1, r.1 + (d : Int) - 1) :: next :: rs)).length := by
            rw [inner, foldl_slong solid.tail (by omega), layers]
            push_cast
            rfl
          have total : base + (cells ((r.1, r.1 + (d : Int) - 1) :: next :: rs)).length + rest =
              base + k := by omega
          obtain ⟨puts, ran, tiled⟩ := shift _ (by rw [total]; exact fits)
          have here : (base + (cells ((r.1, r.1 + (d : Int) - 1) :: next :: rs)).length) *
              field.fldLength < 2147483648 :=
            Nat.lt_of_le_of_lt (Nat.mul_le_mul_right _ (by omega)) fits
          obtain ⟨later, tiled⟩ := Tiled.put field xs
            (List.ne_nil_of_length_pos (by rw [layers]; exact Nat.mul_pos (by omega) (by omega)))
            exact here tiled
          have front : ((cells (r :: next :: rs)).take k).map (xs ++ ·) =
              (cells ((r.1, r.1 + (d : Int) - 1) :: next :: rs)).map (xs ++ ·) ++
                ((cells (next :: rs)).take rest).map ((xs ++ [r.1 + (d : Int)]) ++ ·) := by
            have behind : (fun cell => xs ++ cell) ∘ ((r.1 + (d : Int)) :: ·) =
                ((xs ++ [r.1 + (d : Int)]) ++ ·) := by
              funext cell
              simp
            rw [parts, show cells (r :: next :: rs) = cells ((r.1, r.2) :: next :: rs) from rfl,
              take_cells room layer, List.map_append, List.map_map, behind]
          rw [front]
          refine ⟨_, ?_, tiled⟩
          rw [rounds_write described (by rw [dimensions]; omega)
            (by rw [List.length_append, fixed, List.length_map, equal, dimensions]; rfl) chopped,
            later, if_neg (by decide), lastsEq, ← place, ran]
          rfl

end

end RestoreArray

end InterBase
