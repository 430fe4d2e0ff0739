import Mathlib.Data.List.Nodup
import Mathlib.Data.List.Flatten
import Mathlib.Tactic.Common
import Mathlib.Tactic.Ring

namespace RowMajor

def run (low high : Int) : List Int := (List.range (high - low + 1).toNat).map fun k : Nat => low + k

def cells : List (Int × Int) → List (List Int)
  | [] => [[]]
  | r :: rs => (run r.1 r.2).flatMap fun i => (cells rs).map (i :: ·)

/-- The box has an extent in every direction. -/
def Solid (rs : List (Int × Int)) : Prop := ∀ r ∈ rs, r.1 ≤ r.2

variable {low high : Int} {r f : Int × Int} {rs fs : List (Int × Int)} {i : Int}

theorem length_run (low high : Int) : (run low high).length = (high - low + 1).toNat := by
  simp [run]

theorem mem_run : i ∈ run low high ↔ low ≤ i ∧ i ≤ high := by
  simp only [run, List.mem_map, List.mem_range]
  constructor
  · rintro ⟨k, bound, rfl⟩
    omega
  · rintro ⟨above, below⟩
    exact ⟨(i - low).toNat, by omega, by omega⟩

theorem nodup_run (low high : Int) : (run low high).Nodup :=
  List.nodup_range.map fun a b same => by
    have eq : low + (a : Int) = low + (b : Int) := same
    omega

theorem run_empty (h : high < low) : run low high = [] := by
  simp [run, show (high - low + 1).toNat = 0 by omega]

theorem run_self (low : Int) : run low low = [low] := by
  simp [run]

theorem run_append {mid : Int} (above : low ≤ mid + 1) (below : mid ≤ high) :
    run low high = run low mid ++ run (mid + 1) high := by
  obtain ⟨a, first⟩ : ∃ a : Nat, mid = low + a - 1 := ⟨(mid + 1 - low).toNat, by omega⟩
  obtain ⟨b, second⟩ : ∃ b : Nat, high = mid + b := ⟨(high - mid).toNat, by omega⟩
  subst first second
  have whole : (low + a - 1 + b - low + 1).toNat = a + b := by omega
  have left : (low + a - 1 - low + 1).toNat = a := by omega
  have right : (low + a - 1 + b - (low + a - 1 + 1) + 1).toNat = b := by omega
  simp only [run, whole, left, right, List.range_add, List.map_append, List.map_map]
  congr 2
  funext k
  simp only [Function.comp_apply, Nat.cast_add]
  ring

theorem run_cons (h : low ≤ high) : run low high = low :: run (low + 1) high := by
  rw [run_append (show low ≤ low + 1 by omega) h, run_self]
  rfl

theorem run_concat (h : low ≤ high) : run low high = run low (high - 1) ++ [high] := by
  rw [run_append (show low ≤ high - 1 + 1 by omega) (show high - 1 ≤ high by omega), show high - 1 + 1 = high by omega, run_self]

theorem mem_cells {cell : List Int} :
    cell ∈ cells rs ↔ List.Forall₂ (fun i r => r.1 ≤ i ∧ i ≤ r.2) cell rs := by
  induction rs generalizing cell with
  | nil => simp [cells]
  | cons r rs ih =>
    simp only [cells, List.mem_flatMap, List.mem_map, mem_run]
    constructor
    · rintro ⟨i, bounds, rest, mem, rfl⟩
      exact .cons bounds (ih.mp mem)
    · intro inside
      cases inside with
      | cons bounds rest => exact ⟨_, bounds, _, ih.mpr rest, rfl⟩

theorem nodup_cells (rs : List (Int × Int)) : (cells rs).Nodup := by
  induction rs with
  | nil => simp [cells]
  | cons r rs ih =>
    refine List.nodup_flatMap.mpr ⟨fun i _ => ih.map (List.cons_injective), ?_⟩
    refine (nodup_run r.1 r.2).imp fun {a b} differ => ?_
    intro cell left right
    obtain ⟨x, _, rfl⟩ := List.mem_map.mp left
    obtain ⟨y, _, same⟩ := List.mem_map.mp right
    exact differ (List.cons.inj same).1.symm

theorem length_cells_cons (r : Int × Int) (rs : List (Int × Int)) :
    (cells (r :: rs)).length = (r.2 - r.1 + 1).toNat * (cells rs).length := by
  simp [cells, List.length_flatMap, length_run]

theorem Solid.tail (solid : Solid (r :: rs)) : Solid rs := fun x mem => solid x (List.mem_cons_of_mem r mem)

theorem Solid.head (solid : Solid (r :: rs)) : r.1 ≤ r.2 := solid r List.mem_cons_self

theorem solid_cons (first : r.1 ≤ r.2) (rest : Solid rs) : Solid (r :: rs) := by
  intro x mem
  rcases List.mem_cons.mp mem with rfl | mem
  · exact first
  · exact rest x mem

theorem cells_pos (solid : Solid rs) : 0 < (cells rs).length := by
  induction rs with
  | nil => simp [cells]
  | cons r rs ih =>
    have first := solid.head
    rw [length_cells_cons]
    exact Nat.mul_pos (by omega) (ih solid.tail)

theorem solid_of_cells (some : cells rs ≠ []) : Solid rs := by
  induction rs with
  | nil => simp [Solid]
  | cons r rs ih =>
    obtain ⟨cell, mem⟩ := List.exists_mem_of_ne_nil _ some
    cases mem_cells.mp mem with
    | cons bounds rest =>
      exact solid_cons (by omega) (ih (List.ne_nil_of_mem (mem_cells.mpr rest)))

/-- A box that is one cell thick in its first directions. -/
theorem cells_fixed (xs : List Int) (rs : List (Int × Int)) :
    cells (xs.map (fun x => (x, x)) ++ rs) = (cells rs).map (xs ++ ·) := by
  induction xs with
  | nil => simp
  | cons x xs ih => simp [cells, run_self, ih, Function.comp_def]

/-- Cutting a box in its first direction. -/
theorem cells_split (rs : List (Int × Int)) {mid : Int} (above : low ≤ mid + 1) (below : mid ≤ high) :
    cells ((low, high) :: rs) = cells ((low, mid) :: rs) ++ cells ((mid + 1, high) :: rs) := by
  simp only [cells, run_append above below, List.flatMap_append]

/-- The first cells of a box are whole layers and some cells of the next one. -/
theorem take_cells {d k : Nat} (room : low + d ≤ high) (part : k ≤ (cells rs).length) :
    (cells ((low, high) :: rs)).take (d * (cells rs).length + k) =
      cells ((low, low + d - 1) :: rs) ++ ((cells rs).take k).map ((low + d) :: ·) := by
  have whole : (cells ((low, low + d - 1) :: rs)).length = d * (cells rs).length := by
    rw [length_cells_cons]
    simp only
    congr 1
    omega
  have layer : cells ((low + d - 1 + 1, high) :: rs) =
      (cells rs).map ((low + d) :: ·) ++ cells ((low + d + 1, high) :: rs) := by
    rw [show low + (d : Int) - 1 + 1 = low + d by omega, cells, run_cons (by simpa using room)]
    rfl
  rw [cells_split rs (show low ≤ low + d - 1 + 1 by omega) (show low + (d : Int) - 1 ≤ high by omega), layer, ← whole, List.take_length_add_append,
    List.take_append_of_le_length (by rwa [List.length_map]), List.map_take]

theorem head_cells (solid : Solid rs) : (cells rs).head? = some (rs.map Prod.fst) := by
  induction rs with
  | nil => rfl
  | cons r rs ih =>
    obtain ⟨rest, cons⟩ : ∃ rest, cells rs = rs.map Prod.fst :: rest := by
      have first := ih solid.tail
      cases split : cells rs with
      | nil => simp [split] at first
      | cons cell rest =>
        rw [split] at first
        exact ⟨rest, by rw [Option.some.inj first]⟩
    simp [cells, run_cons solid.head, cons]

theorem last_cells (solid : Solid rs) : (cells rs).getLast? = some (rs.map Prod.snd) := by
  induction rs with
  | nil => rfl
  | cons r rs ih =>
    simp [cells, run_concat solid.head, List.getLast?_append, ih solid.tail]

theorem cells_inj (some : cells rs ≠ []) (same : cells fs = cells rs) : fs = rs := by
  have solid := solid_of_cells some
  have solid' : Solid fs := solid_of_cells (by rwa [same])
  have lows := (head_cells solid').symm.trans ((congrArg List.head? same).trans (head_cells solid))
  have highs := (last_cells solid').symm.trans ((congrArg List.getLast? same).trans (last_cells solid))
  have both := congrArg₂ List.zip (Option.some.inj lows) (Option.some.inj highs)
  have unzip (xs : List (Int × Int)) : (xs.map Prod.fst).zip (xs.map Prod.snd) = xs := by
    rw [List.zip_map']
    simp
  rwa [unzip, unzip] at both

/-- `fs` is a box of the first cells of the box `rs`: one cell thick, then cut once, then whole. -/
def Corner : List (Int × Int) → List (Int × Int) → Prop
  | [], [] => True
  | r :: rs, f :: fs =>
    f.1 = r.1 ∧ (f.2 = r.1 ∧ Corner rs fs ∨ (r.1 ≤ f.2 ∧ f.2 ≤ r.2 ∧ fs = rs))
  | _, _ => False

theorem take_first {k : Nat} (room : low ≤ high) (part : k ≤ (cells rs).length) :
    (cells ((low, high) :: rs)).take k = ((cells rs).take k).map (low :: ·) := by
  have layers := take_cells (show low + ((0 : Nat) : Int) ≤ high by simpa using room) part
  have none : cells ((low, low - 1) :: rs) = [] := by simp [cells, run_empty]
  simpa [none] using layers

/-- Whole layers. -/
theorem take_layers {d : Nat} (room : low + d ≤ high) :
    (cells ((low, high) :: rs)).take ((d + 1) * (cells rs).length) = cells ((low, low + d) :: rs) := by
  have last := cells_split rs (show low ≤ low + (d : Int) - 1 + 1 by omega)
    (show low + (d : Int) - 1 ≤ low + d by omega)
  have layer : cells ((low + (d : Int) - 1 + 1, low + d) :: rs) = (cells rs).map ((low + d) :: ·) := by
    rw [show low + (d : Int) - 1 + 1 = low + d by omega]
    simp [cells, run_self]
  rw [Nat.succ_mul, take_cells room (Nat.le_refl _), List.take_length, last, layer]

theorem length_cells_append (rs fs : List (Int × Int)) :
    (cells (rs ++ fs)).length = (cells rs).length * (cells fs).length := by
  induction rs with
  | nil => simp [cells]
  | cons r rs ih => rw [List.cons_append, length_cells_cons, length_cells_cons, ih, Nat.mul_assoc]

theorem Corner.isPrefix (solid : Solid rs) (corner : Corner rs fs) : cells fs <+: cells rs := by
  induction rs generalizing fs with
  | nil =>
    cases fs with
    | nil => exact List.prefix_rfl
    | cons f fs => exact corner.elim
  | cons r rs ih =>
    cases fs with
    | nil => exact corner.elim
    | cons f fs =>
      obtain ⟨f1, f2⟩ := f
      obtain ⟨low, thin | ⟨above, below, rfl⟩⟩ := corner
      · obtain ⟨high, corner⟩ := thin
        simp only at low high
        subst low high
        have rest := ih solid.tail corner
        have layer : cells ((r.1, r.1) :: fs) = (cells fs).map (r.1 :: ·) := by
          simp [cells, run_self]
        have first := take_first solid.head rest.length_le
        rw [layer, List.prefix_iff_eq_take, List.length_map, first, ← List.prefix_iff_eq_take.mp rest]
      · simp only at low above below
        subst low
        have split := cells_split fs (show r.1 ≤ f2 + 1 by omega) (show f2 ≤ r.2 from below)
        rw [show cells (r :: fs) = cells ((r.1, r.2) :: fs) from rfl, split]
        exact List.prefix_append _ _

/-- The first coordinate of a cell tells the layer that it lies in. -/
theorem layer_of_cell {i : Nat} {cell : List Int} (there : (cells (r :: rs))[i]? = some cell) :
    ∃ rest, cell = (r.1 + (i / (cells rs).length : Nat)) :: rest := by
  have bound : i < (cells (r :: rs)).length := (List.getElem?_eq_some_iff.mp there).1
  have solid := solid_of_cells (List.ne_nil_of_length_pos (Nat.zero_lt_of_lt bound))
  have more := cells_pos solid.tail
  have layer := Nat.mod_lt i more
  have parts := Nat.div_add_mod i (cells rs).length
  rw [length_cells_cons] at bound
  have room := Nat.div_lt_of_lt_mul (by rwa [Nat.mul_comm] at bound)
  rw [Nat.mul_comm] at parts
  generalize i / (cells rs).length = d at room parts
  generalize i % (cells rs).length = k at layer parts
  have whole : (cells ((r.1, r.1 + d - 1) :: rs)).length = d * (cells rs).length := by
    rw [length_cells_cons]
    simp only
    congr 1
    omega
  have layers := take_cells (show r.1 + (d : Int) ≤ r.2 by omega) layer
  have taken : ((cells (r :: rs)).take (d * (cells rs).length + (k + 1)))[i]? = some cell := by
    rw [List.getElem?_take_of_lt (by omega), there]
  rw [show cells (r :: rs) = cells ((r.1, r.2) :: rs) from rfl, layers,
    List.getElem?_append_right (by omega), List.getElem?_map] at taken
  obtain ⟨rest, _, made⟩ := Option.map_eq_some_iff.mp taken
  exact ⟨rest, made.symm⟩

/-- The cells of one box are the first ones of another: their layers have the same first
coordinates. -/
theorem layers_agree (same : cells (f :: fs) <+: cells (r :: rs)) {i : Nat}
    (bound : i < (cells (f :: fs)).length) :
    f.1 + (i / (cells fs).length : Nat) = r.1 + (i / (cells rs).length : Nat) := by
  have there := List.getElem?_eq_getElem bound
  have there' := same.getElem bound
  have there'' : (cells (r :: rs))[i]? = some (cells (f :: fs))[i] := by
    rw [there']
    exact List.getElem?_eq_getElem _
  obtain ⟨rest, made⟩ := layer_of_cell there
  obtain ⟨rest', made'⟩ := layer_of_cell there''
  exact (List.cons.inj (made.symm.trans made')).1

/-- A box whose cells are the first ones of another box is a corner of it. -/
theorem corner_of_prefix (solid : Solid rs) (length : fs.length = rs.length)
    (some : cells fs ≠ []) (same : cells fs <+: cells rs) : Corner rs fs := by
  induction rs generalizing fs with
  | nil =>
    cases fs with
    | nil => trivial
    | cons f fs => simp at length
  | cons r rs ih =>
    cases fs with
    | nil => simp at length
    | cons f fs =>
      obtain ⟨f1, f2⟩ := f
      have solid' := solid_of_cells some
      have more := cells_pos solid.tail
      have more' := cells_pos solid'.tail
      have first : f1 ≤ f2 := solid'.head
      have size : (cells ((f1, f2) :: fs)).length = (f2 - f1 + 1).toNat * (cells fs).length :=
        length_cells_cons _ _
      have one : (cells fs).length ≤ (cells ((f1, f2) :: fs)).length := by
        rw [size]
        exact Nat.le_mul_of_pos_left _ (by omega)
      obtain rfl : f1 = r.1 := by simpa using layers_agree same (show 0 < _ by omega)
      refine ⟨rfl, ?_⟩
      have headF := take_first (show r.1 ≤ f2 from first) (Nat.le_refl (cells fs).length)
      have taken := List.prefix_iff_eq_take.mp same
      have lower : (cells fs).length ≤ (cells rs).length := by
        by_contra more
        have last := layers_agree same (i := (cells rs).length) (by omega)
        rw [Nat.div_eq_of_lt (by omega), Nat.div_self (by omega)] at last
        omega
      have headR := take_first solid.head lower
      have rest : cells fs = (cells rs).take (cells fs).length := by
        have both := congrArg (List.take (cells fs).length) taken
        rw [List.take_take, Nat.min_eq_left one, headF, List.take_length,
          show cells (r :: rs) = cells ((r.1, r.2) :: rs) from rfl, headR] at both
        exact (List.map_injective_iff.mpr List.cons_injective) both
      rcases Int.lt_or_eq_of_le first with thick | thin
      · have two : 2 * (cells fs).length ≤ (cells ((r.1, f2) :: fs)).length := by
          rw [size]
          exact Nat.mul_le_mul_right _ (by omega)
        have next := layers_agree same (i := (cells fs).length) (by omega)
        rw [Nat.div_self more'] at next
        have upper : (cells rs).length ≤ (cells fs).length := by
          by_contra less
          rw [Nat.div_eq_of_lt (by omega)] at next
          omega
        rw [List.take_of_length_le upper] at rest
        refine .inr ⟨first, ?_, cells_inj (List.ne_nil_of_length_pos more) rest⟩
        have mem : (r.1, f2).2 :: fs.map Prod.snd ∈ cells (r :: rs) :=
          same.subset (List.mem_of_getLast? (last_cells solid'))
        cases mem_cells.mp mem with
        | cons bounds _ => exact bounds.2
      · refine .inl ⟨thin.symm, ih solid.tail (by simpa using length)
          (List.ne_nil_of_length_pos more') ?_⟩
        exact List.prefix_iff_eq_take.mpr rest

theorem Corner.length_eq (corner : Corner rs fs) : fs.length = rs.length := by
  induction rs generalizing fs with
  | nil =>
    cases fs with
    | nil => rfl
    | cons f fs => exact corner.elim
  | cons r rs ih =>
    cases fs with
    | nil => exact corner.elim
    | cons f fs =>
      obtain ⟨_, ⟨_, corner⟩ | ⟨_, _, rfl⟩⟩ := corner
      · rw [List.length_cons, List.length_cons, ih corner]
      · rfl

theorem Corner.cells_ne_nil (solid : Solid rs) (corner : Corner rs fs) : cells fs ≠ [] := by
  induction rs generalizing fs with
  | nil =>
    cases fs with
    | nil => simp [cells]
    | cons f fs => exact corner.elim
  | cons r rs ih =>
    cases fs with
    | nil => exact corner.elim
    | cons f fs =>
      have extent : f.1 ≤ f.2 ∧ cells fs ≠ [] := by
        obtain ⟨low, ⟨high, corner⟩ | ⟨above, _, rfl⟩⟩ := corner
        · exact ⟨by omega, ih solid.tail corner⟩
        · exact ⟨by omega, List.ne_nil_of_length_pos (cells_pos solid.tail)⟩
      refine List.ne_nil_of_length_pos ?_
      rw [length_cells_cons]
      exact Nat.mul_pos (by omega) (List.length_pos_iff.mpr extent.2)

end RowMajor
