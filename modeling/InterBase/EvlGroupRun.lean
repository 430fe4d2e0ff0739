import InterBase.EvlGroupCells
import Mathlib.Data.List.SplitBy

namespace InterBase

variable {R V D : Type}

def putRunItems (arith : GroupArith V D) : List R → GroupItems R V D → Option (GroupItems R V D)
  | [], items => some items
  | record :: run, items => (putItems arith record items).bind (putRunItems arith run)

/-- Node by node. -/
def runItems (arith : GroupArith V D) (run : List R) : GroupItems R V D → Option (GroupItems R V D)
  | [] => some []
  | item :: items =>
    (item.1.putRun arith run item.2).bind fun cell =>
      (runItems arith run items).map fun items => (item.1, cell) :: items

theorem runItems_nil (arith : GroupArith V D) (items : GroupItems R V D) :
    runItems arith [] items = some items := by
  induction items with
  | nil => rfl
  | cons item items ih =>
    rw [runItems, ih]
    rfl

theorem runItems_cons (arith : GroupArith V D) (record : R) (run : List R) (items : GroupItems R V D) :
    runItems arith (record :: run) items =
      (putItems arith record items).bind (runItems arith run) := by
  induction items with
  | nil => rfl
  | cons item items ih =>
    rw [runItems, ih, putItems, AggNod.putRun]
    cases item.1.put arith record item.2 with
    | none => rfl
    | some cell =>
      rw [Option.bind_some, Option.bind_some]
      cases putItems arith record items with
      | none => cases item.1.putRun arith run cell <;> rfl
      | some items' => rfl

theorem putRunItems_eq (arith : GroupArith V D) (run : List R) (items : GroupItems R V D) :
    putRunItems arith run items = runItems arith run items := by
  induction run generalizing items with
  | nil => exact (runItems_nil arith items).symm
  | cons record run ih =>
    rw [putRunItems, runItems_cons]
    exact Option.bind_congr fun items' _ => ih items'

/-- The row that a run should give. -/
def sqlRow (arith : GroupArith V D) (run : List R) (items : GroupItems R V D) : List (AggValue V D) :=
  items.map fun item => item.1.sql arith item.2.field run

def rowOf (items : GroupItems R V D) : List (AggValue V D) := items.map fun item => item.2.field

/-- What the code makes of a run. -/
theorem runItems_sql (arith : GroupArith V D) (run : List R) (items : GroupItems R V D)
    (puts : ∀ item ∈ items, item.1.PutsSql arith run item.2) :
    ((∃ node ∈ items.map Prod.fst, node.Overflow2 run) ∧
      runItems arith run (startItems arith items) = none) ∨
    ((¬ ∃ node ∈ items.map Prod.fst, node.Overflow2 run) ∧
      ∃ items', runItems arith run (startItems arith items) = some items' ∧
        items'.map Prod.fst = items.map Prod.fst ∧
        (rowOf (finishItems arith items') = sqlRow arith run items ↔
          ∀ node ∈ items.map Prod.fst, node.Keeps arith run)) := by
  induction items with
  | nil =>
    refine Or.inr ⟨?_, [], rfl, rfl, ?_⟩
    · rintro ⟨node, mem, -⟩
      cases mem
    · exact iff_of_true rfl fun node mem => absurd mem List.not_mem_nil
  | cons item items ih =>
    have hrest := ih fun other mem => puts other (List.mem_cons_of_mem item mem)
    have hstart : startItems arith (item :: items) =
        (item.1, item.1.start arith item.2) :: startItems arith items := rfl
    rw [hstart, runItems]
    dsimp only
    rcases puts item List.mem_cons_self with ⟨hover, hnone⟩ | ⟨hfits, cell', hsome, hfield⟩
    · rw [hnone]
      exact Or.inl ⟨⟨item.1, List.mem_cons_self, hover⟩, rfl⟩
    · rw [hsome, Option.bind_some]
      rcases hrest with ⟨⟨node, mem, hover⟩, hnone⟩ | ⟨hall, items', hitems, hnodes, hrow⟩
      · rw [hnone]
        exact Or.inl ⟨⟨node, List.mem_cons_of_mem item.1 mem, hover⟩, rfl⟩
      · rw [hitems]
        refine Or.inr ⟨?_, _, rfl, ?_, ?_⟩
        · rintro ⟨node, mem, hover⟩
          rcases List.mem_cons.mp mem with rfl | mem
          · exact hfits hover
          · exact hall ⟨node, mem, hover⟩
        · rw [List.map_cons, hnodes, List.map_cons]
        · rw [List.map_cons, List.forall_mem_cons, ← hrow, ← hfield]
          unfold rowOf finishItems sqlRow
          rw [List.map_cons, List.map_cons, List.map_cons, List.cons_eq_cons]

def sameKeys (arith : GroupArith V D) (group : List (R → Option V)) (record record' : R) : Bool :=
  group.all fun key => !keyChange arith (key record) (key record')

theorem keyChange_self (arith : GroupArith V D) (value : Option V) :
    keyChange arith value value = false := by
  cases value with
  | none => rfl
  | some v =>
    unfold keyChange
    dsimp only
    rw [arith.movCompare_self]
    rfl

theorem sameKeys_self (arith : GroupArith V D) (group : List (R → Option V)) (record : R) :
    sameKeys arith group record record = true := by
  apply List.all_eq_true.mpr
  intro key _
  rw [keyChange_self]
  rfl

theorem scanKeys_same {arith : GroupArith V D} {group : List (R → Option V)} {prev record : R}
    (same : sameKeys arith group prev record = true) :
    scanKeys arith record group (group.map fun key => key prev) =
      (false, group.map fun key => key record) := by
  induction group with
  | nil => rfl
  | cons key group ih =>
    unfold sameKeys at same
    rw [List.all_cons, Bool.and_eq_true, Bool.not_eq_true'] at same
    rw [List.map_cons, scanKeys, same.1, ih same.2]
    rfl

theorem scanKeys_change {arith : GroupArith V D} {group : List (R → Option V)} {prev record : R}
    (change : sameKeys arith group prev record = false) :
    (scanKeys arith record group (group.map fun key => key prev)).1 = true := by
  induction group with
  | nil => cases change
  | cons key group ih =>
    unfold sameKeys at change
    rw [List.all_cons, Bool.and_eq_false_iff, Bool.not_eq_false'] at change
    rw [List.map_cons, scanKeys]
    by_cases hkey : keyChange arith (key prev) (key record) = true
    · rw [if_pos hkey]
    · rw [if_neg hkey]
      exact ih (change.resolve_left hkey)

theorem stops_false {node : AggNod R V D} (min : ∀ arg, node ≠ .min true arg)
    (max : ∀ arg, node ≠ .max true arg) (record : R) (cell : GroupCell V D) :
    node.stops record cell = false := by
  unfold AggNod.stops
  split
  · exact absurd rfl (min _)
  · exact absurd rfl (max _)
  · rfl

/-- No node of the map is mapped to an index. -/
def Unindexed (map : List (AggNod R V D)) : Prop :=
  ∀ node ∈ map, (∀ arg, node ≠ .min true arg) ∧ ∀ arg, node ≠ .max true arg

theorem putItems_nodes {arith : GroupArith V D} {record : R} {items items' : GroupItems R V D}
    (h : putItems arith record items = some items') : items'.map Prod.fst = items.map Prod.fst := by
  induction items generalizing items' with
  | nil =>
    obtain rfl := Option.some.inj h
    rfl
  | cons item items ih =>
    rw [putItems] at h
    obtain ⟨cell, -, h⟩ := Option.bind_eq_some_iff.mp h
    obtain ⟨items1, hitems, rfl⟩ := Option.map_eq_some_iff.mp h
    rw [List.map_cons, List.map_cons, ih hitems]

theorem any_stops_false {items : GroupItems R V D} (unindexed : Unindexed (items.map Prod.fst))
    (record : R) : (items.any fun item => item.1.stops record item.2) = false := by
  apply List.any_eq_false.mpr
  intro item mem
  obtain ⟨min, max⟩ := unindexed item.1 (List.mem_map_of_mem mem)
  rw [stops_false min max]
  exact Bool.false_ne_true

namespace GroupSource

/-- The loop takes the records whose keys are those of the record before, up to the first other. -/
theorem groupLoop_runs (source : GroupSource R V D) (prev : R) (records : List R) {items : GroupItems R V D}
    (unindexed : Unindexed (items.map Prod.fst)) :
    ∃ run rest, records = run ++ rest ∧
      (prev :: run).IsChain (fun a b => sameKeys source.arith (source.group.getD []) a b) ∧
      (∀ last ∈ (prev :: run).getLast?, ∀ next ∈ rest.head?,
        sameKeys source.arith (source.group.getD []) last next = false) ∧
      ∃ keys, source.groupLoop ((source.group.getD []).map fun key => key prev) items records =
        (putRunItems source.arith run items).map fun items' =>
          ⟨if rest = [] then 2 else 1, rest, keys, items'⟩ := by
  induction records generalizing prev items with
  | nil =>
    refine ⟨[], [], rfl, List.isChain_singleton prev, ?_, _, rfl⟩
    intro last _ next hnext
    cases hnext
  | cons record records ih =>
    cases hsame : sameKeys source.arith (source.group.getD []) prev record with
    | false =>
      refine ⟨[], record :: records, rfl, List.isChain_singleton prev, ?_,
        (scanKeys source.arith record (source.group.getD [])
          ((source.group.getD []).map fun key => key prev)).2, ?_⟩
      · intro last hlast next hnext
        cases hlast
        cases hnext
        exact hsame
      · rw [groupLoop, if_pos (scanKeys_change hsame)]
        rfl
    | true =>
      have hscan := scanKeys_same hsame
      rw [groupLoop, hscan]
      dsimp only
      rw [if_neg Bool.false_ne_true, any_stops_false unindexed]
      cases hput : putItems source.arith record items with
      | none =>
        obtain ⟨run, rest, hrecords, hchain, hlast, -⟩ := ih record unindexed
        refine ⟨record :: run, rest, by rw [hrecords]; rfl, List.IsChain.cons_cons hsame hchain, ?_, [], ?_⟩
        · intro last hl
          rw [List.getLast?_cons_cons] at hl
          exact hlast last hl
        · rw [putRunItems, hput]
          rfl
      | some items' =>
        rw [← putItems_nodes hput] at unindexed
        obtain ⟨run, rest, hrecords, hchain, hlast, keys, hloop⟩ := ih record unindexed
        refine ⟨record :: run, rest, by rw [hrecords]; rfl, List.IsChain.cons_cons hsame hchain, ?_, keys, ?_⟩
        · intro last hl
          rw [List.getLast?_cons_cons] at hl
          exact hlast last hl
        · rw [putRunItems, hput, Option.bind_some, Option.bind_some]
          exact hloop

end GroupSource

end InterBase
