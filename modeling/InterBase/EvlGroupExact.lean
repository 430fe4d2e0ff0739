import InterBase.EvlGroupRun

namespace InterBase

variable {R V D : Type}

namespace GroupSource

/-- The maximal runs of equal keys, or the whole stream where there is no group. -/
def runs (source : GroupSource R V D) : List (List R) :=
  match source.group with
  | none => [source.records]
  | some group => source.records.splitBy (sameKeys source.arith group)

/-- The calls from here on return a row for each run, and then 0, or an error where a sum does not fit
its type. -/
def FollowsSql (source : GroupSource R V D) : List (List R) → GroupState R V D → Prop
  | [], st => ∃ st', source.evlGroup st = some st' ∧ st'.state = 0
  | run :: runs, st =>
    match source.evlGroup st with
    | none => ∃ node ∈ source.map, node.Overflow run
    | some st' => st'.state ≠ 0 ∧ rowOf st'.items = sqlRow source.arith run st.items ∧
        source.FollowsSql runs st'

/-- Up to the error of a sum of dialect 3, if there is one, the longs of the nodes do. -/
def Spared (source : GroupSource R V D) : List (List R) → Prop
  | [] => True
  | run :: runs => (∃ node ∈ source.map, node.Overflow2 run) ∨
      (∀ node ∈ source.map, node.Keeps source.arith run) ∧ source.Spared runs

variable {source : GroupSource R V D}

theorem keysOf_eq (record : R) :
    keysOf source.group record = (source.group.getD []).map fun key => key record := by
  unfold keysOf
  cases source.group with
  | none => rfl
  | some group => rfl

/-- A call at a record aggregates its run. -/
theorem evlGroup_run {st : GroupState R V D} {record : R} {records : List R}
    (unindexed : Unindexed source.map) (nodes : st.items.map Prod.fst = source.map)
    (call : source.evlGroup st = (source.groupLoop (keysOf source.group record)
      (startItems source.arith st.items) (record :: records)).map fun st =>
        { st with items := finishItems source.arith st.items }) :
    ∃ run rest, run ≠ [] ∧
      (record :: records).splitBy (sameKeys source.arith (source.group.getD [])) =
        run :: rest.splitBy (sameKeys source.arith (source.group.getD [])) ∧
      (((∃ node ∈ source.map, node.Overflow2 run) ∧ source.evlGroup st = none) ∨
        ((¬ ∃ node ∈ source.map, node.Overflow2 run) ∧ ∃ st', source.evlGroup st = some st' ∧
          st'.items.map Prod.fst = source.map ∧ st'.pending = rest ∧
          st'.state = (if rest = [] then 2 else 1) ∧
          (rowOf st'.items = sqlRow source.arith run st.items ↔
            ∀ node ∈ source.map, node.Keeps source.arith run))) := by
  have hstart : (startItems source.arith st.items).map Prod.fst = source.map := by
    rw [← nodes]
    unfold startItems
    rw [List.map_map]
    rfl
  obtain ⟨run, rest, hrecords, hchain, hlast, keys, hloop⟩ :=
    groupLoop_runs source record (record :: records) (hstart.symm ▸ unindexed)
  have hrun : run ≠ [] := by
    rintro rfl
    have hfalse := hlast record rfl record (by rw [← List.nil_append rest, ← hrecords]; rfl)
    rw [sameKeys_self] at hfalse
    cases hfalse
  have hsplit : (record :: records).splitBy (sameKeys source.arith (source.group.getD [])) =
      run :: rest.splitBy (sameKeys source.arith (source.group.getD [])) := by
    rw [hrecords, List.splitBy_append, List.splitBy_of_isChain hrun hchain.tail]
    · rfl
    · intro last hl next hnext
      refine hlast last ?_ next hnext
      cases run with
      | nil => exact absurd rfl hrun
      | cons first run => rwa [List.getLast?_cons_cons]
  refine ⟨run, rest, hrun, hsplit, ?_⟩
  have puts : ∀ item ∈ st.items, item.1.PutsSql source.arith run item.2 := by
    intro item mem
    obtain ⟨min, max⟩ := unindexed item.1 (nodes ▸ List.mem_map_of_mem mem)
    exact AggNod.putRun_putsSql source.arith item.1 run item.2 min max
  rw [keysOf_eq, hloop, putRunItems_eq] at call
  have hsql := runItems_sql source.arith run st.items puts
  rw [nodes] at hsql
  rcases hsql with ⟨hover, hnone⟩ | ⟨hfits, items', hitems, hnodes, hrow⟩
  · rw [hnone] at call
    exact Or.inl ⟨hover, call⟩
  · rw [hitems] at call
    refine Or.inr ⟨hfits, _, call, ?_, rfl, rfl, hrow⟩
    unfold finishItems
    rw [List.map_map]
    exact hnodes

theorem evlGroup_pending {st : GroupState R V D} {record : R} {records : List R}
    (state : st.state = 1) (pending : st.pending = record :: records) :
    source.evlGroup st = (source.groupLoop (keysOf source.group record)
      (startItems source.arith st.items) (record :: records)).map fun st =>
        { st with items := finishItems source.arith st.items } := by
  unfold evlGroup
  rw [if_neg (by rw [state]; decide)]
  dsimp only
  rw [if_neg (by rw [state]; decide), pending]

theorem evlGroup_open (st : GroupState R V D) {record : R} {records : List R}
    (state : st.state = 3) (opened : source.records = record :: records) :
    source.evlGroup st = (source.groupLoop (keysOf source.group record)
      (startItems source.arith st.items) (record :: records)).map fun st =>
        { st with items := finishItems source.arith st.items } := by
  unfold evlGroup
  rw [if_neg (by rw [state]; decide)]
  dsimp only
  rw [if_pos (Or.inr state), opened]

theorem evlGroup_eof {st : GroupState R V D} (state : st.state = 2) :
    source.evlGroup st = some { st with state := 0 } := by
  unfold evlGroup
  rw [if_pos state]

/-- Where the calls stand: at the first record of the next run, or behind the last one. -/
def Stands (source : GroupSource R V D) (runs : List (List R)) (st : GroupState R V D) : Prop :=
  st.items.map Prod.fst = source.map ∧
    (st.state = 2 ∧ runs = [] ∨
      ∃ record records, runs = (record :: records).splitBy (sameKeys source.arith (source.group.getD [])) ∧
        source.evlGroup st = (source.groupLoop (keysOf source.group record)
          (startItems source.arith st.items) (record :: records)).map fun st =>
            { st with items := finishItems source.arith st.items })

theorem followsSql_iff (unindexed : Unindexed source.map) (runs : List (List R))
    {st : GroupState R V D} (stands : source.Stands runs st) :
    source.FollowsSql runs st ↔ source.Spared runs := by
  induction runs generalizing st with
  | nil =>
    refine iff_of_true ?_ trivial
    rcases stands with ⟨-, ⟨hstate, -⟩ | ⟨record, records, hruns, -⟩⟩
    · exact ⟨_, evlGroup_eof hstate, rfl⟩
    · exact absurd (List.splitBy_eq_nil.mp hruns.symm) (List.cons_ne_nil record records)
  | cons run runs ih =>
    obtain ⟨hnodes, ⟨-, hruns⟩ | ⟨record, records, hruns, hcall⟩⟩ := stands
    · cases hruns
    obtain ⟨run', rest, -, hsplit, hstep⟩ := evlGroup_run unindexed hnodes hcall
    obtain ⟨rfl, hrest⟩ := List.cons.inj (hruns.trans hsplit)
    unfold FollowsSql Spared
    rcases hstep with ⟨hover, hnone⟩ | ⟨hfits, st', hsome, hnodes', hpending, hstate, hrow⟩
    · rw [hnone]
      obtain ⟨node, mem, hnode⟩ := hover
      exact iff_of_true ⟨node, mem, hnode.overflow⟩ (Or.inl ⟨node, mem, hnode⟩)
    · rw [hsome]
      dsimp only
      have stands' : source.Stands runs st' := by
        refine ⟨hnodes', ?_⟩
        cases hrest' : rest with
        | nil =>
          rw [hrest', if_pos rfl] at hstate
          refine Or.inl ⟨hstate, ?_⟩
          rw [hrest, hrest']
          rfl
        | cons next others =>
          rw [hrest', if_neg (List.cons_ne_nil next others)] at hstate
          refine Or.inr ⟨next, others, hrest' ▸ hrest, ?_⟩
          exact evlGroup_pending hstate (hpending.trans hrest')
      have hstate' : st'.state ≠ 0 := by
        rw [hstate]
        split
        · decide
        · decide
      rw [ih stands', hrow]
      constructor
      · intro h
        exact Or.inr h.2
      · intro h
        exact ⟨hstate', h.resolve_left hfits⟩

theorem groupLoop_alone (group : source.group = none) (keys : List (Option V)) (node : AggNod R V D)
    (cell : GroupCell V D) (record : R) (records : List R) :
    source.groupLoop keys [(node, cell)] (record :: records) =
      (node.put source.arith record cell).bind fun cell' =>
        if node.stops record cell then some ⟨2, records, keys, [(node, cell')]⟩
        else source.groupLoop keys [(node, cell')] records := by
  rw [groupLoop, group]
  unfold putItems putItems scanKeys
  dsimp only [Option.getD_none]
  cases node.put source.arith record cell with
  | none => rfl
  | some cell' => simp

/-- The node looks for the best value in a stream that has it first. -/
structure Indexed (source : GroupSource R V D) (node : AggNod R V D) (replaces : Int → Bool)
    (arg : R → Option V) : Prop where
  group : source.group = none
  map : source.map = [node]
  put : ∀ record cell, node.put source.arith record cell =
    AggNod.counted (AggNod.better source.arith replaces) (arg record) cell
  start : ∀ cell, node.start source.arith cell = { cell with vluxCount := 0, vluDesc := .none }
  finish : ∀ cell, node.finish source.arith cell = AggNod.nullUnlessCounted cell cell.vluDesc.field
  stops_none : ∀ record cell, cell.vluDesc = .none → node.stops record cell = false
  stops_other : ∀ record cell m, cell.vluDesc = .other m → node.stops record cell = (arg record).isSome
  sql : ∀ before run, node.sql source.arith before run =
    bestOf source.arith replaces (run.filterMap arg)
  keeps : ∀ run, node.Keeps source.arith run
  sorted : (source.records.filterMap arg).Pairwise fun v w =>
    replaces (source.arith.movCompare w v) = false

variable {node : AggNod R V D} {replaces : Int → Bool} {arg : R → Option V}

/-- There is a value, and no other replaces it. -/
theorem Indexed.loop_other (indexed : source.Indexed node replaces arg) (keys : List (Option V))
    (records : List R) (cell : GroupCell V D) {m : V} (desc : cell.vluDesc = .other m)
    (worse : ∀ v ∈ records.filterMap arg, replaces (source.arith.movCompare v m) = false) :
    ∃ st' cell', source.groupLoop keys [(node, cell)] records = some st' ∧ st'.state = 2 ∧
      st'.items = [(node, cell')] ∧ cell'.vluDesc = .other m ∧
      (cell'.vluxCount = cell.vluxCount ∨ cell'.vluxCount = cell.vluxCount + 1) := by
  induction records generalizing cell with
  | nil => exact ⟨_, cell, rfl, rfl, rfl, desc, Or.inl rfl⟩
  | cons record records ih =>
    rw [groupLoop_alone indexed.group, indexed.put, indexed.stops_other record cell m desc]
    cases hvalue : arg record with
    | none =>
      rw [List.filterMap_cons_none hvalue] at worse
      exact ih cell desc worse
    | some v =>
      rw [List.filterMap_cons_some hvalue] at worse
      have hworse := worse v List.mem_cons_self
      unfold AggNod.counted AggNod.better
      dsimp only
      rw [desc]
      dsimp only
      rw [hworse, if_neg Bool.false_ne_true]
      exact ⟨_, _, rfl, rfl, rfl, rfl, Or.inr rfl⟩

theorem bestOf_first (arith : GroupArith V D) {v : V} {values : List V}
    (worse : ∀ w ∈ values, replaces (arith.movCompare w v) = false) :
    (bestOf arith replaces (v :: values) : AggValue V D) = .other v := by
  unfold bestOf
  dsimp only
  congr 1
  induction values with
  | nil => rfl
  | cons w values ih =>
    rw [List.foldl_cons, worse w List.mem_cons_self, if_neg Bool.false_ne_true]
    exact ih fun w' mem => worse w' (List.mem_cons_of_mem w mem)

/-- There is no value yet. -/
theorem Indexed.loop_none (indexed : source.Indexed node replaces arg) (keys : List (Option V))
    (records : List R) (cell : GroupCell V D) (desc : cell.vluDesc = .none) (count : cell.vluxCount = 0)
    (sorted : (records.filterMap arg).Pairwise fun v w =>
      replaces (source.arith.movCompare w v) = false) :
    ∃ st' cell', source.groupLoop keys [(node, cell)] records = some st' ∧ st'.state = 2 ∧
      st'.items = [(node, cell')] ∧ (AggNod.nullUnlessCounted cell' cell'.vluDesc.field).field =
        bestOf source.arith replaces (records.filterMap arg) := by
  induction records generalizing cell with
  | nil =>
    refine ⟨_, cell, rfl, rfl, rfl, ?_⟩
    unfold AggNod.nullUnlessCounted
    dsimp only
    rw [if_pos count]
    rfl
  | cons record records ih =>
    rw [groupLoop_alone indexed.group, indexed.put, indexed.stops_none record cell desc]
    cases hvalue : arg record with
    | none =>
      rw [List.filterMap_cons_none hvalue] at sorted ⊢
      exact ih cell desc count sorted
    | some v =>
      rw [List.filterMap_cons_some hvalue] at sorted ⊢
      obtain ⟨hworse, -⟩ := List.pairwise_cons.mp sorted
      obtain ⟨st', cell', hloop, hstate, hitems, hdesc, hcount⟩ := indexed.loop_other keys records
        { cell with vluxCount := cell.vluxCount + 1, vluDesc := .other v } rfl hworse
      refine ⟨st', cell', ?_, hstate, hitems, ?_⟩
      · unfold AggNod.counted AggNod.better
        dsimp only
        rw [desc]
        exact hloop
      · rw [bestOf_first source.arith hworse]
        have hne : cell'.vluxCount ≠ 0 := by
          rw [count] at hcount
          rcases hcount with h | h
          · rw [h]
            exact (by decide : (0 : BitVec 32) + 1 ≠ 0)
          · rw [h]
            exact (by decide : (0 : BitVec 32) + 1 + 1 ≠ 0)
        unfold AggNod.nullUnlessCounted
        dsimp only
        rw [if_neg hne, hdesc]
        rfl

/-- The row of a whole stream, and then 0. -/
theorem followsSql_alone {run : List R} {st st' : GroupState R V D}
    (call : source.evlGroup st = some st') (state : st'.state = 2)
    (row : rowOf st'.items = sqlRow source.arith run st.items) : source.FollowsSql [run] st := by
  unfold FollowsSql
  rw [call]
  refine ⟨by rw [state]; decide, row, ?_⟩
  exact ⟨_, evlGroup_eof state, rfl⟩

theorem evlGroup_empty (group : source.group = none) (records : source.records = [])
    (blank : AggValue V D) : source.evlGroup (source.rseOpen blank) =
      some ⟨2, [], [], finishItems source.arith
        (startItems source.arith (source.rseOpen blank).items)⟩ := by
  have hstate : (source.rseOpen blank).state = 3 := rfl
  unfold evlGroup
  rw [hstate, if_neg (by decide)]
  dsimp only
  rw [if_pos (Or.inr rfl), records]
  dsimp only
  rw [if_neg (by rw [group]; exact Bool.false_ne_true)]
  rfl

theorem Indexed.follows (indexed : source.Indexed node replaces arg) (blank : AggValue V D) :
    source.FollowsSql source.runs (source.rseOpen blank) ∧ source.Spared source.runs := by
  have hruns : source.runs = [source.records] := by
    unfold runs
    rw [indexed.group]
  have hitems : (source.rseOpen blank).items = [(node, ⟨.none, 0, blank⟩)] := by
    unfold rseOpen
    rw [indexed.map]
    rfl
  have hstart : startItems source.arith (source.rseOpen blank).items =
      [(node, ⟨.none, 0, blank⟩)] := by
    rw [hitems, startItems, List.map_singleton, indexed.start]
  rw [hruns]
  constructor
  · have hsql : sqlRow source.arith source.records (source.rseOpen blank).items =
        [bestOf source.arith replaces (source.records.filterMap arg)] := by
      rw [hitems, sqlRow, List.map_singleton, indexed.sql]
    cases hrecords : source.records with
    | nil =>
      rw [hrecords] at hsql
      refine followsSql_alone (evlGroup_empty indexed.group hrecords blank) rfl ?_
      rw [hsql, hstart, finishItems, List.map_singleton, indexed.finish]
      rfl
    | cons record records =>
      obtain ⟨st', cell', hloop, hstate, hitems', hfield⟩ := indexed.loop_none
        (keysOf source.group record) source.records ⟨.none, 0, blank⟩ rfl rfl indexed.sorted
      have hcall := evlGroup_open (source.rseOpen blank) rfl hrecords
      rw [hstart, ← hrecords, hloop] at hcall
      rw [← hrecords]
      refine followsSql_alone hcall hstate ?_
      dsimp only
      rw [hsql, ← hfield, hitems', finishItems, List.map_singleton, indexed.finish]
      rfl
  · refine Or.inr ⟨?_, trivial⟩
    intro node' mem
    rw [indexed.map] at mem
    rw [List.mem_singleton.mp mem]
    exact indexed.keeps _

theorem indexed_min {arg : R → Option V} (mem : .min true arg ∈ source.map) :
    source.Indexed (.min true arg) (fun result => result < 0) arg := by
  obtain ⟨hmap, hgroup, hsorted⟩ := source.min_indexed arg mem
  refine ⟨hgroup, hmap, fun _ _ => rfl, fun _ => rfl, fun _ => rfl, ?_, ?_, fun _ _ => rfl,
    fun _ => Or.inl rfl, ?_⟩
  · intro record cell desc
    unfold AggNod.stops
    rw [desc]
  · intro record cell m desc
    unfold AggNod.stops
    rw [desc]
  · exact hsorted.imp fun h => decide_eq_false (by omega)

theorem indexed_max {arg : R → Option V} (mem : .max true arg ∈ source.map) :
    source.Indexed (.max true arg) (fun result => result > 0) arg := by
  obtain ⟨hmap, hgroup, hsorted⟩ := source.max_indexed arg mem
  refine ⟨hgroup, hmap, fun _ _ => rfl, fun _ => rfl, fun _ => rfl, ?_, ?_, fun _ _ => rfl,
    fun _ => Or.inl rfl, ?_⟩
  · intro record cell desc
    unfold AggNod.stops
    rw [desc]
  · intro record cell m desc
    unfold AggNod.stops
    rw [desc]
  · exact hsorted.imp fun h => decide_eq_false (by omega)

theorem rseOpen_nodes (blank : AggValue V D) :
    (source.rseOpen blank).items.map Prod.fst = source.map := by
  unfold rseOpen
  rw [List.map_map]
  exact List.map_id source.map

/-- Without a group, all records are in one run. -/
theorem runs_eq (h : source.records ≠ []) :
    source.runs = source.records.splitBy (sameKeys source.arith (source.group.getD [])) := by
  unfold runs
  cases source.group with
  | none =>
    refine (List.splitBy_of_isChain h ?_).symm
    refine (List.pairwise_iff_forall_sublist.mpr fun _ => ?_).isChain
    rfl
  | some group => rfl

theorem follows_records (unindexed : Unindexed source.map) (h : source.records ≠ [])
    (blank : AggValue V D) :
    source.FollowsSql source.runs (source.rseOpen blank) ↔ source.Spared source.runs := by
  obtain ⟨record, records, hrecords⟩ := List.exists_cons_of_ne_nil h
  apply followsSql_iff unindexed
  refine ⟨rseOpen_nodes blank, Or.inr ⟨record, records, ?_, evlGroup_open _ rfl hrecords⟩⟩
  rw [runs_eq h, hrecords]

theorem follows_empty (unindexed : Unindexed source.map) (h : source.records = [])
    (blank : AggValue V D) :
    source.FollowsSql source.runs (source.rseOpen blank) ↔ source.Spared source.runs := by
  cases hgroup : source.group with
  | some group =>
    have hruns : source.runs = [] := by
      unfold runs
      rw [hgroup, h]
      rfl
    rw [hruns]
    refine iff_of_true ?_ trivial
    refine ⟨⟨0, [], [], startItems source.arith (source.rseOpen blank).items⟩, ?_, rfl⟩
    have hstate : (source.rseOpen blank).state = 3 := rfl
    unfold evlGroup
    rw [hstate, if_neg (by decide)]
    dsimp only
    rw [if_pos (Or.inr rfl), h]
    dsimp only
    rw [if_pos (by rw [hgroup]; rfl)]
    rfl
  | none =>
    have hruns : source.runs = [[]] := by
      unfold runs
      rw [hgroup, h]
    have puts : ∀ item ∈ (source.rseOpen blank).items, item.1.PutsSql source.arith [] item.2 := by
      intro item mem
      obtain ⟨min, max⟩ := unindexed item.1 (rseOpen_nodes blank ▸ List.mem_map_of_mem mem)
      exact AggNod.putRun_putsSql source.arith item.1 [] item.2 min max
    have hsql := runItems_sql source.arith [] (source.rseOpen blank).items puts
    rw [rseOpen_nodes, runItems_nil] at hsql
    rcases hsql with ⟨-, hnone⟩ | ⟨hfits, items', hitems, -, hrow⟩
    · cases hnone
    · obtain rfl := Option.some.inj hitems
      rw [hruns]
      unfold FollowsSql Spared
      rw [evlGroup_empty hgroup h]
      dsimp only
      rw [hrow]
      constructor
      · intro h
        exact Or.inr ⟨h.2.1, trivial⟩
      · intro h
        exact ⟨by decide, (h.resolve_left hfits).1, _, evlGroup_eof rfl, rfl⟩

/-- Grouped aggregates are those of their runs, exactly where the longs of the nodes do: the counts,
and the sums of dialect 1. -/
theorem evlGroup_follows_sql_iff (source : GroupSource R V D) (blank : AggValue V D) :
    source.FollowsSql source.runs (source.rseOpen blank) ↔ source.Spared source.runs := by
  by_cases hmin : ∃ arg, .min true arg ∈ source.map
  · obtain ⟨arg, mem⟩ := hmin
    obtain ⟨hfollows, hspared⟩ := (indexed_min mem).follows blank
    exact iff_of_true hfollows hspared
  by_cases hmax : ∃ arg, .max true arg ∈ source.map
  · obtain ⟨arg, mem⟩ := hmax
    obtain ⟨hfollows, hspared⟩ := (indexed_max mem).follows blank
    exact iff_of_true hfollows hspared
  have unindexed : Unindexed source.map := by
    intro node mem
    constructor
    · rintro arg rfl
      exact hmin ⟨arg, mem⟩
    · rintro arg rfl
      exact hmax ⟨arg, mem⟩
  by_cases hempty : source.records = []
  · exact follows_empty unindexed hempty blank
  · exact follows_records unindexed hempty blank

end GroupSource

def groupArithExample : GroupArith Nat Nat where
  movCompare v w := (v : Int) - w
  movCompare_self := fun _ => Int.sub_self _
  ofInt := Int.toNat
  addDouble := fun a b => a + b
  divDouble := fun a b => a / b

theorem min_not_total (arg : BitVec 32 → Option Nat) (total : NumArg (BitVec 32) Nat 32) :
    AggNod.min true arg ∉ [AggNod.total total] := fun h => (nomatch List.mem_singleton.mp h)

theorem max_not_total (arg : BitVec 32 → Option Nat) (total : NumArg (BitVec 32) Nat 32) :
    AggNod.max true arg ∉ [AggNod.total total] := fun h => (nomatch List.mem_singleton.mp h)

/-- `SELECT SUM (X)` in dialect 1, with a SMALLINT `X` that is 32767 in each of `n` records. -/
def groupExample (n : Nat) : GroupSource (BitVec 32) Nat Nat where
  arith := groupArithExample
  records := List.replicate n 32767
  group := none
  map := [.total (.exact some)]
  min_indexed := fun arg h => absurd h (min_not_total arg _)
  max_indexed := fun arg h => absurd h (max_not_total arg _)

theorem sumOf_replicate (n : Nat) : sumOf (List.replicate n (32767 : BitVec 32)) = n * 32767 := by
  induction n with
  | zero => rfl
  | succ n ih =>
    rw [List.replicate_succ, AggNod.sumOf_cons, ih]
    have hvalue : (32767 : BitVec 32).toInt = 32767 := by decide
    omega

/-- The sum of 65539 such records is not what is returned, and there is no error. -/
theorem evlGroup_wraps :
    ¬ (groupExample 65539).FollowsSql (groupExample 65539).runs
      ((groupExample 65539).rseOpen .null) := by
  generalize hn : 65539 = n
  have unindexed : Unindexed (groupExample n).map := by
    intro node mem
    rw [show (groupExample n).map = [.total (.exact some)] from rfl] at mem
    rw [List.mem_singleton.mp mem]
    exact ⟨fun _ h => (nomatch h), fun _ h => (nomatch h)⟩
  have hrecords : (groupExample n).records ≠ [] := by
    intro h
    have hlength := congrArg List.length h
    rw [show (groupExample n).records = List.replicate n 32767 from rfl, List.length_replicate,
      ← hn] at hlength
    cases hlength
  rw [GroupSource.follows_records unindexed hrecords]
  intro h
  have hspared : (groupExample n).Spared [List.replicate n 32767] := h
  rcases hspared with ⟨node, mem, hover⟩ | ⟨hkeeps, -⟩
  · rw [show (groupExample n).map = [.total (.exact some)] from rfl] at mem
    rw [List.mem_singleton.mp mem] at hover
    exact hover
  · have hkeep := hkeeps _ (List.mem_singleton.mpr rfl)
    have hfits : FitsIn 32 (sumOf ((List.replicate n (32767 : BitVec 32)).filterMap some)) := hkeep.2
    rw [List.filterMap_some, sumOf_replicate, ← hn] at hfits
    exact absurd hfits (by decide)

end InterBase
