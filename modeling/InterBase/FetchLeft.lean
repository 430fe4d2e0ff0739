import InterBase.FindRsbs
import InterBase.Library.OuterJoin

namespace InterBase

variable {ρ : Type}

/-- The `rsb_left_cross`. A boolean is absent or gives true, false or unknown. `inner` is the source
below the boolean of the inner stream, if that is an `rsb_boolean`. -/
structure LeftCross (ρ : Type) where
  outer : RecordStream ρ
  inner : RecordStream ρ
  disjoint : ∀ s ∈ outer.streams, s ∉ inner.streams
  leftBoolean : Option (List (Option ρ) → Option Bool)
  innerBoolean : Option (List (Option ρ) → List (Option ρ) → Option Bool)
  streamBoolean : Option (List (Option ρ) → List (Option ρ) → Option Bool)
  /-- The join is a `blr_full`. -/
  isFull : Bool
  /-- `rel_current_format` of the streams that have a relation. -/
  rpbRelation : Nat → Option Nat
  /-- The contents of a new record block. -/
  blank : ρ
  /-- A read leaves a record block for a stream that has no relation: a union, an aggregate and a
  procedure do. -/
  outer_block : ∀ row rpbs, ∀ s ∈ outer.streams, rpbRelation s ≠ none ∨ outer.onGet row rpbs s ≠ none
  inner_block : ∀ row rpbs, ∀ s ∈ inner.streams, rpbRelation s ≠ none ∨ inner.onGet row rpbs s ≠ none

structure LeftState (ρ : Type) where
  irsbMustread : Bool
  irsbJoined : Bool
  irsbInOpened : Bool
  irsbJoinFull : Bool
  /-- The rows that the open streams have still to give. -/
  outerLeft : List (Row ρ)
  innerLeft : List (Row ρ)
  rpbs : Rpbs ρ

inductive Fetched (ρ : Type) where
  | true (state : LeftState ρ)
  | false (state : LeftState ρ)
  /-- `join_to_nulls` has neither a record block nor a relation for a stream. -/
  | missing
  /-- The loop has not come to an end. -/
  | running

/-- `VIO_record`. -/
def vioRecord (blank : ρ) (s format : Nat) (rpbs : Rpbs ρ) : Rpbs ρ :=
  let record := (rpbs s).getD ⟨none, none, blank⟩
  Function.update rpbs s (some { record with recFormat := some format })

namespace LeftCross

variable (j : LeftCross ρ)

/-- `RSB_LEFT_streams` -/
def leftStreams : List Nat := j.inner.rsb.found

/-- `RSB_LEFT_rsbs` -/
def leftRsbs : List (Nat × Nat) := (j.inner.rsb.findRsbs ⟨[], []⟩).rsbList

/-- `RSB_LEFT_inner_streams` -/
def leftInnerStreams : List Nat := if j.isFull then j.outer.rsb.found else []

def evlLeft (rpbs : Rpbs ρ) : Bool :=
  j.leftBoolean.all fun p => p (j.outer.streams.map (shown rpbs)) == some true

def evlBoth (boolean : Option (List (Option ρ) → List (Option ρ) → Option Bool)) (rpbs : Rpbs ρ) :
    Bool :=
  boolean.all fun p =>
    p (j.outer.streams.map (shown rpbs)) (j.inner.streams.map (shown rpbs)) == some true

def joinToNulls : List Nat → Rpbs ρ → Option (Rpbs ρ)
  | [], rpbs => some rpbs
  | s :: stack, rpbs =>
    match rpbs s with
    | some record =>
      joinToNulls stack (Function.update rpbs s
        (some { record with recFmtBk := record.recFormat, recFormat := none }))
    | none =>
      match j.rpbRelation s with
      | none => none
      | some format =>
        joinToNulls stack (Function.update rpbs s (some ⟨none, some format, j.blank⟩))

/-- `join_to_nulls` and `return TRUE`. -/
def returnNulls (streams : List Nat) (state : LeftState ρ) : Fetched ρ :=
  match j.joinToNulls streams state.rpbs with
  | none => .missing
  | some rpbs => .true { state with rpbs := rpbs }

/-- `RSE_open` of the join. -/
def rseOpen (rpbs : Rpbs ρ) : LeftState ρ where
  irsbMustread := true
  irsbJoined := false
  irsbInOpened := false
  irsbJoinFull := false
  outerLeft := j.outer.rows
  innerLeft := []
  rpbs := j.leftRsbs.foldl (fun rpbs rsb => vioRecord j.blank rsb.1 rsb.2 rpbs) (j.outer.onOpen rpbs)

/-- Read the inner stream until its boolean and the join boolean are true. -/
def matchInner : List (Row ρ) → Rpbs ρ → Option (List (Row ρ)) × Rpbs ρ
  | [], rpbs => (none, j.inner.onGet none rpbs)
  | row :: rows, rpbs =>
    let rpbs := j.inner.onGet (some row) rpbs
    if j.evlBoth j.streamBoolean rpbs ∧ j.evlBoth j.innerBoolean rpbs then (some rows, rpbs)
    else matchInner rows rpbs

/-- The loop over the outer stream for one inner record of a full join: whether one was found. -/
def findOuter : List (Row ρ) → Rpbs ρ → Bool × Rpbs ρ
  | [], rpbs => (false, j.outer.onGet none rpbs)
  | row :: rows, rpbs =>
    let rpbs := j.outer.onGet (some row) rpbs
    if j.evlLeft rpbs ∧ j.evlBoth j.innerBoolean rpbs ∧ j.evlBoth j.streamBoolean rpbs then (true, rpbs)
    else findOuter rows rpbs

/-- `do ... while (found)`. -/
def fullLoop : List (Row ρ) → LeftState ρ → Fetched ρ
  | [], state => .false { state with innerLeft := [], rpbs := j.inner.onGet none state.rpbs }
  | row :: rows, state =>
    let rpbs := j.inner.onGet (some row) state.rpbs
    let (found, rpbs) := j.findOuter j.outer.rows (j.outer.onOpen rpbs)
    let state := { state with innerLeft := rows, rpbs := rpbs }
    if found then fullLoop rows state else j.returnNulls j.leftInnerStreams state

/-- Continue with a full outer join. -/
def fetchFull (state : LeftState ρ) : Fetched ρ :=
  if state.irsbInOpened then j.fullLoop state.innerLeft state
  else
    match state.innerLeft with
    | [] => .false { state with rpbs := j.inner.onGet none state.rpbs }
    | row :: rows =>
      j.returnNulls j.leftInnerStreams
        { state with innerLeft := rows, rpbs := j.inner.onGet (some row) state.rpbs }

/-- Read the inner stream, and leave it when it is dry. -/
def readInner (again : LeftState ρ → Fetched ρ) (state : LeftState ρ) : Fetched ρ :=
  match j.matchInner state.innerLeft state.rpbs with
  | (some rows, rpbs) => .true { state with irsbJoined := true, innerLeft := rows, rpbs := rpbs }
  | (none, rpbs) =>
    let state := { state with innerLeft := [], irsbMustread := true, rpbs := rpbs }
    if state.irsbJoined then again state else j.returnNulls j.leftStreams state

/-- `while (TRUE)` of the left join, as often as `fuel` allows. -/
def leftLoop : Nat → LeftState ρ → Fetched ρ
  | 0, _ => .running
  | fuel + 1, state =>
    if state.irsbMustread then
      match state.outerLeft with
      | [] =>
        let rpbs := j.outer.onGet none state.rpbs
        if j.leftInnerStreams ≠ [] then
          j.fetchFull { state with
            irsbJoinFull := true
            innerLeft := j.inner.rows
            rpbs := j.inner.onOpen rpbs }
        else .false { state with rpbs := rpbs }
      | row :: rows =>
        let state := { state with outerLeft := rows, rpbs := j.outer.onGet (some row) state.rpbs }
        if j.evlLeft state.rpbs then
          j.readInner (leftLoop fuel) { state with
            irsbMustread := false
            irsbJoined := false
            irsbInOpened := true
            innerLeft := j.inner.rows
            rpbs := j.inner.onOpen state.rpbs }
        else j.returnNulls j.leftStreams state
    else j.readInner (leftLoop fuel) state

def fetchLeft (state : LeftState ρ) : Fetched ρ :=
  if state.irsbJoinFull then j.fetchFull state else j.leftLoop (state.outerLeft.length + 2) state

/-- What the streams show of a row, or of a null in its place. -/
def shownRow (source : RecordStream ρ) : Option (Row ρ) → List (Option ρ)
  | some row => source.streams.map row
  | none => source.streams.map fun _ => none

/-- What the caller sees when `fetch_left` returns. -/
def output (state : LeftState ρ) : List (Option ρ) × List (Option ρ) :=
  (j.outer.streams.map (shown state.rpbs), j.inner.streams.map (shown state.rpbs))

/-- Calls until one returns `FALSE`, as many as `n`. -/
def fetchAll : Nat → LeftState ρ → Option (List (List (Option ρ) × List (Option ρ)))
  | 0, _ => none
  | n + 1, state =>
    match j.fetchLeft state with
    | .true state => (fetchAll n state).map fun rows => j.output state :: rows
    | .false _ => some []
    | _ => none

/-- All booleans that apply to the two rows are true. -/
def on (o i : Row ρ) : Bool :=
  (j.leftBoolean.all fun p => p (shownRow j.outer (some o)) == some true) &&
    (j.innerBoolean.all fun p => p (shownRow j.outer (some o)) (shownRow j.inner (some i)) == some true) &&
    j.streamBoolean.all fun p => p (shownRow j.outer (some o)) (shownRow j.inner (some i)) == some true

/-- The join by its definition. -/
def joinRows : List (List (Option ρ) × List (Option ρ)) :=
  if j.isFull then
    (OuterJoin.fullJoin j.on j.outer.rows j.inner.rows).map fun row =>
      (shownRow j.outer row.1, shownRow j.inner row.2)
  else
    (OuterJoin.leftJoin j.on j.outer.rows j.inner.rows).map fun row =>
      (shownRow j.outer (some row.1), shownRow j.inner row.2)

end LeftCross

end InterBase
