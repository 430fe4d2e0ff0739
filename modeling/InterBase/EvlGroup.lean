import Mathlib.Data.List.Basic
import Mathlib.Tactic.Common

namespace InterBase

/-- `MOV_compare`, which finds a value equal to itself, and the arithmetic of doubles. -/
structure GroupArith (V D : Type) where
  movCompare : V → V → Int
  movCompare_self : ∀ v, movCompare v v = 0
  ofInt : Int → D
  addDouble : D → D → D
  divDouble : D → D → D

/-- The argument of a sum, as `MOV_get_long` and `MOV_get_int64` give it at the scale of the node, or
`MOV_get_double` where the node is flagged `nod_double`. -/
inductive NumArg (R D : Type) (w : Nat) where
  | exact (arg : R → Option (BitVec w))
  | double (arg : R → Option D)

/-- What a map assigns from. `total` and `average` are those of dialect 1. -/
inductive AggNod (R V D : Type) where
  | min (indexed : Bool) (arg : R → Option V)
  | max (indexed : Bool) (arg : R → Option V)
  | total (arg : NumArg R D 32)
  | total2 (arg : NumArg R D 64)
  | average (arg : R → Option D)
  | average2 (arg : NumArg R D 64)
  | count
  | count2 (arg : R → Option V)
  | literal (value : Option V)
  | other (expr : R → Option V)

/-- `vlu_desc` with the value that it describes. -/
inductive VluDesc (V D : Type) where
  | none
  | long (value : BitVec 32)
  | int64 (value : BitVec 64)
  | double (value : D)
  | other (value : V)

/-- A field of the aggregate record. -/
inductive AggValue (V D : Type) where
  | null
  | number (value : Int)
  | double (value : D)
  | other (value : V)

/-- The impure area of a node, and the field that it is assigned to. -/
structure GroupCell (V D : Type) where
  vluDesc : VluDesc V D
  vluxCount : BitVec 32
  field : AggValue V D

section

variable {R V D : Type}

def AggValue.ofOption : Option V → AggValue V D
  | none => .null
  | some value => .other value

def VluDesc.field : VluDesc V D → AggValue V D
  | .none => .null
  | .long value => .number value.toInt
  | .int64 value => .number value.toInt
  | .double value => .double value
  | .other value => .other value

/-- The sums of dialect 1 without `nod_double` are longs throughout. -/
def movGetLong : VluDesc V D → BitVec 32
  | .long value => value
  | _ => 0

/-- The sums of dialect 3 without `nod_double` are int64s throughout. -/
def movGetInt64 : VluDesc V D → BitVec 64
  | .int64 value => value
  | _ => 0

/-- A sum with `nod_double` starts as an integer and is a double after the first addition. -/
def movGetDouble (arith : GroupArith V D) : VluDesc V D → D
  | .long value => arith.ofInt value.toInt
  | .int64 value => arith.ofInt value.toInt
  | .double value => value
  | _ => arith.ofInt 0

def addDouble (arith : GroupArith V D) (d1 : D) (value : VluDesc V D) : VluDesc V D :=
  .double (arith.addDouble d1 (movGetDouble arith value))

def add (l1 : BitVec 32) (value : VluDesc V D) : VluDesc V D := .long (l1 + movGetLong value)

/-- The sign bits tell the overflow. -/
def add2 (i1 : BitVec 64) (value : VluDesc V D) : Option (VluDesc V D) :=
  let i2 := movGetInt64 value
  let sum := i1 + i2
  if (i1 ^^^ i2).msb = false ∧ (i1 ^^^ sum).msb = true then none else some (.int64 sum)

namespace AggNod

variable (arith : GroupArith V D)

/-- Initialize the aggregate record. -/
def start (node : AggNod R V D) (cell : GroupCell V D) : GroupCell V D :=
  match node with
  | .min _ _ => { cell with vluxCount := 0, vluDesc := .none }
  | .max _ _ => { cell with vluxCount := 0, vluDesc := .none }
  | .total _ => { cell with vluxCount := 0, vluDesc := .long 0 }
  | .total2 _ => { cell with vluxCount := 0, vluDesc := .int64 0 }
  | .average _ => { cell with vluxCount := 0, vluDesc := .double (arith.ofInt 0) }
  | .average2 _ => { cell with vluxCount := 0, vluDesc := .int64 0 }
  | .count => { cell with vluxCount := 0, vluDesc := .long 0 }
  | .count2 _ => { cell with vluxCount := 0, vluDesc := .long 0 }
  | .literal value => { cell with vluxCount := 0, field := .ofOption value }
  | .other _ => { cell with vluxCount := 0 }

/-- `++vlux_count` and what is behind it, for a value that is not null. -/
def counted {α : Type} (step : α → VluDesc V D → Option (VluDesc V D)) (value : Option α)
    (cell : GroupCell V D) : Option (GroupCell V D) :=
  match value with
  | none => some cell
  | some v => (step v cell.vluDesc).map fun desc =>
      { cell with vluxCount := cell.vluxCount + 1, vluDesc := desc }

def better (replaces : Int → Bool) (v : V) : VluDesc V D → Option (VluDesc V D)
  | .other m => some (.other (if replaces (arith.movCompare v m) then v else m))
  | _ => some (.other v)

def addTotal : NumArg R D 32 → R → GroupCell V D → Option (GroupCell V D)
  | .exact arg, record => counted (fun l1 value => some (add l1 value)) (arg record)
  | .double arg, record => counted (fun d1 value => some (addDouble arith d1 value)) (arg record)

def addTotal2 : NumArg R D 64 → R → GroupCell V D → Option (GroupCell V D)
  | .exact arg, record => counted add2 (arg record)
  | .double arg, record => counted (fun d1 value => some (addDouble arith d1 value)) (arg record)

/-- Compute the aggregate on a record; `none` is an integer overflow. -/
def put (node : AggNod R V D) (record : R) (cell : GroupCell V D) : Option (GroupCell V D) :=
  match node with
  | .min _ arg => counted (better arith (fun result => result < 0)) (arg record) cell
  | .max _ arg => counted (better arith (fun result => result > 0)) (arg record) cell
  | .total arg => addTotal arith arg record cell
  | .total2 arg => addTotal2 arith arg record cell
  | .average arg => counted (fun d1 value => some (addDouble arith d1 value)) (arg record) cell
  | .average2 arg => addTotal2 arith arg record cell
  | .count => some { cell with
      vluxCount := cell.vluxCount + 1, vluDesc := .long (movGetLong cell.vluDesc + 1) }
  | .count2 arg =>
    match arg record with
    | none => some { cell with vluxCount := cell.vluxCount + 1 }
    | some _ => some { cell with
        vluxCount := cell.vluxCount + 2, vluDesc := .long (movGetLong cell.vluDesc + 1) }
  | .literal value => some { cell with field := .ofOption value }
  | .other expr => some { cell with field := .ofOption (expr record) }

/-- A max or min has been mapped to an index: the second value that is not null is the eof. -/
def stops (node : AggNod R V D) (record : R) (cell : GroupCell V D) : Bool :=
  match node, cell.vluDesc with
  | .min true arg, .other _ => (arg record).isSome
  | .max true arg, .other _ => (arg record).isSome
  | _, _ => false

def nullUnlessCounted (cell : GroupCell V D) (field : AggValue V D) : GroupCell V D :=
  { cell with field := if cell.vluxCount = 0 then .null else field }

/-- Finish up any residual computations. -/
def finish (node : AggNod R V D) (cell : GroupCell V D) : GroupCell V D :=
  match node with
  | .min _ _ => nullUnlessCounted cell cell.vluDesc.field
  | .max _ _ => nullUnlessCounted cell cell.vluDesc.field
  | .total _ => nullUnlessCounted cell cell.vluDesc.field
  | .total2 _ => nullUnlessCounted cell cell.vluDesc.field
  | .count => { cell with field := cell.vluDesc.field }
  | .count2 _ => { cell with field := cell.vluDesc.field }
  | .average _ => nullUnlessCounted cell
      (.double (arith.divDouble (movGetDouble arith cell.vluDesc) (arith.ofInt cell.vluxCount.toInt)))
  | .average2 _ =>
    match cell.vluDesc with
    | .int64 sum => nullUnlessCounted cell (.number (sum.toInt.tdiv cell.vluxCount.toInt))
    | desc => nullUnlessCounted cell
        (.double (arith.divDouble (movGetDouble arith desc) (arith.ofInt cell.vluxCount.toInt)))
  | .literal _ => cell
  | .other _ => cell

end AggNod

/-- The nodes of a map with their cells. -/
abbrev GroupItems (R V D : Type) := List (AggNod R V D × GroupCell V D)

def startItems (arith : GroupArith V D) (items : GroupItems R V D) : GroupItems R V D :=
  items.map fun item => (item.1, item.1.start arith item.2)

def putItems (arith : GroupArith V D) (record : R) : GroupItems R V D → Option (GroupItems R V D)
  | [] => some []
  | item :: items =>
    (item.1.put arith record item.2).bind fun cell =>
      (putItems arith record items).map fun items => (item.1, cell) :: items

def finishItems (arith : GroupArith V D) (items : GroupItems R V D) : GroupItems R V D :=
  items.map fun item => (item.1, item.1.finish arith item.2)

/-- Two values of a key differ, unless both are null. -/
def keyChange (arith : GroupArith V D) : Option V → Option V → Bool
  | none, none => false
  | some v, some v' => arith.movCompare v v' != 0
  | _, _ => true

/-- Look for a change in value of any of the columns. The saved values are written over as far as the
first column that changes. -/
def scanKeys (arith : GroupArith V D) (record : R) :
    List (R → Option V) → List (Option V) → Bool × List (Option V)
  | key :: group, saved :: keys =>
    if keyChange arith saved (key record) then (true, key record :: keys)
    else ((scanKeys arith record group keys).1, key record :: (scanKeys arith record group keys).2)
  | _, keys => (false, keys)

/-- What an aggregate is computed from. The records are those that its stream gives after each
`RSE_open`. A max or min is mapped to an index only where it is alone and the stream is in the order of
the index. -/
structure GroupSource (R V D : Type) where
  arith : GroupArith V D
  records : List R
  group : Option (List (R → Option V))
  map : List (AggNod R V D)
  min_indexed : ∀ arg, .min true arg ∈ map → map = [.min true arg] ∧ group = none ∧
    (records.filterMap arg).Pairwise fun v w => 0 ≤ arith.movCompare w v
  max_indexed : ∀ arg, .max true arg ∈ map → map = [.max true arg] ∧ group = none ∧
    (records.filterMap arg).Pairwise fun v w => arith.movCompare w v ≤ 0

/-- What there is between two calls: the state that the last one returned, the current record of the
stream with those that are still to come, the saved keys and the aggregate record. -/
structure GroupState (R V D : Type) where
  state : Nat
  pending : List R
  keys : List (Option V)
  items : GroupItems R V D

namespace GroupSource

variable (source : GroupSource R V D)

def keysOf : Option (List (R → Option V)) → R → List (Option V)
  | none, _ => []
  | some group, record => group.map fun key => key record

/-- Loop thru records until either a value change or EOF. -/
def groupLoop (keys : List (Option V)) (items : GroupItems R V D) :
    List R → Option (GroupState R V D)
  | [] => some ⟨2, [], keys, items⟩
  | record :: records =>
    let scanned := scanKeys source.arith record (source.group.getD []) keys
    if scanned.1 then some ⟨1, record :: records, scanned.2, items⟩
    else
      (putItems source.arith record items).bind fun items' =>
        if items.any fun item => item.1.stops record item.2 then
          some ⟨2, records, scanned.2, items'⟩
        else groupLoop scanned.2 items' records

/-- `EVL_group`; `none` is an error. -/
def evlGroup (st : GroupState R V D) : Option (GroupState R V D) :=
  if st.state = 2 then some { st with state := 0 }
  else
    let items := startItems source.arith st.items
    let pending := if st.state = 0 ∨ st.state = 3 then source.records else st.pending
    match pending with
    | [] =>
      if source.group.isSome then some { st with state := 0, pending := [], items := items }
      else some ⟨2, [], st.keys, finishItems source.arith items⟩
    | record :: records =>
      (source.groupLoop (keysOf source.group record) items (record :: records)).map fun st =>
        { st with items := finishItems source.arith st.items }

/-- `RSE_open`, with the new record. -/
def rseOpen (blank : AggValue V D) : GroupState R V D :=
  ⟨3, [], [], source.map.map fun node => (node, ⟨.none, 0, blank⟩)⟩

end GroupSource

end

end InterBase
