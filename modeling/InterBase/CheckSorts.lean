import InterBase.Library.SortList

namespace InterBase.Opt

/-- A node of a list of fields: a field, or an expression with what lies in its first two
arguments. -/
inductive Nod where
  | field (fldStream fldId : Nat)
  | other (arg0 arg1 : Nat)
deriving Repr, DecidableEq

/-- The list of an ORDER BY, DISTINCT or GROUP BY, with a flag for each field behind the fields; it
is set in descending order. -/
structure Clause where
  args : List Nod
  flags : List Bool
  flags_length : flags.length = args.length

namespace Clause

def count (c : Clause) : Nat := c.args.length

/-- The columns of the list with their directions. -/
def entries (c : Clause) : List (Nod × Bool) := c.args.zip c.flags

end Clause

/-- The assignments of a map: from where, to what. -/
abbrev NodMap := List (Nod × Nod)

/-- Whether the map assigns the first field to the second. -/
def mapEqual (field1 field2 : Nod) (map : NodMap) : Bool :=
  match field1, field2 with
  | .field stream1 id1, .field stream2 id2 =>
    map.any fun m =>
      match m with
      | (.field fromStream fromId, .field toStream toId) =>
        stream1 = fromStream && id1 = fromId && stream2 = toStream && id2 = toId
      | _ => false
  | _, _ => false

/-- Both are fields, of the same stream and with the same id. -/
def sameField : Nod → Nod → Bool
  | .field stream1 id1, .field stream2 id2 => stream1 = stream2 && id1 = id2
  | _, _ => false

/-- `set_position` compares the arguments without a look at the type of the second node. -/
def sameArgs : Nod → Nod → Bool
  | .field stream1 id1, .field stream2 id2 => stream1 = stream2 && id1 = id2
  | .field stream1 id1, .other arg0 arg1 => stream1 = arg0 && id1 = arg1
  | .other arg0 arg1, .field stream2 id2 => arg0 = stream2 && arg1 = id2
  | .other arg0 arg1, .other arg0' arg1' => arg0 = arg0' && arg1 = arg1'

/-- The first flags become those of the other list. -/
def setDirection (fromClause toClause : Clause) (h : fromClause.count ≤ toClause.count) : Clause where
  args := toClause.args
  flags := fromClause.flags ++ toClause.flags.drop fromClause.count
  flags_length := by
    have := fromClause.flags_length
    have := toClause.flags_length
    unfold Clause.count at *
    rw [List.length_append, List.length_drop]
    omega

/-- Whether a field of the list goes to the place of a field of the other one. -/
def corresponds (map : Option NodMap) (fromNod toNod : Nod) : Bool :=
  match map with
  | some map => mapEqual toNod fromNod map
  | none => sameArgs fromNod toNod

/-- For each field of the other list in turn, the fields that are found for it among the first ones
are exchanged with the one in its place. -/
def setPosition (fromClause toClause : Clause) (map : Option NodMap) : Clause where
  args := SortList.arrange (corresponds map) fromClause.count fromClause.args 0 toClause.args
  flags := toClause.flags
  flags_length := by rw [(SortList.arrange_perm _ _ _ _ _).length_eq, toClause.flags_length]

/-- An aggregate with a GROUP BY. -/
structure Aggregate where
  group : Clause
  map : NodMap

/-- Every field of the DISTINCT is mapped from one of the GROUP BY, and there are as many. -/
def Aggregate.takesProject (agg : Aggregate) (project : Clause) : Bool :=
  project.count = agg.group.count &&
    project.args.all fun p => agg.group.args.any fun g => mapEqual g p agg.map

/-- Every field of the ORDER BY is mapped from one of the first ones of the GROUP BY. -/
def Aggregate.takesSort (agg : Aggregate) (sort : Clause) : Bool :=
  sort.count ≤ agg.group.count &&
    sort.args.all fun s => (agg.group.args.take sort.count).any fun g => mapEqual g s agg.map

/-- Every field of the ORDER BY is one of the first ones of the DISTINCT. -/
def Clause.takesSort (project sort : Clause) : Bool :=
  sort.count ≤ project.count &&
    sort.args.all fun s => (project.args.take sort.count).any fun p => sameField s p

/-- The lists of a record selection expression; the aggregate is there if its only relation is one
with a GROUP BY. -/
structure Rse where
  sorted : Option Clause
  projection : Option Clause
  relation : Option Aggregate

theorem Aggregate.takesProject_count {agg : Aggregate} {project : Clause}
    (h : agg.takesProject project = true) : project.count ≤ agg.group.count := by
  rw [takesProject, Bool.and_eq_true, decide_eq_true_eq] at h
  exact h.1.le

theorem Aggregate.takesSort_count (agg : Aggregate) {sort : Clause}
    (h : agg.takesSort sort = true) : sort.count ≤ agg.group.count := by
  rw [takesSort, Bool.and_eq_true, decide_eq_true_eq] at h
  exact h.1

theorem Clause.takesSort_count {project sort : Clause} (h : project.takesSort sort = true) :
    sort.count ≤ project.count := by
  rw [takesSort, Bool.and_eq_true, decide_eq_true_eq] at h
  exact h.1

/-- The DISTINCT is dropped if the GROUP BY has all of its fields. -/
def checkProject (rse : Rse) : Rse :=
  match rse.projection, rse.relation with
  | some project, some agg =>
    if h : agg.takesProject project = true then
      { rse with
        projection := none
        relation := some
          { agg with group := setDirection project agg.group (agg.takesProject_count h) } }
    else rse
  | _, _ => rse

/-- If there is no DISTINCT, the ORDER BY is dropped if the GROUP BY begins with its fields. -/
def checkSort (rse : Rse) : Rse :=
  match rse.sorted, rse.projection, rse.relation with
  | some sort, none, some agg =>
    if h : agg.takesSort sort = true then
      { rse with
        sorted := none
        relation := some
          { agg with group := setPosition sort (setDirection sort agg.group (agg.takesSort_count h))
                                (some agg.map) } }
    else rse
  | _, _, _ => rse

/-- The ORDER BY is dropped if the DISTINCT begins with its fields. -/
def checkSortOfProject (rse : Rse) : Rse :=
  match rse.sorted, rse.projection with
  | some sort, some project =>
    if h : project.takesSort sort = true then
      { rse with
        sorted := none
        projection := some
          (setPosition sort (setDirection sort project (project.takesSort_count h)) none) }
    else rse
  | _, _ => rse

def checkSorts (rse : Rse) : Rse := checkSortOfProject (checkSort (checkProject rse))

section

variable {V : Type}

/-- What is assigned to a node of the aggregate: the last assignment holds. -/
def source (map : NodMap) (n : Nod) : Option Nod :=
  (map.reverse.find? fun m => m.2 = n).map Prod.fst

/-- The row that the aggregate makes of a row of its group. -/
def Rse.outer (rse : Rse) (row : Nod → V) (n : Nod) : V :=
  match rse.relation with
  | some agg => (source agg.map n).elim (row n) row
  | none => row n

variable [LinearOrder V]

/-- The order in which the rows come: that of the DISTINCT, or that of the GROUP BY. -/
def Rse.Delivers (rse : Rse) (rows : List (Nod → V)) : Prop :=
  match rse.projection with
  | some project => SortList.Sorted project.entries (rows.map rse.outer)
  | none =>
    match rse.relation with
    | some agg => SortList.Sorted agg.group.entries rows
    | none => True

/-- Where the ORDER BY is dropped, the rows come in its order. -/
def SortSafe (V : Type) [LinearOrder V] (rse : Rse) : Prop :=
  ∀ sort, rse.sorted = some sort → (checkSorts rse).sorted = none →
    ∀ rows : List (Nod → V), (checkSorts rse).Delivers rows →
      SortList.Sorted sort.entries (rows.map rse.outer)

/-- Where the DISTINCT is dropped, rows with the same fields come from one group. -/
def ProjectSafe (V : Type) (rse : Rse) : Prop :=
  ∀ project, rse.projection = some project → (checkSorts rse).projection = none →
    ∀ agg, rse.relation = some agg → ∀ a b : Nod → V,
      (∀ x ∈ project.args, rse.outer a x = rse.outer b x) → ∀ g ∈ agg.group.args, a g = b g

/-- The lists that are kept have the fields they had. -/
def FieldsKept (rse : Rse) : Prop :=
  (∀ project, (checkSorts rse).projection = some project →
    ∃ project', rse.projection = some project' ∧ project.args.Perm project'.args) ∧
  ∀ agg, (checkSorts rse).relation = some agg →
    ∃ agg', rse.relation = some agg' ∧ agg.map = agg'.map ∧
      agg.group.args.Perm agg'.group.args

def Safe (V : Type) [LinearOrder V] (rse : Rse) : Prop :=
  SortSafe V rse ∧ ProjectSafe V rse ∧ FieldsKept rse

end

end InterBase.Opt
