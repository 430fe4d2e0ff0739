import InterBase.Evl

namespace InterBase

section

variable {Env α : Type} (movCompare : α → α → Int)

def Evaluated.value (v : Evaluated α) : Option α := if v.null then none else v.desc

/-- How two values compare, unless one of them is null. Where the transaction itself has updated the
record, its version equals what it is compared with. -/
def comparisonOf (first second : Expr Env α) (env : Env) : Option Int :=
  (first.evaluate env).value.bind fun x => (second.evaluate env).value.map fun y =>
    if first.isRecVersion && ((first.evaluate env).sameTxUpd || (second.evaluate env).sameTxUpd)
    then 0 else movCompare x y

/-- How a value compares with the upper bound that it is to be below. -/
def upperComparison (value upper : Expr Env α) (env : Env) : Option Int :=
  (value.evaluate env).value.bind fun x => (upper.evaluate env).value.map (movCompare x)

def judged (op : Comparison) (comparison : Option Int) : Kleene :=
  comparison.elim .unknown fun c => .ofBool (op.holds c)

def truth : Nod Env α → Env → Kleene
  | .and first second, env => (truth first env).and (truth second env)
  | .or first second, env => (truth first env).or (truth second env)
  | .not node, env => (truth node env).not
  | .comparison op first second, env => judged op (comparisonOf movCompare first second env)
  | .between value lower upper, env =>
    (judged .geq (comparisonOf movCompare value lower env)).and
      (judged .leq (upperComparison movCompare value upper env))
  | .missing value, env => .ofBool (value.evaluate env).null
  | .unique _ records, env => .ofBool ((records env).length == 1)
  | .uniqueBoolean _ records node, env =>
    .ofBool ((records env).countP (fun record => truth node record = .true) == 1)

/-- The records behind the first one for which the stream's boolean is true. -/
def recordsAfter (judge : Env → Kleene) : List Env → Option (List Env)
  | [] => none
  | record :: records =>
    if judge record = .true then some records else recordsAfter judge records

/-- Whether the null flag is set when a record has been got, or there was none: a record was passed
on which the boolean is unknown, or none was read and the flag was set before. -/
def nullAfter (judge : Env → Kleene) (null : Bool) : List Env → Bool
  | [] => null
  | record :: records =>
    match judge record with
    | .true => false
    | .unknown => true
    | .false => nullAfter judge false records

/-- The null flag that `nod_unique` leaves. -/
def uniqueNull (judge : Env → Kleene) (null : Bool) (records : List Env) : Bool :=
  match recordsAfter judge records with
  | none => nullAfter judge null records
  | some rest => nullAfter judge (nullAfter judge null records) rest

/-- A between goes wrong where the lower bound is null and the upper one below the value, and where
the value has reached the lower bound and the upper one is null: unless what that left behind happens
to be below the value. -/
def Misjudged (value lower upper : Expr Env α) (env : Env) : Prop :=
  (comparisonOf movCompare value lower env = none ∧
    judged .leq (upperComparison movCompare value upper env) = .false) ∨
  (judged .geq (comparisonOf movCompare value lower env) = .true ∧
    (upper.evaluate env).null = true ∧
    ∀ x stale, (value.evaluate env).desc = some x → (upper.evaluate env).desc = some stale →
      movCompare x stale ≤ 0)

/-- The records that are read until one is got for which the stream's boolean is true. -/
def recordsRead (judge : Env → Kleene) : List Env → List Env
  | [] => []
  | record :: records =>
    if judge record = .true then [record] else record :: recordsRead judge records

/-- The offsets of the invariant nodes that have been computed. -/
def EvlRequest.known (request : EvlRequest) (offset : Nat) : Bool := (request.impure offset).isSome

def isKnown (invariant : Option Nat) (known : Nat → Bool) : Bool := invariant.elim false known

def learn (invariant : Option Nat) (known : Nat → Bool) : Nat → Bool :=
  match invariant with
  | none => known
  | some offset => Function.update known offset true

/-- The invariant nodes that have been computed after an evaluation before which the `known` ones
were. -/
def learns : Nod Env α → Env → (Nat → Bool) → (Nat → Bool)
  | .and first second, env, known => learns second env (learns first env known)
  | .or first second, env, known => learns second env (learns first env known)
  | .not node, env, known => learns node env known
  | .comparison _ _ _, _, known => known
  | .between _ _ _, _, known => known
  | .missing _, _, known => known
  | .unique invariant _, _, known => learn invariant known
  | .uniqueBoolean invariant records node, env, known =>
    if isKnown invariant known then known
    else
      let judge := truth movCompare node
      let read := recordsRead judge (records env) ++
        (recordsAfter judge (records env)).elim [] (recordsRead judge)
      learn invariant (read.foldl (fun known record => learns node record known) known)

/-- The evaluations of the records that are read until one is got. -/
def RowsSound (sound : Bool → (Nat → Bool) → Env → Prop) (learnt : Env → (Nat → Bool) → Nat → Bool)
    (judge : Env → Kleene) : Bool → (Nat → Bool) → List Env → Prop
  | _, _, [] => True
  | null, known, record :: records => sound null known record ∧
    (judge record ≠ .true →
      RowsSound sound learnt judge (judge record = .unknown) (learnt record known) records)

/-- What an evaluation before which the null flag was `null` and the `known` invariant nodes were
computed is spared of: it comes to no between that goes wrong, and to no unique that leaves the null
flag behind, unless that is true and its null flag is looked at by nobody. `kept` tells whether
somebody looks at the null flag behind `TRUE`. -/
def Sound : Bool → Bool → (Nat → Bool) → Nod Env α → Env → Prop
  | _, null, known, .and first second, env => Sound false null known first env ∧
    Sound false false (learns movCompare first env known) second env
  | _, null, known, .or first second, env => Sound false null known first env ∧
    Sound false false (learns movCompare first env known) second env
  | _, null, known, .not node, env => Sound true null known node env
  | _, _, _, .comparison _ _ _, _ => True
  | _, _, _, .between value lower upper, env => ¬Misjudged movCompare value lower upper env
  | _, _, _, .missing _, _ => True
  | kept, null, known, .unique invariant records, env => isKnown invariant known = true ∨
    null = false ∨ (kept || invariant.isSome) = false ∧
      truth movCompare (.unique invariant records : Nod Env α) env = .true
  | kept, null, known, .uniqueBoolean invariant records node, env =>
    isKnown invariant known = true ∨
    RowsSound (fun null known record => Sound true null known node record) (learns movCompare node)
      (truth movCompare node) null known (records env) ∧
    (∀ rest, recordsAfter (truth movCompare node) (records env) = some rest →
      RowsSound (fun null known record => Sound true null known node record)
        (learns movCompare node) (truth movCompare node)
        (nullAfter (truth movCompare node) null (records env))
        ((recordsRead (truth movCompare node) (records env)).foldl
          (fun known record => learns movCompare node record known) known) rest) ∧
    (uniqueNull (truth movCompare node) null (records env) = false ∨
      (kept || invariant.isSome) = false ∧
        truth movCompare (.uniqueBoolean invariant records node) env = .true)

section

variable (invariantTruth : Nat → Kleene)

/-- Invariant nodes have one truth value, wherever they are evaluated. -/
def Nod.Invariant : Nod Env α → Prop
  | .and first second => first.Invariant ∧ second.Invariant
  | .or first second => first.Invariant ∧ second.Invariant
  | .not node => node.Invariant
  | .comparison _ _ _ => True
  | .between _ _ _ => True
  | .missing _ => True
  | .unique invariant records => ∀ offset, invariant = some offset →
    ∀ env, truth movCompare (.unique invariant records : Nod Env α) env = invariantTruth offset
  | .uniqueBoolean invariant records node => node.Invariant ∧ ∀ offset, invariant = some offset →
    ∀ env, truth movCompare (.uniqueBoolean invariant records node) env = invariantTruth offset

/-- The invariant nodes that have been computed have their value, and were not null. -/
def EvlRequest.Ready (request : EvlRequest) : Prop :=
  ∀ offset computed, request.impure offset = some computed →
    computed = (decide (invariantTruth offset = .true), false)

end

/-- `TRUE` is returned exactly for what is true, and the null flag is set exactly for what is unknown
after `FALSE`, and after `TRUE` as well if it is `kept`. -/
def NodAnswered (kept : Bool) (evaluated : Except EvlFault (Bool × EvlRequest)) (t : Kleene) : Prop :=
  ∃ value request, evaluated = .ok (value, request) ∧ (value = true ↔ t = .true) ∧
    ((value = true → kept = true) → (request.reqNull = true ↔ t = .unknown))

/-- `TRUE` is returned exactly for what is true, and after `FALSE` the null flag is set exactly for
what is unknown. -/
def Answers (evaluated : Except EvlFault (Bool × EvlRequest)) (t : Kleene) : Prop :=
  NodAnswered false evaluated t

/-- What holds of the evaluations of the records that are read until one is got. -/
def RowsAnswered (answered : Env → EvlRequest → Prop)
    (test : Env → EvlRequest → Except EvlFault (Bool × EvlRequest)) : List Env → EvlRequest → Prop
  | [], _ => True
  | record :: records, request => answered record request ∧
    ∀ tested, test record request = .ok tested → tested.1 = false →
      RowsAnswered answered test records tested.2

/-- All that an evaluation comes to is answered, the tree itself and its parts one by one. -/
def PartsAnswered : Bool → Nod Env α → Env → EvlRequest → Prop
  | kept, .and first second, env, request =>
    NodAnswered kept (evlBoolean movCompare (.and first second) env request)
      (truth movCompare (.and first second) env) ∧
    PartsAnswered false first env request ∧
    ∀ value, evlBoolean movCompare first env request = .ok value →
      PartsAnswered false second env { value.2 with reqNull := false }
  | kept, .or first second, env, request =>
    NodAnswered kept (evlBoolean movCompare (.or first second) env request)
      (truth movCompare (.or first second) env) ∧
    PartsAnswered false first env request ∧
    ∀ value, evlBoolean movCompare first env request = .ok value →
      PartsAnswered false second env { value.2 with reqNull := false }
  | kept, .not node, env, request =>
    NodAnswered kept (evlBoolean movCompare (.not node) env request)
      (truth movCompare (.not node) env) ∧ PartsAnswered true node env request
  | kept, .comparison op first second, env, request =>
    NodAnswered kept (evlBoolean movCompare (.comparison op first second) env request)
      (truth movCompare (.comparison op first second) env)
  | kept, .between value lower upper, env, request =>
    NodAnswered kept (evlBoolean movCompare (.between value lower upper) env request)
      (truth movCompare (.between value lower upper) env)
  | kept, .missing value, env, request =>
    NodAnswered kept (evlBoolean movCompare (.missing value) env request)
      (truth movCompare (.missing value) env)
  | kept, .unique invariant records, env, request =>
    NodAnswered (kept || invariant.isSome) (evlBoolean movCompare (.unique invariant records) env request)
      (truth movCompare (.unique invariant records : Nod Env α) env)
  | kept, .uniqueBoolean invariant records node, env, request =>
    NodAnswered (kept || invariant.isSome)
      (evlBoolean movCompare (.uniqueBoolean invariant records node) env request)
      (truth movCompare (.uniqueBoolean invariant records node) env) ∧
    (isKnown invariant request.known = false →
      RowsAnswered (fun record request => PartsAnswered true node record request)
        (evlBoolean movCompare node) (records env) request ∧
      ∀ rest request', getRecord (evlBoolean movCompare node) false (records env) request =
          .ok (some rest, request') →
        RowsAnswered (fun record request => PartsAnswered true node record request)
          (evlBoolean movCompare node) rest request')

end

end InterBase
