import Mathlib.Logic.Function.Basic
import InterBase.Library.Kleene

namespace InterBase

/-- `MOV_compare` was given no descriptor. -/
inductive EvlFault where
  | noDescriptor
deriving Repr, DecidableEq

/-- The flags of a request that an evaluation reads and writes, and what is in its impure area at
the offsets of the invariant nodes that have been computed: the value, and `VLU_null`. -/
structure EvlRequest where
  reqNull : Bool
  reqSameTxUpd : Bool
  reqCloneData : Bool
  impure : Nat → Option (Bool × Bool)

/-- What `EVL_expr` leaves of a value expression: a null flag, whether the transaction itself has
updated the record whose version was asked for, and a descriptor. A null value may leave one as
well, that of a value of before. -/
structure Evaluated (α : Type) where
  null : Bool
  sameTxUpd : Bool
  desc : Option α
  valued : null = false → desc.isSome = true

structure Expr (Env α : Type) where
  isRecVersion : Bool
  evaluate : Env → Evaluated α

inductive Comparison where
  | eql
  | neq
  | gtr
  | geq
  | lss
  | leq
deriving Repr, DecidableEq

def Comparison.holds (op : Comparison) (comparison : Int) : Bool :=
  match op with
  | .eql => comparison = 0
  | .neq => comparison ≠ 0
  | .gtr => comparison > 0
  | .geq => comparison ≥ 0
  | .lss => comparison < 0
  | .leq => comparison ≤ 0

/-- The boolean nodes. The record stream of `nod_unique` is a list of records, for each of which the
expressions below have values of their own; on top of it may be an `rsb_boolean`. A node that is
invariant has an offset in the impure area. -/
inductive Nod (Env α : Type) where
  | and (first second : Nod Env α)
  | or (first second : Nod Env α)
  | not (node : Nod Env α)
  | comparison (op : Comparison) (first second : Expr Env α)
  | between (value lower upper : Expr Env α)
  | missing (value : Expr Env α)
  | unique (invariant : Option Nat) (records : Env → List Env)
  | uniqueBoolean (invariant : Option Nat) (records : Env → List Env) (node : Nod Env α)

section

variable {Env α : Type} (movCompare : α → α → Int)

def evlExpr (node : Expr Env α) (env : Env) (request : EvlRequest) : EvlRequest :=
  { request with
    reqNull := (node.evaluate env).null
    reqSameTxUpd := request.reqSameTxUpd || (node.evaluate env).sameTxUpd
    reqCloneData := false }

def compareDescriptors (first second : Option α) : Except EvlFault Int :=
  match first, second with
  | some x, some y => .ok (movCompare x y)
  | _, _ => .error .noDescriptor

/-- Evaluate arguments. If either is null, result is null, but in any case, evaluate both: the
comparison, unless it is null. -/
def evlArguments (first second : Expr Env α) (env : Env) (request : EvlRequest) :
    Except EvlFault (Option Int × EvlRequest) :=
  let request0 := evlExpr first env { request with reqSameTxUpd := false }
  let request1 := evlExpr second env { request0 with reqNull := false, reqCloneData := false }
  let null := request0.reqNull || request1.reqNull
  if null then .ok (none, { request1 with reqNull := true })
  else do
    let forceEqual := request0.reqSameTxUpd || request1.reqSameTxUpd
    let comparison ←
      compareDescriptors movCompare (first.evaluate env).desc (second.evaluate env).desc
    let comparison := if first.isRecVersion && forceEqual then 0 else comparison
    return (some comparison, { request1 with reqNull := false, reqSameTxUpd := false })

/-- The `rsb_boolean` branch of `get_record`, without ANY and ALL: the records behind the one that
was got. `flag` tells whether a record was passed on which the boolean is null. -/
def getRecord (test : Env → EvlRequest → Except EvlFault (Bool × EvlRequest)) (flag : Bool) :
    List Env → EvlRequest → Except EvlFault (Option (List Env) × EvlRequest)
  | [], request => .ok (none, { request with reqNull := flag || request.reqNull })
  | record :: records, request => do
    let tested ← test record request
    if tested.1 then
      return (some records, { tested.2 with reqNull := flag || tested.2.reqNull })
    else getRecord test (flag || tested.2.reqNull) records tested.2

/-- A stream without a boolean: `get_record` leaves the flags as they are. -/
def getAnyRecord (_ : Env) (request : EvlRequest) : Except EvlFault (Bool × EvlRequest) :=
  .ok (true, request)

def evlUnique (test : Env → EvlRequest → Except EvlFault (Bool × EvlRequest)) (records : List Env)
    (request : EvlRequest) : Except EvlFault (Bool × EvlRequest) := do
  let first ← getRecord test false records request
  match first.1 with
  | none => return (false, first.2)
  | some records => do
    let second ← getRecord test false records first.2
    return (second.1.isNone, second.2)

/-- An invariant node that has already been computed is not computed again. -/
def evlInvariant (invariant : Option Nat)
    (compute : EvlRequest → Except EvlFault (Bool × EvlRequest)) (request : EvlRequest) :
    Except EvlFault (Bool × EvlRequest) :=
  match invariant with
  | none => compute request
  | some offset =>
    match request.impure offset with
    | some computed => .ok (computed.1, { request with reqNull := computed.2 })
    | none => do
      let computed ← compute request
      return (computed.1, { computed.2 with
        impure := Function.update computed.2.impure offset
          (some (computed.1, computed.2.reqNull)) })

def evlBoolean : Nod Env α → Env → EvlRequest → Except EvlFault (Bool × EvlRequest)
  | .and first second, env, request => do
    let value ← evlBoolean first env request
    let value2 ← evlBoolean second env { value.2 with reqNull := false }
    let firstnull := value.2.reqNull
    let secondnull := value2.2.reqNull
    if !value.1 && !firstnull || !value2.1 && !secondnull then
      return (false, { value2.2 with reqNull := false })
    else if value.1 && value2.1 then return (true, { value2.2 with reqNull := false })
    else return (false, { value2.2 with reqNull := true })
  | .or first second, env, request => do
    let value ← evlBoolean first env request
    let value2 ← evlBoolean second env { value.2 with reqNull := false }
    if value.1 || value2.1 then return (true, { value2.2 with reqNull := false })
    else return (false, { value2.2 with reqNull := value.2.reqNull || value2.2.reqNull })
  | .not node, env, request => do
    let value ← evlBoolean node env request
    if value.2.reqNull then return (false, value.2) else return (!value.1, value.2)
  | .comparison op first second, env, request => do
    let compared ← evlArguments movCompare first second env request
    return (compared.1.elim false op.holds, compared.2)
  | .between value lower upper, env, request => do
    let compared ← evlArguments movCompare value lower env request
    if compared.1.elim false Comparison.geq.holds then do
      let comparison ←
        compareDescriptors movCompare (value.evaluate env).desc (upper.evaluate env).desc
      return (Comparison.leq.holds comparison, evlExpr upper env compared.2)
    else return (false, compared.2)
  | .missing value, env, request =>
    let evaluated := evlExpr value env request
    if evaluated.reqNull then .ok (true, { evaluated with reqNull := false })
    else if evaluated.reqCloneData then .ok (true, { evaluated with reqCloneData := false })
    else .ok (false, evaluated)
  | .unique invariant records, env, request =>
    evlInvariant invariant (evlUnique getAnyRecord (records env)) request
  | .uniqueBoolean invariant records node, env, request =>
    evlInvariant invariant (evlUnique (evlBoolean node) (records env)) request

end

end InterBase
