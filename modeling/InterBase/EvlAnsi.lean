import InterBase.Library.Kleene
import Mathlib.Logic.Function.Basic

namespace InterBase

/-- A `nod_ansi_any` or `nod_ansi_all`, alone or below a `nod_not`. The boolean of its stream is a
comparison with a column, behind the condition of the selection if there is one. -/
structure AnsiNod (Env : Type) where
  isAll : Bool
  underNot : Bool
  nodInvariant : Bool
  select : Option (Env → Kleene)
  column : Env → Kleene
  /-- What is below the `rsb_boolean`. -/
  records : Env → List Env
  records_invariant : nodInvariant = true → ∀ env env', records env = records env'

/-- The flags of a request that matter here, and what its impure area has of the invariant nodes that
have been computed: the value, and `VLU_null`. -/
structure AnsiRequest (ι : Type) where
  reqNull : Bool
  reqAnsiAny : Bool
  reqAnsiAll : Bool
  reqAnsiNot : Bool
  impure : ι → Option (Bool × Bool)
  /-- Not of the source: something was evaluated while one of these flags was set for another node. -/
  leaked : Bool
  /-- Not of the source: the node whose evaluation has just ended. -/
  ended : Option ι

/-- An evaluation of a node. `RSE_open` evaluates others where they occur in the key of an index
retrieval, or below a sort. -/
inductive AnsiEval (ι Env : Type) where
  | mk (node : ι) (env : Env) (opened : List (AnsiEval ι Env))

namespace AnsiRequest

variable {ι : Type}

def flagged (request : AnsiRequest ι) : Bool :=
  request.reqAnsiAny || request.reqAnsiAll || request.reqAnsiNot

/-- The condition of a record is evaluated now. -/
def enter (request : AnsiRequest ι) : AnsiRequest ι :=
  { request with leaked := request.leaked || request.flagged }

/-- A node is evaluated now. A flag that it has left itself is no other node's. -/
def enterNode [DecidableEq ι] (i : ι) (request : AnsiRequest ι) : AnsiRequest ι :=
  { request with
    leaked := request.leaked || request.flagged && decide (request.ended ≠ some i)
    ended := none }

def endNode (i : ι) (request : AnsiRequest ι) : AnsiRequest ι := { request with ended := some i }

end AnsiRequest

/-- `EVL_boolean` of a condition whose truth is known. -/
def evlCondition {ι : Type} (truth : Kleene) (request : AnsiRequest ι) : Bool × AnsiRequest ι :=
  (truth == .true, { request.enter with reqNull := truth == .unknown })

namespace AnsiNod

variable {ι Env : Type} (node : AnsiNod Env)

/-- `EVL_boolean` of `rsb_arg [0]`. -/
def evlBooleanOf (record : Env) (request : AnsiRequest ι) : Bool × AnsiRequest ι :=
  match node.select with
  | none => evlCondition (node.column record) request
  | some select =>
    let value := evlCondition (select record) request
    let value2 := evlCondition (node.column record) { value.2 with reqNull := false }
    let firstnull := value.2.reqNull
    let secondnull := value2.2.reqNull
    if !value.1 && !firstnull || !value2.1 && !secondnull then
      (false, { value2.2 with reqNull := false })
    else if value.1 && value2.1 then (true, { value2.2 with reqNull := false })
    else (false, { value2.2 with reqNull := true })

/-- The record is in the select stream. -/
def evlSelect (record : Env) (request : AnsiRequest ι) : Bool × AnsiRequest ι :=
  match node.select with
  | none => (true, request)
  | some select => evlCondition (select record) { request with reqNull := false }

/-- do NOT ANY -/
def getNotAny : List Env → AnsiRequest ι → Bool × AnsiRequest ι
  | [], request => (false, { request with reqNull := false })
  | record :: records, request =>
    let value := node.evlBooleanOf record request
    if value.1 then (true, { value.2 with reqNull := false })
    else
      match node.select with
      | none =>
        if value.2.reqNull then (true, { value.2 with reqNull := false })
        else getNotAny records value.2
      | some select =>
        let selectValue := evlCondition (select record) { value.2 with reqNull := false }
        if selectValue.1 then
          let compared := evlCondition (node.column record) { selectValue.2 with reqNull := false }
          if compared.2.reqNull then (true, { compared.2 with reqNull := false })
          else getNotAny records compared.2
        else getNotAny records selectValue.2

/-- do ANY -/
def getAny : List Env → AnsiRequest ι → Bool × AnsiRequest ι
  | [], request => (false, { request with reqNull := false })
  | record :: records, request =>
    let value := node.evlBooleanOf record request
    if value.1 then (true, { value.2 with reqNull := false }) else getAny records value.2

/-- do NOT ALL -/
def getNotAll : List Env → AnsiRequest ι → Bool × AnsiRequest ι
  | [], request => (true, { request with reqNull := false })
  | record :: records, request =>
    let value := node.evlBooleanOf record { request with reqNull := false }
    if !value.1 && !value.2.reqNull then
      -- Make sure it wasn't FALSE because there's no select stream record.
      let selectValue := node.evlSelect record value.2
      if selectValue.1 then (false, { selectValue.2 with reqNull := false })
      else getNotAll records selectValue.2
    else getNotAll records value.2

/-- do ALL -/
def getAll : List Env → AnsiRequest ι → Bool × AnsiRequest ι
  | [], request => (true, { request with reqNull := false })
  | record :: records, request =>
    let value := node.evlBooleanOf record { request with reqNull := false }
    if !value.1 then
      let selectValue := node.evlSelect record value.2
      if selectValue.1 then (false, { selectValue.2 with reqNull := false })
      else getAll records selectValue.2
    else getAll records value.2

/-- Neither ANY nor ALL. `flag` tells whether a record was passed on which the boolean is null. -/
def getPlain (flag : Bool) : List Env → AnsiRequest ι → Bool × AnsiRequest ι
  | [], request => (false, { request with reqNull := flag || request.reqNull })
  | record :: records, request =>
    let value := node.evlBooleanOf record request
    if value.1 then (true, { value.2 with reqNull := flag || value.2.reqNull })
    else getPlain (flag || value.2.reqNull) records value.2

/-- `get_record` of the `rsb_boolean`: whether there is a record. -/
def getRecord (records : List Env) (request : AnsiRequest ι) : Bool × AnsiRequest ι :=
  if request.reqAnsiAny then
    let request := { request with reqAnsiAny := false }
    if request.reqAnsiNot then node.getNotAny records { request with reqAnsiNot := false }
    else node.getAny records request
  else if request.reqAnsiAll then
    let request := { request with reqAnsiAll := false }
    if request.reqAnsiNot then node.getNotAll records { request with reqAnsiNot := false }
    else node.getAll records request
  else node.getPlain false records request

end AnsiNod

section

variable {ι Env : Type} [DecidableEq ι] (nodes : ι → AnsiNod Env)

/-- `EVL_boolean` of the node, when its stream is open. -/
def evlAnsiStream (i : ι) (env : Env) (request : AnsiRequest ι) : Bool × AnsiRequest ι :=
  let value := (nodes i).getRecord ((nodes i).records env) request
  if (nodes i).nodInvariant then
    (value.1, { value.2 with
      impure := Function.update value.2.impure i (some (value.1, value.2.reqNull)) })
  else value

/-- The `nod_not`. -/
def evlNot (value : Bool × AnsiRequest ι) : Bool × AnsiRequest ι :=
  if value.2.reqNull then (false, value.2) else (!value.1, value.2)

def setAnsiNot (underNot : Bool) (request : AnsiRequest ι) : AnsiRequest ι :=
  if underNot then { request with reqAnsiNot := true } else request

def setAnsi (isAll : Bool) (request : AnsiRequest ι) : AnsiRequest ι :=
  if isAll then { request with reqAnsiAll := true } else { request with reqAnsiAny := true }

/-- The value of an invariant node that has been computed. -/
def computedAnsi (i : ι) (request : AnsiRequest ι) : Option (Bool × Bool) :=
  if (nodes i).nodInvariant then request.impure i else none

mutual

/-- `EVL_boolean` of the node, or of the `nod_not` above it. -/
def evlAnsi : AnsiEval ι Env → AnsiRequest ι → Bool × AnsiRequest ι
  | .mk i env opened, request =>
    let request := setAnsiNot (nodes i).underNot (request.enterNode i)
    let value :=
      match computedAnsi nodes i request with
      | some computed =>
        (computed.1, { request with reqNull := !(nodes i).isAll && computed.2 })
      | none => evlAnsiStream nodes i env (rseOpenAnsi opened (setAnsi (nodes i).isAll request))
    let value := (value.1, value.2.endNode i)
    if (nodes i).underNot then evlNot value else value

/-- What `RSE_open` evaluates. -/
def rseOpenAnsi : List (AnsiEval ι Env) → AnsiRequest ι → AnsiRequest ι
  | [], request => request
  | eval :: opened, request => rseOpenAnsi opened (evlAnsi eval request).2

end

end

end InterBase
