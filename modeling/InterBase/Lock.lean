import InterBase.Machine

namespace InterBase

/-- The lock levels, `LCK_none` to `LCK_EX`. -/
abbrev Level := Fin 7

abbrev lckNone : Level := 0

abbrev lckNull : Level := 1

abbrev lckSR : Level := 2

abbrev lckPR : Level := 3

abbrev lckSW : Level := 4

abbrev lckPW : Level := 5

abbrev lckEX : Level := 6

def compatibility : List Nat :=
  [1, 1, 1, 1, 1, 1, 1,
   1, 1, 1, 1, 1, 1, 1,
   1, 1, 1, 1, 1, 1, 0,
   1, 1, 1, 1, 0, 0, 0,
   1, 1, 1, 0, 1, 0, 0,
   1, 1, 1, 0, 0, 0, 0,
   1, 1, 0, 0, 0, 0, 0]

def compatible (st1 st2 : Level) : Bool := compatibility.getD (st1.val * 7 + st2.val) 0 != 0

/-- Where the owner of a request is in its code: in no call that waits for the request, in
`wait_for_request` on behalf of `enq` or `convert`, or behind it. -/
inductive Call where
  | none
  | waits (conversion : Bool)
  | resolved (conversion : Bool)
deriving Repr, DecidableEq

/-- A lock request. `lrqOffset` is its place in the lock table, and `lrqCall` is on the stack of its
owner. -/
structure Lrq where
  lrqOffset : Nat
  lrqOwner : Nat
  lrqRequested : Level
  lrqState : Level
  lrqPending : Bool
  lrqRejected : Bool
  lrqCall : Call
deriving Repr, DecidableEq

structure Lbl where
  lblState : Level
  lblCounts : Level → Nat
  lblPendingLrqCount : Nat
  lblRequests : List Lrq

/-- `++` and `--` on a `USHORT`. -/
def increment (n : Nat) : Nat := ushort (n + 1)

def decrement (n : Nat) : Nat := ushort (n + 65535)

def lockState (counts : Level → Nat) : Level :=
  if counts lckEX ≠ 0 then lckEX
  else if counts lckPW ≠ 0 then lckPW
  else if counts lckSW ≠ 0 then lckSW
  else if counts lckPR ≠ 0 then lckPR
  else if counts lckSR ≠ 0 then lckSR
  else if counts lckNull ≠ 0 then lckNull
  else lckNone

def Lbl.countUp (lock : Lbl) (state : Level) : Lbl :=
  { lock with lblCounts := Function.update lock.lblCounts state (increment (lock.lblCounts state)) }

def Lbl.countDown (lock : Lbl) (state : Level) : Lbl :=
  { lock with lblCounts := Function.update lock.lblCounts state (decrement (lock.lblCounts state)) }

/-- The request as it is now, in its place in the queue. -/
def Lbl.put (lock : Lbl) (request : Lrq) : Lbl :=
  { lock with
    lblRequests := lock.lblRequests.map fun r =>
      if r.lrqOffset = request.lrqOffset then request else r }

def Lbl.remove (lock : Lbl) (request : Lrq) : Lbl :=
  { lock with
    lblRequests := lock.lblRequests.filter fun r => r.lrqOffset != request.lrqOffset }

def Lbl.endPending (lock : Lbl) (request : Lrq) : Lbl :=
  if request.lrqPending then
    { lock with lblPendingLrqCount := decrement lock.lblPendingLrqCount }
  else lock

def grant (request : Lrq) (lock : Lbl) : Lrq × Lbl :=
  let lock := lock.countUp request.lrqRequested
  let lock := { lock with lblState := lockState lock.lblCounts }
  ({ request with lrqState := request.lrqRequested, lrqPending := false }, lock.endPending request)

/-- The requests from one on, and the lock with the counts that go with them. -/
def postPendingLoop (ordering : Bool) (lock : Lbl) : List Lrq → Lbl × List Lrq
  | [] => (lock, [])
  | request :: rest =>
    let next (lock : Lbl) (request : Lrq) : Lbl × List Lrq :=
      ((postPendingLoop ordering lock rest).1, request :: (postPendingLoop ordering lock rest).2)
    if request.lrqPending = false then next lock request
    else if request.lrqState ≠ lckNone then
      let without := lock.countDown request.lrqState
      if compatible request.lrqRequested (lockState without.lblCounts) then
        next (grant request without).2 (grant request without).1
      else
        let lock := without.countUp request.lrqState
        if ordering then (lock, request :: rest) else next lock request
    else if compatible request.lrqRequested lock.lblState then
      next (grant request lock).2 (grant request lock).1
    else if ordering then (lock, request :: rest)
    else next lock request

def postPending (ordering : Bool) (lock : Lbl) : Lbl :=
  if lock.lblPendingLrqCount = 0 then lock
  else
    let r := postPendingLoop ordering lock lock.lblRequests
    { r.1 with lblRequests := r.2 }

/-- Nothing is left of a lock without requests. -/
def releaseRequest (ordering : Bool) (request : Lrq) (lock : Lbl) : Option Lbl :=
  let lock := (lock.remove request).endPending request
  if lock.lblRequests.isEmpty then none
  else if request.lrqState ≠ lckNone then
    let lock := lock.countDown request.lrqState
    if lock.lblCounts request.lrqState = 0 then
      some (postPending ordering { lock with lblState := lockState lock.lblCounts })
    else some (postPending ordering lock)
  else some (postPending ordering lock)

/-- The beginning of `wait_for_request`: the request is pending when the owner goes to sleep. -/
def waitForRequest (ordering conversion : Bool) (request : Lrq) (lock : Lbl) : Lbl :=
  let request :=
    { request with lrqRejected := false, lrqPending := true, lrqCall := .waits conversion }
  let lock := { lock with lblPendingLrqCount := increment lock.lblPendingLrqCount }
  if ordering ∧ request.lrqState = lckNone then
    { lock.remove request with lblRequests := (lock.remove request).lblRequests ++ [request] }
  else lock.put request

/-- The lock, and whether the caller waits. -/
def convert (ordering : Bool) (type : Level) (wait : Bool) (request : Lrq) (lock : Lbl) :
    Lbl × Bool :=
  let request := { request with lrqRequested := type }
  let without := lock.countDown request.lrqState
  if compatible type (lockState without.lblCounts) then
    (postPending ordering ((grant request without).2.put (grant request without).1), false)
  else
    let lock := without.countUp request.lrqState
    if wait then (waitForRequest ordering true request lock, true)
    else (lock.put { request with lrqRequested := request.lrqState }, false)

def grantOrQue (ordering wait : Bool) (request : Lrq) (lock : Lbl) : Option Lbl × Bool :=
  if compatible request.lrqRequested lock.lblState ∧
      (ordering = false ∨ request.lrqRequested = lckNull ∨ lock.lblPendingLrqCount = 0) then
    (some (postPending ordering ((grant request lock).2.put (grant request lock).1)), false)
  else if wait then (some (waitForRequest ordering false request lock), true)
  else (releaseRequest ordering request lock, false)

def lockEnq (ordering wait : Bool) (request : Lrq) : Option Lbl → Option Lbl × Bool
  | some lock =>
    grantOrQue ordering wait request { lock with lblRequests := lock.lblRequests ++ [request] }
  | none =>
    let lock : Lbl := ⟨request.lrqRequested, fun _ => 0, 0, [request]⟩
    (some ((grant request lock).2.put (grant request lock).1), false)

/-- The highest level that somebody else waits for. -/
def pendingState (request : Lrq) (state : Level) : List Lrq → Level
  | [] => state
  | pending :: rest =>
    if pending.lrqPending ∧ pending.lrqOffset ≠ request.lrqOffset then
      let state := max pending.lrqRequested state
      if state = lckEX then state else pendingState request state rest
    else pendingState request state rest

/-- The highest level up to `state` that is compatible. -/
def downgradeState (pending : Level) : Nat → Level
  | 0 => lckNone
  | state + 1 =>
    if compatible pending (Fin.ofNat 7 (state + 1)) then Fin.ofNat 7 (state + 1)
    else downgradeState pending state

/-- The end of a wait without a grant, for a timeout or a deadlock. -/
def reject (request : Lrq) (lock : Lbl) : Lbl :=
  ({ lock with lblPendingLrqCount := decrement lock.lblPendingLrqCount }).put
    { request with lrqRejected := true, lrqPending := false }

/-- What `convert` does after a wait that ended in a rejection. -/
def convertRejected (ordering : Bool) (request : Lrq) (lock : Lbl) : Lbl :=
  (postPending ordering lock).put
    { request with lrqRequested := request.lrqState, lrqCall := .none }

def lockDowngrade (ordering : Bool) (request : Lrq) (lock : Lbl) : Option Lbl :=
  let state := downgradeState (pendingState request lckNone lock.lblRequests) request.lrqState.val
  if state = lckNone ∨ state = lckNull then releaseRequest ordering request lock
  else some (convert ordering state false request lock).1

end InterBase
