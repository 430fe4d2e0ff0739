import InterBase.Lock

namespace InterBase

/-- The locks by the names of their resources, and for every owner the request it waits for. -/
structure LockTable (κ : Type) where
  locks : κ → Option Lbl
  ownPendingRequest : Nat → Option (κ × Nat)

def lockRequests (lock : Option Lbl) : List Lrq := lock.elim [] Lbl.lblRequests

namespace LockTable

variable {κ : Type} [DecidableEq κ]

def lrq (t : LockTable κ) (request : κ × Nat) : Option Lrq :=
  (lockRequests (t.locks request.1)).find? (·.lrqOffset = request.2)

def setLock (t : LockTable κ) (key : κ) (lock : Option Lbl) : LockTable κ :=
  { t with locks := Function.update t.locks key lock }

def setPending (t : LockTable κ) (owner : Nat) (request : Option (κ × Nat)) : LockTable κ :=
  { t with ownPendingRequest := Function.update t.ownPendingRequest owner request }

end LockTable

/-- The flags `LRQ_deadlock` and `LRQ_scanned` of the requests, and `maybe_deadlock`. -/
structure Scan (κ : Type) where
  deadlock : List (κ × Nat)
  scanned : List (κ × Nat)
  maybeDeadlock : Bool

section

variable {κ : Type} [DecidableEq κ]

/-- Whether the owner of a blocking request is itself blocked. `busy` are the owners that still have
to finish blocking ASTs, and `next` goes on with the loop of `deadlock_walk`. -/
def deadlockPursue (busy : Nat → Bool) (t : LockTable κ)
    (walk : κ × Nat → Scan κ → Option (Option (κ × Nat) × Scan κ))
    (next : Scan κ → Option (Option (κ × Nat) × Scan κ)) (block : Lrq) (scan : Scan κ) :
    Option (Option (κ × Nat) × Scan κ) :=
  if busy block.lrqOwner then next { scan with maybeDeadlock := true }
  else match t.ownPendingRequest block.lrqOwner with
    | none => next scan
    | some target =>
      if (t.lrq target).any Lrq.lrqPending then
        (walk target scan).bind fun r => if r.1.isSome then some r else next r.2
      else next scan

/-- The loop of `deadlock_walk` over the requests of a lock. -/
def deadlockLoop (ordering : Bool) (busy : Nat → Bool) (t : LockTable κ)
    (walk : κ × Nat → Scan κ → Option (Option (κ × Nat) × Scan κ)) (request : Lrq) :
    List Lrq → Scan κ → Option (Option (κ × Nat) × Scan κ)
  | [], scan => some (none, scan)
  | block :: rest, scan =>
    let next := deadlockLoop ordering busy t walk request rest
    if ordering = false ∨ lckNull < request.lrqState then
      if block.lrqOffset = request.lrqOffset then next scan
      else if compatible request.lrqRequested block.lrqState then next scan
      else deadlockPursue busy t walk next block scan
    else if block.lrqOffset = request.lrqOffset then some (none, scan)
    else if compatible request.lrqRequested (max block.lrqState block.lrqRequested) then next scan
    else deadlockPursue busy t walk next block scan

/-- The recursion goes at most `depth` calls deep. -/
def deadlockWalk (ordering : Bool) (busy : Nat → Bool) (t : LockTable κ) :
    Nat → κ × Nat → Scan κ → Option (Option (κ × Nat) × Scan κ)
  | 0, _, _ => none
  | depth + 1, offset, scan =>
    if offset ∈ scan.scanned then some (none, scan)
    else if offset ∈ scan.deadlock then some (some offset, scan)
    else match t.lrq offset with
      | some request =>
        (deadlockLoop ordering busy t (deadlockWalk ordering busy t depth) request
            (lockRequests (t.locks offset.1))
            { scan with deadlock := offset :: scan.deadlock }).map fun r =>
          if r.1.isSome then r
          else (none, { r.2 with
            deadlock := r.2.deadlock.filter (· ≠ offset), scanned := offset :: r.2.scanned })
      | none => some (none, { scan with scanned := offset :: scan.scanned })

/-- The request to reject, if there is one. -/
def deadlockScan (ordering : Bool) (busy : Nat → Bool) (t : LockTable κ) (depth : Nat)
    (request : κ × Nat) : Option (Option (κ × Nat)) :=
  (deadlockWalk ordering busy t depth request ⟨[], [], false⟩).map Prod.fst

end

/-- A request as `LOCK_enq` makes it. -/
def newLrq (offset owner : Nat) (type : Level) : Lrq :=
  ⟨offset, owner, type, lckNone, false, false, .none⟩

/-- `release_request` of the request at a place. -/
def releaseAt (ordering : Bool) (offset : Nat) (lock : Option Lbl) : Option Lbl :=
  lock.bind fun l =>
    match l.lblRequests.find? (·.lrqOffset = offset) with
    | some request => releaseRequest ordering request l
    | none => some l

/-- `purge_owner` makes its way through the queue of its owner. -/
def releaseAll (ordering : Bool) : List Nat → Option Lbl → Option Lbl
  | [], lock => lock
  | offset :: rest, lock => releaseAll ordering rest (releaseAt ordering offset lock)

namespace LockTable

variable {κ : Type} [DecidableEq κ]

def unused : LockTable κ := ⟨fun _ => none, fun _ => none⟩

def enq (ordering : Bool) (t : LockTable κ) (key : κ) (offset owner : Nat) (type : Level)
    (wait : Bool) : LockTable κ :=
  let r := lockEnq ordering wait (newLrq offset owner type) (t.locks key)
  if r.2 then (t.setLock key r.1).setPending owner (some (key, offset)) else t.setLock key r.1

def convert (ordering : Bool) (t : LockTable κ) (key : κ) (lock : Lbl) (request : Lrq)
    (type : Level) (wait : Bool) : LockTable κ :=
  let r := InterBase.convert ordering type wait request lock
  if r.2 then
    (t.setLock key (some r.1)).setPending request.lrqOwner (some (key, request.lrqOffset))
  else t.setLock key (some r.1)

/-- What a call does with the request at a place, if one is there. -/
def onRequest (t : LockTable κ) (key : κ) (offset : Nat) (call : Lbl → Lrq → LockTable κ) :
    LockTable κ :=
  ((t.locks key).bind fun lock =>
    (lock.lblRequests.find? (·.lrqOffset = offset)).map (call lock)).getD t

def lockConvert (ordering : Bool) (t : LockTable κ) (key : κ) (offset : Nat) (type : Level)
    (wait : Bool) : LockTable κ :=
  t.onRequest key offset fun lock request => t.convert ordering key lock request type wait

def lockDeq (ordering : Bool) (t : LockTable κ) (key : κ) (offset : Nat) : LockTable κ :=
  t.onRequest key offset fun lock request =>
    t.setLock key (releaseRequest ordering request lock)

end LockTable

/-- What the owners do to the lock table while they hold its mutex, and at the end of a wait. -/
inductive LockTable.Step {κ : Type} [DecidableEq κ] (ordering : Bool) :
    LockTable κ → LockTable κ → Prop where
  | enq (t : LockTable κ) (key : κ) (offset owner : Nat) (type : Level) (wait : Bool)
      (fresh : ∀ r ∈ lockRequests (t.locks key), r.lrqOffset ≠ offset)
      (room : (lockRequests (t.locks key)).length + 1 < 65536) :
      Step ordering t (t.enq ordering key offset owner type wait)
  | convert (t : LockTable κ) (key : κ) (lock : Lbl) (request : Lrq) (type : Level) (wait : Bool)
      (found : t.locks key = some lock) (mem : request ∈ lock.lblRequests)
      (idle : request.lrqCall = .none) :
      Step ordering t (t.convert ordering key lock request type wait)
  | downgrade (t : LockTable κ) (key : κ) (lock : Lbl) (request : Lrq)
      (found : t.locks key = some lock) (mem : request ∈ lock.lblRequests)
      (idle : request.lrqCall = .none) :
      Step ordering t (t.setLock key (lockDowngrade ordering request lock))
  | deq (t : LockTable κ) (key : κ) (lock : Lbl) (request : Lrq)
      (found : t.locks key = some lock) (mem : request ∈ lock.lblRequests)
      (idle : request.lrqCall = .none) :
      Step ordering t (t.setLock key (releaseRequest ordering request lock))
  | timeout (t : LockTable κ) (key : κ) (lock : Lbl) (request : Lrq)
      (found : t.locks key = some lock) (mem : request ∈ lock.lblRequests)
      (pending : request.lrqPending = true) :
      Step ordering t (t.setLock key (some (reject request lock)))
  | deadlock (t : LockTable κ) (busy : Nat → Bool) (depth : Nat) (waiting : κ × Nat) (key : κ)
      (lock : Lbl) (request victim : Lrq)
      (waits : t.lrq waiting = some request) (pending : request.lrqPending = true)
      (scan : deadlockScan ordering busy t depth waiting = some (some (key, victim.lrqOffset)))
      (found : t.locks key = some lock) (mem : victim ∈ lock.lblRequests) :
      Step ordering t
        ((t.setLock key (some (reject victim lock))).setPending victim.lrqOwner none)
  | wake (t : LockTable κ) (key : κ) (lock : Lbl) (request : Lrq) (conversion : Bool)
      (found : t.locks key = some lock) (mem : request ∈ lock.lblRequests)
      (call : request.lrqCall = .waits conversion) (resolved : request.lrqPending = false) :
      Step ordering t
        ((t.setLock key (some (lock.put { request with lrqCall := .resolved conversion }))).setPending
          request.lrqOwner none)
  | granted (t : LockTable κ) (key : κ) (lock : Lbl) (request : Lrq) (conversion : Bool)
      (found : t.locks key = some lock) (mem : request ∈ lock.lblRequests)
      (call : request.lrqCall = .resolved conversion) (accepted : request.lrqRejected = false) :
      Step ordering t (t.setLock key (some (lock.put { request with lrqCall := .none })))
  | denyEnq (t : LockTable κ) (key : κ) (lock : Lbl) (request : Lrq)
      (found : t.locks key = some lock) (mem : request ∈ lock.lblRequests)
      (call : request.lrqCall = .resolved false) (rejected : request.lrqRejected = true) :
      Step ordering t (t.setLock key (releaseRequest ordering request lock))
  | denyConvert (t : LockTable κ) (key : κ) (lock : Lbl) (request : Lrq)
      (found : t.locks key = some lock) (mem : request ∈ lock.lblRequests)
      (call : request.lrqCall = .resolved true) (rejected : request.lrqRejected = true) :
      Step ordering t (t.setLock key (some (convertRejected ordering request lock)))
  | purge (t : LockTable κ) (owner : Nat) (requests : κ → List Nat)
      (own : ∀ key lock, t.locks key = some lock →
        (requests key).Perm ((lock.lblRequests.filter (·.lrqOwner = owner)).map Lrq.lrqOffset)) :
      Step ordering t
        { locks := fun key => releaseAll ordering (requests key) (t.locks key)
          ownPendingRequest := Function.update t.ownPendingRequest owner none }

/-- The lock tables that the owners can make, in any order of their steps. -/
inductive LockTable.Reachable {κ : Type} [DecidableEq κ] (ordering : Bool) : LockTable κ → Prop where
  | start : Reachable ordering unused
  | next {t t' : LockTable κ} (reachable : Reachable ordering t) (step : t.Step ordering t') :
      Reachable ordering t'

namespace LockTable

variable {κ : Type} [DecidableEq κ] {ordering : Bool} {t : LockTable κ} {key : κ} {offset : Nat}

omit [DecidableEq κ] in
theorem onRequest_cases {call : Lbl → Lrq → LockTable κ} {P : LockTable κ → Prop} (none : P t)
    (some : ∀ lock request, t.locks key = some lock → request ∈ lock.lblRequests →
      t.lrq (key, offset) = some request → P (call lock request)) :
    P (t.onRequest key offset call) := by
  unfold onRequest
  cases found : t.locks key with
  | none => exact none
  | some lock =>
    cases at_offset : lock.lblRequests.find? (·.lrqOffset = offset) with
    | none =>
      rw [Option.bind_some, at_offset]
      exact none
    | some request =>
      rw [Option.bind_some, at_offset]
      refine some lock request found (List.mem_of_find?_eq_some at_offset) ?_
      unfold lrq lockRequests
      rw [found]
      exact at_offset

theorem Reachable.lockConvert (h : Reachable ordering t)
    (idle : (t.lrq (key, offset)).all (fun r => decide (r.lrqCall = .none)) = true) {type : Level}
    {wait : Bool} : Reachable ordering (t.lockConvert ordering key offset type wait) := by
  refine onRequest_cases h ?_
  intro lock request found mem at_offset
  rw [at_offset] at idle
  exact h.next (.convert t key lock request type wait found mem (of_decide_eq_true idle))

theorem Reachable.lockDeq (h : Reachable ordering t)
    (idle : (t.lrq (key, offset)).all (fun r => decide (r.lrqCall = .none)) = true) :
    Reachable ordering (t.lockDeq ordering key offset) := by
  refine onRequest_cases h ?_
  intro lock request found mem at_offset
  rw [at_offset] at idle
  exact h.next (.deq t key lock request found mem (of_decide_eq_true idle))

end LockTable

end InterBase
