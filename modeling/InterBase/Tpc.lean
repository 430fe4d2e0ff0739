import InterBase.Library.Segments
import InterBase.Tra

namespace InterBase

open Memory

/-- A block of the cache, with the states of the transactions on one inventory page. -/
structure Tpc where
  tpcBase : Nat
  tpcTransactions : Nat → UInt8

/-- What happens to the states, as far as the cache can differ from the inventory pages. -/
inductive TpcNote where
  /-- Another attachment has changed a state on an inventory page. -/
  | changed (number : Nat)
  /-- An inventory page has reached `TPC_update_cache`. -/
  | updated (sequence : Nat)
  /-- `TPC_set_state` without a change of the page. -/
  | tweaked (number state : Nat)

/-- The database as one attachment sees it: the header page, the inventory pages and its cache of
them, with what has happened to the states, the last one first. -/
structure Dbb where
  dbbTipCache : List Tpc
  dbbOldestTransaction : Nat
  hdrNextTransaction : Nat
  hdrOldestTransaction : Nat
  tipTransactions : Nat → Nat → UInt8
  log : List TpcNote

/-- `TRA_state`, with the difference of two `ULONG`s. -/
def Tpc.state (t : Tpc) (number : Nat) : Nat :=
  let byte := transOffset (ulong (number + 4294967296 - traBase t.tpcBase))
  (t.tpcTransactions byte).toNat >>> transShift number &&& traMask

/-- `*address &= ~(TRA_MASK << shift); *address |= state << shift`. -/
def assign (b : UInt8) (shift state : Nat) : UInt8 :=
  b &&& ~~~UInt8.ofNat (traMask <<< shift) ||| UInt8.ofNat (state <<< shift)

section

/- How many transactions fit on an inventory page. -/
variable (transPerTip : Nat)

def Tpc.Contains (t : Tpc) (number : Nat) : Prop :=
  t.tpcBase ≤ number ∧ number < t.tpcBase + transPerTip

/-- The block that `for (; tip_cache; tip_cache = tip_cache->tpc_next)` stops at. -/
def tpcLocate (number : Nat) (cache : List Tpc) : Option Tpc :=
  Segments.locate Tpc.tpcBase transPerTip number cache

/-- The states of a page from the byte on that has the state of `number`. -/
def setPageState (number state : Nat) (bytes : Nat → UInt8) : Nat → UInt8 :=
  let byte := transOffset (number % transPerTip)
  write bytes byte [assign (bytes byte) (transShift number) state]

def tpcSetState (number state : Nat) (cache : List Tpc) : List Tpc :=
  Segments.updateFirst (fun t => number < t.tpcBase + transPerTip)
    (fun t => { t with tpcTransactions := setPageState transPerTip number state t.tpcTransactions })
    cache

/-- The blocks that are left once those in front of the oldest transaction are released. -/
def tpcRelease (oldest : Nat) (cache : List Tpc) : List Tpc :=
  cache.dropWhile fun t => t.tpcBase + transPerTip ≤ oldest

def tpcUpdateCache (oldest : Nat) (tipPage : Nat → UInt8) (sequence : Nat) (cache : List Tpc) :
    List Tpc :=
  let firstTrans := sequence * transPerTip
  Segments.updateFirst (fun t => t.tpcBase == firstTrans)
    (fun t =>
      let l := transOffset transPerTip
      { t with tpcTransactions := write t.tpcTransactions 0 (slice tipPage 0 l) })
    (tpcRelease transPerTip oldest cache)

def fetchInventoryPage (d : Dbb) (sequence : Nat) : Dbb :=
  { d with
    dbbTipCache := tpcUpdateCache transPerTip d.dbbOldestTransaction (d.tipTransactions sequence)
      sequence d.dbbTipCache
    log := .updated sequence :: d.log }

/-- `TRA_get_inventory` without a bit vector. -/
def cacheInventory (base top : Nat) (d : Dbb) : Dbb :=
  let sequence := base / transPerTip
  let last := top / transPerTip
  (List.range' (sequence + 1) (last - sequence)).foldl (fetchInventoryPage transPerTip)
    (fetchInventoryPage transPerTip d sequence)

def allocateTpc (base : Nat) : Tpc := ⟨base, fun _ => 0⟩

/-- The blocks from `base` up to `top`, one for each inventory page. -/
def allocateTpcs (base top : Nat) : List Tpc :=
  (List.range' base ((top + transPerTip - base) / transPerTip) transPerTip).map allocateTpc

/-- The new blocks go behind the others. -/
def cacheTransactions (oldest : Nat) (d : Dbb) : Dbb :=
  let top := d.hdrNextTransaction
  let oldest := max oldest d.hdrOldestTransaction
  let base := oldest - oldest % transPerTip
  cacheInventory transPerTip oldest top
    { d with dbbTipCache := d.dbbTipCache ++ allocateTpcs transPerTip base top }

def tpcInitializeTpc (number : Nat) (d : Dbb) : Dbb :=
  match d.dbbTipCache.getLast? with
  | none => cacheTransactions transPerTip 0 d
  | some t =>
    if number < t.tpcBase + transPerTip then d
    else cacheTransactions transPerTip (t.tpcBase + transPerTip) d

/-- The oldest transaction in the cache. -/
def oldestCached (cache : List Tpc) : Nat :=
  (cache.head?.map Tpc.tpcBase).getD 0

/-- `precommited` is the answer of `TRA_precommited (tdbb, number, number)`. -/
def tpcCacheState (precommited : Bool) (number : Nat) (d : Dbb) : Dbb × Nat :=
  let d := if d.dbbTipCache.isEmpty then tpcInitializeTpc transPerTip number d else d
  (d,
    if number ≠ 0 ∧ precommited = true then traPrecommitted
    else if number < oldestCached d.dbbTipCache then traCommitted
    else
      match tpcLocate transPerTip number d.dbbTipCache with
      | some t => t.state number
      | none => traActive)

def extendCache (number : Nat) (d : Dbb) : Dbb × Nat :=
  match d.dbbTipCache.getLast? with
  | none => (d, traActive)
  | some t =>
    let d := cacheTransactions transPerTip (t.tpcBase + transPerTip) d
    (d,
      match tpcLocate transPerTip number d.dbbTipCache with
      | some t => t.state number
      | none => traActive)

/-- The database with a cache. -/
def Dbb.opened (d : Dbb) : Dbb :=
  if d.dbbTipCache.isEmpty then cacheTransactions transPerTip 0 d else d

/-- `locked` tells whether the lock on the transaction was granted. -/
def tpcSnapshotState (precommited locked : Bool) (number : Nat) (d : Dbb) : Dbb × Nat :=
  let d := d.opened transPerTip
  if number ≠ 0 ∧ precommited = true then (d, traPrecommitted)
  else if number < oldestCached d.dbbTipCache then (d, traCommitted)
  else
    match tpcLocate transPerTip number d.dbbTipCache with
    | some t =>
      let state := t.state number
      if state = traCommitted ∨ state = traDead then (d, state)
      else if locked = false then (d, traActive)
      else
        (fetchInventoryPage transPerTip d (number / transPerTip),
          traFetchState d.tipTransactions transPerTip number)
    | none => extendCache transPerTip number d

/-- The write to the inventory page. -/
def setTipState (number state : Nat) (d : Dbb) : Dbb :=
  let sequence := number / transPerTip
  { d with
    tipTransactions := Function.update d.tipTransactions sequence
      (setPageState transPerTip number state (d.tipTransactions sequence)) }

/-- `TRA_set_state`, where the database is not read-only. -/
def traSetState (number state : Nat) (d : Dbb) : Dbb :=
  let d := setTipState transPerTip number state
    (fetchInventoryPage transPerTip d (number / transPerTip))
  { d with dbbTipCache := tpcSetState transPerTip number state d.dbbTipCache }

end

/-- What happens to the database of an attachment. -/
inductive TpcEvent where
  /-- Another attachment has written the header. -/
  | header (next oldest : Nat)
  /-- A transaction of this attachment has computed its `dbb_oldest_transaction`. -/
  | oldest (number : Nat)
  | initializeTpc (number : Nat)
  /-- Another attachment has changed a state on an inventory page. -/
  | change (number state : Nat)
  /-- An inventory page reaches `TPC_update_cache`. -/
  | update (sequence : Nat)
  | setState (number state : Nat)
  /-- `TPC_set_state` without a change of the page. -/
  | tweak (number state : Nat)
  | cacheState (precommited : Bool) (number : Nat)
  | snapshotState (precommited locked : Bool) (number : Nat)

section

variable (transPerTip : Nat)

def Dbb.step (d : Dbb) : TpcEvent → Dbb
  | .header next oldest =>
    { d with hdrNextTransaction := next, hdrOldestTransaction := oldest }
  | .oldest number => { d with dbbOldestTransaction := number }
  | .initializeTpc number => tpcInitializeTpc transPerTip number d
  | .change number state =>
    { setTipState transPerTip number state d with log := .changed number :: d.log }
  | .update sequence => fetchInventoryPage transPerTip d sequence
  | .setState number state => traSetState transPerTip number state d
  | .tweak number state =>
    { d with
      dbbTipCache := tpcSetState transPerTip number state d.dbbTipCache
      log := .tweaked number state :: d.log }
  | .cacheState precommited number => (tpcCacheState transPerTip precommited number d).1
  | .snapshotState precommited locked number =>
    (tpcSnapshotState transPerTip precommited locked number d).1

/-- The callers pass transactions that have been started, the marks of the header only grow, and
what is set without a change of the page is final, or what the page says already. -/
def TpcEvent.Legal (d : Dbb) : TpcEvent → Prop
  | .header next mark =>
    d.hdrNextTransaction ≤ next ∧ d.hdrOldestTransaction ≤ mark ∧ mark ≤ next ∧ next ≤ maxTraNumber
  | .oldest number => number ≤ d.hdrNextTransaction
  | .initializeTpc number => number ≤ d.hdrNextTransaction
  | .change number state => number ≤ d.hdrNextTransaction ∧ state ≤ traMask
  | .update sequence => sequence * transPerTip ≤ d.hdrNextTransaction
  | .setState number state => number ≤ d.hdrNextTransaction ∧ state ≤ traMask
  | .tweak number state => number ≤ d.hdrNextTransaction ∧
    (state = traCommitted ∨ state = traDead ∨
      state = traFetchState d.tipTransactions transPerTip number)
  | .cacheState _ number => number ≤ d.hdrNextTransaction
  | .snapshotState _ _ number => number ≤ d.hdrNextTransaction

/-- What an attachment can come to. -/
inductive TpcRun : Dbb → Prop
  | start {d : Dbb} : d.dbbTipCache = [] → d.log = [] →
      d.dbbOldestTransaction ≤ d.hdrNextTransaction →
      d.hdrOldestTransaction ≤ d.hdrNextTransaction → d.hdrNextTransaction ≤ maxTraNumber → TpcRun d
  | next {d : Dbb} {e : TpcEvent} : TpcRun d → e.Legal transPerTip d →
      TpcRun (d.step transPerTip e)

/-- Another attachment has changed the page since it last reached `TPC_update_cache`. -/
def PageBehind : List TpcNote → Nat → Prop
  | [], _ => False
  | .changed number :: log, sequence => number / transPerTip = sequence ∨ PageBehind log sequence
  | .updated reached :: log, sequence => reached ≠ sequence ∧ PageBehind log sequence
  | .tweaked _ _ :: log, sequence => PageBehind log sequence

/-- The state that was set last, since the page of the transaction last reached
`TPC_update_cache`. -/
def SetSince : List TpcNote → Nat → Nat → Prop
  | [], _, _ => False
  | .changed _ :: log, number, state => SetSince log number state
  | .updated reached :: log, number, state =>
    reached ≠ number / transPerTip ∧ SetSince log number state
  | .tweaked other last :: log, number, state =>
    if other = number then last = state else SetSince log number state

/-- The blocks whose bytes for a transaction an event reads or writes. -/
def touched (d : Dbb) : TpcEvent → Option (Tpc × Nat)
  | .cacheState precommited number =>
    let d := (tpcCacheState transPerTip precommited number d).1
    if number < oldestCached d.dbbTipCache then none
    else (tpcLocate transPerTip number d.dbbTipCache).map fun t => (t, number)
  | .snapshotState precommited locked number =>
    let found := tpcLocate transPerTip number (d.opened transPerTip).dbbTipCache
    let extended := (tpcSnapshotState transPerTip precommited locked number d).1
    if number < oldestCached (d.opened transPerTip).dbbTipCache then none
    else (found.or (tpcLocate transPerTip number extended.dbbTipCache)).map fun t => (t, number)
  | .setState number _ =>
    (tpcLocate transPerTip number
      (fetchInventoryPage transPerTip d (number / transPerTip)).dbbTipCache).map fun t => (t, number)
  | .tweak number _ => (tpcLocate transPerTip number d.dbbTipCache).map fun t => (t, number)
  | .update sequence =>
    ((tpcRelease transPerTip d.dbbOldestTransaction d.dbbTipCache).find? fun t =>
      t.tpcBase == sequence * transPerTip).map fun t => (t, sequence * transPerTip)
  | _ => none

end

end InterBase
