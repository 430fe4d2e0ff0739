import InterBase.Btc

namespace InterBase.Btc

open LinkedTree

/-- What `write_buffer` writes when it is called for a buffer: first the buffers of a higher
precedence, and for each whether `BCB_keep_pages` leaves it in the tree. -/
structure BufferWrites (n : Nat) where
  higher : List (Fin n × Bool)
  keep : Bool

/-- What `btc_flush` is called for, the headers of the buffers, and what comes of the calls of
`write_buffer` in their order; a failed write unwinds. -/
structure BtcFlush (n : Nat) where
  page : Fin n → Int
  length : Fin n → Nat
  transactionMask : BitVec 32
  sysOnly : Bool
  writes : Nat → Option (BufferWrites n)

structure FlushState (n : Nat) where
  btree : Btree n
  dirty : Fin n → Bool
  systemDirty : Fin n → Bool
  mustWrite : Fin n → Bool
  transactions : Fin n → BitVec 32
  maxSeen : Int
  next : Option (Fin n)
  nextPage : Int
  calls : Nat
  written : List (Fin n)

def minPageNumber : Int := -5

section

variable {n : Nat}

/-- A dirty buffer is written, and leaves the tree. -/
def writePage (bdb : Fin n) (keep : Bool) (f : FlushState n) : Except CacheStop (FlushState n) :=
  if f.dirty bdb then
    let btree := if ¬ keep ∧ ((f.btree.parent bdb).isSome ∨ f.btree.root = some bdb) then
        btcRemove bdb (f.mustWrite bdb) (f.dirty bdb) f.btree
      else .ok f.btree
    btree.map fun btree => { f with
      btree := btree
      dirty := Function.update f.dirty bdb false
      systemDirty := Function.update f.systemDirty bdb false
      mustWrite := Function.update f.mustWrite bdb false
      transactions := Function.update f.transactions bdb 0
      written := f.written ++ [bdb] }
  else .ok f

def writePages : List (Fin n × Bool) → FlushState n → Except CacheStop (FlushState n)
  | [], f => .ok f
  | (bdb, keep) :: rest, f => (writePage bdb keep f).bind fun f => writePages rest f

variable (c : BtcFlush n)

/-- The way back to where the walk was. -/
def flushToward (f : FlushState n) (node : Fin n) : Option (Fin n) :=
  if (f.btree.left node).isSome ∧ f.maxSeen < c.page node then f.btree.left node
  else if (f.btree.right node).isSome ∧ c.page node < f.maxSeen then f.btree.right node
  else none

/-- If we're lost, reposition. -/
def flushFind (f : FlushState n) (bdb : Fin n) : Except CacheStop (Option (Fin n)) :=
  if c.page bdb ≠ f.nextPage ∨ (f.btree.parent bdb = none ∧ f.btree.root ≠ some bdb) then
    match f.btree.root with
    | none => .ok none
    | some root => (descend (flushToward c f) n root).map some
  else .ok (some bdb)

/-- Where to go next: right, then down to the left, or up. -/
def flushNext (f : FlushState n) (bdb : Fin n) : Except CacheStop (Option (Fin n)) :=
  match f.btree.right bdb with
  | none => .ok (f.btree.parent bdb)
  | some right =>
    if f.maxSeen < c.page right then (descend f.btree.left n right).map some
    else .ok (f.btree.parent bdb)

def flushGoOn (next : Option (Fin n)) (f : FlushState n) : FlushState n :=
  { f with
    next := next
    nextPage := match next with
      | none => f.nextPage
      | some node => c.page node }

/-- The transaction could have modified the page. -/
def flushSelects (f : FlushState n) (bdb : Fin n) : Prop :=
  c.transactionMask &&& f.transactions bdb ≠ 0 ∨ f.systemDirty bdb = true ∨
    (c.transactionMask = 0 ∧ ¬ c.sysOnly) ∨ f.transactions bdb = 0

instance (f : FlushState n) (bdb : Fin n) : Decidable (flushSelects c f bdb) := by
  unfold flushSelects
  infer_instance

def flushWrite (bdb : Fin n) (f : FlushState n) : Except CacheStop (FlushState n) :=
  match c.writes f.calls with
  | none => .error .unwound
  | some w => writePages (w.higher ++ [(bdb, w.keep)]) { f with calls := f.calls + 1 }

def flushVisit (bdb : Fin n) (f : FlushState n) : Except CacheStop (FlushState n) :=
  if c.page bdb ≤ f.maxSeen then .ok f
  else
    let f := { f with maxSeen := c.page bdb }
    if ¬ f.dirty bdb then
      (btcRemove bdb (f.mustWrite bdb) (f.dirty bdb) f.btree).map fun btree =>
        { f with btree := btree }
    else if c.length bdb ≠ 0 then .ok f
    else if flushSelects c f bdb then flushWrite c bdb f
    else .ok f

/-- One turn of the walk, or none when it is over. -/
def flushTurn (f : FlushState n) : Except CacheStop (Option (FlushState n)) :=
  match f.next with
  | none => .ok none
  | some node =>
    (flushFind c f node).bind fun found =>
      match found with
      | none => .ok none
      | some bdb =>
        (flushNext c f bdb).bind fun next => (flushVisit c bdb (flushGoOn c next f)).map some

def flushLoop : Nat → FlushState n → Except CacheStop (FlushState n)
  | 0, _ => .error .looping
  | fuel + 1, f =>
    (flushTurn c f).bind fun turned =>
      match turned with
      | none => .ok f
      | some f => flushLoop fuel f

/-- The walk starts at the leftmost node. -/
def flushStart (f : FlushState n) : Except CacheStop (FlushState n) :=
  let f := { f with maxSeen := minPageNumber, calls := 0, written := [] }
  match f.btree.root with
  | none => .ok (flushGoOn c none f)
  | some root => (descend f.btree.left n root).map fun node => flushGoOn c (some node) f

def btcFlush (fuel : Nat) (f : FlushState n) : Except CacheStop (FlushState n) :=
  (flushStart c f).bind fun f => flushLoop c fuel f

end

end InterBase.Btc
