import InterBase.SortKey

namespace InterBase

open Memory

/-- What stops a sort: an access outside of the pointers or of the words of a record, no room on
the stack of intervals, or a loop that goes on. -/
inductive SortFault where
  | outside
  | stackFull
  | unfinished
deriving Repr, DecidableEq

structure Scb where
  order : ByteOrder
  scbDescription : List Skd
  scbLongs : Nat
  scbRecords : Nat
  scbDupCallback : Bool

/-- The pointers between and including the guards, the pointers back from the records, and the
records: slot 0 and record 0 are the ones of `low_key`, those behind the last record of `high_key`.
A slot that holds `NULL` or lies beyond the guards points to no record. -/
structure SortMemory where
  pointers : Nat → Option Nat
  bckptr : Nat → Option Nat
  records : Nat → Nat → UInt8

/-- The stack of intervals, the one on top first. -/
structure Quick where
  stack : List (Nat × Nat)
  memory : SortMemory

section

variable (scb : Scb)

/-- How many longwords there are: `low_key`, `high_key` or a record. -/
def recordLongs (id : Nat) : Nat :=
  if id = 0 then 6 else if id = scb.scbRecords + 1 then 64 else scb.scbLongs - 1

/-- The records that were put, in the order in which they were put. -/
def SortMemory.start (records : Nat → Nat → UInt8) : SortMemory where
  pointers i := if i ≤ scb.scbRecords + 1 then some i else none
  bckptr i := if 1 ≤ i ∧ i ≤ scb.scbRecords then some i else none
  records id :=
    if id = 0 then fun _ => 0 else if id = scb.scbRecords + 1 then fun _ => 255 else records id

def SortMemory.pointer (s : SortMemory) (slot : Nat) : Except SortFault Nat :=
  match s.pointers slot with
  | some id => .ok id
  | none => .error .outside

def SortMemory.words (s : SortMemory) (id : Nat) : List Nat :=
  (List.range (recordLongs scb id)).map (longword scb.order (s.records id))

def firstWord : List Nat → Except SortFault Nat
  | word :: _ => .ok word
  | [] => .error .outside

/-- `tl = length - 1; while (tl && *p == *q) {p++; q++; tl--;}`: how far it comes, and how the next
two words compare unless `tl` is 0. -/
def compareWords : Nat → List Nat → List Nat → Except SortFault (Nat × Ordering)
  | 0, _, _ => .ok (0, .eq)
  | tl + 1, x :: p, y :: q =>
    if x = y then
      match compareWords tl p q with
      | .ok compared => .ok (compared.1 + 1, compared.2)
      | .error fault => .error fault
    else .ok (0, cmp x y)
  | _ + 1, _, _ => .error .outside

def SortMemory.compare (s : SortMemory) (i r : Nat) : Except SortFault Ordering := do
  let p ← s.pointer i
  let q ← s.pointer r
  let compared ← compareWords (scb.scbLongs - 1) (s.words scb p) (s.words scb q)
  return compared.2

/-- `**i`. -/
def SortMemory.first (s : SortMemory) (i : Nat) : Except SortFault Nat := do
  let p ← s.pointer i
  firstWord (s.words scb p)

/-- Swap two pointers, and where their records point back to. -/
def SortMemory.exchange (s : SortMemory) (x y : Nat) : Except SortFault SortMemory := do
  let p ← s.pointer x
  let q ← s.pointer y
  return { s with
    pointers := Function.update (Function.update s.pointers x (some q)) y (some p)
    bckptr := Function.update (Function.update s.bckptr p (some y)) q (some x) }

/-- `while (**i < key) i++;` -/
def skipLess (s : SortMemory) (key : Nat) : Nat → Nat → Except SortFault Nat
  | 0, _ => .error .unfinished
  | left + 1, i => do
    let word ← s.first scb i
    if word < key then skipLess s key left (i + 1) else return i

/-- The records that are equal to the one in `r` in their first words, or come before it. -/
def passUp (s : SortMemory) (r : Nat) : Nat → Nat → Except SortFault Nat
  | 0, _ => .error .unfinished
  | left + 1, i => do
    let compared ← s.compare scb i r
    if compared = .gt then return i else passUp s r left (i + 1)

def scanUp (s : SortMemory) (key r i : Nat) : Except SortFault Nat := do
  let i ← skipLess scb s key (scb.scbRecords + 2) i
  let word ← s.first scb i
  if word = key then passUp scb s r (scb.scbRecords + 2) i else return i

/-- `while (**j > key) j--;` -/
def skipGreater (s : SortMemory) (key : Nat) : Nat → Except SortFault Nat
  | 0 => do
    let word ← s.first scb 0
    if key < word then .error .outside else return 0
  | j + 1 => do
    let word ← s.first scb (j + 1)
    if key < word then skipGreater s key j else return j + 1

def passDown (s : SortMemory) (r : Nat) : Nat → Except SortFault Nat
  | 0 => if r = 0 then return 0 else .error .outside
  | j + 1 =>
    if j + 1 = r then return j + 1
    else do
      let compared ← s.compare scb (j + 1) r
      if compared = .lt then return j + 1 else passDown s r j

def scanDown (s : SortMemory) (key r j : Nat) : Except SortFault Nat := do
  let j ← skipGreater scb s key j
  let word ← s.first scb j
  if word = key then passDown scb s r j else return j

/-- From each end of the interval converge to the middle swapping out of partition records as we
go. Stop when we converge. -/
def converge (key r : Nat) : Nat → Nat → Nat → SortMemory → Except SortFault (Nat × SortMemory)
  | 0, _, _, _ => .error .unfinished
  | left + 1, i, j, s => do
    let i ← scanUp scb s key r i
    let j ← scanDown scb s key r j
    if i ≥ j then return (j, s)
    else do
      let s ← s.exchange i j
      converge key r left (i + 1) (j - 1) s

/-- The middle record of an interval. -/
def middle (r j : Nat) : Nat := r + (j - r) / 2

/-- Partition an interval around its middle record: where that ends up. -/
def partition (s : SortMemory) (r j : Nat) : Except SortFault (Nat × SortMemory) := do
  let s ← s.exchange r (middle r j)
  let key ← s.first scb r
  let converged ← converge scb key r (scb.scbRecords + 1) (r + 1) j s
  let s ← converged.2.exchange r converged.1
  return (converged.1, s)

/-- Stack the two intervals, longest first. -/
def pushIntervals (r k j : Nat) (stack : List (Nat × Nat)) : List (Nat × Nat) :=
  if k - r > j - k + 1 then (k + 1, j) :: (r, k - 1) :: stack
  else (r, k - 1) :: (k + 1, j) :: stack

/-- Pick up the next interval off the stack. If two or less, defer the sort to a final pass. -/
def quickStep (q : Quick) : Except SortFault Quick :=
  match q.stack with
  | [] => .ok q
  | (r, j) :: stack =>
    if j < r + 2 then .ok ⟨stack, q.memory⟩
    else do
      let partitioned ← partition scb q.memory r j
      let stack := pushIntervals r partitioned.1 j stack
      if stack.length ≤ 50 then return ⟨stack, partitioned.2⟩ else .error .stackFull

def quickLoop : Nat → Quick → Except SortFault SortMemory
  | 0, _ => .error .unfinished
  | left + 1, q =>
    if q.stack = [] then .ok q.memory
    else do
      let q ← quickStep scb q
      quickLoop left q

def quickStart (s : SortMemory) : Quick := ⟨[(1, scb.scbRecords)], s⟩

def quick (s : SortMemory) : Except SortFault SortMemory :=
  quickLoop scb (2 * scb.scbRecords + 2) (quickStart scb s)

/-- Scream through and correct any out of order pairs. -/
def fixPairs : Nat → Nat → SortMemory → Except SortFault SortMemory
  | 0, _, s => .ok s
  | left + 1, i, s => do
    let x ← s.first scb i
    let y ← s.first scb (i + 1)
    if x ≥ y then do
      let compared ← s.compare scb i (i + 1)
      if compared = .gt then do
        let s ← s.exchange i (i + 1)
        fixPairs left (i + 1) s
      else fixPairs left (i + 1) s
    else fixPairs left (i + 1) s

/-- `diddle_key` on a record in memory. -/
def SortMemory.diddle (s : SortMemory) (direction : Bool) (id : Nat) : SortMemory :=
  { s with
    records := Function.update s.records id
      (diddleKey scb.order scb.scbDescription false direction (s.records id)) }

/-- A record is dropped in favour of the next one: the callback answered `TRUE`. -/
def SortMemory.drop (s : SortMemory) (slot p q : Nat) : SortMemory :=
  let s := (s.diddle scb false p).diddle scb false q
  let s := { s with
    pointers := Function.update s.pointers slot none
    bckptr := Function.update s.bckptr p none }
  s.diddle scb true q

/-- Make another pass and eliminate duplicates. -/
def dropDuplicates : Nat → Nat → SortMemory → Except SortFault SortMemory
  | 0, _, s => .ok s
  | left + 1, i, s => do
    let x ← s.first scb i
    let y ← s.first scb (i + 1)
    if x ≠ y then dropDuplicates left (i + 1) s
    else do
      let p ← s.pointer i
      let q ← s.pointer (i + 1)
      let compared ← compareWords (scb.scbLongs - 1) (s.words scb p) (s.words scb q)
      if scbKeyLength scb.scbDescription ≤ compared.1 then
        dropDuplicates left (i + 1) (s.drop scb i p q)
      else dropDuplicates left (i + 1) s

def sort (s : SortMemory) : Except SortFault SortMemory := do
  let s ← quick scb s
  let s ← fixPairs scb scb.scbRecords 1 s
  if scb.scbDupCallback then dropDuplicates scb scb.scbRecords 1 s else return s

end

end InterBase
