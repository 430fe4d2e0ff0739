import InterBase.BtrFindLeaf

namespace InterBase

open Memory KeyOrder FrontCoding

/-- The insertion block, with the flags of its index descriptor. -/
structure Iib where
  iibNumber : Int
  iibSibling : Int
  iibKey : Key
  idxUnique : Bool
  idxDescending : Bool

/-- Where `insert_node` inserts: the node that moves up, the prefix of the new node, and what is
left of the node that moves up. -/
structure InsertionPoint where
  node : Nat
  pfx : Nat
  oldPrefix : Nat
  oldLength : Nat
  oldNumber : Int
deriving Repr, DecidableEq

section

variable (m : Nat → UInt8)

/-- `if (*p++ != *q++) break; --old_length; old_prefix++`: the new prefix and length of a node
behind the new key, of which `xs` is left. -/
def recompress : Key → Nat → Nat → Nat → Nat × Nat
  | x :: xs, q, oldLength + 1, oldPrefix =>
    if x ≠ m q then (oldPrefix, oldLength + 1) else recompress xs (q + 1) oldLength (oldPrefix + 1)
  | _, _, oldLength, oldPrefix => (oldPrefix, oldLength)

/-- What a duplicate chain leads to: the end of the bucket or a node. -/
inductive Chain where
  | wrongBucket
  | node (node : Nat)
deriving Repr, DecidableEq

/-- `while (old_number != insertion->iib_sibling)` from a node that is not the sibling. -/
def skipDuplicates (stop : Nat) (sibling : Int) (node : Nat) : Option Chain :=
  if nextNode m node < stop then
    if btnLength m (nextNode m node) ≠ 0 then some (.node (nextNode m node))
    else if btnNumber m (nextNode m node) = endBucket then some .wrongBucket
    else if btnNumber m (nextNode m node) = endLevel ∨ btnNumber m (nextNode m node) = sibling then
      some (.node (nextNode m node))
    else skipDuplicates stop sibling (nextNode m node)
  else none
termination_by stop - node
decreasing_by
  have := lt_nextNode m node
  omega

theorem lt_skipDuplicates {stop : Nat} {sibling : Int} {node next : Nat}
    (h : skipDuplicates m stop sibling node = some (.node next)) : node < next ∧ next < stop := by
  fun_induction skipDuplicates m stop sibling node with
  | case1 node hlt hl =>
    cases h
    exact ⟨lt_nextNode m node, hlt⟩
  | case2 => cases h
  | case3 node hlt hl hb he =>
    cases h
    exact ⟨lt_nextNode m node, hlt⟩
  | case4 node hlt hl hb he ih =>
    have := ih h
    have := lt_nextNode m node
    omega
  | case5 => cases h

/-- The search for the insertion point among equivalent nodes; the inner nothing is the return
of -1. -/
def insertionLoop (stop : Nat) (key : Key) (level : Nat) (sibling : Int) (node pfx : Nat) :
    Option (Option InsertionPoint) :=
  if node < stop ∧ btnPrefix m node ≤ key.length then
    let oldNumber := btnNumber m node
    let old := recompress m (key.drop (btnPrefix m node)) (btnData node) (btnLength m node)
      (btnPrefix m node)
    let point : InsertionPoint := ⟨node, pfx, old.1, old.2, oldNumber⟩
    if old.1 ≠ key.length ∨ old.1 ≠ btnLength m node + btnPrefix m node then some (some point)
    else if oldNumber = endBucket then some none
    else if oldNumber = endLevel ∨ level = 0 ∨ oldNumber = sibling then some (some point)
    else
      match _skip : skipDuplicates m stop sibling node with
      | none => none
      | some .wrongBucket => some none
      | some (.node next) => insertionLoop stop key level sibling next old.1
  else none
termination_by stop - node
decreasing_by
  have := lt_skipDuplicates m _skip
  omega

/-- The records under the same key that follow a new node in a unique index. -/
def duplicateLoop (stop keyLength node : Nat) : List Int :=
  if node < stop ∧ btnLength m node = 0 ∧ btnPrefix m node = keyLength ∧ 0 ≤ btnNumber m node then
    btnNumber m node :: duplicateLoop stop keyLength (nextNode m node)
  else []
termination_by stop - node
decreasing_by
  have := lt_nextNode m node
  omega

/-- `for (p = bucket->btr_nodes; p < midpoint;)`: the node that reaches the midpoint, the prefixes
up to it and `new_key` with its length. -/
def splitLoop (midpoint node p : Nat) (prefixTotal : Int) (newKey : Nat → UInt8)
    (keyLength : Nat) : Nat × Int × (Nat → UInt8) × Nat :=
  if p < midpoint then
    splitLoop midpoint p (nextNode m p) (prefixTotal + btnPrefix m p)
      (write newKey (btnPrefix m p) (slice m (btnData p) (btnLength m p)))
      (btnPrefix m p + btnLength m p)
  else (node, prefixTotal, newKey, keyLength)
termination_by midpoint - p
decreasing_by
  have := lt_nextNode m p
  omega

end

/-- The first part of `insert_node`; nothing when it leaves the data of the page. -/
def findInsertion (bucket : Btr) (iib : Iib) : Option (Option InsertionPoint) :=
  match btrFindLeaf bucket iib.iibKey iib.idxDescending false with
  | none => none
  | some .null => some none
  | some (.node node pfx) =>
    insertionLoop bucket.bytes bucket.btrLength iib.iibKey bucket.btrLevel iib.iibSibling node pfx

/-- The bytes that an insertion adds to a page. -/
def insertionDelta (bucket : Btr) (key : Key) (point : InsertionPoint) : Nat :=
  (((btnSize + key.length - point.pfx : Int) + btnPrefix bucket.bytes point.node - point.oldPrefix) %
    65536).toNat

/-- Slide down the upper hunk, insert the new node and rebuild the next one. -/
def insertAt (bucket : Btr) (iib : Iib) (point : InsertionPoint) : Btr :=
  let delta := insertionDelta bucket iib.iibKey point
  let node := point.node
  let m := copyDown bucket.bytes bucket.btrLength (bucket.btrLength + delta)
    (bucket.btrLength - node)
  let prefixTotal := bucket.btrPrefixTotal + (point.pfx - btnPrefix m node)
  let m := write m node [UInt8.ofNat point.pfx]
  let m := quadPut iib.iibNumber m (node + 2)
  let m := write m (node + 1) [UInt8.ofNat (iib.iibKey.length - point.pfx)]
  let m := write m (btnData node) ((iib.iibKey.drop point.pfx).take (btnLength m node))
  let next := nextNode m node
  let m := write m next [UInt8.ofNat point.oldPrefix]
  let m := write m (next + 1) [UInt8.ofNat point.oldLength]
  let m := quadPut point.oldNumber m (next + 2)
  { bucket with
    bytes := m
    btrLength := ushort (bucket.btrLength + delta)
    btrPrefixTotal := prefixTotal + point.oldPrefix }

/-- The midpoint of a split: the new node if it is the last one and fits, else half the page. -/
def splitMidpoint (pageSize : Nat) (bucket : Btr) (point : InsertionPoint) : Nat :=
  if point.oldNumber < 0 ∧ nextNode bucket.bytes point.node ≤ pageSize then point.node
  else (pageSize - btrNodes) / 2

/-- The old page, the new page and the key for the level above. -/
structure Split where
  bucket : Btr
  split : Btr
  newKey : Key

/-- The second part of `insert_node`: `bucket` is the overflow area, `window` the page as it still
stands in its buffer, `fresh` the page just allocated and `keyData` what `new_key` held before. -/
def splitBucket (pageSize : Nat) (bucket window fresh : Btr) (winPage splitPage : Int)
    (keyData : Nat → UInt8) (node : Nat) (point : InsertionPoint) : Split :=
  let (node, prefixTotal, keyData, keyLength) :=
    splitLoop bucket.bytes (splitMidpoint pageSize bucket point) node btrNodes 0 keyData 0
  let newKey := slice keyData 0 keyLength
  let first := write fresh.bytes btrNodes [0]
  let first := write first (btrNodes + 2) (slice bucket.bytes (node + 2) 4)
  let first := write first (btrNodes + 1) [UInt8.ofNat newKey.length]
  let first := write first (btnData btrNodes) (newKey.take (btnLength first btrNodes))
  let p := nextNode first btrNodes
  let q := nextNode bucket.bytes node
  let l := bucket.btrLength - q
  let split : Btr :=
    { pagType := bucket.pagType
      btrDescending := fresh.btrDescending || bucket.btrDescending
      btrDontGc := fresh.btrDontGc
      btrSibling := bucket.btrSibling
      btrLeftSibling := winPage
      btrPrefixTotal := bucket.btrPrefixTotal - prefixTotal
      btrRelation := bucket.btrRelation
      btrLength := p + l
      btrId := bucket.btrId
      btrLevel := bucket.btrLevel
      bytes := write first p (slice bucket.bytes q l) }
  let m := quadPut endBucket bucket.bytes (node + 2)
  let length := nextNode m node
  -- `btr_dont_gc` is set in the overflow area only after it has been copied back
  { bucket :=
      { bucket with
        btrSibling := splitPage
        btrPrefixTotal := prefixTotal - btnPrefix bucket.bytes node
        btrLength := length
        bytes := fun i => if i < length then m i else window.bytes i }
    split := split
    newKey := newKey }

inductive InsertResult where
  | wrongBucket
  | fits
  | split (newKey : Key) (rightSibling : Int)

def setPage (pages : Int → Btr) (number : Int) (page : Btr) : Int → Btr :=
  fun n => if n = number then page else pages n

@[simp] theorem setPage_same (pages : Int → Btr) (number : Int) (b : Btr) :
    setPage pages number b number = b := if_pos rfl

theorem setPage_other (pages : Int → Btr) (b : Btr) {number n : Int} (h : n ≠ number) :
    setPage pages number b n = pages n := if_neg h

/-- The pages after a split: the new page, the old one, and the link back from the right sibling. -/
def splitPages (pageSize : Nat) (pages : Int → Btr) (winPage splitPage : Int)
    (keyData : Nat → UInt8) (bucket : Btr) (point : InsertionPoint) :
    InsertResult × (Int → Btr) :=
  let next := nextNode bucket.bytes point.node
  let s := splitBucket pageSize bucket (pages winPage) (pages splitPage) winPage splitPage keyData
    next point
  let rightSibling := bucket.btrSibling
  let pages := setPage (setPage pages splitPage s.split) winPage s.bucket
  let pages :=
    if rightSibling ≠ 0 then
      setPage pages rightSibling { pages rightSibling with btrLeftSibling := splitPage }
    else pages
  (.split s.newKey rightSibling, pages)

/-- `iib_duplicates` after the look at the nodes behind the new one. -/
def foundDuplicates (bucket : Btr) (iib : Iib) (point : InsertionPoint) : List Int :=
  if iib.idxUnique then
    duplicateLoop bucket.bytes bucket.btrLength iib.iibKey.length (nextNode bucket.bytes point.node)
  else []

/-- `insert_node`: its result, the pages it leaves and the duplicates it found. `splitPage` is the
page that `DPM_allocate` gives out when one is needed; nothing when the search leaves the page. -/
def insertNode (pageSize : Nat) (pages : Int → Btr) (winPage splitPage : Int)
    (keyData : Nat → UInt8) (iib : Iib) : Option (InsertResult × (Int → Btr) × List Int) :=
  match findInsertion (pages winPage) iib with
  | none => none
  | some none => some (.wrongBucket, pages, [])
  | some (some point) =>
    let bucket := insertAt (pages winPage) iib point
    let duplicates := foundDuplicates bucket iib point
    if bucket.btrLength ≤ pageSize then
      some (.fits, setPage pages winPage bucket, duplicates)
    else
      let (result, pages) := splitPages pageSize pages winPage splitPage keyData bucket point
      some (result, pages, duplicates)

end InterBase
