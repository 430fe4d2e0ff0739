import InterBase.BtrInsert

namespace InterBase

open Memory KeyOrder FrontCoding

/-- What `delete_node` and `garbage_collect` tell about the page they took a node from. -/
inductive Contents where
  | empty
  | single
  | belowThreshold
  | aboveThreshold
deriving Repr, DecidableEq

def garbageCollectionThreshold (pageSize : Nat) : Nat := pageSize / 4

def pageContents (pageSize : Nat) (page : Btr) : Contents :=
  let node := btrNodes
  if btnNumber page.bytes node < 0 then .empty
  else if btnNumber page.bytes (nextNode page.bytes node) < 0 then .single
  else if page.btrLength < garbageCollectionThreshold pageSize then .belowThreshold
  else .aboveThreshold

/-- `delete_node` on the buffer of the page. -/
def removeNode (page : Btr) (node : Nat) : Btr :=
  let m := page.bytes
  let next := nextNode m node
  let m := quadMove m (next + 2) (node + 2)
  let q := btnData next
  let l := btnLength m next
  let (m, p, prefixTotal) :=
    if btnPrefix m node < btnPrefix m next then
      (write m (node + 1) [UInt8.ofNat (btnLength m next + btnPrefix m next - btnPrefix m node)],
        btnData node + (btnPrefix m next - btnPrefix m node), page.btrPrefixTotal)
    else
      let m' := write m (node + 1) [UInt8.ofNat l]
      (write m' node [UInt8.ofNat (btnPrefix m' next)], btnData node,
        page.btrPrefixTotal - btnPrefix m node)
  let m := copyUp m q p l
  let rest := page.btrLength - (q + l)
  { page with
    bytes := move m (q + l) (p + l) rest
    btrPrefixTotal := prefixTotal
    btrLength := p + l + rest }

def deleteNode (pageSize : Nat) (page : Btr) (node : Nat) : Contents × Btr :=
  let page := removeNode page node
  (pageContents pageSize page, page)

/-- The last node of the left sibling, with `last_key`; nothing when the loop leaves the page. -/
def lastNodeLoop (m : Nat → UInt8) (stop lastNode : Nat) (lastKey : Nat → UInt8)
    (keyLength : Nat) : Option (Nat × Key) :=
  if lastNode < stop then
    if 0 ≤ btnNumber m lastNode then
      if btnLength m lastNode ≠ 0 then
        lastNodeLoop m stop (nextNode m lastNode)
          (write lastKey (btnPrefix m lastNode) (slice m (btnData lastNode) (btnLength m lastNode)))
          (btnPrefix m lastNode + btnLength m lastNode)
      else lastNodeLoop m stop (nextNode m lastNode) lastKey keyLength
    else some (lastNode, slice lastKey 0 keyLength)
  else none
termination_by stop - lastNode
decreasing_by
  all_goals
    have := lt_nextNode m lastNode
    omega

/-- Move all the nodes of `gcPage` to the left sibling, overwriting its end marker. -/
def mergePage (leftPage gcPage : Btr) (lastNode pfx : Nat) : Btr :=
  let node := btrNodes
  let m := write leftPage.bytes lastNode [UInt8.ofNat pfx]
  let m := write m (lastNode + 1) [UInt8.ofNat (btnLength gcPage.bytes node - pfx)]
  let m := write m (lastNode + 2) (slice gcPage.bytes (node + 2) 4)
  let p := btnData lastNode
  let q := btnData node + pfx
  let l := gcPage.btrLength - q
  { leftPage with
    bytes := write m p (slice gcPage.bytes q l)
    btrPrefixTotal := leftPage.btrPrefixTotal +
      (gcPage.btrPrefixTotal + pfx - btnPrefix leftPage.bytes lastNode)
    btrLength := p + l }

/-- The test for enough space on the left page, with some extra space for expansion. -/
def mergeFits (pageSize : Nat) (leftPage gcPage : Btr) (lastNode pfx : Nat) : Prop :=
  (leftPage.btrLength + gcPage.btrLength - pfx - btnLength leftPage.bytes lastNode - btnSize -
    btrNodes : Int) ≤ pageSize - maxKey

instance (pageSize : Nat) (leftPage gcPage : Btr) (lastNode pfx : Nat) :
    Decidable (mergeFits pageSize leftPage gcPage lastNode pfx) :=
  inferInstanceAs (Decidable (_ ≤ _))

/-- `garbage_collect` once it has found the left sibling and the node of the parent page that
points to the page `win`; `keyData` is what `last_key` held before. The inner nothing is a return
of `contents_above_threshold` that leaves all pages alone. -/
def garbageCollect (pageSize : Nat) (pages : Int → Btr) (parent : Int) (parentNode : Nat)
    (left win : Int) (keyData : Nat → UInt8) : Option (Option (Contents × (Int → Btr))) :=
  let gcPage := pages win
  let right := gcPage.btrSibling
  if garbageCollectionThreshold pageSize ≤ gcPage.btrLength ∨ gcPage.btrDontGc then some none
  else if right ≠ 0 ∧ (pages right).btrLeftSibling ≠ win then some none
  else if parentNode = btrNodes then some none
  else
    match lastNodeLoop (pages left).bytes (pages left).btrLength btrNodes keyData 0 with
    | none => none
    | some (lastNode, lastKey) =>
      let node := btrNodes
      let pfx := computePrefix lastKey
        (slice gcPage.bytes (btnData node) (btnLength gcPage.bytes node)) % 256
      if mergeFits pageSize (pages left) gcPage lastNode pfx then
        let (result, parentPage) := deleteNode pageSize (pages parent) parentNode
        let pages' := setPage pages parent parentPage
        let pages' :=
          if right ≠ 0 then setPage pages' right { pages' right with btrLeftSibling := left }
          else pages'
        some (some (result, setPage pages' left
          (mergePage { pages left with btrSibling := right } gcPage lastNode pfx)))
      else some none

end InterBase
