import InterBase.Library.FrontCoding
import InterBase.Library.Memory
import InterBase.Machine

namespace InterBase

open Memory KeyOrder FrontCoding

abbrev Key := List UInt8

def maxKey : Nat := 256

def endLevel : Int := -1

def endBucket : Int := -2

def btnSize : Nat := 6

/-- `OFFSETA (BTR, btr_nodes)`. -/
def btrNodes : Nat := 34

/-- An index page: the header fields, and the buffer with the nodes from `btrNodes` on. -/
structure Btr where
  pagType : Nat
  btrDescending : Bool
  btrDontGc : Bool
  btrSibling : Int
  btrLeftSibling : Int
  btrPrefixTotal : Int
  btrRelation : Nat
  btrLength : Nat
  btrId : Nat
  btrLevel : Nat
  bytes : Nat → UInt8

/-- The nodes of a page are addressed by their offsets from the start of the page. -/
def btnPrefix (m : Nat → UInt8) (node : Nat) : Nat := (m node).toNat

def btnLength (m : Nat → UInt8) (node : Nat) : Nat := (m (node + 1)).toNat

def btnData (node : Nat) : Nat := node + btnSize

def nextNode (m : Nat → UInt8) (node : Nat) : Nat := btnData node + btnLength m node

theorem lt_nextNode (m : Nat → UInt8) (node : Nat) : node < nextNode m node := by
  simp only [nextNode, btnData, btnSize]
  omega

def quad (b0 b1 b2 b3 : UInt8) : Int :=
  let n := b0.toNat + 256 * b1.toNat + 65536 * b2.toNat + 16777216 * b3.toNat
  if n < 2147483648 then n else (n : Int) - 4294967296

def quadBytes (value : Int) : List UInt8 :=
  let n := (value % 4294967296).toNat
  [UInt8.ofNat n, UInt8.ofNat (n / 256), UInt8.ofNat (n / 65536), UInt8.ofNat (n / 16777216)]

def btrGetQuad (m : Nat → UInt8) (data : Nat) : Int :=
  quad (m data) (m (data + 1)) (m (data + 2)) (m (data + 3))

def quadPut (value : Int) (m : Nat → UInt8) (data : Nat) : Nat → UInt8 :=
  write m data (quadBytes value)

def quadMove (m : Nat → UInt8) (a b : Nat) : Nat → UInt8 := write m b (slice m a 4)

def btnNumber (m : Nat → UInt8) (node : Nat) : Int := btrGetQuad m (node + 2)

/-- The loop of `compute_prefix`. -/
def computePrefix (key string : Key) : Nat := common key string

/-- A node with its key in full. -/
structure Node where
  key : Key
  number : Int
deriving Repr, DecidableEq

/-- The nodes of a page, each expanded against its predecessor's key `prev`; nothing if a prefix is
longer than that key or the last node does not end where the page's data do. -/
def btrExpand (m : Nat → UInt8) (stop : Nat) (prev : Key) (node : Nat) : Option (List Node) :=
  if node < stop then
    if btnPrefix m node ≤ prev.length then
      let key := prev.take (btnPrefix m node) ++ slice m (btnData node) (btnLength m node)
      (btrExpand m stop key (nextNode m node)).map (⟨key, btnNumber m node⟩ :: ·)
    else none
  else if node = stop then some [] else none
termination_by stop - node
decreasing_by
  have := lt_nextNode m node
  omega

/-- The bytes of a node whose first `pfx` key bytes are left out. -/
def codedNode (pfx : Nat) (n : Node) : List UInt8 :=
  UInt8.ofNat pfx :: UInt8.ofNat (n.key.length - pfx) :: (quadBytes n.number ++ n.key.drop pfx)

/-- The bytes of a node behind a node with the key `prev`. -/
def nodeBytes (prev : Key) (n : Node) : List UInt8 := codedNode (common prev n.key) n

def nodesBytes (prev : Key) : List Node → List UInt8
  | [] => []
  | n :: ns => nodeBytes prev n ++ nodesBytes n.key ns

def keys (ns : List Node) : List Key := ns.map Node.key

@[simp] theorem lastKey_keys_cons (prev : Key) (n : Node) (ns : List Node) :
    lastKey prev (keys (n :: ns)) = lastKey n.key (keys ns) :=
  lastKey_cons prev n.key (keys ns)

@[simp] theorem lastKey_keys_append (prev : Key) (ns ms : List Node) :
    lastKey prev (keys (ns ++ ms)) = lastKey (lastKey prev (keys ns)) (keys ms) := by
  induction ns generalizing prev with
  | nil => rfl
  | cons n ns ih => rw [List.cons_append, lastKey_keys_cons, lastKey_keys_cons, ih]

/-- A node has a one-byte key length and a number of four bytes. -/
structure Node.Fits (n : Node) : Prop where
  short : n.key.length < maxKey
  low : -2147483648 ≤ n.number
  high : n.number < 2147483648

theorem quad_quadBytes {m : Nat → UInt8} {data : Nat} {value : Int}
    (held : Holds m data (quadBytes value)) (low : -2147483648 ≤ value)
    (high : value < 2147483648) : btrGetQuad m data = value := by
  obtain ⟨h0, held⟩ := holds_cons.mp held
  obtain ⟨h1, held⟩ := holds_cons.mp held
  obtain ⟨h2, held⟩ := holds_cons.mp held
  obtain ⟨h3, -⟩ := holds_cons.mp held
  have hn : (value % 4294967296).toNat < 4294967296 := by omega
  simp only [btrGetQuad, quad, h0, h1, h2, h3, UInt8.toNat_ofNat']
  split <;> omega

theorem length_quadBytes (value : Int) : (quadBytes value).length = 4 := rfl

theorem length_codedNode (pfx : Nat) (n : Node) :
    (codedNode pfx n).length = btnSize + (n.key.length - pfx) := by
  simp only [codedNode, List.length_cons, List.length_append, length_quadBytes, List.length_drop,
    btnSize]
  omega

theorem length_nodeBytes (prev : Key) (n : Node) :
    (nodeBytes prev n).length = btnSize + (n.key.length - common prev n.key) :=
  length_codedNode _ n

theorem nodesBytes_append (prev : Key) (ns ms : List Node) : nodesBytes prev (ns ++ ms) =
    nodesBytes prev ns ++ nodesBytes (lastKey prev (keys ns)) ms := by
  induction ns generalizing prev with
  | nil => rfl
  | cons n ns ih => simp [nodesBytes, ih, keys]

theorem length_nodesBytes (prev : Key) (ns : List Node) :
    (nodesBytes prev ns).length = btnSize * ns.length + kept prev (keys ns) := by
  induction ns generalizing prev with
  | nil => rfl
  | cons n ns ih =>
    simp only [nodesBytes, List.length_append, length_nodeBytes, ih, keys, List.map_cons, kept,
      List.length_cons]
    simp only [btnSize]
    omega

/-- What the accessors see at a node that is stored without its first `l` key bytes. -/
structure CodedAt (m : Nat → UInt8) (node l : Nat) (n : Node) : Prop where
  pfx : btnPrefix m node = l
  length : btnLength m node = n.key.length - l
  number : btnNumber m node = n.number
  data : Holds m (btnData node) (n.key.drop l)

/-- What the accessors see at a node behind a node with the key `prev`. -/
abbrev NodeAt (m : Nat → UInt8) (node : Nat) (prev : Key) (n : Node) : Prop :=
  CodedAt m node (common prev n.key) n

theorem Holds.codedAt {m : Nat → UInt8} {node pfx : Nat} {n : Node} (fits : n.Fits)
    (inside : pfx ≤ n.key.length) (held : Holds m node (codedNode pfx n)) :
    CodedAt m node pfx n := by
  obtain ⟨hp, held⟩ := holds_cons.mp held
  obtain ⟨hl, held⟩ := holds_cons.mp held
  obtain ⟨hq, hd⟩ := holds_append.mp held
  have hshort : n.key.length < 256 := fits.short
  refine ⟨?_, ?_, quad_quadBytes hq fits.low fits.high, hd⟩
  · rw [btnPrefix, hp, UInt8.toNat_ofNat']
    omega
  · rw [btnLength, hl, UInt8.toNat_ofNat']
    omega

theorem Holds.nodeAt {m : Nat → UInt8} {node : Nat} {prev : Key} {n : Node} (fits : n.Fits)
    (held : Holds m node (nodeBytes prev n)) : NodeAt m node prev n :=
  Holds.codedAt fits (common_le_right prev n.key) held

theorem CodedAt.nextNode {m : Nat → UInt8} {node pfx : Nat} {n : Node}
    (h : CodedAt m node pfx n) : nextNode m node = node + (codedNode pfx n).length := by
  rw [length_codedNode, InterBase.nextNode, btnData, h.length, Nat.add_assoc]

theorem CodedAt.slice_data {m : Nat → UInt8} {node pfx : Nat} {n : Node}
    (h : CodedAt m node pfx n) :
    slice m (btnData node) (btnLength m node) = n.key.drop pfx := by
  rw [h.length, ← List.length_drop]
  exact h.data

theorem NodeAt.nextNode {m : Nat → UInt8} {node : Nat} {prev : Key} {n : Node}
    (h : NodeAt m node prev n) : nextNode m node = node + (nodeBytes prev n).length :=
  CodedAt.nextNode h

theorem NodeAt.key {m : Nat → UInt8} {node : Nat} {prev : Key} {n : Node}
    (h : NodeAt m node prev n) :
    prev.take (btnPrefix m node) ++ slice m (btnData node) (btnLength m node) = n.key := by
  rw [h.slice_data, h.pfx, take_common_append_drop]

/-- A key buffer takes the next key by overwriting what it does not share with the last one. -/
theorem Holds.expandKey {buffer : Nat → UInt8} {prev : Key} (held : Holds buffer 0 prev)
    (key : Key) : Holds (write buffer (common prev key) (key.drop (common prev key))) 0 key := by
  have hlen : (prev.take (common prev key)).length = common prev key :=
    List.length_take_of_le (common_le_left prev key)
  rw [← List.take_append_drop (common prev key) prev, holds_append] at held
  conv_rhs => rw [← take_common_append_drop prev key]
  rw [holds_append, hlen, Nat.zero_add]
  exact ⟨held.1.write _ (Or.inl (by omega)), holds_write _ _ _⟩

/-- Expanding goes on behind stored nodes. -/
theorem btrExpand_append {m : Nat → UInt8} {prev : Key} {node stop : Nat} {ns : List Node}
    (fits : ∀ n ∈ ns, n.Fits) (held : Holds m node (nodesBytes prev ns))
    (inside : node + (nodesBytes prev ns).length ≤ stop) : btrExpand m stop prev node =
      (btrExpand m stop (lastKey prev (keys ns)) (node + (nodesBytes prev ns).length)).map
        (ns ++ ·) := by
  induction ns generalizing prev node with
  | nil => simp [nodesBytes, keys]
  | cons n ns ih =>
    obtain ⟨hn, hrest⟩ := holds_append.mp held
    have hat := Holds.nodeAt (fits n (by simp)) hn
    have hpos := length_nodeBytes prev n
    have hpfx := common_le_left prev n.key
    simp only [nodesBytes, List.length_append, btnSize] at hpos inside ⊢
    rw [btrExpand, if_pos (by omega), if_pos (by rw [hat.pfx]; omega)]
    simp only [hat.key, hat.number, hat.nextNode]
    rw [ih (fun k hk => fits k (by simp [hk])) hrest (by omega), lastKey_keys_cons, Nat.add_assoc,
      Option.map_map]
    rfl

/-- A node whose prefix is longer than the key in front of it cannot be expanded. -/
theorem btrExpand_overlong {m : Nat → UInt8} {prev : Key} {node stop pfx : Nat} {ns : List Node}
    {n : Node} (fits : ∀ k ∈ ns, k.Fits)
    (held : Holds m node (nodesBytes prev ns ++ codedNode pfx n)) (small : pfx < 256)
    (overlong : (lastKey prev (keys ns)).length < pfx)
    (inside : node + (nodesBytes prev ns).length < stop) : btrExpand m stop prev node = none := by
  obtain ⟨hfront, hn⟩ := holds_append.mp held
  rw [btrExpand_append fits hfront (Nat.le_of_lt inside), btrExpand, if_pos inside, if_neg]
  · rfl
  · rw [btnPrefix, (holds_cons.mp hn).1, UInt8.toNat_ofNat']
    omega

/-- Expanding the stored nodes gives the nodes back. -/
theorem btrExpand_of_holds {m : Nat → UInt8} {prev : Key} {node : Nat} {ns : List Node}
    (fits : ∀ n ∈ ns, n.Fits) (held : Holds m node (nodesBytes prev ns)) :
    btrExpand m (node + (nodesBytes prev ns).length) prev node = some ns := by
  rw [btrExpand_append fits held (Nat.le_refl _), btrExpand, if_neg (by omega), if_pos rfl]
  simp

/-- The order of the nodes on a page; the end of a level is behind every key. -/
def Node.NotAfter (descending : Bool) (m n : Node) : Prop :=
  n.number = endLevel ∨ KeyOrder.NotAfter descending m.key n.key

instance (descending : Bool) (m n : Node) : Decidable (m.NotAfter descending n) :=
  inferInstanceAs (Decidable (_ ∨ _))

/-- The nodes that take part in a search: on the upper levels of a descending index a first node
without data is passed over. -/
def searched (descending : Bool) (level : Nat) : List Node → List Node
  | [] => []
  | n :: ns => if level ≠ 0 ∧ descending = true ∧ n.key = [] then ns else n :: ns

theorem searched_append {descending : Bool} {level : Nat} {ns : List Node} (h : ns ≠ [])
    (ms : List Node) :
    searched descending level (ns ++ ms) = searched descending level ns ++ ms := by
  cases ns with
  | nil => exact absurd rfl h
  | cons n ns =>
    rw [List.cons_append, searched, searched]
    split <;> rfl

/-- An end marker; the end of a level has no key. -/
def Node.IsMark (n : Node) : Prop := n.number = endBucket ∨ n.number = endLevel ∧ n.key = []

theorem isMark_endLevel : Node.IsMark ⟨[], endLevel⟩ := Or.inr ⟨rfl, rfl⟩

/-- The contents of a well-formed index page: the nodes in the order of the index and the marker
that closes them. -/
structure IndexPage (descending : Bool) (level : Nat) where
  entries : List Node
  mark : Node
  numbered : ∀ n ∈ entries, 0 ≤ n.number
  marked : mark.IsMark
  fits : ∀ n ∈ entries ++ [mark], n.Fits
  sorted : (searched descending level (entries ++ [mark])).Pairwise (Node.NotAfter descending)

def IndexPage.nodes {descending : Bool} {level : Nat} (page : IndexPage descending level) :
    List Node :=
  page.entries ++ [page.mark]

/-- Only the last node of a page has a negative number. -/
theorem IndexPage.rest_of_neg {descending : Bool} {level : Nat} {page : IndexPage descending level}
    {before rest : List Node} {n : Node} (nodes : page.nodes = before ++ n :: rest)
    (neg : n.number < 0) : rest = [] := by
  rcases List.eq_nil_or_concat' rest with hrest | ⟨more, last, rfl⟩
  · exact hrest
  · have happ : page.entries ++ [page.mark] = (before ++ n :: more) ++ [last] := by
      rw [show page.entries ++ [page.mark] = page.nodes from rfl, nodes]
      simp
    have := page.numbered n (by rw [(List.append_inj' happ rfl).1]; simp)
    omega

/-- The page buffer holds these nodes, each compressed as far as it goes against the one before
it, and `btr_length` is where the last of them ends. -/
structure Btr.Stores (bucket : Btr) {descending : Bool} {level : Nat}
    (page : IndexPage descending level) : Prop where
  level : bucket.btrLevel = level
  held : Holds bucket.bytes btrNodes (nodesBytes [] page.nodes)
  length : bucket.btrLength = btrNodes + (nodesBytes [] page.nodes).length

/-- A page with these contents, freshly formatted. -/
def IndexPage.bucket {descending : Bool} {level : Nat} (page : IndexPage descending level) : Btr where
  pagType := 7
  btrDescending := descending
  btrDontGc := false
  btrSibling := 0
  btrLeftSibling := 0
  btrPrefixTotal := prefixes [] (keys page.nodes)
  btrRelation := 0
  btrLength := btrNodes + (nodesBytes [] page.nodes).length
  btrId := 0
  btrLevel := level
  bytes := write (fun _ => 0) btrNodes (nodesBytes [] page.nodes)

theorem IndexPage.bucket_stores {descending : Bool} {level : Nat}
    (page : IndexPage descending level) : page.bucket.Stores page :=
  ⟨rfl, holds_write _ _ _, rfl⟩

theorem Btr.Stores.expand {bucket : Btr} {descending : Bool} {level : Nat}
    {page : IndexPage descending level} (h : bucket.Stores page) :
    btrExpand bucket.bytes bucket.btrLength [] btrNodes = some page.nodes := by
  rw [h.length]
  exact btrExpand_of_holds page.fits h.held

end InterBase
