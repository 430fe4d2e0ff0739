import InterBase.BtrDelete

namespace InterBase

open Memory KeyOrder FrontCoding

variable {descending : Bool} {level : Nat}

/-- The key of the last node with data, in front of which nothing but `whole` is known. -/
def lastData : Key → Key → List Node → Key
  | whole, _, [] => whole
  | whole, prev, n :: ns =>
    lastData (if common prev n.key = n.key.length then whole else n.key) n.key ns

theorem lastNodeLoop_eq {m key : Nat → UInt8} {whole prev : Key} {node : Nat} {es : List Node}
    {mark : Node} (fits : ∀ n ∈ es ++ [mark], n.Fits) (numbered : ∀ n ∈ es, 0 ≤ n.number)
    (neg : mark.number < 0) (held : Holds m node (nodesBytes prev (es ++ [mark])))
    (known : Holds key 0 whole) (pre : prev <+: whole) :
    lastNodeLoop m (node + (nodesBytes prev (es ++ [mark])).length) node key whole.length =
      some (node + (nodesBytes prev es).length, lastData whole prev es) := by
  induction es generalizing key whole prev node with
  | nil =>
    obtain ⟨hn, -⟩ := holds_append.mp held
    have hat := Holds.nodeAt (fits mark (by simp)) hn
    have hpos := length_nodeBytes prev mark
    simp only [btnSize] at hpos
    rw [lastNodeLoop, if_pos (by simp only [List.nil_append, nodesBytes, List.length_append]; omega),
      if_neg (by rw [hat.number]; omega), known, nodesBytes, lastData]
    rfl
  | cons n es ih =>
    obtain ⟨hn, hrest⟩ := holds_append.mp held
    have hat := Holds.nodeAt (fits n (by simp)) hn
    have hpos := length_nodeBytes prev n
    have hle := common_le_right prev n.key
    have hnumber := numbered n (by simp)
    have hfits : ∀ k ∈ es ++ [mark], k.Fits := fun k hk => fits k (List.mem_cons_of_mem n hk)
    have hnumbered : ∀ k ∈ es, 0 ≤ k.number := fun k hk => numbered k (List.mem_cons_of_mem n hk)
    simp only [btnSize] at hpos
    rw [List.cons_append, nodesBytes, nodesBytes, List.length_append, List.length_append,
      ← Nat.add_assoc, ← Nat.add_assoc, lastNodeLoop, if_pos (by omega),
      if_pos (by rw [hat.number]; exact hnumber), hat.nextNode, lastData]
    by_cases hzero : common prev n.key = n.key.length
    · have hfront : n.key <+: whole := (isPrefix_of_common hzero).trans pre
      rw [if_neg (by rw [hat.length]; omega), if_pos hzero]
      exact ih hfits hnumbered hrest known hfront
    · have hwritten : Holds (write key (btnPrefix m node) (slice m (btnData node)
          (btnLength m node))) 0 n.key := by
        obtain ⟨tail, rfl⟩ := pre
        rw [hat.slice_data, hat.pfx]
        exact Holds.expandKey (holds_append.mp known).1 n.key
      rw [if_pos (by rw [hat.length]; omega), if_neg hzero, hat.pfx, hat.length,
        Nat.add_sub_cancel' hle]
      rw [hat.pfx, hat.length] at hwritten
      exact ih hfits hnumbered hrest hwritten List.prefix_rfl

/-- The key before the end of some nodes is a prefix of the last key with data, and not before it. -/
theorem lastKey_lastData {whole prev : Key} {ns : List Node}
    (start : whole = [] ∧ prev = [] ∨ prev <+: whole ∧ KeyOrder.NotAfter descending whole prev ∧
      ∀ n ∈ ns, KeyOrder.NotAfter descending whole n.key)
    (sorted : ns.Pairwise fun m n => KeyOrder.NotAfter descending m.key n.key) :
    lastKey prev (keys ns) <+: lastData whole prev ns ∧
      KeyOrder.NotAfter descending (lastData whole prev ns) (lastKey prev (keys ns)) := by
  induction ns generalizing whole prev with
  | nil =>
    rcases start with ⟨rfl, rfl⟩ | ⟨hpre, hle, -⟩
    · exact ⟨List.prefix_rfl, notAfter_refl []⟩
    · exact ⟨hpre, hle⟩
  | cons n ns ih =>
    obtain ⟨hfirst, hrest⟩ := List.pairwise_cons.mp sorted
    rw [lastKey_keys_cons, lastData]
    by_cases hzero : common prev n.key = n.key.length
    · rw [if_pos hzero]
      have hfront := isPrefix_of_common hzero
      refine ih ?_ hrest
      rcases start with ⟨rfl, rfl⟩ | ⟨hpre, -, hall⟩
      · exact Or.inl ⟨rfl, List.prefix_nil.mp hfront⟩
      · exact Or.inr ⟨hfront.trans hpre, hall n (by simp), fun k hk => hall k (by simp [hk])⟩
    · rw [if_neg hzero]
      exact ih (Or.inr ⟨List.prefix_rfl, notAfter_refl _, hfirst⟩) hrest

/-- The nodes of one page in front of those of another, in the order of the index. -/
def Adjacent (left right : IndexPage descending level) : Prop :=
  (searched descending level (left.entries ++ right.nodes)).Pairwise (Node.NotAfter descending)

section

variable {left right : IndexPage descending level}

theorem IndexPage.sorted_keys (page : IndexPage descending level) :
    (searched descending level page.entries).Pairwise
      fun m n => KeyOrder.NotAfter descending m.key n.key := by
  have hsorted := page.sorted
  rcases List.eq_nil_or_concat' page.entries with hnil | ⟨front, q, hq⟩
  · rw [hnil]
    exact List.Pairwise.nil
  · rw [searched_append (by rw [hq]; simp), List.pairwise_append] at hsorted
    refine hsorted.1.imp_of_mem fun {m n} _ hn h => h.resolve_left fun hl => ?_
    have := page.numbered n ((searched_sublist _ _ _).mem hn)
    simp only [endLevel] at hl
    omega

/-- A first node without data changes nothing in front of the second one. -/
theorem searched_start (descending : Bool) (level : Nat) (ns : List Node) :
    lastData [] [] ns = lastData [] [] (searched descending level ns) ∧
      lastKey [] (keys ns) = lastKey [] (keys (searched descending level ns)) := by
  rcases searched_cases descending level ns with ⟨-, hs⟩ | ⟨d, more, rfl, hd, -, -, -, hs⟩
  · rw [hs]
    exact ⟨rfl, rfl⟩
  · rw [hs, lastData, lastKey_keys_cons, hd]
    exact ⟨rfl, rfl⟩

/-- `last_key` may be longer than the last key, but not where it matters for the next key. -/
theorem common_lastData (adjacent : Adjacent left right) {first : Node} {rest : List Node}
    (nodes : right.nodes = first :: rest) :
    common (lastData [] [] left.entries) first.key =
      common (lastKey [] (keys left.entries)) first.key := by
  obtain ⟨hdata, hkey⟩ := searched_start descending level left.entries
  obtain ⟨hpre, hle⟩ := lastKey_lastData (Or.inl ⟨rfl, rfl⟩) left.sorted_keys
  rw [hdata, hkey]
  rcases List.eq_nil_or_concat' (searched descending level left.entries) with hnil | ⟨front, q, hq⟩
  · rw [hnil]
    rfl
  · by_cases hl : first.number = endLevel
    · rw [right.key_of_endLevel (by rw [nodes]; simp) hl]
      simp
    · have hne : left.entries ≠ [] := by
        intro hnil
        rw [hnil] at hq
        simp [searched] at hq
      have hlast : lastKey [] (keys (searched descending level left.entries)) = q.key := by
        rw [hq, lastKey_keys_append]
        rfl
      have hnext : KeyOrder.NotAfter descending q.key first.key := by
        rw [Adjacent, searched_append hne, List.pairwise_append] at adjacent
        exact (adjacent.2.2 q (by rw [hq]; simp) first (by rw [nodes]; simp)).resolve_left hl
      rw [hlast] at hpre hle ⊢
      have hmin := common_of_sorted hle hnext
      have hshared := common_le_left q.key first.key
      have hwhole := common_of_isPrefix hpre
      rw [common_comm] at hwhole
      omega

/-- The bytes of the left page in front of its marker, with those of the other page behind them. -/
theorem mergePage_spec {leftPage gcPage : Btr} {es fs : List Node} {mark first : Node} {pfx : Nat}
    (fits : first.Fits) (markFits : mark.Fits)
    (heldLeft : Holds leftPage.bytes btrNodes (nodesBytes [] (es ++ [mark])))
    (held : Holds gcPage.bytes btrNodes (nodesBytes [] (first :: fs)))
    (length : gcPage.btrLength = btrNodes + (nodesBytes [] (first :: fs)).length)
    (shared : pfx = common (lastKey [] (keys es)) first.key) :
    let merged := mergePage leftPage gcPage (btrNodes + (nodesBytes [] es).length) pfx
    Holds merged.bytes btrNodes (nodesBytes [] (es ++ first :: fs)) ∧
      merged.btrLength = btrNodes + (nodesBytes [] (es ++ first :: fs)).length ∧
      merged.btrPrefixTotal = leftPage.btrPrefixTotal + (gcPage.btrPrefixTotal + pfx -
        common (lastKey [] (keys es)) mark.key) := by
  rw [nodesBytes_append, holds_append] at heldLeft
  obtain ⟨hes, hmark⟩ := heldLeft
  have hmarkAt := Holds.nodeAt markFits (holds_append.mp hmark).1
  obtain ⟨hfirst, hrest⟩ := holds_append.mp held
  have hat := Holds.nodeAt fits hfirst
  have hnumber := (holds_append.mp (holds_cons.mp (holds_cons.mp hfirst).2).2).1
  have hle := common_le_right (lastKey [] (keys es)) first.key
  have hsize := length_nodeBytes [] first
  have hdata := hat.data
  rw [common_nil_left] at hsize hdata
  rw [List.drop_zero, ← List.take_append_drop pfx first.key, holds_append,
    List.length_take_of_le (shared ▸ hle)] at hdata
  rw [nodesBytes, List.length_append] at length
  simp only [btnSize] at hsize
  have hmoved : slice gcPage.bytes (btnData btrNodes + pfx)
      (gcPage.btrLength - (btnData btrNodes + pfx)) =
        first.key.drop pfx ++ nodesBytes first.key fs := by
    have hholds : Holds gcPage.bytes (btnData btrNodes + pfx)
        (first.key.drop pfx ++ nodesBytes first.key fs) := by
      refine holds_append.mpr ⟨hdata.2, ?_⟩
      convert hrest using 1
      rw [List.length_drop]
      simp only [btnData, btnSize]
      omega
    rw [Holds, List.length_append, List.length_drop] at hholds
    rw [← hholds]
    congr 1
    simp only [btnData, btnSize]
    omega
  have hquad : slice gcPage.bytes (btrNodes + 2) 4 = quadBytes first.number := hnumber
  have hheader := (write_header leftPage.bytes (btrNodes + (nodesBytes [] es).length)
    (UInt8.ofNat pfx) (UInt8.ofNat (first.key.length - pfx)) first.number).1
  rw [quadPut] at hheader
  have hbytes : nodesBytes [] (es ++ first :: fs) = nodesBytes [] es ++
      (codedNode pfx first ++ nodesBytes first.key fs) := by
    rw [nodesBytes_append, nodesBytes, nodeBytes, shared]
  have hlen : (codedNode pfx first).length = 6 + (first.key.length - pfx) :=
    length_codedNode pfx first
  rw [hbytes]
  unfold mergePage
  simp only [hat.length, common_nil_left, Nat.sub_zero, hquad, hheader, hmoved, hmarkAt.pfx]
  refine ⟨?_, ?_, trivial⟩
  · have happ := write_append leftPage.bytes (btrNodes + (nodesBytes [] es).length)
      (UInt8.ofNat pfx :: UInt8.ofNat (first.key.length - pfx) :: quadBytes first.number)
      (first.key.drop pfx ++ nodesBytes first.key fs)
    have hwhole : write (write leftPage.bytes (btrNodes + (nodesBytes [] es).length)
        (UInt8.ofNat pfx :: UInt8.ofNat (first.key.length - pfx) :: quadBytes first.number))
          (btnData (btrNodes + (nodesBytes [] es).length))
          (first.key.drop pfx ++ nodesBytes first.key fs) =
        write leftPage.bytes (btrNodes + (nodesBytes [] es).length)
          (codedNode pfx first ++ nodesBytes first.key fs) := by
      rw [codedNode, List.cons_append, List.cons_append, List.append_assoc]
      exact happ.symm
    rw [hwhole, holds_append]
    exact ⟨hes.write _ (Or.inl (Nat.le_refl _)), holds_write _ _ _⟩
  · rw [List.length_append, List.length_append, hlen]
    simp only [btnData, btnSize]
    omega

/-- The page that two neighbours make. -/
theorem IndexPage.exists_merge (adjacent : Adjacent left right) :
    ∃ page : IndexPage descending level, page.entries = left.entries ++ right.entries ∧
      page.mark = right.mark := by
  refine ⟨⟨left.entries ++ right.entries, right.mark, ?_, right.marked, ?_, ?_⟩, rfl, rfl⟩
  · intro n hn
    rcases List.mem_append.mp hn with hn | hn
    · exact left.numbered n hn
    · exact right.numbered n hn
  · intro n hn
    rw [List.append_assoc] at hn
    rcases List.mem_append.mp hn with hn | hn
    · exact left.fits n (List.mem_append_left _ hn)
    · exact right.fits n hn
  · rw [List.append_assoc]
    exact adjacent

theorem mergePage_stores {leftPage gcPage : Btr} {pfx : Nat} (storedLeft : leftPage.Stores left)
    (stored : gcPage.Stores right) (adjacent : Adjacent left right) {first : Node}
    {rest : List Node} (nodes : right.nodes = first :: rest)
    (shared : pfx = common (lastKey [] (keys left.entries)) first.key) :
    ∃ page : IndexPage descending level,
      (mergePage leftPage gcPage (btrNodes + (nodesBytes [] left.entries).length) pfx).Stores page ∧
      page.entries = left.entries ++ right.entries ∧ page.mark = right.mark := by
  obtain ⟨page, hentries, hmark⟩ := IndexPage.exists_merge adjacent
  have hfits : first.Fits := right.fits first (by
    rw [show right.entries ++ [right.mark] = right.nodes from rfl, nodes]
    simp)
  obtain ⟨hheld, hlength, -⟩ := mergePage_spec hfits (left.fits left.mark (by simp))
    storedLeft.held (nodes ▸ stored.held) (nodes ▸ stored.length) shared
  have hnodes : page.nodes = left.entries ++ first :: rest := by
    rw [← nodes, IndexPage.nodes, hentries, hmark, List.append_assoc, IndexPage.nodes]
  exact ⟨page, ⟨storedLeft.level, hnodes ▸ hheld, hnodes ▸ hlength⟩, hentries, hmark⟩

/-- What passes the test for enough space fits the page, with a key length to spare. -/
theorem mergeFits_length {leftPage gcPage : Btr} {pageSize : Nat} (storedLeft : leftPage.Stores left)
    (stored : gcPage.Stores right) {first : Node} {rest : List Node}
    (nodes : right.nodes = first :: rest)
    (room : mergeFits pageSize leftPage gcPage (btrNodes + (nodesBytes [] left.entries).length)
      (common (lastKey [] (keys left.entries)) first.key)) :
    btrNodes + (nodesBytes [] (left.entries ++ right.nodes)).length + maxKey ≤ pageSize := by
  have hheld := storedLeft.held
  have hleft := storedLeft.length
  have hright := stored.length
  rw [IndexPage.nodes, nodesBytes_append] at hheld hleft
  have hat := Holds.nodeAt (left.fits left.mark (by simp)) (holds_append.mp (holds_append.mp hheld).2).1
  have hle := common_le_right (lastKey [] (keys left.entries)) first.key
  rw [mergeFits, hat.length] at room
  rw [nodes] at hright
  rw [nodes, nodesBytes_append]
  simp only [nodesBytes, List.length_append, length_nodeBytes, common_nil_left, List.length_nil]
    at hleft hright ⊢
  simp only [btrNodes, btnSize, maxKey] at hleft hright room ⊢
  omega

section

variable {pageSize : Nat} {pages : Int → Btr} {parent leftNumber win : Int} {parentNode : Nat}
variable {keyData : Nat → UInt8}

/-- `garbage_collect` comes to the test for enough space: the page is still below the threshold, its
right sibling knows it, and it is not the first one of its parent. -/
def Collectable (pageSize : Nat) (pages : Int → Btr) (parentNode : Nat) (win : Int) : Prop :=
  (pages win).btrLength < garbageCollectionThreshold pageSize ∧ (pages win).btrDontGc = false ∧
    ((pages win).btrSibling ≠ 0 → (pages (pages win).btrSibling).btrLeftSibling = win) ∧
    parentNode ≠ btrNodes

/-- What the test for enough space takes for the prefix of the first node of the other page. -/
def IndexPage.sharedWith (left right : IndexPage descending level) : Nat :=
  common (lastKey [] (keys left.entries)) (right.nodes.head right.nodes_ne_nil).key

/-- The test for enough space, made at the marker of the left page. -/
def SpaceFor (pageSize : Nat) (leftPage gcPage : Btr) (left right : IndexPage descending level) :
    Prop :=
  mergeFits pageSize leftPage gcPage (btrNodes + (nodesBytes [] left.entries).length)
    (left.sharedWith right)

/-- Where `garbage_collect` goes on to the test for enough space, the test decides. -/
theorem garbageCollect_of_collectable (storedLeft : (pages leftNumber).Stores left)
    (stored : (pages win).Stores right) (adjacent : Adjacent left right)
    (collectable : Collectable pageSize pages parentNode win) :
    (SpaceFor pageSize (pages leftNumber) (pages win) left right → ∃ result pages',
      garbageCollect pageSize pages parent parentNode leftNumber win keyData =
          some (some (result, pages')) ∧
        pages' leftNumber = mergePage
          { pages leftNumber with btrSibling := (pages win).btrSibling } (pages win)
          (btrNodes + (nodesBytes [] left.entries).length) (left.sharedWith right)) ∧
      (¬ SpaceFor pageSize (pages leftNumber) (pages win) left right →
        garbageCollect pageSize pages parent parentNode leftNumber win keyData = some none) := by
  obtain ⟨first, rest, hnodes⟩ := List.exists_cons_of_ne_nil right.nodes_ne_nil
  have hhead : right.nodes.head right.nodes_ne_nil = first := by simp only [hnodes, List.head_cons]
  have hat := right.nodeAt_first stored hnodes
  have hfits : first.Fits := right.fits first (by
    rw [show right.entries ++ [right.mark] = right.nodes from rfl, hnodes]
    simp)
  have hshort : first.key.length < 256 := hfits.short
  have hneg : left.mark.number < 0 := by
    rcases left.marked with h | ⟨h, -⟩ <;> rw [h] <;> decide
  have hloop := lastNodeLoop_eq left.fits left.numbered hneg storedLeft.held
    (holds_nil keyData 0) List.prefix_rfl
  rw [List.length_nil] at hloop
  have hdata : slice (pages win).bytes (btnData btrNodes) (btnLength (pages win).bytes btrNodes) =
      first.key := by
    rw [hat.slice_data, common_nil_left, List.drop_zero]
  have hle := common_le_right (lastKey [] (keys left.entries)) first.key
  have hpfx : computePrefix (lastData [] [] left.entries) first.key % 256 =
      left.sharedWith right := by
    rw [computePrefix, common_lastData adjacent hnodes, IndexPage.sharedWith, hhead]
    omega
  obtain ⟨small, collected, linked, inner⟩ := collectable
  have passed : ¬ (garbageCollectionThreshold pageSize ≤ (pages win).btrLength ∨
      (pages win).btrDontGc = true) := by
    rw [collected]
    simpa using small
  have sibling : ¬ ((pages win).btrSibling ≠ 0 ∧
      (pages (pages win).btrSibling).btrLeftSibling ≠ win) := fun ⟨page, other⟩ =>
    other (linked page)
  rw [garbageCollect]
  dsimp only
  rw [if_neg passed, if_neg sibling, if_neg inner, storedLeft.length, IndexPage.nodes, hloop]
  dsimp only
  rw [hdata, hpfx]
  refine ⟨fun space => ?_, fun full => if_neg full⟩
  exact ⟨_, _, if_pos space, setPage_same _ _ _⟩

/-- Otherwise it leaves the pages alone. -/
theorem garbageCollect_of_not_collectable (refused : ¬ Collectable pageSize pages parentNode win) :
    garbageCollect pageSize pages parent parentNode leftNumber win keyData = some none := by
  rw [garbageCollect]
  dsimp only
  split
  next => rfl
  next small =>
    split
    next => rfl
    next linked =>
      split
      next => rfl
      next inner =>
        refine absurd ⟨?_, ?_, fun sibling => ?_, inner⟩ refused
        · exact Nat.lt_of_not_le fun le => small (Or.inl le)
        · exact (Bool.not_eq_true _).mp fun kept => small (Or.inr kept)
        · by_contra other
          exact linked ⟨sibling, other⟩

/-- `delete_node` takes any one entry out of the page. -/
def RemovesEntries (pageSize : Nat) (bucket : Btr) (page : IndexPage descending level) : Prop :=
  ∀ before n after, page.entries = before ++ n :: after →
    let d := (deleteNode pageSize bucket (btrNodes + (nodesBytes [] before).length)).2
    btrExpand d.bytes d.btrLength [] btrNodes = some (before ++ after ++ [page.mark])

/-- Pages that pass the test for enough space become one page with the nodes of both; others are
left alone. -/
def MergesPages (pageSize : Nat) (pages : Int → Btr) (parent : Int) (parentNode : Nat)
    (leftNumber win : Int) (keyData : Nat → UInt8) (left right : IndexPage descending level) :
    Prop :=
  (Collectable pageSize pages parentNode win ∧
      SpaceFor pageSize (pages leftNumber) (pages win) left right →
    ∃ result pages', garbageCollect pageSize pages parent parentNode leftNumber win keyData =
        some (some (result, pages')) ∧
      btrExpand (pages' leftNumber).bytes (pages' leftNumber).btrLength [] btrNodes =
        some (left.entries ++ right.nodes) ∧
      (pages' leftNumber).btrLength ≤ pageSize ∧
      (pages' leftNumber).btrSibling = (pages win).btrSibling) ∧
  (¬ (Collectable pageSize pages parentNode win ∧
      SpaceFor pageSize (pages leftNumber) (pages win) left right) →
    garbageCollect pageSize pages parent parentNode leftNumber win keyData = some none)

theorem removesEntries_of_stores {bucket : Btr} (stored : bucket.Stores left) :
    RemovesEntries pageSize bucket left := by
  intro before n after entries
  obtain ⟨page', hstores, hentries', hmark'⟩ := removeNode_stores stored entries
  have hexpand := hstores.expand
  rw [IndexPage.nodes, hentries', hmark'] at hexpand
  exact hexpand

theorem mergesPages_of_adjacent (storedLeft : (pages leftNumber).Stores left)
    (stored : (pages win).Stores right) (adjacent : Adjacent left right) :
    MergesPages pageSize pages parent parentNode leftNumber win keyData left right := by
  refine ⟨fun ⟨collectable, space⟩ => ?_, fun refused => ?_⟩
  · obtain ⟨result, pages', hsome, hmerged⟩ :=
      (garbageCollect_of_collectable storedLeft stored adjacent collectable).1 space
    obtain ⟨first, rest, hnodes⟩ := List.exists_cons_of_ne_nil right.nodes_ne_nil
    have hshared : left.sharedWith right = common (lastKey [] (keys left.entries)) first.key := by
      simp only [IndexPage.sharedWith, hnodes, List.head_cons]
    have hlinked : { pages leftNumber with btrSibling := (pages win).btrSibling : Btr }.Stores left :=
      ⟨storedLeft.level, storedLeft.held, storedLeft.length⟩
    obtain ⟨page, hstores, hentries, hmark⟩ :=
      mergePage_stores hlinked stored adjacent hnodes hshared
    refine ⟨result, pages', hsome, ?_⟩
    rw [hmerged]
    refine ⟨?_, ?_, rfl⟩
    · have hexpand := hstores.expand
      rwa [IndexPage.nodes, hentries, hmark, List.append_assoc] at hexpand
    · rw [SpaceFor, hshared] at space
      have hfits := mergeFits_length storedLeft stored hnodes space
      rw [hstores.length, IndexPage.nodes, hentries, hmark, List.append_assoc]
      rw [IndexPage.nodes] at hfits
      omega
  · by_cases collectable : Collectable pageSize pages parentNode win
    · exact (garbageCollect_of_collectable storedLeft stored adjacent collectable).2
        fun space => refused ⟨collectable, space⟩
    · exact garbageCollect_of_not_collectable collectable

/-- Removal and merge: the decoded pages are what they have to be. -/
theorem deleteNode_garbageCollect_expand (pageSize : Nat) :
    (∀ (descending : Bool) (level : Nat) (bucket : Btr) (page : IndexPage descending level),
      bucket.Stores page → RemovesEntries pageSize bucket page) ∧
    ∀ (descending : Bool) (level : Nat) (pages : Int → Btr) (parent : Int) (parentNode : Nat)
      (leftNumber win : Int) (keyData : Nat → UInt8) (left right : IndexPage descending level),
      (pages leftNumber).Stores left → (pages win).Stores right → Adjacent left right →
        MergesPages pageSize pages parent parentNode leftNumber win keyData left right :=
  ⟨fun _ _ _ _ stored => removesEntries_of_stores stored,
    fun _ _ _ _ _ _ _ _ _ _ storedLeft stored adjacent =>
      mergesPages_of_adjacent storedLeft stored adjacent⟩

end

end

/-- Two neighbouring leaf pages. -/
def lowerPage : IndexPage false 0 where
  entries := [⟨[5], 1⟩, ⟨[5, 6], 2⟩]
  mark := ⟨[5, 7], endBucket⟩
  numbered := by decide
  marked := Or.inl rfl
  fits := by
    intro n hn
    simp only [List.cons_append, List.nil_append, List.mem_cons, List.not_mem_nil, or_false] at hn
    rcases hn with rfl | rfl | rfl <;> exact ⟨by decide, by decide, by decide⟩
  sorted := by decide

def upperPage : IndexPage false 0 where
  entries := [⟨[5, 7], 3⟩]
  mark := ⟨[], endLevel⟩
  numbered := by decide
  marked := isMark_endLevel
  fits := by
    intro n hn
    simp only [List.cons_append, List.nil_append, List.mem_cons, List.not_mem_nil, or_false] at hn
    rcases hn with rfl | rfl <;> exact ⟨by decide, by decide, by decide⟩
  sorted := by decide

/-- The parent of both. -/
def parentPage : IndexPage false 1 where
  entries := [⟨[], 10⟩, ⟨[5, 7], 11⟩]
  mark := ⟨[], endLevel⟩
  numbered := by decide
  marked := isMark_endLevel
  fits := by
    intro n hn
    simp only [List.cons_append, List.nil_append, List.mem_cons, List.not_mem_nil, or_false] at hn
    rcases hn with rfl | rfl | rfl <;> exact ⟨by decide, by decide, by decide⟩
  sorted := by decide

/-- The upper page is merged into the lower one, and the parent loses the node in its middle. -/
theorem deleteNode_garbageCollect_leaves :
    RemovesEntries 1024 parentPage.bucket parentPage ∧
      ∃ result pages', garbageCollect 1024 (fun n => if n = 12 then parentPage.bucket
          else if n = 11 then upperPage.bucket else lowerPage.bucket) 12 40 10 11 (fun _ => 0) =
            some (some (result, pages')) ∧
        btrExpand (pages' 10).bytes (pages' 10).btrLength [] btrNodes =
          some [⟨[5], 1⟩, ⟨[5, 6], 2⟩, ⟨[5, 7], 3⟩, ⟨[], endLevel⟩] ∧
        (pages' 10).btrLength ≤ 1024 ∧ (pages' 10).btrSibling = 0 :=
  ⟨(deleteNode_garbageCollect_expand 1024).1 false 1 _ parentPage parentPage.bucket_stores,
    ((deleteNode_garbageCollect_expand 1024).2 false 0 _ 12 40 10 11 _ lowerPage upperPage
      lowerPage.bucket_stores upperPage.bucket_stores (by unfold Adjacent; decide)).1
      ⟨⟨by decide, rfl, fun linked => absurd rfl linked, by decide⟩,
        by unfold SpaceFor; decide⟩⟩

end InterBase
