import InterBase.BtrInsert

namespace InterBase

open Memory KeyOrder FrontCoding

variable {descending : Bool} {level : Nat} {key : Key}

theorem not_scanned_of_nodesFrom {ns : List Node} {n : Node} {post : List Node}
    (h : nodesFrom descending level key ns = n :: post) :
    n.number = endLevel ∨ ¬Passed descending key n := by
  have hhead := List.head?_dropWhile_not (scanned descending key) (searched descending level ns)
  rw [show (searched descending level ns).dropWhile (scanned descending key) = n :: post from h]
    at hhead
  simpa [scanned, Classical.or_iff_not_imp_left] using hhead

/-- The key before the insertion point is passed, unless there is none. -/
theorem lastKey_nodesBefore (descending : Bool) (level : Nat) (key : Key) (ns : List Node) :
    lastKey [] (keys (nodesBefore descending level key ns)) = [] ∨
      Before descending (lastKey [] (keys (nodesBefore descending level key ns))) key := by
  rw [nodesBefore]
  rcases List.eq_nil_or_concat' ((searched descending level ns).takeWhile
    (scanned descending key)) with htw | ⟨front, p, htw⟩
  · refine Or.inl ?_
    rw [htw, List.append_nil]
    rcases searched_cases descending level ns with ⟨hd, -⟩ | ⟨n, rest, -, hkey, -, -, hd, -⟩
    · simp [hd, keys]
    · simp [hd, keys, hkey]
  · have hp : scanned descending key p = true :=
      List.mem_takeWhile_imp (htw ▸ List.mem_concat_self)
    have hlast : lastKey [] (keys (dummies descending level ns ++ (front ++ [p]))) = p.key := by
      rw [← List.append_assoc, keys, List.map_append]
      exact lastKey_concat _ _ _
    rw [htw, hlast]
    simp only [scanned, decide_eq_true_eq] at hp
    rcases hp.2 with hb | ⟨-, -, he⟩
    · exact Or.inr hb
    · exact Or.inl he

theorem IndexPage.key_of_endLevel (page : IndexPage descending level) {n : Node}
    (hn : n ∈ page.nodes) (h : n.number = endLevel) : n.key = [] := by
  rcases List.mem_append.mp hn with he | hm
  · have := page.numbered n he
    simp only [endLevel] at h
    omega
  · rw [List.mem_singleton.mp hm] at h ⊢
    rcases page.marked with hb | hl
    · simp only [endLevel, endBucket] at h hb
      omega
    · exact hl.2

/-- The node at the insertion point shares no more with its predecessor than the key does. -/
theorem common_nodesFrom_le {page : IndexPage descending level} {n : Node} {post : List Node}
    (h : nodesFrom descending level key page.nodes = n :: post) :
    common (lastKey [] (keys (nodesBefore descending level key page.nodes))) n.key ≤
      common (lastKey [] (keys (nodesBefore descending level key page.nodes))) key := by
  rcases not_scanned_of_nodesFrom h with hl | hp
  · have hmem : n ∈ page.nodes := by
      rw [← nodesBefore_append_nodesFrom descending level key page.nodes, h]
      simp
    simp [page.key_of_endLevel hmem hl]
  · rcases lastKey_nodesBefore descending level key page.nodes with hnil | hb
    · simp [hnil]
    · by_contra hgt
      exact hp (Or.inl (before_of_common_gt hb.notAfter (by omega)).1)

theorem recompress_eq {m : Nat → UInt8} {xs ys : Key} {q p : Nat} (held : Holds m q ys) :
    recompress m xs q ys.length p = (p + common xs ys, ys.length - common xs ys) := by
  induction xs generalizing ys q p with
  | nil => simp [recompress]
  | cons x xs ih =>
    cases ys with
    | nil => simp [recompress]
    | cons y ys =>
      obtain ⟨hy, hrest⟩ := holds_cons.mp held
      rw [List.length_cons, recompress, hy, common_cons]
      by_cases h : x = y
      · rw [if_neg (not_not.mpr h), if_pos h, ih hrest]
        congr 1 <;> omega
      · rw [if_pos h, if_neg h]
        rfl

/-- A node behind the insertion point, compressed against the new key. -/
theorem recompress_node {m : Nat → UInt8} {node : Nat} {prev : Key} {n : Node}
    (hat : NodeAt m node prev n) (h : common prev n.key ≤ common prev key) :
    recompress m (key.drop (btnPrefix m node)) (btnData node) (btnLength m node)
      (btnPrefix m node) = (common key n.key, n.key.length - common key n.key) := by
  have hle : common prev n.key ≤ common key n.key := by
    have := min_common_le key prev n.key
    rw [common_comm key prev] at this
    omega
  have hr : recompress m (key.drop (common prev n.key)) (btnData node)
      (n.key.drop (common prev n.key)).length (common prev n.key) = _ := recompress_eq hat.data
  rw [List.length_drop] at hr
  rw [hat.pfx, hat.length, hr, common_eq_add hle]
  congr 1
  omega

/-- `insert_node` goes past a node without data unless it is a marker or the sibling. -/
def Chained (sibling : Int) (prev : Key) (n : Node) : Prop :=
  common prev n.key = n.key.length ∧ n.number ≠ endBucket ∧ n.number ≠ endLevel ∧ n.number ≠ sibling

instance (sibling : Int) (prev : Key) (n : Node) : Decidable (Chained sibling prev n) :=
  inferInstanceAs (Decidable (_ ∧ _))

/-- The nodes that are gone past behind a node with the key `prev`. -/
def chain (sibling : Int) : Key → List Node → List Node
  | _, [] => []
  | prev, n :: ns => if Chained sibling prev n then n :: chain sibling n.key ns else []

/-- The nodes behind a chain. -/
def chainRest (sibling : Int) : Key → List Node → List Node
  | _, [] => []
  | prev, n :: ns => if Chained sibling prev n then chainRest sibling n.key ns else n :: ns

theorem chain_append_chainRest (sibling : Int) (prev : Key) (ns : List Node) :
    chain sibling prev ns ++ chainRest sibling prev ns = ns := by
  induction ns generalizing prev with
  | nil => rfl
  | cons n ns ih =>
    rw [chain, chainRest]
    split
    next => rw [List.cons_append, ih]
    next => rfl

theorem not_chained_of_chainRest {sibling : Int} {prev : Key} {ns : List Node} {r : Node}
    {rest : List Node} (h : chainRest sibling prev ns = r :: rest) :
    ¬Chained sibling (lastKey prev (keys (chain sibling prev ns))) r := by
  induction ns generalizing prev with
  | nil => cases h
  | cons n ns ih =>
    by_cases hc : Chained sibling prev n
    · rw [chainRest, if_pos hc] at h
      rw [chain, if_pos hc, keys, List.map_cons, lastKey_cons]
      exact ih h
    · rw [chainRest, if_neg hc] at h
      cases h
      rwa [chain, if_neg hc]

/-- A chain leads to shorter and shorter prefixes of the key it starts from. -/
theorem lastKey_chain_isPrefix (sibling : Int) (prev : Key) (ns : List Node) :
    lastKey prev (keys (chain sibling prev ns)) <+: prev := by
  induction ns generalizing prev with
  | nil => exact List.prefix_rfl
  | cons n ns ih =>
    rw [chain]
    split
    next hc =>
      rw [keys, List.map_cons, lastKey_cons]
      exact (ih n.key).trans (isPrefix_of_common hc.1)
    next => exact List.prefix_rfl

theorem mem_chain {sibling : Int} {prev : Key} {ns : List Node} {n : Node}
    (h : n ∈ chain sibling prev ns) :
    n.number ≠ endBucket ∧ n.number ≠ endLevel ∧ n.number ≠ sibling := by
  induction ns generalizing prev with
  | nil => cases h
  | cons k ns ih =>
    rw [chain] at h
    split at h
    next hc =>
      rcases List.mem_cons.mp h with rfl | h
      · exact hc.2
      · exact ih h
    next => cases h

theorem skipDuplicates_eq {m : Nat → UInt8} {node : Nat} {prev : Key} {ns : List Node}
    (fits : ∀ n ∈ ns, n.Fits) (held : Holds m (nextNode m node) (nodesBytes prev ns))
    (closed : Closed ns) (sibling : Int) :
    ∃ r rest, chainRest sibling prev ns = r :: rest ∧
      skipDuplicates m (nextNode m node + (nodesBytes prev ns).length) sibling node =
        if common (lastKey prev (keys (chain sibling prev ns))) r.key = r.key.length ∧
            r.number = endBucket then some .wrongBucket
        else some (.node (nextNode m node + (nodesBytes prev (chain sibling prev ns)).length)) := by
  induction ns generalizing prev node with
  | nil => exact closed.elim
  | cons n ns ih =>
    obtain ⟨hn, hrest⟩ := holds_append.mp held
    have hat := Holds.nodeAt (fits n (by simp)) hn
    have hsize := length_nodeBytes prev n
    have hle := common_le_right prev n.key
    have hzero : btnLength m (nextNode m node) = 0 ↔ common prev n.key = n.key.length := by
      rw [hat.length]
      omega
    simp only [btnSize] at hsize
    rw [skipDuplicates, if_pos (by simp only [nodesBytes, List.length_append]; omega), hat.number]
    simp only [ne_eq, hzero]
    by_cases hc : Chained sibling prev n
    · obtain ⟨hz, hb, hl, hs⟩ := id hc
      have hns : ns ≠ [] := by
        rintro rfl
        rcases closed with h | h
        · exact hb h
        · exact hl h.1
      rw [← hat.nextNode] at hrest
      obtain ⟨r, rest, hr, hskip⟩ := ih (fun k hk => fits k (by simp [hk])) hrest
        (closed.tail hns).2
      have hlen : (nodesBytes prev (n :: ns)).length =
          (nodeBytes prev n).length + (nodesBytes n.key ns).length := by
        rw [nodesBytes, List.length_append]
      have hlast : lastKey prev (keys (n :: chain sibling n.key ns)) =
          lastKey n.key (keys (chain sibling n.key ns)) := lastKey_cons _ _ _
      refine ⟨r, rest, by rw [chainRest, if_pos hc, hr], ?_⟩
      rw [chain, if_pos hc, if_neg (not_not.mpr hz), if_neg hb, if_neg (by tauto), hlen,
        ← Nat.add_assoc, ← hat.nextNode, hskip, nodesBytes, List.length_append, ← Nat.add_assoc,
        ← hat.nextNode, hlast]
    · refine ⟨n, ns, by rw [chainRest, if_neg hc], ?_⟩
      rw [chain, if_neg hc]
      by_cases hz : common prev n.key = n.key.length
      · by_cases hb : n.number = endBucket
        · simp [hz, hb, keys]
        · have hstop : n.number = endLevel ∨ n.number = sibling := by
            by_contra h
            exact hc ⟨hz, hb, fun hl => h (Or.inl hl), fun hs => h (Or.inr hs)⟩
          simp [hz, hb, hstop, keys, nodesBytes]
      · simp [hz, keys, nodesBytes]

/-- Where the new node goes: the nodes in front of it, the node that moves up, the nodes behind
that one, and the prefix of the new node. -/
structure Placement where
  before : List Node
  next : Node
  rest : List Node
  pfx : Nat
deriving DecidableEq

/-- The placement that `insert_node` chooses; nothing when it returns -1. -/
def placement (descending : Bool) (level : Nat) (sibling : Int) (key : Key) (ns : List Node) :
    Option Placement :=
  let before := nodesBefore descending level key ns
  match nodesFrom descending level key ns with
  | [] => none
  | n :: post =>
    if n.key = key ∧ n.number = endBucket then none
    else if n.key = key ∧ n.number ≠ endLevel ∧ level ≠ 0 ∧ n.number ≠ sibling then
      let passed := chain sibling key post
      match chainRest sibling key post with
      | [] => none
      | r :: rest =>
        if common (lastKey key (keys passed)) r.key = r.key.length ∧ r.number = endBucket then none
        else some ⟨before ++ n :: passed, r, rest, key.length⟩
    else some ⟨before, n, post, common (lastKey [] (keys before)) key⟩

/-- The insertion point in the page that belongs to a placement. -/
def Placement.point (p : Placement) (key : Key) : InsertionPoint :=
  { node := btrNodes + (nodesBytes [] p.before).length
    pfx := p.pfx
    oldPrefix := common key p.next.key
    oldLength := p.next.key.length - common key p.next.key
    oldNumber := p.next.number }

theorem same_key_iff {m : Nat → UInt8} {node : Nat} {prev : Key} {n : Node}
    (hat : NodeAt m node prev n) : (common key n.key ≠ key.length ∨
      common key n.key ≠ btnLength m node + btnPrefix m node) ↔ n.key ≠ key := by
  have hle := common_le_right prev n.key
  rw [hat.length, hat.pfx, Nat.sub_add_cancel hle]
  constructor
  · rintro h rfl
    simp at h
  · intro h
    by_contra hc
    push Not at hc
    have ht := take_common key n.key
    rw [hc.1, List.take_length, ← hc.1, hc.2, List.take_length] at ht
    exact h ht.symm

/-- The loop stops at a node that no chain leads away from. -/
theorem insertionLoop_stop {m : Nat → UInt8} {node stop pfx : Nat} {prev : Key} {n : Node}
    {sibling : Int} (hat : NodeAt m node prev n) (inside : node < stop)
    (h : common prev n.key ≤ common prev key) (hb : ¬(n.key = key ∧ n.number = endBucket))
    (hs : n.key = key → n.number = endLevel ∨ level = 0 ∨ n.number = sibling) :
    insertionLoop m stop key level sibling node pfx =
      some (some ⟨node, pfx, common key n.key, n.key.length - common key n.key, n.number⟩) := by
  have hle := common_le_right prev key
  rw [insertionLoop, if_pos ⟨inside, by rw [hat.pfx]; omega⟩]
  simp only [recompress_node hat h, hat.number]
  by_cases hk : n.key = key
  · have hsame := mt (same_key_iff hat).mp (not_not.mpr hk)
    rw [if_neg hsame, if_neg (fun he => hb ⟨hk, he⟩), if_pos (hs hk)]
  · rw [if_pos ((same_key_iff hat).mpr hk)]

/-- The loop goes on behind the chain of a node with the same key. -/
theorem insertionLoop_walk {m : Nat → UInt8} {node stop pfx : Nat} {prev : Key} {n : Node}
    {sibling : Int} (hat : NodeAt m node prev n) (inside : node < stop)
    (h : common prev n.key ≤ common prev key) (hb : n.number ≠ endBucket)
    (hw : n.key = key ∧ n.number ≠ endLevel ∧ level ≠ 0 ∧ n.number ≠ sibling) :
    insertionLoop m stop key level sibling node pfx =
      match skipDuplicates m stop sibling node with
      | none => none
      | some .wrongBucket => some none
      | some (.node next) => insertionLoop m stop key level sibling next key.length := by
  have hle := common_le_right prev key
  have hsame := mt (same_key_iff hat).mp (not_not.mpr hw.1)
  have hlen : common key n.key = key.length := by rw [hw.1, common_self]
  rw [insertionLoop, if_pos ⟨inside, by rw [hat.pfx]; omega⟩]
  simp only [recompress_node hat h, hat.number]
  rw [if_neg hsame, if_neg hb, if_neg (by tauto), hlen]
  split
  next hs => rw [hs]
  next hs => rw [hs]
  next next hs => rw [hs]

section

variable {page : IndexPage descending level} {n r : Node} {post rest : List Node} {sibling : Int}

theorem sorted_nodesFrom (h : nodesFrom descending level key page.nodes = n :: post) :
    (n :: post).Pairwise (Node.NotAfter descending) := by
  have hsub : nodesFrom descending level key page.nodes <:+ searched descending level page.nodes :=
    List.dropWhile_suffix _
  rw [h] at hsub
  exact page.sorted.sublist hsub.sublist

/-- The last key of a chain lies between the key and the node behind the chain. -/
theorem lastKey_chain_between (h : nodesFrom descending level key page.nodes = n :: post)
    (hn : n.key = key) (hr : chainRest sibling key post = r :: rest) :
    KeyOrder.NotAfter descending key (lastKey key (keys (chain sibling key post))) ∧
      (r.number ≠ endLevel → KeyOrder.NotAfter descending
        (lastKey key (keys (chain sibling key post))) r.key) := by
  have hsorted := sorted_nodesFrom h
  rw [← chain_append_chainRest sibling key post, hr, List.pairwise_cons] at hsorted
  obtain ⟨hfirst, hpost⟩ := hsorted
  rcases lastKey_eq_or_mem key (keys (chain sibling key post)) with hlast | hlast
  · rw [hlast]
    refine ⟨notAfter_refl key, fun hl => ?_⟩
    have := (hfirst r (by simp)).resolve_left hl
    rwa [hn] at this
  · obtain ⟨p, hp, hkey⟩ := List.mem_map.mp hlast
    rw [← hkey]
    constructor
    · have := (hfirst p (by simp [hp])).resolve_left (mem_chain hp).2.1
      rwa [hn] at this
    · intro hl
      exact ((List.pairwise_append.mp hpost).2.2 p hp r (by simp)).resolve_left hl

/-- Behind a chain a node with the same key again closes the chain. -/
theorem same_key_behind_chain (h : nodesFrom descending level key page.nodes = n :: post)
    (hn : n.key = key) (hr : chainRest sibling key post = r :: rest)
    (hb : ¬(common (lastKey key (keys (chain sibling key post))) r.key = r.key.length ∧
      r.number = endBucket)) (hk : r.key = key) :
    r.number ≠ endBucket ∧ (r.number = endLevel ∨ r.number = sibling) := by
  by_cases hl : r.number = endLevel
  · refine ⟨?_, Or.inl hl⟩
    rw [hl]
    decide
  · obtain ⟨hkey, hnext⟩ := lastKey_chain_between h hn hr
    have hlast := (hk ▸ hnext hl).antisymm hkey
    have hzero : common (lastKey key (keys (chain sibling key post))) r.key = r.key.length := by
      rw [hlast, hk, common_self]
    have hbucket : r.number ≠ endBucket := fun he => hb ⟨hzero, he⟩
    refine ⟨hbucket, Or.inr ?_⟩
    by_contra hs
    exact not_chained_of_chainRest hr ⟨hzero, hbucket, hl, hs⟩

end

theorem findInsertion_eq {bucket : Btr} {page : IndexPage descending level} {iib : Iib}
    (h : bucket.Stores page) (search : page.Searchable) (hd : iib.idxDescending = descending) :
    findInsertion bucket iib =
      some ((placement descending level iib.iibSibling iib.iibKey page.nodes).map
        (·.point iib.iibKey)) := by
  have hsplit := nodesBefore_append_nodesFrom descending level iib.iibKey page.nodes
  have hheld := h.held
  have hclosed := page.closed
  have hfits : ∀ k ∈ page.nodes, k.Fits := page.fits
  rw [findInsertion, hd, btrFindLeaf_eq h search, h.length, h.level, placement]
  cases hfrom : nodesFrom descending level iib.iibKey page.nodes with
  | nil => rfl
  | cons n post =>
    rw [if_neg (by simp)]
    dsimp only
    rw [hfrom] at hsplit
    rw [← hsplit] at hheld hclosed hfits
    rw [nodesBytes_append, holds_append] at hheld
    obtain ⟨hn, hpost⟩ := holds_append.mp hheld.2
    have hle := common_nodesFrom_le hfrom
    have hat := Holds.nodeAt (hfits n (by simp)) hn
    have hfrom' : Closed (n :: post) := hclosed.suffix (by simp)
    have hstop : btrNodes + (nodesBytes [] page.nodes).length =
        btrNodes + (nodesBytes [] (nodesBefore descending level iib.iibKey page.nodes)).length +
          (nodesBytes (lastKey [] (keys (nodesBefore descending level iib.iibKey page.nodes)))
            (n :: post)).length := by
      conv_lhs => rw [← hsplit, nodesBytes_append, List.length_append, ← Nat.add_assoc]
    rw [hstop]
    generalize nodesBefore descending level iib.iibKey page.nodes = before at *
    have hinside : btrNodes + (nodesBytes [] before).length < btrNodes +
        (nodesBytes [] before).length + (nodesBytes (lastKey [] (keys before)) (n :: post)).length := by
      have := length_nodeBytes (lastKey [] (keys before)) n
      simp only [nodesBytes, List.length_append, btnSize] at this ⊢
      omega
    by_cases hbucket : n.key = iib.iibKey ∧ n.number = endBucket
    · rw [if_pos hbucket, insertionLoop,
        if_pos ⟨hinside, by have := common_le_right (lastKey [] (keys before)) iib.iibKey
                            rw [hat.pfx]; omega⟩]
      simp only [recompress_node hat hle, hat.number]
      rw [if_neg (mt (same_key_iff hat).mp (not_not.mpr hbucket.1)), if_pos hbucket.2]
      rfl
    · rw [if_neg hbucket]
      by_cases hwalk : n.key = iib.iibKey ∧ n.number ≠ endLevel ∧ level ≠ 0 ∧
          n.number ≠ iib.iibSibling
      · have hb : n.number ≠ endBucket := fun he => hbucket ⟨hwalk.1, he⟩
        have hne : post ≠ [] := by
          rintro rfl
          rcases hfrom' with hm | hm
          · exact hb hm
          · exact hwalk.2.1 hm.1
        rw [← hat.nextNode] at hpost
        obtain ⟨r, rest, hr, hskip⟩ := skipDuplicates_eq (fun k hk => hfits k (by simp [hk])) hpost
          (hfrom'.tail hne).2 iib.iibSibling
        rw [hwalk.1] at hr hskip hpost
        have hend : btrNodes + (nodesBytes [] before).length +
            (nodesBytes (lastKey [] (keys before)) (n :: post)).length =
              nextNode bucket.bytes (btrNodes + (nodesBytes [] before).length) +
                (nodesBytes iib.iibKey post).length := by
          rw [hat.nextNode, nodesBytes, List.length_append, hwalk.1]
          omega
        rw [if_pos hwalk, insertionLoop_walk hat hinside hle hb hwalk, hend, hskip, hr]
        dsimp only
        by_cases hwrong : common (lastKey iib.iibKey (keys (chain iib.iibSibling iib.iibKey post)))
            r.key = r.key.length ∧ r.number = endBucket
        · rw [if_pos hwrong, if_pos hwrong]
          rfl
        · rw [if_neg hwrong, if_neg hwrong]
          have hpassed := chain_append_chainRest iib.iibSibling iib.iibKey post
          rw [hr] at hpassed
          rw [← hpassed, nodesBytes_append, holds_append] at hpost
          obtain ⟨hrn, -⟩ := holds_append.mp hpost.2
          have hrmem : r ∈ before ++ n :: post := by
            rw [← hpassed]
            simp
          have hrat := Holds.nodeAt (hfits r hrmem) hrn
          have hsame := same_key_behind_chain hfrom hwalk.1 hr hwrong
          have hrle : common (lastKey iib.iibKey (keys (chain iib.iibSibling iib.iibKey post)))
              r.key ≤ common (lastKey iib.iibKey (keys (chain iib.iibSibling iib.iibKey post)))
                iib.iibKey := by
            rw [common_of_isPrefix (lastKey_chain_isPrefix iib.iibSibling iib.iibKey post)]
            exact common_le_left _ _
          have hnode : nextNode bucket.bytes (btrNodes + (nodesBytes [] before).length) +
              (nodesBytes iib.iibKey (chain iib.iibSibling iib.iibKey post)).length = btrNodes +
                (nodesBytes [] (before ++ n :: chain iib.iibSibling iib.iibKey post)).length := by
            rw [hat.nextNode, nodesBytes_append, nodesBytes, List.length_append, List.length_append,
              hwalk.1]
            omega
          dsimp only
          rw [insertionLoop_stop hrat _ hrle (fun hbad => (hsame hbad.1).1 hbad.2)
            (fun hk => by have := (hsame hk).2; tauto), hnode]
          · rfl
          · have hpos := length_nodeBytes (lastKey iib.iibKey
              (keys (chain iib.iibSibling iib.iibKey post))) r
            have hlen : (nodesBytes iib.iibKey post).length =
                (nodesBytes iib.iibKey (chain iib.iibSibling iib.iibKey post)).length +
                  (nodesBytes (lastKey iib.iibKey (keys (chain iib.iibSibling iib.iibKey post)))
                    (r :: rest)).length := by
              conv_lhs => rw [← hpassed, nodesBytes_append, List.length_append]
            rw [hlen, nodesBytes, List.length_append]
            simp only [btnSize] at hpos
            omega
      · rw [if_neg hwalk, insertionLoop_stop hat hinside hle hbucket (fun hk => ?_)]
        · rfl
        · by_contra hs
          exact hwalk ⟨hk, by tauto⟩

theorem findInsertion_bare {bucket : Btr} {page : IndexPage descending level} {iib : Iib}
    (h : bucket.Stores page) (bare : ¬page.Searchable) (hd : iib.idxDescending = descending) :
    findInsertion bucket iib = none := by
  rw [findInsertion, hd, btrFindLeaf_bare h bare]

end InterBase
