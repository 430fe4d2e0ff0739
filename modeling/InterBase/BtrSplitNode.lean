import InterBase.BtrSplit

namespace InterBase

open Memory KeyOrder FrontCoding

/-- The nodes that end before `room` bytes have been stored. -/
def endingBefore : Nat → Key → List Node → List Node
  | _, _, [] => []
  | room, prev, n :: ns =>
    if (nodeBytes prev n).length < room then
      n :: endingBefore (room - (nodeBytes prev n).length) n.key ns
    else []

theorem endingBefore_eq {room : Nat} {prev : Key} {left right : List Node} {mid : Node}
    (start : (nodesBytes prev left).length < room)
    (stop : room ≤ (nodesBytes prev (left ++ [mid])).length) :
    endingBefore room prev (left ++ mid :: right) = left := by
  induction left generalizing room prev with
  | nil =>
    simp only [List.nil_append, nodesBytes, List.append_nil] at stop
    rw [List.nil_append, endingBefore, if_neg (by omega)]
  | cons n left ih =>
    simp only [nodesBytes, List.cons_append, List.length_append] at start stop
    rw [List.cons_append, endingBefore, if_pos (by omega), ih (by omega) (by omega)]

/-- The node behind those that end before `room` bytes reaches that far. -/
theorem endingBefore_stop {room : Nat} {prev : Key} {ns right : List Node} {mid : Node}
    (split : ns = endingBefore room prev ns ++ mid :: right) :
    room ≤ (nodesBytes prev (endingBefore room prev ns)).length +
      (nodeBytes (lastKey prev (keys (endingBefore room prev ns))) mid).length := by
  induction ns generalizing room prev with
  | nil => cases split
  | cons n ns ih =>
    rw [endingBefore] at split ⊢
    split at split
    next hlt =>
      rw [if_pos hlt, lastKey_keys_cons, nodesBytes, List.length_append]
      have := ih (List.cons.inj split).2
      omega
    next hge =>
      rw [if_neg hge]
      obtain ⟨rfl, -⟩ := List.cons.inj split
      simpa [nodesBytes, keys] using Nat.not_lt.mp hge

theorem coded_eq_append {prev : Key} {ns : List Node} {ls rs : List (Nat × Node)}
    {c : Nat × Node} (h : coded prev ns = ls ++ c :: rs) : ∃ left mid right,
      ns = left ++ mid :: right ∧ ls = coded prev left ∧
      c = (common (lastKey prev (keys left)) mid.key, mid) ∧ rs = coded mid.key right := by
  induction ls generalizing prev ns with
  | nil =>
    cases ns with
    | nil => cases h
    | cons n ns =>
      cases h
      exact ⟨[], n, ns, rfl, rfl, rfl, rfl⟩
  | cons l ls ih =>
    cases ns with
    | nil => cases h
    | cons n ns =>
      obtain ⟨hl, hrest⟩ := List.cons.inj h
      obtain ⟨left, mid, right, rfl, hls, hc, hrs⟩ := ih hrest
      refine ⟨n :: left, mid, right, rfl, ?_, ?_, hrs⟩
      · rw [coded, hls, ← hl]
      · rw [lastKey_keys_cons, hc]

theorem codedFits_coded (prev : Key) {ns : List Node} (fits : ∀ n ∈ ns, n.Fits) :
    ∀ c ∈ coded prev ns, CodedFits c := by
  induction ns generalizing prev with
  | nil => simp [coded]
  | cons n ns ih =>
    intro c hc
    rcases List.mem_cons.mp hc with rfl | hc
    · exact ⟨fits n (by simp), common_le_right prev n.key⟩
    · exact ih n.key (fun k hk => fits k (by simp [hk])) c hc

variable {descending : Bool} {level : Nat}

/-- A page cut in two at one of its entries, which also closes the first half. -/
theorem IndexPage.exists_split (page : IndexPage descending level) {left right : List Node}
    {mid : Node} (entries : page.entries = left ++ mid :: right) (hleft : left ≠ []) :
    ∃ old new : IndexPage descending level, old.entries = left ∧
      old.mark = ⟨mid.key, endBucket⟩ ∧ new.entries = mid :: right ∧ new.mark = page.mark := by
  have hmem : ∀ n ∈ left ++ mid :: right, n.Fits := fun n hn =>
    page.fits n (List.mem_append_left _ (entries ▸ hn))
  have hnumbered : ∀ n ∈ left ++ mid :: right, 0 ≤ n.number := fun n hn =>
    page.numbered n (entries ▸ hn)
  have hsorted := page.sorted
  rw [entries, List.append_assoc, searched_append hleft, List.pairwise_append] at hsorted
  obtain ⟨hlow, hhigh, hacross⟩ := hsorted
  refine ⟨⟨left, ⟨mid.key, endBucket⟩, ?_, Or.inl rfl, ?_, ?_⟩,
    ⟨mid :: right, page.mark, ?_, page.marked, ?_, ?_⟩, rfl, rfl, rfl, rfl⟩
  · exact fun n hn => hnumbered n (by simp [hn])
  · intro n hn
    rcases List.mem_append.mp hn with hn | hn
    · exact hmem n (by simp [hn])
    · rw [List.mem_singleton.mp hn]
      exact (hmem mid (by simp)).endBucket
  · rw [searched_append hleft, List.pairwise_append]
    refine ⟨hlow, List.pairwise_singleton _ _, fun a ha b hb => ?_⟩
    rw [List.mem_singleton.mp hb]
    refine Or.inr ((hacross a ha mid (by simp)).resolve_left fun hl => ?_)
    have := hnumbered mid (by simp)
    simp only [endLevel] at hl
    omega
  · exact fun n hn => hnumbered n (by simp at hn ⊢; tauto)
  · intro n hn
    rcases List.mem_append.mp hn with hn | hn
    · exact hmem n (List.mem_append_right left hn)
    · exact page.fits n (List.mem_append_right _ hn)
  · exact hhigh.sublist (searched_sublist _ _ _)

/-- The page with the new node has too much for one page, and what lies in front of the node at
the middle of the page is too little to make up for it. -/
def Overfull (pageSize : Nat) (entry : Node) (p : Placement) : Prop :=
  let nodes := p.before ++ entry :: p.next :: p.rest
  let left := endingBefore ((pageSize - btrNodes) / 2 - btrNodes) [] nodes
  ¬(p.next.number < 0 ∧ btrNodes + (nodesBytes [] (p.before ++ [entry])).length ≤ pageSize) ∧
    pageSize < btrNodes + (nodesBytes [] nodes).length ∧
    ∃ mid right, nodes = left ++ mid :: right ∧ (nodesBytes [] left).length + pageSize <
      btrNodes + (nodesBytes [] nodes).length + common (lastKey [] (keys left)) mid.key

section

variable {page : IndexPage descending level} {p : Placement} {pageSize : Nat}
variable {bucket window fresh : Btr} {winPage splitPage : Int} {keyData : Nat → UInt8}
variable {node : Nat} {entry : Node} {s : Split}

theorem coded_enlarged (prev : Key) (before rest : List Node) (entry next : Node) :
    coded prev (before ++ entry :: next :: rest) = coded prev before ++
      (common (lastKey prev (keys before)) entry.key, entry) ::
        (common entry.key next.key, next) :: coded next.key rest := by
  rw [coded_append]
  rfl

theorem slice_keyAfter (keyData : Nat → UInt8) (lower : List Node) (m : Node) :
    slice (keyAfter keyData (coded [] lower ++ [(common (lastKey [] (keys lower)) m.key, m)])) 0
      m.key.length = m.key := by
  have hbuf := keyAfter_coded (holds_nil keyData 0) (lower ++ [m])
  rw [coded_append, lastKey_keys_append] at hbuf
  exact hbuf

/-- A page behind an insertion that is too long to stay in one piece. -/
theorem Btr.Stores.overflows (stored : bucket.Stores page)
    (nodes : page.nodes = p.before ++ entry :: p.next :: p.rest) (legal : 1024 ≤ pageSize)
    (overflow : pageSize < bucket.btrLength) (key : Key) :
    Overflows pageSize bucket (p.point key) (coded [] p.before)
      (common (lastKey [] (keys p.before)) entry.key, entry)
      (common entry.key p.next.key, p.next) (coded p.next.key p.rest) := by
  have hcoded : coded [] page.nodes = coded [] p.before ++
      (common (lastKey [] (keys p.before)) entry.key, entry) ::
        (common entry.key p.next.key, p.next) :: coded p.next.key p.rest := by
    rw [nodes, coded_enlarged]
  have hbytes := streamBytes_coded [] page.nodes
  rw [hcoded] at hbytes
  refine ⟨legal, overflow, ?_, ?_, ?_, ?_, ?_⟩
  · rw [← hcoded]
    exact codedFits_coded [] page.fits
  · rw [hbytes]
    exact stored.held
  · rw [hbytes]
    exact stored.length
  · rw [streamBytes_coded]
    rfl
  · intro hneg
    have hsplit : page.nodes = (p.before ++ [entry]) ++ p.next :: p.rest := by
      rw [nodes]
      simp
    rw [IndexPage.rest_of_neg hsplit hneg]
    rfl

/-- How long the new page gets, told from the page in front of the split. -/
theorem split_le_iff {key : Key} {lower upper : List Node} {mid : Node} (fits : mid.Fits)
    (crowded : Overflows pageSize bucket (p.point key) (coded [] p.before)
      (common (lastKey [] (keys p.before)) entry.key, entry)
      (common entry.key p.next.key, p.next) (coded p.next.key p.rest))
    (nodes : p.before ++ entry :: p.next :: p.rest = lower ++ mid :: upper)
    (start : btrNodes + (nodesBytes [] lower).length < splitMidpoint pageSize bucket (p.point key))
    (stop : splitMidpoint pageSize bucket (p.point key) ≤ btrNodes + (nodesBytes [] lower).length +
      (codedNode (common (lastKey [] (keys lower)) mid.key) mid).length) :
    btrNodes + (btnSize + mid.key.length) + (nodesBytes mid.key upper).length ≤ pageSize ↔
      ¬Overfull pageSize entry p := by
  have hlegal := crowded.legal
  have hshort : mid.key.length < 256 := fits.short
  have hlength := crowded.length
  have hshared := common_le_right (lastKey [] (keys lower)) mid.key
  have hnew := (crowded.fits (common (lastKey [] (keys p.before)) entry.key, entry) (by simp)).length_le
  have hnext := (crowded.fits (common entry.key p.next.key, p.next) (by simp)).length_le
  have htotal := hlength
  rw [← coded_enlarged, streamBytes_coded, nodes, nodesBytes_append, nodesBytes,
    List.length_append, List.length_append, length_nodeBytes] at htotal
  rw [length_codedNode] at stop
  simp only [btrNodes, btnSize] at hnew hnext htotal hlength start stop ⊢
  by_cases hend : (p.point key).oldNumber < 0 ∧ nextNode bucket.bytes (p.point key).node ≤ pageSize
  · obtain ⟨hrest, hmid, hroom⟩ := crowded.at_end hend
    refine iff_of_true ?_ (fun h => h.1 ⟨hend.1, ?_⟩)
    · rw [hrest] at hlength
      simp only [streamBytes_append, streamBytes_cons, List.length_append, btrNodes] at hlength hmid
      simp only [streamBytes, List.flatMap_nil, List.length_nil] at *
      omega
    · rwa [← streamBytes_coded, coded_append]
  · rw [splitMidpoint, if_neg hend] at start stop
    simp only [btrNodes] at start stop
    have hleft : endingBefore ((pageSize - btrNodes) / 2 - btrNodes) [] (lower ++ mid :: upper) =
        lower := by
      refine endingBefore_eq (by simp only [btrNodes]; omega) ?_
      rw [nodesBytes_append, nodesBytes, List.length_append, List.length_append, length_nodeBytes]
      simp only [btrNodes, nodesBytes, List.length_nil, btnSize]
      omega
    have hhead : ¬(p.next.number < 0 ∧
        btrNodes + (nodesBytes [] (p.before ++ [entry])).length ≤ pageSize) := by
      refine fun h => hend ⟨h.1, ?_⟩
      rw [crowded.nextNode, crowded.node]
      have hroom := h.2
      rw [← streamBytes_coded, coded_append] at hroom
      simpa [coded, streamBytes, Nat.add_assoc] using hroom
    have hsum : (nodesBytes [] (lower ++ mid :: upper)).length = (nodesBytes [] lower).length +
        (btnSize + (mid.key.length - common (lastKey [] (keys lower)) mid.key) +
          (nodesBytes mid.key upper).length) := by
      rw [nodesBytes_append, nodesBytes, List.length_append, List.length_append, length_nodeBytes]
    have hover := crowded.overflow
    rw [Overfull, nodes, hleft, hsum]
    simp only [btnSize, btrNodes] at hhead ⊢
    constructor
    · rintro hle ⟨-, -, mid', upper', hsame, hlong⟩
      obtain ⟨rfl, -⟩ := List.cons.inj (List.append_cancel_left hsame)
      omega
    · intro hnot
      by_contra hlong
      exact hnot ⟨hhead, by omega, mid, upper, rfl, by omega⟩

/-- The two pages of a split, in terms of the contents of the page. -/
theorem splitBucket_stores {key : Key} (cut : splitBucket pageSize bucket window fresh winPage
      splitPage keyData node (p.point key) = s) (stored : bucket.Stores page)
    (nodes : page.nodes = p.before ++ entry :: p.next :: p.rest) (legal : 1024 ≤ pageSize)
    (overflow : pageSize < bucket.btrLength) : ∃ old new : IndexPage descending level,
      s.bucket.Stores old ∧ s.split.Stores new ∧ page.entries = old.entries ++ new.entries ∧
        old.mark = ⟨s.newKey, endBucket⟩ ∧ new.mark = page.mark ∧
        (keys new.entries).head? = some s.newKey ∧ s.bucket.btrLength ≤ pageSize ∧
        (s.split.btrLength ≤ pageSize ↔ ¬Overfull pageSize entry p) := by
  have hover := stored.overflows nodes legal overflow key
  have hlow := hover.midpoint_bounds.1
  obtain ⟨left, mid, right, hcs, hstart, hstop, hkey, hsplit, hsplitLength, hold, holdLength, -, -⟩ :=
    splitBucket_spec cut hover.fits hover.held hover.length (by simp only [btrNodes]; omega)
      hover.midpoint_le
  obtain ⟨hleft, hright, hlower⟩ := hover.halves hcs hstart hstop
  obtain ⟨hlevel, hlevel', -⟩ := splitBucket_header cut
  rw [← coded_enlarged, ← nodes] at hcs
  obtain ⟨lower, m, upper, hnodes, rfl, rfl, rfl⟩ := coded_eq_append hcs
  dsimp only at *
  obtain ⟨more, last, rfl⟩ := (List.eq_nil_or_concat' upper).resolve_left
    (by rintro rfl; exact hright rfl)
  have happ : page.entries ++ [page.mark] = (lower ++ m :: more) ++ [last] := by
    rw [show page.entries ++ [page.mark] = page.nodes from rfl, hnodes]
    simp
  obtain ⟨hentries, hlast⟩ := List.append_inj' happ rfl
  rw [List.singleton_inj] at hlast
  obtain ⟨old, new, holdEntries, holdMark, hnewEntries, hnewMark⟩ :=
    page.exists_split hentries (by rintro rfl; exact hleft rfl)
  have hnewKey : s.newKey = m.key := hkey.trans (slice_keyAfter keyData lower m)
  rw [hnewKey, streamBytes_coded] at hsplit
  rw [streamBytes_coded] at hstart hstop hold holdLength hlower hsplitLength
  have hlow : nodesBytes [] (lower ++ [⟨m.key, endBucket⟩]) = nodesBytes [] lower ++
      codedNode (common (lastKey [] (keys lower)) m.key) ⟨m.key, endBucket⟩ := by
    rw [nodesBytes_append, nodesBytes, nodesBytes, nodeBytes, List.append_nil]
  have holdNodes : old.nodes = lower ++ [⟨m.key, endBucket⟩] := by
    rw [IndexPage.nodes, holdEntries, holdMark]
  have hnewNodes : new.nodes = m :: (more ++ [last]) := by
    rw [IndexPage.nodes, hnewEntries, hnewMark, ← hlast, List.cons_append]
  have hhigh : nodesBytes [] (m :: (more ++ [last])) = codedNode 0 m ++
      nodesBytes m.key (more ++ [last]) := rfl
  refine ⟨old, new, ⟨?_, ?_, ?_⟩, ⟨?_, ?_, ?_⟩, ?_, ?_, hnewMark, ?_, ?_, ?_⟩
  · rw [hlevel, stored.level]
  · rwa [holdNodes, hlow]
  · rw [holdNodes, hlow, List.length_append, length_renumber, holdLength, Nat.add_assoc]
  · rw [hlevel', stored.level]
  · rwa [hnewNodes, hhigh]
  · rw [hnewNodes, hhigh, List.length_append, length_codedNode, hsplitLength, Nat.sub_zero,
      Nat.add_assoc]
  · rw [hentries, holdEntries, hnewEntries]
  · rw [holdMark, hnewKey]
  · rw [hnewEntries, hnewKey]
    rfl
  · rw [holdLength]
    exact hlower
  · rw [hsplitLength]
    exact split_le_iff (page.fits m (by rw [hentries]; simp)) hover (nodes ▸ hnodes) hstart hstop

/-- A split that meets a node behind a shorter key leaves that node on one of the pages. -/
theorem splitBucket_overlong {key : Key} {pfx : Nat} {d : Nat × Node} {rest : List (Nat × Node)}
    (cut : splitBucket pageSize bucket window fresh winPage splitPage keyData node (p.point key) = s)
    (crowded : Overflows pageSize bucket (p.point key) (coded [] p.before) (pfx, entry) d rest)
    (fits : ∀ n ∈ p.before, n.Fits) (short : pfx < 256)
    (overlong : (lastKey [] (keys p.before)).length < pfx) :
    btrExpand s.bucket.bytes s.bucket.btrLength [] btrNodes = none ∨
      btrExpand s.split.bytes s.split.btrLength [] btrNodes = none := by
  have hlow := crowded.midpoint_bounds.1
  obtain ⟨left, mid, right, hcs, hstart, hstop, hkey, hsplit, hsplitLength, hold, holdLength, -, -⟩ :=
    splitBucket_spec cut crowded.fits crowded.held crowded.length (by simp only [btrNodes]; omega)
      crowded.midpoint_le
  have hpos := length_codedNode pfx entry
  simp only [btnSize] at hpos
  have hmiddle (hleft : left = coded [] p.before) (hmid : mid = (pfx, entry)) :
      btrExpand s.bucket.bytes s.bucket.btrLength [] btrNodes = none := by
    rw [hleft, hmid, streamBytes_coded] at hold holdLength
    dsimp only at hold holdLength
    exact btrExpand_overlong fits hold short overlong (by omega)
  rcases List.append_eq_append_iff.mp hcs with ⟨more, rfl, hmore⟩ | ⟨more, hbefore, hmore⟩
  · refine Or.inl ?_
    cases more with
    | nil => exact hmiddle (List.append_nil _) (List.cons.inj hmore).1.symm
    | cons c more =>
      obtain ⟨rfl, -⟩ := List.cons.inj hmore
      rw [streamBytes_append, streamBytes_coded, streamBytes_cons, List.append_assoc,
        List.append_assoc, ← List.append_assoc] at hold
      simp only [streamBytes_append, streamBytes_coded, streamBytes_cons, List.length_append]
        at holdLength
      exact btrExpand_overlong fits (holds_append.mp hold).1 short overlong (by omega)
  · cases more with
    | nil =>
      rw [List.append_nil] at hbefore
      exact Or.inl (hmiddle hbefore.symm (List.cons.inj hmore).1)
    | cons c more =>
      rw [List.cons_append] at hmore
      obtain ⟨rfl, rfl⟩ := List.cons.inj hmore
      obtain ⟨lower, m, upper, hnodes, rfl, rfl, rfl⟩ := coded_eq_append hbefore
      rw [hnodes, lastKey_keys_append, lastKey_keys_cons] at overlong
      rw [hkey, slice_keyAfter, streamBytes_append, streamBytes_coded, streamBytes_cons,
        ← List.append_assoc, ← List.append_assoc] at hsplit
      simp only [streamBytes_append, streamBytes_coded, streamBytes_cons, List.length_append]
        at hsplitLength
      have hbytes : nodesBytes [] (m :: upper) = codedNode 0 m ++ nodesBytes m.key upper := rfl
      have hfirst := length_codedNode 0 m
      have hfits : ∀ n ∈ m :: upper, n.Fits := fun n hn =>
        fits n (hnodes ▸ List.mem_append_right lower hn)
      refine Or.inr (btrExpand_overlong hfits (holds_append.mp hsplit).1 short ?_ ?_)
      · rwa [lastKey_keys_cons]
      · rw [hbytes, List.length_append, hfirst, Nat.sub_zero]
        omega

end

section

variable {pageSize : Nat} {pages : Int → Btr} {winPage splitPage : Int} {keyData : Nat → UInt8}
variable {page : IndexPage descending level} {iib : Iib} {p : Placement}

/-- The page that `DPM_allocate` gives out is neither the page at hand nor its right sibling. -/
structure Allocated (pages : Int → Btr) (winPage splitPage : Int) : Prop where
  new : splitPage ≠ winPage
  apart : splitPage ≠ (pages winPage).btrSibling
  sibling : (pages winPage).btrSibling ≠ winPage

/-- Two pages of a level are linked both ways; page 0 stands for none. -/
def Linked (pages : Int → Btr) (left right : Int) : Prop :=
  (pages left).btrSibling = right ∧ (right ≠ 0 → (pages right).btrLeftSibling = left)

/-- The nodes of a page are the given ones, and it is a page in size and start. -/
structure Btr.Expands (bucket : Btr) (pageSize : Nat) (page : IndexPage descending level) :
    Prop where
  nodes : btrExpand bucket.bytes bucket.btrLength [] btrNodes = some page.nodes
  inside : bucket.btrLength ≤ pageSize
  first : btnPrefix bucket.bytes btrNodes = 0

/-- What a split owes its caller. -/
structure Halves (pageSize : Nat) (pages pages' : Int → Btr) (winPage splitPage : Int)
    (newKey : Key) (page old new : IndexPage descending level) (entry : Node) : Prop where
  lower : (pages' winPage).Expands pageSize old
  upper : (pages' splitPage).Expands pageSize new
  contents : ∃ before after, page.entries = before ++ after ∧
    old.entries ++ new.entries = before ++ entry :: after
  order : (searched descending level (old.entries ++ new.nodes)).Pairwise
    (Node.NotAfter descending)
  lowerMark : old.mark = ⟨newKey, endBucket⟩
  upperMark : new.mark = page.mark
  newKey : (keys new.entries).head? = some newKey
  left : (pages' winPage).btrLeftSibling = (pages winPage).btrLeftSibling
  middle : Linked pages' winPage splitPage
  right : Linked pages' splitPage (pages winPage).btrSibling

def SplitsInTwo (pageSize : Nat) (pages : Int → Btr) (winPage splitPage : Int)
    (keyData : Nat → UInt8) (iib : Iib) (page : IndexPage descending level) : Prop :=
  ∃ result pages' duplicates, insertNode pageSize pages winPage splitPage keyData iib =
      some (result, pages', duplicates) ∧
    ∀ newKey rightSibling, result = .split newKey rightSibling →
      rightSibling = (pages winPage).btrSibling ∧
      ∃ old new : IndexPage descending level, Halves pageSize pages pages' winPage splitPage newKey
        page old new ⟨iib.iibKey, iib.iibNumber⟩

theorem Btr.Stores.expands {bucket : Btr} (stored : bucket.Stores page)
    (inside : bucket.btrLength ≤ pageSize) : bucket.Expands pageSize page := by
  refine ⟨stored.expand, inside, ?_⟩
  have hheld := stored.held
  have hfits : ∀ n ∈ page.nodes, n.Fits := page.fits
  cases hnodes : page.nodes with
  | nil => simp [IndexPage.nodes] at hnodes
  | cons n ns =>
    rw [hnodes] at hheld hfits
    have hat := Holds.nodeAt (hfits n (by simp)) (holds_append.mp hheld).1
    rw [hat.pfx, common_nil_left]

/-- The pages behind a split. -/
theorem splitPages_eq (pageSize : Nat) (keyData : Nat → UInt8) (bucket : Btr)
    (point : InsertionPoint) (alloc : Allocated pages winPage splitPage)
    (sibling : bucket.btrSibling = (pages winPage).btrSibling) :
    ∃ s node, splitBucket pageSize bucket (pages winPage) (pages splitPage) winPage splitPage
        keyData node point = s ∧
      let r := splitPages pageSize pages winPage splitPage keyData bucket point
      r.1 = .split s.newKey (pages winPage).btrSibling ∧ r.2 winPage = s.bucket ∧
        r.2 splitPage = s.split ∧ ((pages winPage).btrSibling ≠ 0 →
          (r.2 (pages winPage).btrSibling).btrLeftSibling = splitPage) := by
  obtain ⟨hnew, hapart, hsibling⟩ := alloc
  refine ⟨_, nextNode bucket.bytes point.node, rfl, ?_⟩
  simp only [splitPages, sibling]
  refine ⟨trivial, ?_, ?_, fun h => ?_⟩
  · split
    next => rw [setPage, if_neg (Ne.symm hsibling), setPage_same]
    next => rw [setPage_same]
  · split
    next => rw [setPage, if_neg hapart, setPage, if_neg hnew, setPage_same]
    next => rw [setPage, if_neg hnew, setPage_same]
  · rw [if_pos h, setPage_same]

theorem splitsInTwo_of_good (stored : (pages winPage).Stores page) (search : page.Searchable)
    (order : iib.idxDescending = descending) (legal : 1024 ≤ pageSize ∧ pageSize ≤ 16384)
    (fits : (pages winPage).btrLength ≤ pageSize) (short : iib.iibKey.length < maxKey)
    (low : 0 ≤ iib.iibNumber) (high : iib.iibNumber < 2147483648)
    (alloc : Allocated pages winPage splitPage)
    (good : ¬Misplaced descending level iib.iibSibling iib.iibKey page.nodes) :
    SplitsInTwo pageSize pages winPage splitPage keyData iib page ↔
      ∀ p, placement descending level iib.iibSibling iib.iibKey page.nodes = some p →
        ¬Overfull pageSize ⟨iib.iibKey, iib.iibNumber⟩ p := by
  rw [SplitsInTwo, insertNode_eq stored search order]
  cases hp : placement descending level iib.iibSibling iib.iibKey page.nodes with
  | none => exact iff_of_true ⟨_, _, _, rfl, fun _ _ h => by cases h⟩ (fun p h => by cases h)
  | some p =>
    obtain ⟨page', hstores, hnodes, hmark, after, hentries, hentries'⟩ :=
      insertAt_stores stored short low high (by omega) hp good
    simp only [Option.some.injEq, forall_eq']
    by_cases hroom : (insertAt (pages winPage) iib (p.point iib.iibKey)).btrLength ≤ pageSize
    · rw [if_pos hroom]
      refine iff_of_true ⟨_, _, _, rfl, fun _ _ h => by cases h⟩ (fun h => ?_)
      have hover := h.2.1
      rw [← hnodes, ← hstores.length] at hover
      omega
    · rw [if_neg hroom]
      obtain ⟨s, node, cut, hresult, hwin, hsplit, hright⟩ := splitPages_eq pageSize keyData
        (insertAt (pages winPage) iib (p.point iib.iibKey)) (p.point iib.iibKey) alloc rfl
      obtain ⟨old, new, hold, hnew, hall, holdMark, hnewMark, hkey, hlower, hupper⟩ :=
        splitBucket_stores cut hstores hnodes legal.1 (Nat.not_le.mp hroom)
      obtain ⟨-, -, hs1, hs2, hs3, hs4⟩ := splitBucket_header cut
      rw [← hupper]
      constructor
      · rintro ⟨result, pages', duplicates, hret, hhalves⟩
        cases hret
        obtain ⟨-, old', new', h⟩ := hhalves _ _ hresult
        have hinside := h.upper.inside
        rwa [hsplit] at hinside
      · intro hinside
        refine ⟨_, _, _, rfl, fun newKey rightSibling h => ?_⟩
        rw [hresult] at h
        cases h
        refine ⟨rfl, old, new, ?_, ?_, ⟨p.before, after, hentries, ?_⟩, ?_, holdMark, ?_, hkey, ?_,
          ⟨?_, ?_⟩, ⟨?_, ?_⟩⟩
        · rw [hwin]
          exact hold.expands hlower
        · rw [hsplit]
          exact hnew.expands hinside
        · rw [← hall, hentries']
        · have hsorted := page'.sorted
          rwa [hall, List.append_assoc, ← hnewMark] at hsorted
        · rw [hnewMark, hmark]
        · rw [hwin, hs4]
          rfl
        · rw [hwin, hs1]
        · intro _
          rw [hsplit, hs2]
        · rw [hsplit, hs3]
          rfl
        · exact hright

theorem misplaced_overflows (stored : (pages winPage).Stores page)
    (legal : 1024 ≤ pageSize ∧ pageSize ≤ 16384) (fits : (pages winPage).btrLength ≤ pageSize)
    (short : iib.iibKey.length < maxKey) (low : 0 ≤ iib.iibNumber)
    (high : iib.iibNumber < 2147483648)
    (hp : placement descending level iib.iibSibling iib.iibKey page.nodes = some p)
    (overflow : pageSize < (insertAt (pages winPage) iib (p.point iib.iibKey)).btrLength) :
    Overflows pageSize (insertAt (pages winPage) iib (p.point iib.iibKey)) (p.point iib.iibKey)
      (coded [] p.before) (p.pfx, ⟨iib.iibKey, iib.iibNumber⟩)
      (common iib.iibKey p.next.key, p.next) (coded p.next.key p.rest) := by
  have hsplit := placement_split hp
  have hfits : ∀ n ∈ p.before ++ p.next :: p.rest, n.Fits := hsplit ▸ page.fits
  have hready := placement_ready hp
  obtain ⟨hheld, hlength, -⟩ := insertAt_spec (hsplit ▸ stored.held) (hsplit ▸ stored.length)
    (hfits p.next (by simp)) short (by omega) hready
  have hbytes : streamBytes (coded [] p.before ++ (p.pfx, ⟨iib.iibKey, iib.iibNumber⟩) ::
      (common iib.iibKey p.next.key, p.next) :: coded p.next.key p.rest) =
        nodesBytes [] p.before ++ (codedNode p.pfx ⟨iib.iibKey, iib.iibNumber⟩ ++
          (nodeBytes iib.iibKey p.next ++ nodesBytes p.next.key p.rest)) := by
    rw [streamBytes_append, streamBytes_cons, streamBytes_cons, streamBytes_coded,
      streamBytes_coded, nodeBytes]
  refine ⟨legal.1, overflow, ?_, hbytes ▸ hheld, ?_, ?_, ?_⟩
  · intro e he
    rcases List.mem_append.mp he with he | he
    · exact codedFits_coded [] (fun n hn => hfits n (by simp [hn])) e he
    · rcases List.mem_cons.mp he with rfl | he
      · exact ⟨⟨short, by simp only; omega, high⟩, hready.pfx⟩
      · have hrest : ∀ n ∈ p.next :: p.rest, n.Fits := fun n hn =>
          hfits n (List.mem_append_right _ hn)
        exact codedFits_coded iib.iibKey hrest e he
  · have hprev := common_le_right (lastKey [] (keys p.before)) p.next.key
    have hkey := common_le_right iib.iibKey p.next.key
    have hL := stored.length
    rw [← hsplit, nodesBytes_append, nodesBytes] at hL
    rw [hbytes]
    simp only [List.length_append, length_nodeBytes, length_codedNode, btnSize] at hL hlength ⊢
    omega
  · rw [streamBytes_coded]
    rfl
  · intro hneg
    rw [IndexPage.rest_of_neg hsplit.symm hneg]
    rfl

theorem splitsInTwo_misplaced (stored : (pages winPage).Stores page) (search : page.Searchable)
    (order : iib.idxDescending = descending) (legal : 1024 ≤ pageSize ∧ pageSize ≤ 16384)
    (fits : (pages winPage).btrLength ≤ pageSize) (short : iib.iibKey.length < maxKey)
    (low : 0 ≤ iib.iibNumber) (high : iib.iibNumber < 2147483648)
    (alloc : Allocated pages winPage splitPage)
    (bad : Misplaced descending level iib.iibSibling iib.iibKey page.nodes) :
    SplitsInTwo pageSize pages winPage splitPage keyData iib page ↔
      (pages winPage).btrLength + btnSize ≤ pageSize := by
  obtain ⟨p, hp, hpfx, hfront, hne⟩ := misplaced_placement bad
  have hlength := (insertAt_misplaced stored short (by omega) hp bad).1
  rw [SplitsInTwo, insertNode_eq stored search order, hp]
  dsimp only
  rw [hlength]
  by_cases hroom : (pages winPage).btrLength + btnSize ≤ pageSize
  · rw [if_pos hroom]
    exact iff_of_true ⟨_, _, _, rfl, fun _ _ h => by cases h⟩ hroom
  · rw [if_neg hroom]
    refine iff_of_false ?_ hroom
    rintro ⟨result, pages', duplicates, hret, hhalves⟩
    cases hret
    obtain ⟨s, node, cut, hresult, hwin, hsplit, -⟩ := splitPages_eq pageSize keyData
      (insertAt (pages winPage) iib (p.point iib.iibKey)) (p.point iib.iibKey) alloc rfl
    obtain ⟨-, old, new, h⟩ := hhalves _ _ hresult
    have hold := h.lower.nodes
    have hnew := h.upper.nodes
    rw [hwin] at hold
    rw [hsplit] at hnew
    have hover := misplaced_overflows stored legal fits short low high hp (by omega)
    have hfits : ∀ n ∈ p.before ++ p.next :: p.rest, n.Fits := placement_split hp ▸ page.fits
    have hshort : (lastKey [] (keys p.before)).length < iib.iibKey.length := by
      by_contra hge
      exact hne (hfront.eq_of_length_le (by omega))
    rw [hpfx] at hover
    rcases splitBucket_overlong cut hover (fun n hn => hfits n (by simp [hn])) short hshort with
      hnone | hnone
    · rw [hnone] at hold
      cases hold
    · rw [hnone] at hnew
      cases hnew

/-- On a page of more than 1146 bytes there is always enough in front of the split. -/
theorem not_overfull_of_large {bucket : Btr} (large : 1146 ≤ pageSize)
    (stored : bucket.Stores page) (fits : bucket.btrLength ≤ pageSize) (short : iib.iibKey.length < maxKey)
    (hp : placement descending level iib.iibSibling iib.iibKey page.nodes = some p) :
    ¬Overfull pageSize ⟨iib.iibKey, iib.iibNumber⟩ p := by
  rintro ⟨-, -, mid, right, hsplit, hlong⟩
  have hkeylen : iib.iibKey.length < 256 := short
  have hnodes := placement_split hp
  have hfits : ∀ n ∈ p.before ++ p.next :: p.rest, n.Fits := hnodes ▸ page.fits
  have hmid : mid.key.length < 256 := by
    have hmem : mid ∈ p.before ++ ⟨iib.iibKey, iib.iibNumber⟩ :: p.next :: p.rest := by
      rw [hsplit]
      simp
    rcases List.mem_append.mp hmem with h | h
    · exact (hfits mid (List.mem_append_left _ h)).short
    · rcases List.mem_cons.mp h with rfl | h
      · exact hkeylen
      · exact (hfits mid (List.mem_append_right _ h)).short
  have hstop := endingBefore_stop hsplit
  generalize endingBefore ((pageSize - btrNodes) / 2 - btrNodes) []
    (p.before ++ ⟨iib.iibKey, iib.iibNumber⟩ :: p.next :: p.rest) = left at hlong hstop
  have hgrows := (placement_ready hp).grows
  have hshared := common_le_right (lastKey [] (keys left)) mid.key
  have hprev := common_le_right (lastKey [] (keys p.before)) p.next.key
  have hL := stored.length
  rw [← hnodes] at hL
  simp only [nodesBytes_append, nodesBytes, List.length_append, length_nodeBytes] at hL hlong hstop
  simp only [btrNodes, btnSize] at hL hlong hstop
  omega

/-- A split goes wrong exactly when the new node lands behind a shorter key, or when the node at
the middle of the page is so close to its start that the rest does not fit one page; and there is
no insertion where the search has no node to look at. -/
theorem insertNode_splitsInTwo_iff (stored : (pages winPage).Stores page)
    (order : iib.idxDescending = descending) (legal : 1024 ≤ pageSize ∧ pageSize ≤ 16384)
    (fits : (pages winPage).btrLength ≤ pageSize) (short : iib.iibKey.length < maxKey)
    (low : 0 ≤ iib.iibNumber) (high : iib.iibNumber < 2147483648)
    (alloc : Allocated pages winPage splitPage) :
    SplitsInTwo pageSize pages winPage splitPage keyData iib page ↔
      page.Searchable ∧ ¬((Misplaced descending level iib.iibSibling iib.iibKey page.nodes ∧
          pageSize < (pages winPage).btrLength + btnSize) ∨
        (¬Misplaced descending level iib.iibSibling iib.iibKey page.nodes ∧
          ∃ p, placement descending level iib.iibSibling iib.iibKey page.nodes = some p ∧
            Overfull pageSize ⟨iib.iibKey, iib.iibNumber⟩ p)) := by
  by_cases search : page.Searchable
  swap
  · refine iff_of_false ?_ (fun h => search h.1)
    rintro ⟨result, pages', duplicates, hret, -⟩
    rw [insertNode_bare stored order search] at hret
    cases hret
  by_cases bad : Misplaced descending level iib.iibSibling iib.iibKey page.nodes
  · rw [splitsInTwo_misplaced stored search order legal fits short low high alloc bad]
    simp only [search, bad, true_and, not_true_eq_false, false_and, or_false, Nat.not_lt]
  · rw [splitsInTwo_of_good stored search order legal fits short low high alloc bad]
    simp only [search, bad, false_and, not_false_eq_true, true_and, false_or, not_exists, not_and]

end

/-- A key of the greatest length. -/
def longKey (byte : UInt8) : Key := List.replicate 255 byte

theorem fits_longKey (byte : UInt8) (number : Int) (low : 0 ≤ number) (high : number < 100) :
    Node.Fits ⟨longKey byte, number⟩ := by
  refine ⟨?_, by simp only; omega, by simp only; omega⟩
  rw [longKey, List.length_replicate]
  decide

/-- Long keys that share nothing with their neighbours. -/
def longNodes : List Node :=
  [⟨longKey 1, 1⟩, ⟨longKey 2, 2⟩, ⟨longKey 3, 3⟩, ⟨longKey 5, 5⟩, ⟨longKey 6, 6⟩,
    ⟨longKey 7, 7⟩, ⟨longKey 8, 8⟩]

theorem longNodes_numbered : ∀ n ∈ longNodes, 0 ≤ n.number := by
  simp [longNodes]

theorem longNodes_sorted :
    (searched false 0 (longNodes ++ [⟨[], endLevel⟩])).Pairwise (Node.NotAfter false) := by
  decide +kernel

theorem longNodes_fits : ∀ n ∈ longNodes ++ [⟨[], endLevel⟩], Node.Fits n := by
  intro n hn
  simp only [longNodes, List.cons_append, List.nil_append, List.mem_cons, List.not_mem_nil,
    or_false] at hn
  rcases hn with rfl | rfl | rfl | rfl | rfl | rfl | rfl | rfl
  · exact fits_longKey _ _ (by decide) (by decide)
  · exact fits_longKey _ _ (by decide) (by decide)
  · exact fits_longKey _ _ (by decide) (by decide)
  · exact fits_longKey _ _ (by decide) (by decide)
  · exact fits_longKey _ _ (by decide) (by decide)
  · exact fits_longKey _ _ (by decide) (by decide)
  · exact fits_longKey _ _ (by decide) (by decide)
  · exact ⟨by decide, by decide, by decide⟩

def longPage : IndexPage false 0 where
  entries := longNodes
  mark := ⟨[], endLevel⟩
  numbered := longNodes_numbered
  marked := isMark_endLevel
  fits := longNodes_fits
  sorted := longNodes_sorted

example : longPage.bucket.btrLength = 1867 := by decide +kernel

theorem insertNode_splitsInTwo_long :
    SplitsInTwo 2048 (fun _ => longPage.bucket) 10 11 (fun _ => 0)
      ⟨4, 0, longKey 4, false, false⟩ longPage :=
  (insertNode_splitsInTwo_iff longPage.bucket_stores rfl (by decide) (by decide +kernel)
    (by decide +kernel) (by decide) (by decide) ⟨by decide, by decide, by decide⟩).mpr (by
      refine ⟨by decide +kernel, ?_⟩
      rintro (⟨⟨n, post, r, rest, hw, -⟩, -⟩ | ⟨-, p, hp, hover⟩)
      · exact hw.upper rfl
      · exact not_overfull_of_large (by decide) longPage.bucket_stores (by decide +kernel)
          (by decide +kernel) hp hover)

/-- The nodes of a leaf page of the smallest size whose second node ends right in the middle. -/
def crowdedNodes : List Node :=
  [⟨List.replicate 194 1, 1⟩, ⟨longKey 2, 2⟩, ⟨longKey 3, 3⟩, ⟨longKey 5, 5⟩]

theorem crowdedNodes_numbered : ∀ n ∈ crowdedNodes, 0 ≤ n.number := by
  simp [crowdedNodes]

theorem crowdedNodes_sorted :
    (searched false 0 (crowdedNodes ++ [⟨[], endLevel⟩])).Pairwise (Node.NotAfter false) := by
  decide +kernel

theorem crowdedNodes_fits : ∀ n ∈ crowdedNodes ++ [⟨[], endLevel⟩], Node.Fits n := by
  intro n hn
  simp only [crowdedNodes, List.cons_append, List.nil_append, List.mem_cons, List.not_mem_nil,
    or_false] at hn
  rcases hn with rfl | rfl | rfl | rfl | rfl
  · refine ⟨?_, by decide, by decide⟩
    rw [List.length_replicate]
    decide
  · exact fits_longKey _ _ (by decide) (by decide)
  · exact fits_longKey _ _ (by decide) (by decide)
  · exact fits_longKey _ _ (by decide) (by decide)
  · exact ⟨by decide, by decide, by decide⟩

def crowdedPage : IndexPage false 0 where
  entries := crowdedNodes
  mark := ⟨[], endLevel⟩
  numbered := crowdedNodes_numbered
  marked := isMark_endLevel
  fits := crowdedNodes_fits
  sorted := crowdedNodes_sorted

example : crowdedPage.bucket.btrLength = 1023 := by decide +kernel

/-- Four keys of 255 bytes go to the new page, which then has 1084 bytes. -/
theorem insertNode_overfills :
    crowdedPage.bucket.Stores crowdedPage ∧
      ¬SplitsInTwo 1024 (fun _ => crowdedPage.bucket) 10 11 (fun _ => 0)
        ⟨4, 0, longKey 4, false, false⟩ crowdedPage := by
  refine ⟨crowdedPage.bucket_stores, ?_⟩
  rw [splitsInTwo_of_good crowdedPage.bucket_stores (by decide +kernel) rfl (by decide)
    (by decide +kernel) (by decide +kernel) (by decide) (by decide) ⟨by decide, by decide, by decide⟩
    (fun ⟨n, post, r, rest, hw, _⟩ => hw.upper rfl)]
  intro h
  refine h ⟨[⟨List.replicate 194 1, 1⟩, ⟨longKey 2, 2⟩, ⟨longKey 3, 3⟩], ⟨longKey 5, 5⟩,
    [⟨[], endLevel⟩], 0⟩ (by decide +kernel) ⟨by decide +kernel, by decide +kernel,
      ⟨longKey 2, 2⟩, [⟨longKey 3, 3⟩, ⟨longKey 4, 4⟩, ⟨longKey 5, 5⟩, ⟨[], endLevel⟩],
      by decide +kernel, by decide +kernel⟩

end InterBase
