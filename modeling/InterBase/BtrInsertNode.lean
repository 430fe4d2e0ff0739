import InterBase.BtrInsertSpec

namespace InterBase

open Memory KeyOrder FrontCoding

variable {descending : Bool} {level : Nat} {key : Key} {sibling : Int}
variable {page : IndexPage descending level} {p : Placement}

/-- `insert_node` finds the key on the page and leaves it behind for a sibling further on. -/
structure Walks (descending : Bool) (level : Nat) (sibling : Int) (key : Key) (ns : List Node)
    (n : Node) (post : List Node) (r : Node) (rest : List Node) : Prop where
  start : nodesFrom descending level key ns = n :: post
  same : n.key = key
  upper : level ≠ 0
  notBucket : n.number ≠ endBucket
  notLevel : n.number ≠ endLevel
  notSibling : n.number ≠ sibling
  behind : chainRest sibling key post = r :: rest
  here : ¬(common (lastKey key (keys (chain sibling key post))) r.key = r.key.length ∧
    r.number = endBucket)

/-- A walk among the nodes with the key ends behind a node whose key is shorter. -/
def Misplaced (descending : Bool) (level : Nat) (sibling : Int) (key : Key) (ns : List Node) :
    Prop :=
  ∃ n post r rest, Walks descending level sibling key ns n post r rest ∧
    lastKey key (keys (chain sibling key post)) ≠ key

theorem placement_cases (h : placement descending level sibling key page.nodes = some p) :
    (p.before = nodesBefore descending level key page.nodes ∧
      nodesFrom descending level key page.nodes = p.next :: p.rest ∧
      p.pfx = common (lastKey [] (keys p.before)) key ∧
      ∀ n post r rest, ¬Walks descending level sibling key page.nodes n post r rest) ∨
    ∃ n post, Walks descending level sibling key page.nodes n post p.next p.rest ∧
      p.before = nodesBefore descending level key page.nodes ++ n :: chain sibling key post ∧
      p.pfx = key.length := by
  rw [placement] at h
  cases hfrom : nodesFrom descending level key page.nodes with
  | nil => rw [hfrom] at h; cases h
  | cons n post =>
    rw [hfrom] at h
    dsimp only at h
    split at h
    next => cases h
    next hbucket =>
      split at h
      next hwalk =>
        split at h
        next => cases h
        next r rest hr =>
          split at h
          next => cases h
          next hhere =>
            cases h
            exact Or.inr ⟨n, post, ⟨hfrom, hwalk.1, hwalk.2.2.1, fun hb => hbucket ⟨hwalk.1, hb⟩,
              hwalk.2.1, hwalk.2.2.2, hr, hhere⟩, rfl, rfl⟩
      next hwalk =>
        cases h
        refine Or.inl ⟨rfl, rfl, rfl, fun n' post' r rest hw => hwalk ?_⟩
        have hsame := hw.start
        rw [hfrom] at hsame
        cases hsame
        exact ⟨hw.same, hw.notLevel, hw.upper, hw.notSibling⟩

theorem placement_split (h : placement descending level sibling key page.nodes = some p) :
    p.before ++ p.next :: p.rest = page.nodes := by
  have hsplit := nodesBefore_append_nodesFrom descending level key page.nodes
  rcases placement_cases h with ⟨hbefore, hfrom, -, -⟩ | ⟨n, post, hw, hbefore, -⟩
  · rw [hbefore, ← hfrom, hsplit]
  · have hchain := chain_append_chainRest sibling key post
    rw [hw.behind] at hchain
    rw [hbefore, List.append_assoc, List.cons_append, hchain, ← hw.start, hsplit]

/-- The key in front of the new node, once a chain has been left behind. -/
theorem lastKey_walked (ns : List Node) {post : List Node} {n : Node} (hn : n.key = key) :
    lastKey [] (keys (ns ++ n :: chain sibling key post)) =
      lastKey key (keys (chain sibling key post)) := by
  rw [lastKey_keys_append, lastKey_keys_cons, hn]

theorem placement_ready (h : placement descending level sibling key page.nodes = some p) :
    p.Ready key := by
  rcases placement_cases h with ⟨hbefore, hfrom, hpfx, -⟩ | ⟨n, post, hw, hbefore, hpfx⟩
  · have hle := common_nodesFrom_le hfrom
    rw [← hbefore] at hle
    have hkey := common_le_right (lastKey [] (keys p.before)) key
    have hcommon := common_le_left key p.next.key
    have h1 := min_common_le key (lastKey [] (keys p.before)) p.next.key
    have h2 := min_common_le (lastKey [] (keys p.before)) key p.next.key
    rw [common_comm key] at h1
    exact ⟨by omega, by omega, by omega⟩
  · have hlast : common key (lastKey key (keys (chain sibling key post))) =
        (lastKey key (keys (chain sibling key post))).length := by
      rw [common_comm]
      exact common_of_isPrefix (lastKey_chain_isPrefix sibling key post)
    have hle := common_le_left (lastKey key (keys (chain sibling key post))) p.next.key
    have hmin := min_common_le key (lastKey key (keys (chain sibling key post))) p.next.key
    rw [hlast, Nat.min_eq_right hle] at hmin
    have hshort : common key p.next.key ≤
        common (lastKey key (keys (chain sibling key post))) p.next.key := by
      by_cases hl : p.next.number = endLevel
      · have hmem : p.next ∈ page.nodes := by
          rw [← placement_split h]
          simp
        simp [page.key_of_endLevel hmem hl]
      · obtain ⟨hk, hr⟩ := lastKey_chain_between hw.start hw.same hw.behind
        rw [common_of_sorted hk (hr hl)]
        exact Nat.min_le_right _ _
    rw [← lastKey_walked (nodesBefore descending level key page.nodes) hw.same, ← hbefore]
      at hmin hshort
    exact ⟨by omega, hmin, by omega⟩

/-- The page with one more entry in front of `next`. -/
theorem IndexPage.exists_insert (page : IndexPage descending level) {before rest : List Node}
    {next : Node} (entry : Node) (split : before ++ next :: rest = page.nodes) (fits : entry.Fits)
    (numbered : 0 ≤ entry.number)
    (sorted : (searched descending level (before ++ entry :: next :: rest)).Pairwise
      (Node.NotAfter descending)) :
    ∃ page' : IndexPage descending level, page'.nodes = before ++ entry :: next :: rest ∧
      page'.mark = page.mark ∧ ∃ after, page.entries = before ++ after ∧
        page'.entries = before ++ entry :: after := by
  obtain hnil | ⟨after, mark, hafter⟩ := List.eq_nil_or_concat' (next :: rest)
  · cases hnil
  have hnodes : (before ++ after) ++ [mark] = page.entries ++ [page.mark] := by
    rw [List.append_assoc, ← hafter]
    exact split
  obtain ⟨hentries, hmark⟩ := List.append_inj' hnodes rfl
  rw [List.singleton_inj] at hmark
  have hall : (before ++ entry :: after) ++ [page.mark] = before ++ entry :: next :: rest := by
    rw [hafter, ← hmark, List.append_assoc, List.cons_append]
  refine ⟨⟨before ++ entry :: after, page.mark, ?_, page.marked, ?_, ?_⟩, hall,
    rfl, after, hentries.symm, rfl⟩
  · intro n hn
    rcases List.mem_append.mp hn with hb | ha
    · exact page.numbered n (hentries ▸ List.mem_append_left after hb)
    · rcases List.mem_cons.mp ha with rfl | ha
      · exact numbered
      · exact page.numbered n (hentries ▸ List.mem_append_right before ha)
  · intro n hn
    rw [hall] at hn
    have hold : ∀ k ∈ before ++ next :: rest, k.Fits := split ▸ page.fits
    rcases List.mem_append.mp hn with hb | ha
    · exact hold n (List.mem_append_left _ hb)
    · rcases List.mem_cons.mp ha with rfl | ha
      · exact fits
      · exact hold n (List.mem_append_right before ha)
  · rw [hall]
    exact sorted

/-- Every key that a chain leads past lies between the first key and the last one. -/
theorem mem_chain_isPrefix {prev : Key} {ns : List Node} {n : Node}
    (h : n ∈ chain sibling prev ns) :
    n.key <+: prev ∧ lastKey prev (keys (chain sibling prev ns)) <+: n.key := by
  induction ns generalizing prev with
  | nil => cases h
  | cons k ns ih =>
    rw [chain] at h ⊢
    split at h
    next hc =>
      have hk := isPrefix_of_common hc.1
      rw [if_pos hc, lastKey_keys_cons]
      rcases List.mem_cons.mp h with rfl | h
      · exact ⟨hk, lastKey_chain_isPrefix sibling n.key ns⟩
      · exact ⟨(ih h).1.trans hk, (ih h).2⟩
    next => cases h

theorem Passed.notAfter {n : Node} (h : Passed descending key n) :
    KeyOrder.NotAfter descending n.key key := by
  rcases h with h | ⟨-, hk, hn⟩
  · exact h.notAfter
  · rw [hk, hn]
    exact notAfter_refl []

/-- What the first of some sorted nodes does not come before, none of them comes before. -/
theorem notAfter_of_head {n : Node} {post : List Node} {number : Int} (closed : Closed (n :: post))
    (sorted : (n :: post).Pairwise (Node.NotAfter descending))
    (head : n.number = endLevel ∨ KeyOrder.NotAfter descending key n.key) :
    ∀ k ∈ n :: post, Node.NotAfter descending ⟨key, number⟩ k := by
  intro k hk
  rcases List.mem_cons.mp hk with rfl | hk
  · exact head
  · have hnumber := (closed.tail (List.ne_nil_of_mem hk)).1
    have hkey := head.resolve_left (by simp only [endLevel]; omega)
    rcases List.rel_of_pairwise_cons sorted hk with hl | hnk
    · exact Or.inl hl
    · exact Or.inr (hkey.trans hnk)

theorem walks_good {n r : Node} {post rest : List Node}
    (good : ¬Misplaced descending level sibling key page.nodes)
    (hw : Walks descending level sibling key page.nodes n post r rest) :
    lastKey key (keys (chain sibling key post)) = key := by
  by_contra h
  exact good ⟨n, post, r, rest, hw, h⟩

/-- The nodes in front of the new one do not come after it, those behind it not before it. -/
theorem placement_order (number : Int)
    (hp : placement descending level sibling key page.nodes = some p)
    (good : ¬Misplaced descending level sibling key page.nodes) :
    ∃ front, p.before = dummies descending level page.nodes ++ front ∧
      searched descending level page.nodes = front ++ p.next :: p.rest ∧
      (∀ n ∈ front, n.NotAfter descending ⟨key, number⟩) ∧
      ∀ n ∈ p.next :: p.rest, Node.NotAfter descending ⟨key, number⟩ n := by
  have hsplit := placement_split hp
  have hclosed : Closed (p.next :: p.rest) := by
    have := page.closed
    rw [← hsplit] at this
    exact this.suffix (by simp)
  have hscan := List.takeWhile_append_dropWhile (p := scanned descending key)
    (l := searched descending level page.nodes)
  have hpassed : ∀ n ∈ (searched descending level page.nodes).takeWhile (scanned descending key),
      n.NotAfter descending ⟨key, number⟩ := by
    intro n hn
    have hs := List.mem_takeWhile_imp hn
    simp only [scanned, decide_eq_true_eq] at hs
    exact Or.inr hs.2.notAfter
  rcases placement_cases hp with ⟨hbefore, hfrom, -, -⟩ | ⟨n, post, hw, hbefore, -⟩
  · refine ⟨_, hbefore, ?_, hpassed, ?_⟩
    · rw [← hfrom]
      exact hscan.symm
    · refine notAfter_of_head hclosed (sorted_nodesFrom hfrom) ?_
      rcases not_scanned_of_nodesFrom hfrom with hl | hn
      · exact Or.inl hl
      · exact Or.inr (fun hb => hn (Or.inl hb))
  · have hkey := walks_good good hw
    have hchain := chain_append_chainRest sibling key post
    rw [hw.behind] at hchain
    refine ⟨(searched descending level page.nodes).takeWhile (scanned descending key) ++
      n :: chain sibling key post, ?_, ?_, ?_, ?_⟩
    · rw [hbefore, nodesBefore, List.append_assoc]
    · rw [List.append_assoc, List.cons_append, hchain, ← hw.start]
      exact hscan.symm
    · intro k hk
      rcases List.mem_append.mp hk with hk | hk
      · exact hpassed k hk
      · rcases List.mem_cons.mp hk with rfl | hk
        · exact Or.inr (hw.same ▸ notAfter_refl k.key)
        · obtain ⟨hle, hge⟩ := mem_chain_isPrefix hk
          rw [hkey] at hge
          have hsame : k.key = key := hle.eq_of_length_le hge.length_le
          exact Or.inr (hsame ▸ notAfter_refl k.key)
    · have hsorted := sorted_nodesFrom hw.start
      rw [← hchain] at hsorted
      refine notAfter_of_head hclosed (List.pairwise_append.mp
        (List.pairwise_cons.mp hsorted).2).2.1 ?_
      by_cases hl : p.next.number = endLevel
      · exact Or.inl hl
      · have := (lastKey_chain_between hw.start hw.same hw.behind).2 hl
        rw [hkey] at this
        exact Or.inr this

theorem searched_sublist (descending : Bool) (level : Nat) (ns : List Node) :
    (searched descending level ns).Sublist ns := by
  rcases searched_cases descending level ns with ⟨-, hs⟩ | ⟨n, rest, rfl, -, -, -, -, hs⟩
  · rw [hs]
  · rw [hs]
    exact List.sublist_cons_self n rest

theorem sorted_insert (number : Int)
    (hp : placement descending level sibling key page.nodes = some p)
    (good : ¬Misplaced descending level sibling key page.nodes) :
    (searched descending level (p.before ++ ⟨key, number⟩ :: p.next :: p.rest)).Pairwise
      (Node.NotAfter descending) := by
  obtain ⟨front, hbefore, hsearched, hfront, hbehind⟩ := placement_order number hp good
  have hsorted : (front ++ p.next :: p.rest).Pairwise (Node.NotAfter descending) :=
    hsearched ▸ page.sorted
  rw [List.pairwise_append] at hsorted
  have hall : (front ++ ⟨key, number⟩ :: p.next :: p.rest).Pairwise
      (Node.NotAfter descending) := by
    rw [List.pairwise_append, List.pairwise_cons]
    refine ⟨hsorted.1, ⟨hbehind, hsorted.2.1⟩, fun a ha b hb => ?_⟩
    rcases List.mem_cons.mp hb with rfl | hb
    · exact hfront a ha
    · exact hsorted.2.2 a ha b hb
  rw [hbefore]
  rcases searched_cases descending level page.nodes with
    ⟨hd, -⟩ | ⟨n, rest, -, hkey, hl, hdesc, hd, -⟩
  · rw [hd, List.nil_append]
    exact hall.sublist (searched_sublist _ _ _)
  · rw [hd, List.singleton_append, List.cons_append, searched, if_pos ⟨hl, hdesc, hkey⟩]
    exact hall

theorem last_of_good (hp : placement descending level sibling key page.nodes = some p)
    (good : ¬Misplaced descending level sibling key page.nodes) :
    p.pfx = common (lastKey [] (keys p.before)) key := by
  rcases placement_cases hp with ⟨-, -, hpfx, -⟩ | ⟨n, post, hw, hbefore, hpfx⟩
  · exact hpfx
  · rw [hpfx, hbefore, lastKey_walked _ hw.same, walks_good good hw, common_self]

section

variable {bucket : Btr} {iib : Iib}

/-- What `insert_node` does to the buffer before it looks at the size of the page. -/
theorem insertAt_stores (stored : bucket.Stores page) (short : iib.iibKey.length < maxKey)
    (low : 0 ≤ iib.iibNumber) (high : iib.iibNumber < 2147483648)
    (legal : bucket.btrLength ≤ 16384)
    (hp : placement descending level iib.iibSibling iib.iibKey page.nodes = some p)
    (good : ¬Misplaced descending level iib.iibSibling iib.iibKey page.nodes) :
    ∃ page' : IndexPage descending level,
      (insertAt bucket iib (p.point iib.iibKey)).Stores page' ∧
      page'.nodes = p.before ++ ⟨iib.iibKey, iib.iibNumber⟩ :: p.next :: p.rest ∧
      page'.mark = page.mark ∧ ∃ after, page.entries = p.before ++ after ∧
        page'.entries = p.before ++ ⟨iib.iibKey, iib.iibNumber⟩ :: after := by
  have hsplit := placement_split hp
  have hpfx := last_of_good hp good
  have hfits : p.next.Fits := page.fits p.next (by
    rw [show page.entries ++ [page.mark] = page.nodes from rfl, ← hsplit]
    simp)
  obtain ⟨page', hnodes, hmark, hentries⟩ := page.exists_insert ⟨iib.iibKey, iib.iibNumber⟩
    hsplit ⟨short, by simp only; omega, high⟩ low (sorted_insert iib.iibNumber hp good)
  refine ⟨page', ?_, hnodes, hmark, hentries⟩
  obtain ⟨hheld, hlength, -⟩ := insertAt_spec (hsplit ▸ stored.held) (hsplit ▸ stored.length) hfits
    short legal (placement_ready hp)
  have hbytes : nodesBytes [] page'.nodes = nodesBytes [] p.before ++
      (codedNode p.pfx ⟨iib.iibKey, iib.iibNumber⟩ ++
        (nodeBytes iib.iibKey p.next ++ nodesBytes p.next.key p.rest)) := by
    rw [hnodes, nodesBytes_append, nodesBytes, nodesBytes, nodeBytes, hpfx]
  refine ⟨stored.level, hbytes ▸ hheld, ?_⟩
  have hold := common_le_right iib.iibKey p.next.key
  have hprev := common_le_right (lastKey [] (keys p.before)) p.next.key
  have hL := stored.length
  rw [← hsplit, nodesBytes_append, nodesBytes] at hL
  rw [hbytes]
  simp only [List.length_append, length_nodeBytes, length_codedNode, btnSize] at hL hlength ⊢
  omega

end

/-- The page expands to the old entries in their order with one more among them, sorted and closed
by the same end marker. -/
def InsertsEntry (page : IndexPage descending level) (entry : Node) (bucket : Btr) : Prop :=
  ∃ page' : IndexPage descending level,
    btrExpand bucket.bytes bucket.btrLength [] btrNodes = some page'.nodes ∧
    page'.mark = page.mark ∧ ∃ before after, page.entries = before ++ after ∧
      page'.entries = before ++ entry :: after

section

variable {pageSize : Nat} {pages : Int → Btr} {winPage splitPage : Int} {keyData : Nat → UInt8}
variable {bucket : Btr} {iib : Iib}

theorem misplaced_placement (bad : Misplaced descending level sibling key page.nodes) :
    ∃ p, placement descending level sibling key page.nodes = some p ∧ p.pfx = key.length ∧
      lastKey [] (keys p.before) <+: key ∧ lastKey [] (keys p.before) ≠ key := by
  obtain ⟨n, post, r, rest, hw, hne⟩ := bad
  refine ⟨⟨nodesBefore descending level key page.nodes ++ n :: chain sibling key post, r, rest,
    key.length⟩, ?_, rfl, ?_⟩
  · rw [placement, hw.start]
    dsimp only
    rw [if_neg (fun h => hw.notBucket h.2),
      if_pos ⟨hw.same, hw.notLevel, hw.upper, hw.notSibling⟩, hw.behind]
    dsimp only
    rw [if_neg hw.here]
  · rw [lastKey_walked _ hw.same]
    exact ⟨lastKey_chain_isPrefix sibling key post, hne⟩

/-- A new node behind a shorter key takes six bytes and cannot be expanded. -/
theorem insertAt_misplaced (stored : bucket.Stores page) (short : iib.iibKey.length < maxKey)
    (legal : bucket.btrLength ≤ 16384)
    (hp : placement descending level iib.iibSibling iib.iibKey page.nodes = some p)
    (bad : Misplaced descending level iib.iibSibling iib.iibKey page.nodes) :
    (insertAt bucket iib (p.point iib.iibKey)).btrLength = bucket.btrLength + btnSize ∧
      btrExpand (insertAt bucket iib (p.point iib.iibKey)).bytes
        (insertAt bucket iib (p.point iib.iibKey)).btrLength [] btrNodes = none := by
  obtain ⟨p', hp', hpfx, hfront, hne⟩ := misplaced_placement bad
  rw [hp] at hp'
  cases hp'
  have hsplit := placement_split hp
  have hfits : ∀ n ∈ p.before ++ p.next :: p.rest, n.Fits := hsplit ▸ page.fits
  obtain ⟨-, hgrows, hroom⟩ := placement_ready hp
  obtain ⟨hheld, hlength, -⟩ := insertAt_spec (hsplit ▸ stored.held) (hsplit ▸ stored.length)
    (hfits p.next (by simp)) short legal (placement_ready hp)
  have hL : (insertAt bucket iib (p.point iib.iibKey)).btrLength = bucket.btrLength + btnSize := by
    omega
  refine ⟨hL, ?_⟩
  have hkeylen : iib.iibKey.length < 256 := short
  have hshort : (lastKey [] (keys p.before)).length < iib.iibKey.length := by
    by_contra hge
    exact hne (hfront.eq_of_length_le (by omega))
  have hbefore := stored.length
  rw [← hsplit, nodesBytes_append, List.length_append] at hbefore
  rw [← List.append_assoc] at hheld
  have hpos := length_nodeBytes (lastKey [] (keys p.before)) p.next
  simp only [nodesBytes, List.length_append, btnSize] at hL hbefore hpos
  exact btrExpand_overlong (fun n hn => hfits n (List.mem_append_left _ hn))
    (holds_append.mp hheld).1 (by omega) (by omega) (by omega)

theorem insertNode_bare (stored : (pages winPage).Stores page)
    (order : iib.idxDescending = descending) (bare : ¬page.Searchable) :
    insertNode pageSize pages winPage splitPage keyData iib = none := by
  rw [insertNode, findInsertion_bare stored bare order]

theorem insertNode_eq (stored : (pages winPage).Stores page) (search : page.Searchable)
    (order : iib.idxDescending = descending) :
    insertNode pageSize pages winPage splitPage keyData iib =
      match placement descending level iib.iibSibling iib.iibKey page.nodes with
      | none => some (.wrongBucket, pages, [])
      | some p =>
        let bucket := insertAt (pages winPage) iib (p.point iib.iibKey)
        let duplicates := foundDuplicates bucket iib (p.point iib.iibKey)
        if bucket.btrLength ≤ pageSize then
          some (.fits, setPage pages winPage bucket, duplicates)
        else
          let s := splitPages pageSize pages winPage splitPage keyData bucket (p.point iib.iibKey)
          some (s.1, s.2, duplicates) := by
  rw [insertNode, findInsertion_eq stored search order]
  cases placement descending level iib.iibSibling iib.iibKey page.nodes with
  | none => rfl
  | some p => rfl

/-- What the caller of `insert_node` is owed: it returns, and a page that need not be split then
holds the old contents with the new pair in its place. -/
def InsertsInPlace (pageSize : Nat) (pages : Int → Btr) (winPage splitPage : Int)
    (keyData : Nat → UInt8) (iib : Iib) (page : IndexPage descending level) : Prop :=
  ∃ result pages' duplicates, insertNode pageSize pages winPage splitPage keyData iib =
      some (result, pages', duplicates) ∧
    (result = .fits → InsertsEntry page ⟨iib.iibKey, iib.iibNumber⟩ (pages' winPage))

theorem insertsInPlace_of_good (stored : (pages winPage).Stores page) (search : page.Searchable)
    (order : iib.idxDescending = descending) (legal : pageSize ≤ 16384)
    (fits : (pages winPage).btrLength ≤ pageSize) (short : iib.iibKey.length < maxKey)
    (low : 0 ≤ iib.iibNumber) (high : iib.iibNumber < 2147483648)
    (good : ¬Misplaced descending level iib.iibSibling iib.iibKey page.nodes) :
    InsertsInPlace pageSize pages winPage splitPage keyData iib page := by
  rw [InsertsInPlace, insertNode_eq stored search order]
  cases hp : placement descending level iib.iibSibling iib.iibKey page.nodes with
  | none => exact ⟨_, _, _, rfl, fun h => by cases h⟩
  | some p =>
    obtain ⟨page', hstores, -, hmark, after, hentries, hentries'⟩ :=
      insertAt_stores stored short low high (by omega) hp good
    dsimp only
    split
    next =>
      refine ⟨_, _, _, rfl, fun _ => ⟨page', ?_, hmark, _, after, hentries, hentries'⟩⟩
      rw [setPage_same]
      exact hstores.expand
    next => exact ⟨_, _, _, rfl, fun h => by cases h⟩

theorem insertsInPlace_misplaced (stored : (pages winPage).Stores page) (search : page.Searchable)
    (order : iib.idxDescending = descending) (legal : pageSize ≤ 16384)
    (fits : (pages winPage).btrLength ≤ pageSize) (short : iib.iibKey.length < maxKey)
    (bad : Misplaced descending level iib.iibSibling iib.iibKey page.nodes) :
    InsertsInPlace pageSize pages winPage splitPage keyData iib page ↔
      ¬(pages winPage).btrLength + btnSize ≤ pageSize := by
  obtain ⟨p, hp, -⟩ := misplaced_placement bad
  obtain ⟨hlength, hexpand⟩ := insertAt_misplaced stored short (by omega) hp bad
  rw [InsertsInPlace, insertNode_eq stored search order, hp]
  dsimp only
  rw [hlength]
  by_cases hroom : (pages winPage).btrLength + btnSize ≤ pageSize
  · rw [if_pos hroom]
    refine iff_of_false ?_ (fun h => h hroom)
    rintro ⟨result, pages', duplicates, hret, hinserts⟩
    cases hret
    obtain ⟨page', hpage, -⟩ := hinserts rfl
    rw [setPage_same, hexpand] at hpage
    cases hpage
  · rw [if_neg hroom]
    exact iff_of_true ⟨_, _, _, rfl, fun h => by cases h⟩ hroom

/-- An insertion without a split goes wrong exactly when the search has no node to look at, or when
a chain of nodes without data leads it behind a node with a shorter key and there is room for the
new node there. -/
theorem insertNode_insertsInPlace_iff (stored : (pages winPage).Stores page)
    (order : iib.idxDescending = descending) (legal : pageSize ≤ 16384)
    (fits : (pages winPage).btrLength ≤ pageSize) (short : iib.iibKey.length < maxKey)
    (low : 0 ≤ iib.iibNumber) (high : iib.iibNumber < 2147483648) :
    InsertsInPlace pageSize pages winPage splitPage keyData iib page ↔
      page.Searchable ∧ ¬(Misplaced descending level iib.iibSibling iib.iibKey page.nodes ∧
        (pages winPage).btrLength + btnSize ≤ pageSize) := by
  by_cases search : page.Searchable
  swap
  · refine iff_of_false ?_ (fun h => search h.1)
    rintro ⟨result, pages', duplicates, hret, -⟩
    rw [insertNode_bare stored order search] at hret
    cases hret
  by_cases bad : Misplaced descending level iib.iibSibling iib.iibKey page.nodes
  · rw [insertsInPlace_misplaced stored search order legal fits short bad]
    simp only [search, bad, true_and]
  · refine iff_of_true ?_ ⟨search, fun h => bad h.1⟩
    exact insertsInPlace_of_good stored search order legal fits short low high bad

end

/-- A leaf page of an ascending index. -/
def leafPage : IndexPage false 0 where
  entries := [⟨[5], 1⟩, ⟨[5, 6], 2⟩, ⟨[7], 3⟩]
  mark := ⟨[], endLevel⟩
  numbered := by decide
  marked := isMark_endLevel
  fits := by
    intro n hn
    simp only [List.cons_append, List.nil_append, List.mem_cons, List.not_mem_nil, or_false] at hn
    rcases hn with rfl | rfl | rfl | rfl <;> exact ⟨by decide, by decide, by decide⟩
  sorted := by decide

theorem insertNode_insertsInPlace_leaf :
    InsertsInPlace 1024 (fun _ => leafPage.bucket) 10 11 (fun _ => 0) ⟨4, 0, [5, 6], false, false⟩
      leafPage :=
  (insertNode_insertsInPlace_iff leafPage.bucket_stores rfl (by decide) (by decide) (by decide)
    (by decide) (by decide)).mpr (by
      refine ⟨by decide, ?_⟩
      rintro ⟨⟨n, post, r, rest, hw, -⟩, -⟩
      exact hw.upper rfl)

/-- A page above the leaves of a descending index: the key of page 11 is cut short in page 12. -/
def pointerPage : IndexPage true 1 where
  entries := [⟨[], 10⟩, ⟨[5, 6], 11⟩, ⟨[5], 12⟩]
  mark := ⟨[], endLevel⟩
  numbered := by decide
  marked := isMark_endLevel
  fits := by
    intro n hn
    simp only [List.cons_append, List.nil_append, List.mem_cons, List.not_mem_nil, or_false] at hn
    rcases hn with rfl | rfl | rfl | rfl <;> exact ⟨by decide, by decide, by decide⟩
  sorted := by decide

/-- Page 13 split off page 11 while the pointer to page 14, its right sibling, was still missing: the
new node goes behind page 12, whose key comes later. -/
theorem insertNode_misplaces :
    pointerPage.bucket.Stores pointerPage ∧
      ¬InsertsInPlace 1024 (fun _ => pointerPage.bucket) 20 21 (fun _ => 0)
        ⟨13, 14, [5, 6], false, true⟩ pointerPage := by
  refine ⟨pointerPage.bucket_stores, ?_⟩
  rw [insertsInPlace_misplaced pointerPage.bucket_stores (by decide) rfl (by decide) (by decide)
    (by decide)]
  · decide
  · refine ⟨⟨[5, 6], 11⟩, [⟨[5], 12⟩, ⟨[], endLevel⟩], ⟨[], endLevel⟩, [], ?_, by decide⟩
    exact ⟨by decide, rfl, by decide, by decide, by decide, by decide, by decide, by decide⟩

end InterBase
