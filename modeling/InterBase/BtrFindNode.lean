import InterBase.BtrFindLeaf

namespace InterBase

open Memory KeyOrder FrontCoding

/-- The scan of `find_node` behind a node, with `p` as in `BTR_find_leaf`; the comparison of one node
is that of a retrieval. Nothing when the scan leaves the data of the page. -/
def findNodeLoop (m : Nat → UInt8) (key : Key) (stop : Nat) (descending : Bool) (prior p : Nat) :
    Option Nat :=
  if btnNumber m prior = endBucket then some prior
  else if nextNode m prior < stop then
    let node := nextNode m prior
    if btnNumber m node = endLevel ∨ btnPrefix m node < p % 256 then some prior
    else
      match matchNode m key descending true node p with
      | none => some prior
      | some p => findNodeLoop m key stop descending node p
  else none
termination_by stop - prior
decreasing_by
  have := lt_nextNode m prior
  omega

/-- `find_node`: a node on the page, or bugcheck 206. -/
def findNode (bucket : Btr) (key : Key) (descending : Bool) : Except Nat (Option Nat) :=
  let node := btrNodes
  let pfx := computePrefix key (slice bucket.bytes (btnData node) (btnLength bucket.bytes node)) % 256
  if btnNumber bucket.bytes node = endLevel then .error 206
  else if key = [] then .ok (some node)
  else .ok (findNodeLoop bucket.bytes key bucket.btrLength descending node pfx)

/-- What `find_node` takes for less than the key: a node before it in the order of the index, but in
a descending index none that goes on behind the whole key. -/
def Precedes (descending : Bool) (a key : Key) : Prop :=
  Before descending a key ∧ (descending = true → ¬key <+: a)

variable {m : Nat → UInt8} {key : Key} {descending : Bool}

theorem isPrefix_iff_common {a b : Key} : b <+: a ↔ common a b = b.length := by
  constructor
  · intro h
    rw [common_comm]
    exact common_of_isPrefix h
  · exact isPrefix_of_common

theorem precedes_drop {a b : Key} {n : Nat} (h : n ≤ common a b) :
    Precedes descending a b ↔ Precedes descending (a.drop n) (b.drop n) := by
  have hle := common_le_right a b
  have hadd := common_eq_add h
  unfold Precedes
  rw [before_drop h, isPrefix_iff_common, isPrefix_iff_common, hadd, List.length_drop]
  have hiff : n + common (a.drop n) (b.drop n) = b.length ↔
      common (a.drop n) (b.drop n) = b.length - n := by omega
  rw [hiff]

/-- What precedes a key stays in front when it is followed backwards. -/
theorem Precedes.of_notAfter {a b : Key} (h : Precedes descending b key)
    (sorted : KeyOrder.NotAfter descending a b) : Precedes descending a key := by
  refine ⟨sorted.trans_before h.1, ?_⟩
  intro hdesc hprefix
  have hb := h.2 hdesc
  rw [isPrefix_iff_common] at hprefix hb
  have hle := common_le_right b key
  have hmin := common_of_sorted sorted h.1.notAfter
  omega

theorem descendingLoop_retrieval (p : Nat) (xs : Key) {q : Nat} {ys : Key} (held : Holds m q ys) :
    (descendingLoop m true (q + ys.length) xs p q = none ∧ ¬Precedes true ys xs) ∨
      (descendingLoop m true (q + ys.length) xs p q = some (p + common ys xs) ∧
        Precedes true ys xs) := by
  induction xs generalizing ys p q with
  | nil =>
    refine Or.inl ⟨by simp [descendingLoop], ?_⟩
    rintro ⟨-, extends_⟩
    exact extends_ rfl List.nil_prefix
  | cons x xs ih =>
    cases ys with
    | nil =>
      refine Or.inl ⟨by simp [descendingLoop], ?_⟩
      rintro ⟨before, -⟩
      simp [Before] at before
    | cons y ys =>
      obtain ⟨hy, hrest⟩ := holds_cons.mp held
      have hq : ¬q = q + (y :: ys).length := by
        rw [List.length_cons]
        omega
      rw [descendingLoop, if_neg hq, hy]
      rcases Std.lt_trichotomy y x with hlt | rfl | hgt
      · have hne : y ≠ x := fun he => Std.lt_irrefl (he ▸ hlt)
        refine Or.inr ⟨by simp [hlt, common_cons, hne], Or.inl hlt, ?_⟩
        intro _ hprefix
        exact hne (List.cons_prefix_cons.mp hprefix).1.symm
      · have hnext := ih (p := p + 1) hrest
        rw [show q + 1 + ys.length = q + (y :: ys).length by
          rw [List.length_cons]; omega] at hnext
        have hshift : Precedes true (y :: ys) (y :: xs) ↔ Precedes true ys xs :=
          precedes_drop (n := 1) (by simp [common_cons])
        rw [hshift, if_neg Std.lt_irrefl, if_neg Std.lt_irrefl, common_cons, if_pos rfl,
          Nat.add_comm (common ys xs), ← Nat.add_assoc]
        exact hnext
      · have hno : ¬y < x := fun h => Std.lt_irrefl (Std.lt_trans h hgt)
        have hne : y ≠ x := fun he => Std.lt_irrefl (he ▸ hgt)
        refine Or.inl ⟨by simp [hgt, hno], ?_⟩
        rintro ⟨before | ⟨same, -⟩, -⟩
        · exact hno before
        · exact hne same

/-- One node of the scan, given that its predecessor came before the key. -/
theorem matchNode_retrieval {node : Nat} {prev : Key} {n : Node} (hat : NodeAt m node prev n)
    (short : prev.length < maxKey) (some_ : key ≠ [])
    (behind : prev = [] ∨ Precedes descending prev key ∧ KeyOrder.NotAfter descending prev n.key)
    (low : common prev key ≤ common prev n.key) :
    (matchNode m key descending true node (common prev key) = none ∧
        ¬Precedes descending n.key key) ∨
      (matchNode m key descending true node (common prev key) = some (common n.key key) ∧
        Precedes descending n.key key) := by
  cases descending with
  | false =>
    have hsame : matchNode m key false true node (common prev key) =
        matchNode m key false false node (common prev key) := rfl
    have hprecedes : Precedes false n.key key ↔ Passed false key n := by
      unfold Precedes Passed
      simp [some_]
    rw [hsame, hprecedes]
    apply matchNode_spec hat short _ low
    rcases behind with nil | ⟨hpk, hpn⟩
    · exact Or.inl nil
    · exact Or.inr ⟨hpk.1, hpn⟩
  | true =>
    have hp := common_le_left prev key
    have hmod : common prev key % 256 = common prev key := by
      simp only [maxKey] at short
      omega
    simp only [matchNode, hat.pfx, hmod, if_true]
    by_cases heq : common prev n.key = common prev key
    · have hle : common prev key ≤ common n.key key := by
        have := min_common_le n.key prev key
        rw [common_comm n.key prev] at this
        omega
      have hdata : Holds m (btnData node) (n.key.drop (common prev key)) := heq ▸ hat.data
      have hend : nextNode m node = btnData node + (n.key.drop (common prev key)).length := by
        rw [InterBase.nextNode, hat.length, heq, List.length_drop]
      have hloop := descendingLoop_retrieval (common prev key)
        (key.drop (common prev key)) hdata
      rw [← precedes_drop hle, ← hend, ← common_eq_add hle] at hloop
      rw [if_pos heq]
      exact hloop
    · rw [if_neg heq]
      have hgt : common prev key < common prev n.key := by omega
      rcases behind with rfl | ⟨hpk, hpn⟩
      · simp at hgt
      · obtain ⟨hb, hc⟩ := before_of_common_gt hpk.1.notAfter hgt
        refine Or.inr ⟨by rw [hc], hb, ?_⟩
        intro _
        rw [isPrefix_iff_common, hc, ← isPrefix_iff_common]
        exact hpk.2 rfl

/-- A node that a search is past: it holds a key, and one that precedes the search key. -/
def Node.Counts (descending : Bool) (key : Key) (n : Node) : Prop :=
  n.number ≠ endLevel ∧ Precedes descending n.key key

theorem not_counts_behind {n k : Node} (h : ¬Precedes descending n.key key)
    (sorted : n.NotAfter descending k) : ¬k.Counts descending key := by
  rintro ⟨hnumber, hk⟩
  exact h (hk.of_notAfter (sorted.resolve_left hnumber))

/-- The scan ends at the last node that counts, or where it began. -/
theorem findNodeLoop_spec {prev : Key} {n : Node} {ns : List Node} {node : Nat}
    (fits : ∀ k ∈ n :: ns, k.Fits) (held : Holds m node (nodesBytes prev (n :: ns)))
    (closed : Closed (n :: ns)) (open_ : n.number ≠ endLevel)
    (sorted : ns.Pairwise (Node.NotAfter descending)) (some_ : key ≠ [])
    (behind : ∀ k ∈ ns, k.number ≠ endLevel → n.key = [] ∨
      Precedes descending n.key key ∧ KeyOrder.NotAfter descending n.key k.key) :
    ∃ before found after, n :: ns = before ++ found :: after ∧
      findNodeLoop m key (node + (nodesBytes prev (n :: ns)).length) descending node
        (common n.key key) = some (node + (nodesBytes prev before).length) ∧
      (before = [] ∨ found.Counts descending key) ∧
      ∀ k ∈ after, ¬k.Counts descending key := by
  induction ns generalizing prev n node with
  | nil =>
    have hmark : n.number = endBucket := closed.resolve_right (fun h => open_ h.1)
    have hat := Holds.nodeAt (fits n (by simp)) (holds_append.mp held).1
    refine ⟨[], n, [], rfl, ?_, Or.inl rfl, by simp⟩
    rw [findNodeLoop, hat.number, if_pos hmark]
    rfl
  | cons next ns ih =>
    obtain ⟨hnumber, hclosed⟩ := closed
    obtain ⟨hn, hrest⟩ := holds_append.mp held
    have hat := Holds.nodeAt (fits n (by simp)) hn
    have hatNext := Holds.nodeAt (fits next (by simp)) (holds_append.mp hrest).1
    have hbucket : n.number ≠ endBucket := by
      simp only [endBucket]
      omega
    have hp := common_le_left n.key key
    have hshort := (fits n (by simp)).short
    have hmod : common n.key key % 256 = common n.key key := by
      simp only [maxKey] at hshort
      omega
    have hsize := length_nodeBytes n.key next
    simp only [btnSize] at hsize
    rw [List.pairwise_cons] at sorted
    have stops : ¬next.Counts descending key → (∀ k ∈ ns, ¬k.Counts descending key) →
        ∀ k ∈ next :: ns, ¬k.Counts descending key := by
      intro hnext hns k hk
      rcases List.mem_cons.mp hk with rfl | hk
      · exact hnext
      · exact hns k hk
    rw [findNodeLoop, hat.number, if_neg hbucket, hat.nextNode,
      if_pos (by simp only [nodesBytes, List.length_append]; omega)]
    dsimp only
    rw [hatNext.number, hatNext.pfx, hmod]
    by_cases hlevel : next.number = endLevel
    · refine ⟨[], n, next :: ns, rfl, ?_, Or.inl rfl, ?_⟩
      · rw [if_pos (Or.inl hlevel)]
        rfl
      · have hnil : ns = [] := by
          cases ns with
          | nil => rfl
          | cons k ns =>
            have := hclosed.1
            rw [hlevel, endLevel] at this
            omega
        subst hnil
        exact stops (fun h => h.1 hlevel) (by simp)
    · have hb := behind next (by simp) hlevel
      by_cases hlt : common n.key next.key < common n.key key
      · refine ⟨[], n, next :: ns, rfl, ?_, Or.inl rfl, ?_⟩
        · rw [if_pos (Or.inr hlt)]
          rfl
        · have hnot : ¬Precedes descending next.key key := by
            rcases hb with hnil | ⟨hpk, hpn⟩
            · rw [hnil] at hlt
              simp at hlt
            · intro h
              exact before_asymm h.1 (before_of_common_lt hpk.1.notAfter hpn hlt)
          exact stops (fun h => hnot h.2) fun k hk => not_counts_behind hnot (sorted.1 k hk)
      · rw [if_neg (by rintro (h | h) <;> contradiction)]
        rcases matchNode_retrieval hatNext hshort some_ hb (by omega) with ⟨hm, hnot⟩ | ⟨hm, hyes⟩
        · refine ⟨[], n, next :: ns, rfl, ?_, Or.inl rfl, ?_⟩
          · rw [hm]
            rfl
          · exact stops (fun h => hnot h.2) fun k hk => not_counts_behind hnot (sorted.1 k hk)
        · rw [hm]
          dsimp only
          obtain ⟨before, found, after, hsplit, hscan, hfound, hafter⟩ :=
            ih (fun k hk => fits k (by simp at hk ⊢; tauto)) hrest hclosed hlevel sorted.2
              (fun k hk hkl => Or.inr ⟨hyes, (sorted.1 k hk).resolve_left hkl⟩)
          refine ⟨n :: before, found, after, by rw [hsplit, List.cons_append], ?_, ?_, hafter⟩
          · simp only [nodesBytes, List.length_append, ← Nat.add_assoc] at hscan ⊢
            exact hscan
          · rcases hfound with hnil | hcounts
            · subst hnil
              obtain ⟨rfl, -⟩ := List.cons.inj hsplit
              exact Or.inr ⟨hlevel, hyes⟩
            · exact Or.inr hcounts

/-- The address is that of the last node on the page for which `counts` holds, or of the first node
when it holds for none behind it. -/
def FoundAt {level : Nat} (page : IndexPage descending level) (counts : Node → Prop)
    (address : Nat) : Prop :=
  ∃ before found after, page.nodes = before ++ found :: after ∧
    address = btrNodes + (nodesBytes [] before).length ∧ (before = [] ∨ counts found) ∧
    ∀ k ∈ after, ¬counts k

/-- What a search of an upper level relies on: the first node has no key or comes before the search
key. -/
def FirstBefore (descending : Bool) (key : Key) (n : Node) : Prop :=
  n.key = [] ∨ Precedes descending n.key key

/-- Otherwise the scan still ends at the first node if the second one is not taken for a node that
can be skipped: it ends the level, or it shares no more of the first key than the search key does
and is no duplicate. -/
def FirstApart (key : Key) (n next : Node) : Prop :=
  next.number = endLevel ∨ (common n.key next.key ≤ common n.key key ∧ next.key ≠ n.key)

/-- The search key fits the page: where it does not, the scan skips nodes on its way from the first. -/
def IndexPage.StartsRight {level : Nat} (page : IndexPage descending level) (key : Key) : Prop :=
  key = [] ∨ (∀ n rest, page.nodes = n :: rest → FirstBefore descending key n) ∨
    ∀ n next rest, page.nodes = n :: next :: rest → FirstApart key n next

/-- A second node that does not come before the key stops the scan unless it is skipped unseen. -/
theorem matchNode_stops {node : Nat} {n next : Node} (hat : NodeAt m node n.key next)
    (short : n.key.length < maxKey) (sorted : KeyOrder.NotAfter descending n.key next.key)
    (behind : ¬Precedes descending n.key key) (same : common n.key next.key = common n.key key)
    (apart : next.key ≠ n.key) :
    matchNode m key descending true node (common n.key key) = none := by
  have hp := common_le_left n.key key
  have hmod : common n.key key % 256 = common n.key key := by
    simp only [maxKey] at short
    omega
  have hle : common n.key key ≤ common next.key key := by
    have := min_common_le next.key n.key key
    rw [common_comm next.key n.key] at this
    omega
  have hdata : Holds m (btnData node) (next.key.drop (common n.key key)) := same ▸ hat.data
  have hend : nextNode m node = btnData node + (next.key.drop (common n.key key)).length := by
    rw [InterBase.nextNode, hat.length, same, List.length_drop]
  have hnot : ¬Precedes descending next.key key := fun h => behind (h.of_notAfter sorted)
  simp only [matchNode, hat.pfx, hmod, if_pos same]
  cases descending with
  | true =>
    rw [if_pos rfl, hend]
    rcases descendingLoop_retrieval (common n.key key) (key.drop (common n.key key)) hdata
      with ⟨hnone, -⟩ | ⟨-, hprecedes⟩
    · exact hnone
    · exact absurd ((precedes_drop hle).mpr hprecedes) hnot
  | false =>
    have hbefore : ¬Before false next.key key := fun h => hnot ⟨h, fun e => by cases e⟩
    have hlong : 0 < btnLength m node := by
      rw [hat.length]
      by_contra hzero
      -- without data of its own the second key is a front part of the first
      have hright := common_le_right n.key next.key
      have hfront : next.key = n.key.take (common n.key next.key) := by
        rw [take_common, List.take_of_length_le (by omega)]
      have hshort : ¬common n.key next.key < n.key.length := by
        intro hlt
        exact sorted (hfront ▸ before_take hlt)
      rw [List.take_of_length_le (by omega)] at hfront
      exact apart hfront
    rw [if_neg (by decide), if_pos hlong, hend, ascendingLoop_eq hdata, if_neg]
    rwa [← before_drop hle]

theorem IndexPage.unpack {level : Nat} {page : IndexPage descending level}
    (inner : page.entries ≠ []) : ∃ n next rest, page.nodes = n :: next :: rest ∧ 0 ≤ n.number := by
  obtain ⟨n, entries, hentries⟩ := List.exists_cons_of_ne_nil inner
  have hnumber := page.numbered n (by rw [hentries]; simp)
  cases entries with
  | nil => exact ⟨n, page.mark, [], by rw [IndexPage.nodes, hentries]; rfl, hnumber⟩
  | cons next entries =>
    exact ⟨n, next, entries ++ [page.mark], by rw [IndexPage.nodes, hentries]; rfl, hnumber⟩

/-- Behind a first node that is neither empty nor before the key there is nothing to find. -/
theorem findNodeLoop_first {n next : Node} {rest : List Node}
    (fits : ∀ k ∈ n :: next :: rest, k.Fits) (held : Holds m btrNodes (nodesBytes [] (n :: next :: rest)))
    (numbered : 0 ≤ n.number) (sorted : (n :: next :: rest).Pairwise (Node.NotAfter descending))
    (behind : ¬Precedes descending n.key key) (apart : FirstApart key n next) :
    findNodeLoop m key (btrNodes + (nodesBytes [] (n :: next :: rest)).length) descending btrNodes
        (common n.key key) = some btrNodes ∧
      ∀ k ∈ next :: rest, ¬k.Counts descending key := by
  obtain ⟨hn, hrest⟩ := holds_append.mp held
  have hat := Holds.nodeAt (fits n (by simp)) hn
  have hatNext := Holds.nodeAt (fits next (by simp)) (holds_append.mp hrest).1
  have hbucket : n.number ≠ endBucket := by
    simp only [endBucket]
    omega
  have hp := common_le_left n.key key
  have hshort := (fits n (by simp)).short
  have hmod : common n.key key % 256 = common n.key key := by
    simp only [maxKey] at hshort
    omega
  have hsize := length_nodeBytes n.key next
  simp only [btnSize] at hsize
  rw [List.pairwise_cons] at sorted
  refine ⟨?_, fun k hk => not_counts_behind behind (sorted.1 k hk)⟩
  rw [findNodeLoop, hat.number, if_neg hbucket, hat.nextNode,
    if_pos (by simp only [nodesBytes, List.length_append]; omega)]
  dsimp only
  rw [hatNext.number, hatNext.pfx, hmod]
  by_cases hstop : next.number = endLevel ∨ common n.key next.key < common n.key key
  · rw [if_pos hstop]
  · rw [if_neg hstop]
    obtain ⟨hlevel, hlt⟩ := not_or.mp hstop
    obtain ⟨hle, hdistinct⟩ := apart.resolve_left hlevel
    rw [matchNode_stops hatNext hshort ((sorted.1 next (by simp)).resolve_left hlevel) behind
      (by omega) hdistinct]

/-- The nodes of an upper page are sorted; a first node without a key stands before all. -/
theorem IndexPage.sorted_behind {level : Nat} (page : IndexPage descending level) {n : Node}
    {rest : List Node} (hnodes : page.nodes = n :: rest) :
    rest.Pairwise (Node.NotAfter descending) ∧
      (n.key = [] ∨ (n :: rest).Pairwise (Node.NotAfter descending)) := by
  have hpairs : (searched descending level page.nodes).Pairwise (Node.NotAfter descending) :=
    page.sorted
  rw [hnodes, searched] at hpairs
  split at hpairs
  next h => exact ⟨hpairs, Or.inl h.2.2⟩
  next => exact ⟨(List.pairwise_cons.mp hpairs).2, Or.inr hpairs⟩

theorem findNode_foundAt {bucket : Btr} {level : Nat} {page : IndexPage descending level}
    (h : bucket.Stores page) (inner : page.entries ≠ []) (key : Key)
    (starts : page.StartsRight key) :
    ∃ address, findNode bucket key descending = .ok (some address) ∧
      FoundAt page (Node.Counts descending key) address := by
  obtain ⟨n, next, rest, hnodes, hnumber⟩ := page.unpack inner
  have hat := page.nodeAt_first h hnodes
  have hfits : ∀ k ∈ n :: next :: rest, k.Fits := hnodes ▸ page.fits
  have hclosed : Closed (n :: next :: rest) := hnodes ▸ page.closed
  have hheld : Holds bucket.bytes btrNodes (nodesBytes [] (n :: next :: rest)) := hnodes ▸ h.held
  have hopen : n.number ≠ endLevel := by
    simp only [endLevel]
    omega
  have hdata : slice bucket.bytes (btnData btrNodes) (btnLength bucket.bytes btrNodes) = n.key := by
    rw [hat.slice_data, common_nil_left, List.drop_zero]
  obtain ⟨hrest, hall⟩ := page.sorted_behind hnodes
  unfold findNode
  dsimp only
  rw [hat.number, if_neg hopen, hdata]
  by_cases hkey : key = []
  · refine ⟨btrNodes, by rw [if_pos hkey], [], n, next :: rest, hnodes, rfl, Or.inl rfl, ?_⟩
    rintro k hk ⟨-, before, extends_⟩
    subst hkey
    cases descending with
    | false => cases hk' : k.key <;> simp [hk', Before] at before
    | true => exact extends_ rfl List.nil_prefix
  · have hpfx : computePrefix key n.key % 256 = common n.key key := by
      have hshort := (hfits n (by simp)).short
      have hle := common_le_left n.key key
      simp only [maxKey] at hshort
      rw [computePrefix, common_comm]
      omega
    rw [if_neg hkey, hpfx, h.length, hnodes]
    by_cases hfirst : FirstBefore descending key n
    · have hbehind : ∀ k ∈ next :: rest, k.number ≠ endLevel → n.key = [] ∨
          Precedes descending n.key key ∧ KeyOrder.NotAfter descending n.key k.key := by
        intro k hk hlevel
        rcases hall with hnil | hpairs
        · exact Or.inl hnil
        · exact hfirst.imp_right fun hp =>
            ⟨hp, ((List.pairwise_cons.mp hpairs).1 k hk).resolve_left hlevel⟩
      obtain ⟨before, found, after, hsplit, hscan, hfound, hafter⟩ :=
        findNodeLoop_spec hfits hheld hclosed hopen hrest hkey hbehind
      exact ⟨_, by rw [hscan], before, found, after, hnodes.trans hsplit, rfl, hfound, hafter⟩
    · have hapart : FirstApart key n next := by
        rcases starts with hnil | hbefore | hapart
        · exact absurd hnil hkey
        · exact absurd (hbefore n _ hnodes) hfirst
        · exact hapart n next rest hnodes
      obtain ⟨hnil, hnot⟩ := not_or.mp hfirst
      obtain ⟨hscan, hnone⟩ := findNodeLoop_first hfits hheld hnumber
        (hall.resolve_left hnil) hnot hapart
      exact ⟨btrNodes, by rw [hscan], [], n, next :: rest, hnodes, rfl, Or.inl rfl, hnone⟩

theorem length_nodesBytes_pos (prev : Key) {ns : List Node} (h : ns ≠ []) :
    0 < (nodesBytes prev ns).length := by
  have hpos := List.length_pos_iff.mpr h
  rw [length_nodesBytes]
  simp only [btnSize]
  omega

/-- The marker is found exactly when it counts itself. -/
theorem FoundAt.mark_iff {level : Nat} {page : IndexPage descending level} {counts : Node → Prop}
    (inner : page.entries ≠ []) {address : Nat} (h : FoundAt page counts address) :
    address = btrNodes + (nodesBytes [] page.entries).length ↔ counts page.mark := by
  obtain ⟨before, found, after, hsplit, rfl, hfound, hafter⟩ := h
  have hnodes : page.entries ++ [page.mark] = before ++ found :: after := hsplit
  rcases List.eq_nil_or_concat' after with rfl | ⟨more, last, rfl⟩
  · obtain ⟨rfl, hmark⟩ := List.append_inj' hnodes rfl
    have hfoundMark : page.mark = found := by simpa using hmark
    rw [hfoundMark]
    exact ⟨fun _ => hfound.resolve_left inner, fun _ => rfl⟩
  · rw [← List.cons_append, ← List.append_assoc] at hnodes
    obtain ⟨hentries, hmark⟩ := List.append_inj' hnodes rfl
    have hlast : page.mark = last := by simpa using hmark
    rw [hentries, nodesBytes_append, List.length_append]
    have hpos := length_nodesBytes_pos (lastKey [] (keys before))
      (List.cons_ne_nil found more)
    constructor
    · intro e
      omega
    · intro hcounts
      exact absurd hcounts (hafter page.mark (by rw [hlast]; simp))

/-- `find_node` finds the last node that counts as less than the key, and the end of the bucket
exactly when that counts too. -/
theorem findNode_last {bucket : Btr} {level : Nat} {page : IndexPage descending level}
    (h : bucket.Stores page) (inner : page.entries ≠ []) (key : Key)
    (starts : page.StartsRight key) :
    ∃ address, findNode bucket key descending = .ok (some address) ∧
      FoundAt page (Node.Counts descending key) address ∧
      (address = btrNodes + (nodesBytes [] page.entries).length ↔
        page.mark.Counts descending key) := by
  obtain ⟨address, hfind, hfound⟩ := findNode_foundAt h inner key starts
  exact ⟨address, hfind, hfound, hfound.mark_iff inner⟩

/-- An upper page of a descending index. -/
def upperDescending : IndexPage true 1 where
  entries := [⟨[], 7⟩, ⟨[66, 67], 8⟩]
  mark := ⟨[67], endBucket⟩
  numbered := by decide
  marked := Or.inl rfl
  fits := by
    intro n hn
    simp only [List.cons_append, List.nil_append, List.mem_cons, List.not_mem_nil, or_false] at hn
    rcases hn with rfl | rfl | rfl <;> exact ⟨by decide, by decide, by decide⟩
  sorted := by decide

theorem findNode_last_descending :
    ∃ address, findNode upperDescending.bucket [68] true = .ok (some address) ∧
      FoundAt upperDescending (Node.Counts true [68]) address ∧
      (address = btrNodes + (nodesBytes [] upperDescending.entries).length ↔
        upperDescending.mark.Counts true [68]) := by
  apply findNode_last upperDescending.bucket_stores (by decide)
  refine Or.inr (Or.inl ?_)
  intro n rest hnodes
  obtain ⟨rfl, -⟩ := List.cons.inj hnodes
  exact Or.inl rfl

/-- An upper page of an ascending index that is not the first of its level; two nodes have the key
of the first. -/
def upperAscending : IndexPage false 1 where
  entries := [⟨[66, 66], 7⟩, ⟨[66, 66], 8⟩]
  mark := ⟨[], endLevel⟩
  numbered := by decide
  marked := isMark_endLevel
  fits := by
    intro n hn
    simp only [List.cons_append, List.nil_append, List.mem_cons, List.not_mem_nil, or_false] at hn
    rcases hn with rfl | rfl | rfl <;> exact ⟨by decide, by decide, by decide⟩
  sorted := by decide

/-- A node that sorts strictly before the key in the order of the index. -/
def Node.StrictlyBefore (descending : Bool) (key : Key) (n : Node) : Prop :=
  n.number ≠ endLevel ∧ Before descending n.key key

theorem FoundAt.first_counts {level : Nat} {page : IndexPage descending level}
    {counts : Node → Prop} (h : FoundAt page counts btrNodes) :
    ∀ k ∈ page.nodes.tail, ¬counts k := by
  obtain ⟨before, found, after, hsplit, haddress, -, hafter⟩ := h
  have hbefore : before = [] := by
    by_contra hne
    have := length_nodesBytes_pos [] hne
    omega
  subst hbefore
  rw [hsplit]
  exact hafter

/-- In a descending index a key that goes on behind the whole search key sorts before it, but the
scan stops at it. -/
theorem findNode_descending_prefix :
    findNode upperDescending.bucket [66] true = .ok (some btrNodes) ∧
      ¬FoundAt upperDescending (Node.StrictlyBefore true [66]) btrNodes := by
  constructor
  · unfold findNode
    dsimp only
    rw [if_neg (by decide), if_neg (by decide), findNodeLoop, if_neg (by decide), if_pos (by decide)]
    dsimp only
    rw [if_neg (by decide)]
    have hstop : matchNode upperDescending.bucket.bytes [66] true true
        (nextNode upperDescending.bucket.bytes btrNodes)
        (computePrefix [66] (slice upperDescending.bucket.bytes (btnData btrNodes)
          (btnLength upperDescending.bucket.bytes btrNodes)) % 256) = none := by decide
    rw [hstop]
  · intro hfound
    exact hfound.first_counts ⟨[66, 67], 8⟩ (by decide) ⟨by decide, by decide⟩

/-- Before the first node of a page the running prefix says nothing, and a duplicate of that node is
passed over. -/
theorem findNode_ascending_first :
    findNode upperAscending.bucket [65] false =
        .ok (some (nextNode upperAscending.bucket.bytes btrNodes)) ∧
      ¬FoundAt upperAscending (Node.StrictlyBefore false [65])
        (nextNode upperAscending.bucket.bytes btrNodes) := by
  constructor
  · unfold findNode
    dsimp only
    rw [if_neg (by decide), if_neg (by decide), findNodeLoop, if_neg (by decide), if_pos (by decide)]
    dsimp only
    rw [if_neg (by decide)]
    have hpass : matchNode upperAscending.bucket.bytes [65] false true
        (nextNode upperAscending.bucket.bytes btrNodes)
        (computePrefix [65] (slice upperAscending.bucket.bytes (btnData btrNodes)
          (btnLength upperAscending.bucket.bytes btrNodes)) % 256) = some 0 := by decide
    rw [hpass]
    dsimp only
    rw [findNodeLoop, if_neg (by decide), if_pos (by decide), if_pos (Or.inl (by decide))]
  · rintro ⟨before, found, after, hsplit, haddress, hfound, -⟩
    have hnone : ∀ k ∈ upperAscending.nodes, ¬k.StrictlyBefore false [65] := by
      intro k hk
      have hcases : k = ⟨[66, 66], 7⟩ ∨ k = ⟨[66, 66], 8⟩ ∨ k = ⟨[], endLevel⟩ := by
        simpa [IndexPage.nodes, upperAscending] using hk
      rintro ⟨hnumber, hbefore⟩
      rcases hcases with rfl | rfl | rfl
      · exact absurd hbefore (by decide)
      · exact absurd hbefore (by decide)
      · exact hnumber rfl
    have hbefore : before = [] :=
      hfound.resolve_right (hnone found (by rw [hsplit]; simp))
    subst hbefore
    revert haddress
    decide

/-- Neither order alone decides where the scan ends. -/
theorem findNode_not_last :
    (∃ address, findNode upperDescending.bucket [66] true = .ok (some address) ∧
        ¬FoundAt upperDescending (Node.StrictlyBefore true [66]) address) ∧
      ∃ address, findNode upperAscending.bucket [65] false = .ok (some address) ∧
        ¬FoundAt upperAscending (Node.StrictlyBefore false [65]) address :=
  ⟨⟨_, findNode_descending_prefix⟩, ⟨_, findNode_ascending_first⟩⟩

end InterBase
