import InterBase.Btr

namespace InterBase

open Memory KeyOrder FrontCoding

/-- What `BTR_find_leaf` returns: a node with the running prefix, or `NULL`. -/
inductive Leaf where
  | node (node pfx : Nat)
  | null
deriving Repr, DecidableEq

section

variable (m : Nat → UInt8)

/-- The comparison in an ascending index of what is left of the key at `p`; nothing is
`goto done`. -/
def ascendingLoop (nodeEnd : Nat) : Key → Nat → Nat → Option Nat
  | [], _, _ => none
  | x :: xs, p, q =>
    if q = nodeEnd ∨ m q < x then some p
    else if x < m q then none
    else ascendingLoop nodeEnd xs (p + 1) (q + 1)

/-- The comparison in a descending index. -/
def descendingLoop (retrieval : Bool) (nodeEnd : Nat) : Key → Nat → Nat → Option Nat
  | [], p, q => if q = nodeEnd ∨ retrieval = true then none else some p
  | x :: xs, p, q =>
    if q = nodeEnd then none
    else if m q < x then some p
    else if x < m q then none
    else descendingLoop retrieval nodeEnd xs (p + 1) (q + 1)

variable (key : Key)

/-- One node of the scan: how far the key has been matched when the node is passed. -/
def matchNode (descending retrieval : Bool) (node p : Nat) : Option Nat :=
  if btnPrefix m node = p % 256 then
    if descending then descendingLoop m retrieval (nextNode m node) (key.drop p) p (btnData node)
    else if 0 < btnLength m node then ascendingLoop m (nextNode m node) (key.drop p) p (btnData node)
    else some p
  else some p

/-- The scan of `BTR_find_leaf` from `node` on; `p` is the position in the key and, cut to a byte,
the running prefix. Nothing when the scan leaves the data of the page. -/
def findLeafLoop (stop : Nat) (descending retrieval : Bool) (node p : Nat) : Option Leaf :=
  if node < stop then
    if btnNumber m node = endLevel ∨ btnPrefix m node < p % 256 then some (.node node (p % 256))
    else
      match matchNode m key descending retrieval node p with
      | none => some (.node node (p % 256))
      | some p =>
        if btnNumber m node = endBucket then some .null
        else findLeafLoop stop descending retrieval (nextNode m node) p
  else none
termination_by stop - node
decreasing_by
  have := lt_nextNode m node
  omega

end

def btrFindLeaf (bucket : Btr) (key : Key) (descending retrieval : Bool) : Option Leaf :=
  let node :=
    if bucket.btrLevel ≠ 0 ∧ descending = true ∧ btnLength bucket.bytes btrNodes = 0 then
      nextNode bucket.bytes btrNodes
    else btrNodes
  findLeafLoop bucket.bytes key bucket.btrLength descending retrieval node 0

variable {m : Nat → UInt8} {key : Key} {descending : Bool}

/-- The loop goes on as long as the node's data `ys` come before the rest `xs` of the key. -/
theorem ascendingLoop_eq {p q : Nat} {xs ys : Key} (held : Holds m q ys) :
    ascendingLoop m (q + ys.length) xs p q =
      if Before false ys xs then some (p + common ys xs) else none := by
  induction xs generalizing ys p q with
  | nil => cases ys <;> simp [ascendingLoop, Before]
  | cons x xs ih =>
    cases ys with
    | nil => simp [ascendingLoop, Before]
    | cons y ys =>
      obtain ⟨hy, hrest⟩ := holds_cons.mp held
      have hnext := ih (p := p + 1) hrest
      rw [show q + 1 + ys.length = q + (y :: ys).length by
        rw [List.length_cons]; omega] at hnext
      rw [ascendingLoop, hnext, hy, common_cons]
      have hq : ¬q = q + (y :: ys).length := by
        rw [List.length_cons]
        omega
      rcases Std.lt_trichotomy y x with hlt | rfl | hgt
      · have hne : y ≠ x := fun he => Std.lt_irrefl (he ▸ hlt)
        simp [hlt, Before, hne]
      · simp [Before, Std.lt_irrefl, Nat.add_assoc, Nat.add_comm 1]
      · have hne : y ≠ x := fun he => Std.lt_irrefl (he ▸ hgt)
        have hno : ¬y < x := fun h => Std.lt_irrefl (Std.lt_trans h hgt)
        simp [hgt, hno, Before, hne]

theorem descendingLoop_eq {p q : Nat} {xs ys : Key} (held : Holds m q ys) :
    descendingLoop m false (q + ys.length) xs p q =
      if Before true ys xs then some (p + common ys xs) else none := by
  induction xs generalizing ys p q with
  | nil => cases ys <;> simp [descendingLoop, Before]
  | cons x xs ih =>
    cases ys with
    | nil => simp [descendingLoop, Before]
    | cons y ys =>
      obtain ⟨hy, hrest⟩ := holds_cons.mp held
      have hnext := ih (p := p + 1) hrest
      rw [show q + 1 + ys.length = q + (y :: ys).length by
        rw [List.length_cons]; omega] at hnext
      rw [descendingLoop, hnext, hy, common_cons]
      have hq : ¬q = q + (y :: ys).length := by
        rw [List.length_cons]
        omega
      rcases Std.lt_trichotomy y x with hlt | rfl | hgt
      · have hne : y ≠ x := fun he => Std.lt_irrefl (he ▸ hlt)
        simp [hlt, Before, hne]
      · simp [Before, Std.lt_irrefl, Nat.add_assoc, Nat.add_comm 1]
      · have hne : y ≠ x := fun he => Std.lt_irrefl (he ▸ hgt)
        have hno : ¬y < x := fun h => Std.lt_irrefl (Std.lt_trans h hgt)
        simp [hgt, hno, Before, hne]

/-- A node that the scan goes past: it comes before the key, or both are empty. -/
def Passed (descending : Bool) (key : Key) (n : Node) : Prop :=
  Before descending n.key key ∨ descending = false ∧ key = [] ∧ n.key = []

instance (descending : Bool) (key : Key) (n : Node) : Decidable (Passed descending key n) :=
  inferInstanceAs (Decidable (_ ∨ _))

/-- What is known of the key before the node at hand: it has been passed, and the nodes from here
on are sorted behind it. In front of the first node there is no such key. -/
def Behind (descending : Bool) (key prev : Key) (n : Node) : Prop :=
  prev = [] ∨ Before descending prev key ∧ KeyOrder.NotAfter descending prev n.key

theorem matchNode_spec {node : Nat} {prev : Key} {n : Node} (hat : NodeAt m node prev n)
    (short : prev.length < maxKey) (behind : Behind descending key prev n)
    (low : common prev key ≤ common prev n.key) :
    (matchNode m key descending false node (common prev key) = none ∧ ¬Passed descending key n) ∨
      (matchNode m key descending false node (common prev key) = some (common n.key key) ∧
        Passed descending key n) := by
  have hp := common_le_left prev key
  have hmod : common prev key % 256 = common prev key := by
    simp only [maxKey] at short
    omega
  simp only [matchNode, hat.pfx, hmod]
  by_cases heq : common prev n.key = common prev key
  · have hle : common prev key ≤ common n.key key := by
      have := min_common_le n.key prev key
      rw [common_comm n.key prev] at this
      omega
    have hdata : Holds m (btnData node) (n.key.drop (common prev key)) := heq ▸ hat.data
    have hend : nextNode m node = btnData node + (n.key.drop (common prev key)).length := by
      rw [InterBase.nextNode, hat.length, heq, List.length_drop]
    have hloop : ∀ r, r = (if Before descending (n.key.drop (common prev key))
          (key.drop (common prev key)) then some (common prev key + common
          (n.key.drop (common prev key)) (key.drop (common prev key))) else none) →
        (descending = false → n.key ≠ []) → r = none ∧ ¬Passed descending key n ∨
          r = some (common n.key key) ∧ Passed descending key n := by
      intro r hr hne
      rw [← common_eq_add hle] at hr
      split at hr
      next h => exact Or.inr ⟨hr, Or.inl ((before_drop hle).mpr h)⟩
      next h =>
        refine Or.inl ⟨hr, ?_⟩
        rintro (hb | ⟨hd, -, he⟩)
        · exact h ((before_drop hle).mp hb)
        · exact hne hd he
    rw [if_pos heq, hend]
    cases descending with
    | true => exact hloop _ (descendingLoop_eq hdata) (fun h => by cases h)
    | false =>
      by_cases hpos : 0 < btnLength m node
      · simp only [Bool.false_eq_true, if_false, if_pos hpos]
        refine hloop _ (ascendingLoop_eq hdata) (fun _ he => ?_)
        rw [hat.length, he] at hpos
        simp at hpos
      · -- a node without data repeats the key before it
        simp only [Bool.false_eq_true, if_false, if_neg hpos]
        have hlen := hat.length
        have hright := common_le_left n.key key
        have hkey : n.key = prev.take (common prev key) := by
          rw [← heq, take_common, List.take_of_length_le (by omega)]
        refine Or.inr ⟨by rw [show common n.key key = common prev key by omega], ?_⟩
        rcases behind with rfl | ⟨hpk, hpn⟩
        · rw [List.take_nil] at hkey
          cases key with
          | nil => exact Or.inr ⟨rfl, rfl, hkey⟩
          | cons x xs => exact Or.inl (by rw [hkey]; rfl)
        · have hwhole : prev.length ≤ common prev key := by
            by_contra hlt
            exact hpn (hkey ▸ before_take (by omega))
          rw [List.take_of_length_le hwhole] at hkey
          exact Or.inl (hkey ▸ hpk)
  · rw [if_neg heq]
    refine Or.inr ?_
    have hgt : common prev key < common prev n.key := by omega
    rcases behind with rfl | ⟨hpk, hpn⟩
    · simp at hgt
    · obtain ⟨hb, hc⟩ := before_of_common_gt hpk.notAfter hgt
      rw [hc]
      exact ⟨rfl, Or.inl hb⟩

/-- A list of nodes that ends with its only end marker. -/
def Closed : List Node → Prop
  | [] => False
  | [n] => n.IsMark
  | n :: n' :: ns => 0 ≤ n.number ∧ Closed (n' :: ns)

theorem closed_append (es ns : List Node) (numbered : ∀ n ∈ es, 0 ≤ n.number) (closed : Closed ns) :
    Closed (es ++ ns) := by
  induction es with
  | nil => exact closed
  | cons e es ih =>
    have hrest := ih (fun n hn => numbered n (by simp [hn]))
    cases hn : es ++ ns with
    | nil => simp [hn, Closed] at hrest
    | cons n' ns' =>
      rw [List.cons_append, hn]
      exact ⟨numbered e (by simp), hn ▸ hrest⟩

theorem IndexPage.closed {level : Nat} (page : IndexPage descending level) : Closed page.nodes :=
  closed_append page.entries [page.mark] page.numbered page.marked

/-- The scan goes on past a node unless the level ends there. -/
def scanned (descending : Bool) (key : Key) (n : Node) : Bool :=
  n.number ≠ endLevel ∧ Passed descending key n

theorem not_passed_of_lt {prev : Key} {n : Node} (behind : Behind descending key prev n)
    (h : common prev n.key < common prev key) : ¬Passed descending key n := by
  rcases behind with rfl | ⟨hpk, hpn⟩
  · simp at h
  · have hb := before_of_common_lt hpk.notAfter hpn h
    rintro (hn | ⟨-, hk, hn⟩)
    · exact before_asymm hb hn
    · exact before_irrefl key (by rwa [hn, ← hk] at hb)

theorem Passed.behind {n k : Node} (h : Passed descending key n)
    (sorted : n.NotAfter descending k) (hk : k.number ≠ endLevel) :
    Behind descending key n.key k := by
  rcases h with h | ⟨-, -, h⟩
  · exact Or.inr ⟨h, sorted.resolve_left hk⟩
  · exact Or.inl h

/-- Where a search ends: at the first node that is not passed, if there is one. -/
theorem findLeafLoop_eq {prev : Key} {ns : List Node} {node : Nat} (fits : ∀ n ∈ ns, n.Fits)
    (held : Holds m node (nodesBytes prev ns)) (closed : Closed ns)
    (sorted : ns.Pairwise (Node.NotAfter descending)) (short : prev.length < maxKey)
    (behind : ∀ n ∈ ns, n.number ≠ endLevel → Behind descending key prev n) :
    findLeafLoop m key (node + (nodesBytes prev ns).length) descending false node
        (common prev key) =
      if ns.dropWhile (scanned descending key) = [] then some .null
      else some (.node (node + (nodesBytes prev (ns.takeWhile (scanned descending key))).length)
        (common (lastKey prev (keys (ns.takeWhile (scanned descending key)))) key)) := by
  induction ns generalizing prev node with
  | nil => exact closed.elim
  | cons n ns ih =>
    obtain ⟨hn, hrest⟩ := holds_append.mp held
    have hat := Holds.nodeAt (fits n (by simp)) hn
    have hp := common_le_left prev key
    have hmod : common prev key % 256 = common prev key := by
      simp only [maxKey] at short
      omega
    have hsize := length_nodeBytes prev n
    simp only [btnSize] at hsize
    rw [findLeafLoop, if_pos (by simp only [nodesBytes, List.length_append]; omega), hat.number,
      hat.pfx, hmod]
    by_cases hlevel : n.number = endLevel
    · have hs : scanned descending key n = false := by simp [scanned, hlevel]
      simp [hlevel, hs, nodesBytes, keys]
    · have hb := behind n (by simp) hlevel
      by_cases hlt : common prev n.key < common prev key
      · have hs : scanned descending key n = false := by
          simp [scanned, (not_passed_of_lt hb hlt)]
        simp [hlt, hs, nodesBytes, keys]
      · rw [if_neg (by rintro (h | h) <;> contradiction)]
        rcases matchNode_spec hat short hb (by omega) with ⟨hm, hpass⟩ | ⟨hm, hpass⟩
        · have hs : scanned descending key n = false := by simp [scanned, hpass]
          simp [hm, hs, nodesBytes, keys]
        · have hs : scanned descending key n = true := by simp [scanned, hlevel, hpass]
          rw [hm]
          dsimp only
          cases ns with
          | nil =>
            have hmark : n.number = endBucket := closed.resolve_right (fun h => hlevel h.1)
            simp [hmark, hs]
          | cons n' ns =>
            obtain ⟨hnumber, hclosed⟩ := closed
            rw [List.pairwise_cons] at sorted
            have hmark : n.number ≠ endBucket := by
              simp only [endBucket]
              omega
            have hnext := ih (fun k hk => fits k (by simp [hk])) hrest hclosed sorted.2
              (fits n (by simp)).short (fun k hk hkl => hpass.behind (sorted.1 k hk) hkl)
            rw [if_neg hmark, hat.nextNode]
            rw [nodesBytes, List.length_append, ← Nat.add_assoc, hnext]
            simp only [List.dropWhile_cons, List.takeWhile_cons, hs, if_true, nodesBytes,
              List.length_append, keys, List.map_cons, lastKey_cons, Nat.add_assoc]

/-- A first node that only stands for everything before the second one. -/
def dummies (descending : Bool) (level : Nat) : List Node → List Node
  | [] => []
  | n :: _ => if level ≠ 0 ∧ descending = true ∧ n.key = [] then [n] else []

/-- The nodes from the insertion point of a key on. -/
def nodesFrom (descending : Bool) (level : Nat) (key : Key) (ns : List Node) : List Node :=
  (searched descending level ns).dropWhile (scanned descending key)

/-- The nodes in front of the insertion point of a key. -/
def nodesBefore (descending : Bool) (level : Nat) (key : Key) (ns : List Node) : List Node :=
  dummies descending level ns ++ (searched descending level ns).takeWhile (scanned descending key)

theorem searched_cases (descending : Bool) (level : Nat) (ns : List Node) :
    dummies descending level ns = [] ∧ searched descending level ns = ns ∨
      ∃ n rest, ns = n :: rest ∧ n.key = [] ∧ level ≠ 0 ∧ descending = true ∧
        dummies descending level ns = [n] ∧ searched descending level ns = rest := by
  cases ns with
  | nil => exact Or.inl ⟨rfl, rfl⟩
  | cons n rest =>
    by_cases h : level ≠ 0 ∧ descending = true ∧ n.key = []
    · refine Or.inr ⟨n, rest, rfl, h.2.2, h.1, h.2.1, ?_, ?_⟩
      · simp only [dummies, if_pos h]
      · simp only [searched, if_pos h]
    · refine Or.inl ⟨?_, ?_⟩
      · simp only [dummies, if_neg h]
      · simp only [searched, if_neg h]

theorem nodesBefore_append_nodesFrom (descending : Bool) (level : Nat) (key : Key)
    (ns : List Node) :
    nodesBefore descending level key ns ++ nodesFrom descending level key ns = ns := by
  rw [nodesBefore, nodesFrom, List.append_assoc, List.takeWhile_append_dropWhile]
  rcases searched_cases descending level ns with ⟨hd, hs⟩ | ⟨n, rest, rfl, -, -, -, hd, hs⟩
  · rw [hd, hs, List.nil_append]
  · rw [hd, hs, List.singleton_append]

theorem Closed.tail {n : Node} {ns : List Node} (h : Closed (n :: ns)) (hne : ns ≠ []) :
    0 ≤ n.number ∧ Closed ns := by
  cases ns with
  | nil => exact absurd rfl hne
  | cons n' ns => exact h

theorem Closed.suffix {es ns : List Node} (h : Closed (es ++ ns)) (hne : ns ≠ []) : Closed ns := by
  induction es with
  | nil => exact h
  | cons e es ih => exact ih (Closed.tail h (by simp [hne])).2

theorem IndexPage.nodes_ne_nil {level : Nat} (page : IndexPage descending level) :
    page.nodes ≠ [] := by
  simp [IndexPage.nodes]

theorem IndexPage.nodeAt_first {bucket : Btr} {level : Nat} (page : IndexPage descending level)
    (h : bucket.Stores page) {n : Node} {rest : List Node} (hns : page.nodes = n :: rest) :
    NodeAt bucket.bytes btrNodes [] n := by
  have hheld := h.held
  have hfits : ∀ k ∈ page.nodes, k.Fits := page.fits
  rw [hns] at hheld hfits
  exact Holds.nodeAt (hfits n (by simp)) (holds_append.mp hheld).1

/-- There is a node for a search to look at. -/
def IndexPage.Searchable {level : Nat} (page : IndexPage descending level) : Prop :=
  searched descending level page.nodes ≠ []

instance {level : Nat} (page : IndexPage descending level) : Decidable page.Searchable :=
  inferInstanceAs (Decidable (_ ≠ _))

/-- A search that has to start behind the only node of a page leaves the page. -/
theorem btrFindLeaf_bare {bucket : Btr} {level : Nat} {page : IndexPage descending level}
    (h : bucket.Stores page) (bare : ¬page.Searchable) (key : Key) :
    btrFindLeaf bucket key descending false = none := by
  have hempty := not_not.mp bare
  rcases searched_cases descending level page.nodes with
    ⟨-, hs⟩ | ⟨n, rest, hns, hkey, hlevel, hdesc, -, hs⟩
  · exact absurd (hs.symm.trans hempty) page.nodes_ne_nil
  · obtain rfl : rest = [] := hs.symm.trans hempty
    have hat := page.nodeAt_first h hns
    have hfirst : bucket.btrLevel ≠ 0 ∧ descending = true ∧
        btnLength bucket.bytes btrNodes = 0 := by
      refine ⟨h.level ▸ hlevel, hdesc, ?_⟩
      rw [hat.length, hkey]
      simp
    have hstop : ¬nextNode bucket.bytes btrNodes < bucket.btrLength := by
      rw [h.length, hat.nextNode, hns]
      simp [nodesBytes]
    rw [btrFindLeaf, if_pos hfirst, findLeafLoop, if_neg hstop]

/-- `BTR_find_leaf` on a well-formed page. -/
theorem btrFindLeaf_eq {bucket : Btr} {level : Nat} {page : IndexPage descending level}
    (h : bucket.Stores page) (search : page.Searchable) (key : Key) : btrFindLeaf bucket key descending false =
      if nodesFrom descending level key page.nodes = [] then some .null
      else some (.node
        (btrNodes + (nodesBytes [] (nodesBefore descending level key page.nodes)).length)
        (common (lastKey [] (keys (nodesBefore descending level key page.nodes))) key)) := by
  have hsorted : (searched descending level page.nodes).Pairwise (Node.NotAfter descending) :=
    page.sorted
  have hheld := h.held
  have behind : ∀ n ∈ searched descending level page.nodes, n.number ≠ endLevel →
      Behind descending key [] n := fun _ _ _ => Or.inl rfl
  rcases searched_cases descending level page.nodes with
    ⟨hd, hs⟩ | ⟨n, rest, hns, hkey, hlevel, hdesc, hd, hs⟩
  · have hfirst : ¬(bucket.btrLevel ≠ 0 ∧ descending = true ∧
        btnLength bucket.bytes btrNodes = 0) := by
      rintro ⟨hlevel, hdesc, hzero⟩
      obtain ⟨n, rest, hns⟩ := List.exists_cons_of_ne_nil page.nodes_ne_nil
      have hat := page.nodeAt_first h hns
      rw [hat.length, common_nil_left, Nat.sub_zero, List.length_eq_zero_iff] at hzero
      rw [hns, dummies, if_pos ⟨h.level ▸ hlevel, hdesc, hzero⟩] at hd
      cases hd
    rw [hs] at hsorted behind
    have hscan := findLeafLoop_eq page.fits hheld page.closed hsorted (by decide) behind
    rw [btrFindLeaf, if_neg hfirst, h.length, nodesBefore, nodesFrom, hd, hs, List.nil_append]
    exact hscan
  · rw [hns] at hheld
    obtain ⟨-, hrest⟩ := holds_append.mp hheld
    have hmem : ∀ k ∈ n :: rest, k.Fits := hns ▸ page.fits
    have hat := page.nodeAt_first h hns
    have hfirst : bucket.btrLevel ≠ 0 ∧ descending = true ∧
        btnLength bucket.bytes btrNodes = 0 := by
      refine ⟨h.level ▸ hlevel, hdesc, ?_⟩
      rw [hat.length, hkey]
      simp
    rw [hs] at hsorted behind
    have hne : rest ≠ [] := fun he => search (hs.trans he)
    have hclosed : Closed (n :: rest) := hns ▸ page.closed
    have hscan := findLeafLoop_eq (fun k hk => hmem k (by simp [hk])) hrest
      (hclosed.tail hne).2 hsorted (by rw [hkey]; decide) (hkey ▸ behind)
    rw [btrFindLeaf, if_pos hfirst, h.length, nodesBefore, nodesFrom, hd, hs, hat.nextNode, hns]
    simp only [List.singleton_append, nodesBytes, List.length_append, keys, List.map_cons,
      lastKey_cons, ← Nat.add_assoc, hkey]
    rw [hkey, common_nil_left] at hscan
    exact hscan

end InterBase
