import InterBase.BtrInsertNode
import InterBase.BtrRemove

namespace InterBase

open Memory KeyOrder FrontCoding

variable {descending : Bool} {level : Nat}

theorem write_same {m : Nat → UInt8} {a pfx : Nat} (h : btnPrefix m a = pfx) :
    write m a [UInt8.ofNat pfx] = m := by
  funext i
  rcases Nat.lt_trichotomy i a with hlt | rfl | hgt
  · exact write_below m _ hlt
  · have hi := write_inside m (a := i) [UInt8.ofNat pfx] (i := 0) (by simp)
    simp only [Nat.add_zero, List.getElem?_cons_zero, Option.some.injEq] at hi
    rw [hi, ← h, btnPrefix, UInt8.ofNat_toNat]
  · exact write_above m _ (by simp only [List.length_singleton]; omega)

/-- The header of a node, written from its end. -/
theorem write_header_back (m : Nat → UInt8) (a : Nat) (x y : UInt8) (v : Int) :
    write (write (quadPut v m (a + 2)) (a + 1) [y]) a [x] =
      write m a (x :: y :: quadBytes v) := by
  have htail : write (write m (a + 1) [y]) (a + 2) (quadBytes v) =
      write m (a + 1) (y :: quadBytes v) := (write_append m (a + 1) [y] (quadBytes v)).symm
  have hall : write (write m a [x]) (a + 1) (y :: quadBytes v) =
      write m a (x :: y :: quadBytes v) := (write_append m a [x] (y :: quadBytes v)).symm
  have hswap : write (write m (a + 1) [y]) (a + 2) (quadBytes v) =
      write (write m (a + 2) (quadBytes v)) (a + 1) [y] := write_comm m (by simp)
  have hfirst : write (write m a [x]) (a + 1) (y :: quadBytes v) =
      write (write m (a + 1) (y :: quadBytes v)) a [x] := write_comm m (by simp)
  rw [quadPut, ← hswap, htail, ← hfirst, hall]

section

variable {m : Nat → UInt8} {node : Nat} {prev : Key} {n next : Node}

/-- Another number in the node leaves the rest of its header and the next node alone. -/
theorem header_quadPut (m : Nat → UInt8) (node : Nat) (v : Int) {a : Nat}
    (h : a < node + 2 ∨ node + 6 ≤ a) : quadPut v m (node + 2) a = m a := by
  rcases h with h | h
  · exact write_below m _ h
  · exact write_above m _ h

/-- `delete_node` as a new header and one move. -/
theorem removeNode_eq {page : Btr} (hat : NodeAt page.bytes node prev n)
    (hnext : NodeAt page.bytes (nextNode page.bytes node) n.key next)
    (number : Holds page.bytes (nextNode page.bytes node + 2) (quadBytes next.number))
    {rest : Nat} (length : page.btrLength = nextNode page.bytes node +
      (nodeBytes n.key next).length + rest) {pfx : Nat}
    (least : pfx = min (common prev n.key) (common n.key next.key)) :
    removeNode page node =
      { page with
        bytes := move (write page.bytes node
            (UInt8.ofNat pfx :: UInt8.ofNat (next.key.length - pfx) :: quadBytes next.number))
          (btnData (nextNode page.bytes node)) (btnData node + (common n.key next.key - pfx))
          (next.key.length - common n.key next.key + rest)
        btrPrefixTotal := page.btrPrefixTotal -
          if common prev n.key < common n.key next.key then 0 else (common prev n.key : Int)
        btrLength := btnData node + (next.key.length - pfx) + rest } := by
  have hlt := lt_nextNode page.bytes node
  have hsize := length_nodeBytes prev n
  have hnextSize := length_nodeBytes n.key next
  have hnode := hat.nextNode
  have hn := common_le_right prev n.key
  have hk := common_le_left n.key next.key
  have hk' := common_le_right n.key next.key
  simp only [btnSize] at hsize hnextSize
  have hquad : quadMove page.bytes (nextNode page.bytes node + 2) (node + 2) =
      quadPut next.number page.bytes (node + 2) := by
    rw [quadMove, quadPut]
    exact congrArg _ number
  have hpfx : btnPrefix (quadPut next.number page.bytes (node + 2)) node = common prev n.key := by
    rw [btnPrefix, header_quadPut _ _ _ (Or.inl (by omega)), ← hat.pfx, btnPrefix]
  have hnextPfx : btnPrefix (quadPut next.number page.bytes (node + 2))
      (nextNode page.bytes node) = common n.key next.key := by
    rw [btnPrefix, header_quadPut _ _ _ (Or.inr (by omega)), ← hnext.pfx, btnPrefix]
  have hnextLen : btnLength (quadPut next.number page.bytes (node + 2))
      (nextNode page.bytes node) = next.key.length - common n.key next.key := by
    rw [btnLength, header_quadPut _ _ _ (Or.inr (by omega)), ← hnext.length, btnLength]
  have hrest : page.btrLength - (btnData (nextNode page.bytes node) +
      (next.key.length - common n.key next.key)) = rest := by
    simp only [btnData, btnSize]
    omega
  have hdown : btnData node + (common n.key next.key - pfx) ≤
      btnData (nextNode page.bytes node) := by
    simp only [btnData]
    omega
  unfold removeNode
  simp only [hquad, hpfx, hnextPfx, hnextLen, hrest]
  by_cases hcase : common prev n.key < common n.key next.key
  · obtain rfl : pfx = common prev n.key := by omega
    have hheader := (write_header page.bytes node (UInt8.ofNat (common prev n.key))
      (UInt8.ofNat (next.key.length - common prev n.key)) next.number).2
    rw [write_same hat.pfx] at hheader
    rw [show next.key.length - common n.key next.key + common n.key next.key - common prev n.key =
      next.key.length - common prev n.key by omega]
    simp only [if_pos hcase, hheader, copyUp_eq_move _ hdown, move_move _ hdown, Int.sub_zero]
    congr 1
    omega
  · obtain rfl : pfx = common n.key next.key := by omega
    have hheader := write_header_back page.bytes node (UInt8.ofNat (common n.key next.key))
      (UInt8.ofNat (next.key.length - common n.key next.key)) next.number
    have hkept : btnPrefix (write (quadPut next.number page.bytes (node + 2)) (node + 1)
        [UInt8.ofNat (next.key.length - common n.key next.key)]) (nextNode page.bytes node) =
          common n.key next.key := by
      rw [btnPrefix, write_above _ _ (by simp only [List.length_singleton]; omega), ← btnPrefix,
        hnextPfx]
    rw [Nat.sub_self, Nat.add_zero] at hdown
    simp only [if_neg hcase, hkept, hheader, copyUp_eq_move _ hdown, move_move _ hdown,
      Nat.sub_self, Nat.add_zero]

/-- The data that a node with a longer prefix shares with the deleted one stay where they are. -/
theorem holds_shared {pfx : Nat} (hat : NodeAt m node prev n)
    (least : pfx = min (common prev n.key) (common n.key next.key)) :
    Holds m (btnData node) ((next.key.drop pfx).take (common n.key next.key - pfx)) := by
  by_cases hcase : common prev n.key < common n.key next.key
  · obtain rfl : pfx = common prev n.key := by omega
    have hsame : (next.key.drop (common prev n.key)).take
        (common n.key next.key - common prev n.key) =
          (n.key.drop (common prev n.key)).take (common n.key next.key - common prev n.key) := by
      rw [← List.drop_take, ← List.drop_take, take_common]
    have hdata := hat.data
    rw [← List.take_append_drop (common n.key next.key - common prev n.key)
      (n.key.drop (common prev n.key)), holds_append] at hdata
    exact hsame ▸ hdata.1
  · obtain rfl : pfx = common n.key next.key := by omega
    rw [Nat.sub_self, List.take_zero]
    exact holds_nil _ _

theorem removeNode_spec {page : Btr} {before rest : List Node} {pfx : Nat}
    (fits : ∀ k ∈ before ++ n :: next :: rest, k.Fits)
    (held : Holds page.bytes btrNodes (nodesBytes [] (before ++ n :: next :: rest)))
    (length : page.btrLength = btrNodes + (nodesBytes [] (before ++ n :: next :: rest)).length)
    (least : pfx = min (common (lastKey [] (keys before)) n.key) (common n.key next.key)) :
    let d := removeNode page (btrNodes + (nodesBytes [] before).length)
    let bytes := nodesBytes [] before ++ (codedNode pfx next ++ nodesBytes next.key rest)
    Holds d.bytes btrNodes bytes ∧ d.btrLength = btrNodes + bytes.length ∧
      d.btrPrefixTotal = page.btrPrefixTotal -
        if common (lastKey [] (keys before)) n.key < common n.key next.key then 0
        else (common (lastKey [] (keys before)) n.key : Int) := by
  rw [nodesBytes_append, holds_append] at held
  obtain ⟨hbefore, htail⟩ := held
  rw [nodesBytes_append, List.length_append] at length
  generalize lastKey [] (keys before) = prev at *
  rw [nodesBytes, nodesBytes, holds_append, holds_append] at htail
  obtain ⟨hn, hnext, hrest⟩ := htail
  simp only [nodesBytes, List.length_append] at length
  have hat := Holds.nodeAt (fits n (by simp)) hn
  rw [← hat.nextNode] at hnext hrest
  have hatNext := Holds.nodeAt (fits next (by simp)) hnext
  have hnumber := (holds_append.mp (holds_cons.mp (holds_cons.mp hnext).2).2).1
  have hsize := length_nodeBytes n.key next
  have hnode := hat.nextNode
  have hlt := lt_nextNode page.bytes (btrNodes + (nodesBytes [] before).length)
  have hk := common_le_right n.key next.key
  have hlength : page.btrLength = nextNode page.bytes (btrNodes + (nodesBytes [] before).length) +
      (nodeBytes n.key next).length + (nodesBytes next.key rest).length := by
    rw [hat.nextNode]
    omega
  rw [removeNode_eq hat hatNext hnumber hlength least]
  dsimp only
  generalize hhead : UInt8.ofNat pfx :: UInt8.ofNat (next.key.length - pfx) ::
    quadBytes next.number = head
  have hheadLength : head.length = 6 := by rw [← hhead]; rfl
  have hcoded : codedNode pfx next = head ++ ((next.key.drop pfx).take
      (common n.key next.key - pfx) ++ next.key.drop (common n.key next.key)) := by
    have hdrop : next.key.drop (common n.key next.key) =
        (next.key.drop pfx).drop (common n.key next.key - pfx) := by
      rw [List.drop_drop, Nat.add_sub_cancel' (by omega)]
    rw [hdrop, List.take_append_drop, ← hhead]
    rfl
  have hkept : Holds page.bytes (btnData (btrNodes + (nodesBytes [] before).length))
      ((next.key.drop pfx).take (common n.key next.key - pfx)) := holds_shared hat least
  have hmoved : Holds page.bytes (btnData (nextNode page.bytes (btrNodes +
      (nodesBytes [] before).length))) (next.key.drop (common n.key next.key) ++
        nodesBytes next.key rest) := by
    refine holds_append.mpr ⟨hatNext.data, ?_⟩
    convert hrest using 1
    simp only [btnData, btnSize, List.length_drop] at hsize ⊢
    omega
  generalize hdst : btnData (btrNodes + (nodesBytes [] before).length) +
    (common n.key next.key - pfx) = dst
  have hwritten := hmoved.write (b := btrNodes + (nodesBytes [] before).length) head
    (Or.inr (by rw [hheadLength]; simp only [btnData, btnSize]; omega))
  replace hwritten : Holds (move _ _ dst _) dst _ := hwritten.move
  rw [List.length_append, List.length_drop] at hwritten
  have hkeptLength : ((next.key.drop pfx).take (common n.key next.key - pfx)).length =
      common n.key next.key - pfx := by
    rw [List.length_take, List.length_drop]
    omega
  simp only [btnData, btnSize] at hdst
  refine ⟨?_, ?_, rfl⟩
  · rw [hcoded, holds_append, List.append_assoc, holds_append, List.append_assoc, holds_append,
      hheadLength, hkeptLength]
    refine ⟨?_, ?_, ?_, ?_⟩
    · exact (hbefore.write _ (Or.inl (Nat.le_refl _))).write _ (Or.inl (by omega))
    · exact (holds_write _ _ _).write _ (Or.inl (by omega))
    · refine (hkept.write _ (Or.inr ?_)).write _ (Or.inl ?_)
      · rw [hheadLength]
        rfl
      · rw [hkeptLength]
        exact Nat.le_of_eq hdst
    · rw [hdst]
      exact hwritten
  · rw [List.length_append, List.length_append, length_codedNode]
    simp only [btnData]
    omega

end

section

variable {page : IndexPage descending level} {before rest : List Node} {n next : Node}

/-- The key in front of a node takes part in a search, unless it is empty. -/
theorem lastKey_searched (descending : Bool) (level : Nat) (ns : List Node) :
    lastKey [] (keys ns) = [] ∨
      ∃ q ∈ searched descending level ns, q.key = lastKey [] (keys ns) := by
  rcases searched_cases descending level ns with ⟨-, hs⟩ | ⟨d, more, rfl, hd, -, -, -, hs⟩
  · rw [hs]
    rcases lastKey_eq_or_mem [] (keys ns) with hnil | hmem
    · exact Or.inl hnil
    · exact Or.inr (List.mem_map.mp hmem)
  · rw [hs, lastKey_keys_cons, hd]
    rcases lastKey_eq_or_mem [] (keys more) with hnil | hmem
    · exact Or.inl hnil
    · exact Or.inr (List.mem_map.mp hmem)

theorem IndexPage.numbered_of_split (page : IndexPage descending level)
    (split : page.nodes = before ++ n :: next :: rest) : 0 ≤ n.number := by
  by_contra hneg
  have := IndexPage.rest_of_neg split (by omega)
  cases this

/-- What a node shares with the last one but one, when the nodes are in order. -/
theorem common_across (split : page.nodes = before ++ n :: next :: rest) :
    common (lastKey [] (keys before)) next.key =
      min (common (lastKey [] (keys before)) n.key) (common n.key next.key) := by
  have hn := page.numbered_of_split split
  by_cases hl : next.number = endLevel
  · rw [page.key_of_endLevel (by rw [split]; simp) hl]
    simp
  · rcases lastKey_searched descending level before with hnil | ⟨q, hq, hkey⟩
    · rw [hnil]
      simp
    · have hsorted : (searched descending level page.nodes).Pairwise (Node.NotAfter descending) :=
        page.sorted
      have hne : before ≠ [] := by
        rintro rfl
        cases hq
      rw [split, searched_append hne, List.pairwise_append, List.pairwise_cons] at hsorted
      have hqn := (hsorted.2.2 q hq n (by simp)).resolve_left (by simp only [endLevel]; omega)
      have hnn := (hsorted.2.1.1 next (by simp)).resolve_left hl
      rw [← hkey]
      exact common_of_sorted hqn hnn

theorem searched_delete_sublist (descending : Bool) (level : Nat) (before ns : List Node)
    (n : Node) : (searched descending level (before ++ ns)).Sublist
      (searched descending level (before ++ n :: ns)) := by
  cases before with
  | nil =>
    rw [List.nil_append, List.nil_append, searched]
    split
    next => exact searched_sublist _ _ _
    next => exact (searched_sublist _ _ _).trans (List.sublist_cons_self n ns)
  | cons b before =>
    rw [searched_append (by simp), searched_append (by simp)]
    exact (List.sublist_cons_self n ns).append_left _

/-- The page without one of its entries. -/
theorem IndexPage.exists_delete (page : IndexPage descending level) {after : List Node}
    (entries : page.entries = before ++ n :: after) :
    ∃ page' : IndexPage descending level, page'.entries = before ++ after ∧
      page'.mark = page.mark := by
  refine ⟨⟨before ++ after, page.mark, ?_, page.marked, ?_, ?_⟩, rfl, rfl⟩
  · intro k hk
    refine page.numbered k ?_
    rw [entries]
    simp at hk ⊢
    tauto
  · intro k hk
    refine page.fits k ?_
    rw [entries]
    simp at hk ⊢
    tauto
  · have hsorted := page.sorted
    rw [entries, List.append_assoc, List.cons_append] at hsorted
    rw [List.append_assoc]
    exact hsorted.sublist (searched_delete_sublist descending level before _ n)

/-- `delete_node` leaves the page without the entry, compressed as before. -/
theorem removeNode_stores {bucket : Btr} {after : List Node} (stored : bucket.Stores page)
    (entries : page.entries = before ++ n :: after) :
    ∃ page' : IndexPage descending level,
      (removeNode bucket (btrNodes + (nodesBytes [] before).length)).Stores page' ∧
      page'.entries = before ++ after ∧ page'.mark = page.mark := by
  obtain ⟨page', hentries', hmark'⟩ := page.exists_delete entries
  refine ⟨page', ?_, hentries', hmark'⟩
  obtain ⟨next, rest, hrest⟩ : ∃ next rest, after ++ [page.mark] = next :: rest :=
    List.exists_cons_of_ne_nil (by simp)
  have hsplit : page.nodes = before ++ n :: next :: rest := by
    rw [IndexPage.nodes, entries, List.append_assoc, List.cons_append, hrest]
  have hnodes' : page'.nodes = before ++ next :: rest := by
    rw [IndexPage.nodes, hentries', hmark', List.append_assoc, hrest]
  have hfits : ∀ k ∈ before ++ n :: next :: rest, k.Fits := hsplit ▸ page.fits
  obtain ⟨hheld, hlength, -⟩ := removeNode_spec hfits (hsplit ▸ stored.held)
    (hsplit ▸ stored.length) (common_across hsplit)
  have hbytes : nodesBytes [] page'.nodes = nodesBytes [] before ++
      (codedNode (common (lastKey [] (keys before)) next.key) next ++
        nodesBytes next.key rest) := by
    rw [hnodes', nodesBytes_append, nodesBytes, nodeBytes]
  exact ⟨stored.level, hbytes ▸ hheld, hbytes ▸ hlength⟩

end

end InterBase
