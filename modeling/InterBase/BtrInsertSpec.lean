import InterBase.BtrPlacement

namespace InterBase

open Memory KeyOrder FrontCoding

/-- The fields of a node header may be stored in any order. -/
theorem write_header (m : Nat → UInt8) (a : Nat) (x y : UInt8) (v : Int) :
    quadPut v (write (write m a [x]) (a + 1) [y]) (a + 2) = write m a (x :: y :: quadBytes v) ∧
      write (quadPut v (write m a [x]) (a + 2)) (a + 1) [y] =
        write m a (x :: y :: quadBytes v) := by
  have hpair : write (write m a [x]) (a + 1) [y] = write m a [x, y] :=
    (write_append m a [x] [y]).symm
  have hall : write (write m a [x, y]) (a + 2) (quadBytes v) = write m a (x :: y :: quadBytes v) :=
    (write_append m a [x, y] (quadBytes v)).symm
  have hcomm : write (write (write m a [x]) (a + 1) [y]) (a + 2) (quadBytes v) =
      write (write (write m a [x]) (a + 2) (quadBytes v)) (a + 1) [y] :=
    write_comm _ (by simp)
  constructor
  · rw [quadPut, hpair, hall]
  · rw [quadPut, ← hcomm, hpair, hall]

/-- Storing a node field by field, as `insert_node` does, stores its bytes. -/
theorem write_codedNode (m : Nat → UInt8) (a pfx : Nat) (n : Node) (short : n.key.length < maxKey) :
    let m4 := write (quadPut n.number (write m a [UInt8.ofNat pfx]) (a + 2)) (a + 1)
      [UInt8.ofNat (n.key.length - pfx)]
    let m5 := write m4 (btnData a) ((n.key.drop pfx).take (btnLength m4 a))
    m5 = write m a (codedNode pfx n) ∧ nextNode m5 a = a + (codedNode pfx n).length := by
  have hkeylen : n.key.length < 256 := short
  intro m4 m5
  have hm4 : m4 = write m a (UInt8.ofNat pfx :: UInt8.ofNat (n.key.length - pfx) ::
      quadBytes n.number) := (write_header m a _ _ _).2
  have hlen : btnLength m4 a = n.key.length - pfx := by
    have hheld := holds_write m a (UInt8.ofNat pfx :: UInt8.ofNat (n.key.length - pfx) ::
      quadBytes n.number)
    rw [← hm4] at hheld
    rw [btnLength, (holds_cons.mp (holds_cons.mp hheld).2).1, UInt8.toNat_ofNat']
    omega
  have hm5 : m5 = write m a (codedNode pfx n) := by
    have happ := write_append m a (UInt8.ofNat pfx :: UInt8.ofNat (n.key.length - pfx) ::
      quadBytes n.number) (n.key.drop pfx)
    simp only [m5, hlen, ← List.length_drop, List.take_length]
    rw [hm4]
    exact happ.symm
  refine ⟨hm5, ?_⟩
  have hheld := holds_write m a (codedNode pfx n)
  rw [← hm5] at hheld
  rw [nextNode, btnLength, (holds_cons.mp (holds_cons.mp hheld).2).1, UInt8.toNat_ofNat',
    length_codedNode, btnData]
  omega

/-- `insertAt` as one move and one write. -/
theorem insertAt_eq (bucket : Btr) (iib : Iib) (point : InsertionPoint)
    (short : iib.iibKey.length < maxKey) (inside : point.node ≤ bucket.btrLength)
    (grows : 0 < insertionDelta bucket iib.iibKey point) :
    insertAt bucket iib point =
      { bucket with
        bytes := write (move bucket.bytes point.node
            (point.node + insertionDelta bucket iib.iibKey point)
            (bucket.btrLength - point.node)) point.node
          (codedNode point.pfx ⟨iib.iibKey, iib.iibNumber⟩ ++ (UInt8.ofNat point.oldPrefix ::
            UInt8.ofNat point.oldLength :: quadBytes point.oldNumber))
        btrLength := ushort (bucket.btrLength + insertionDelta bucket iib.iibKey point)
        btrPrefixTotal := bucket.btrPrefixTotal + (point.pfx - btnPrefix bucket.bytes point.node) +
          point.oldPrefix } := by
  have hmove : copyDown bucket.bytes bucket.btrLength
      (bucket.btrLength + insertionDelta bucket iib.iibKey point)
      (bucket.btrLength - point.node) = move bucket.bytes point.node
        (point.node + insertionDelta bucket iib.iibKey point) (bucket.btrLength - point.node) := by
    rw [copyDown_eq_move _ (by omega) (by omega)]
    congr 1 <;> omega
  have hpfx : btnPrefix (move bucket.bytes point.node
      (point.node + insertionDelta bucket iib.iibKey point) (bucket.btrLength - point.node))
        point.node = btnPrefix bucket.bytes point.node := by
    rw [btnPrefix, move, write_below _ _ (by omega), btnPrefix]
  obtain ⟨hnode, hnext⟩ := write_codedNode (move bucket.bytes point.node
      (point.node + insertionDelta bucket iib.iibKey point) (bucket.btrLength - point.node))
    point.node point.pfx ⟨iib.iibKey, iib.iibNumber⟩ short
  unfold insertAt
  simp only [hmove, hpfx]
  congr 1
  rw [hnext, hnode, (write_header _ _ _ _ _).1, ← write_append]

/-- What `insert_node` needs to know of the page around the insertion point. -/
structure Placement.Ready (p : Placement) (key : Key) : Prop where
  pfx : p.pfx ≤ key.length
  grows : common (lastKey [] (keys p.before)) p.next.key ≤ common key p.next.key
  room : common key p.next.key - common (lastKey [] (keys p.before)) p.next.key ≤
    key.length - p.pfx

theorem insertAt_spec {bucket : Btr} {iib : Iib} {p : Placement}
    (held : Holds bucket.bytes btrNodes (nodesBytes [] (p.before ++ p.next :: p.rest)))
    (length : bucket.btrLength = btrNodes + (nodesBytes [] (p.before ++ p.next :: p.rest)).length)
    (fits : p.next.Fits) (short : iib.iibKey.length < maxKey) (legal : bucket.btrLength ≤ 16384)
    (ready : p.Ready iib.iibKey) :
    Holds (insertAt bucket iib (p.point iib.iibKey)).bytes btrNodes (nodesBytes [] p.before ++
        (codedNode p.pfx ⟨iib.iibKey, iib.iibNumber⟩ ++
          (nodeBytes iib.iibKey p.next ++ nodesBytes p.next.key p.rest))) ∧
      (insertAt bucket iib (p.point iib.iibKey)).btrLength + common iib.iibKey p.next.key =
        bucket.btrLength + (btnSize + (iib.iibKey.length - p.pfx)) +
          common (lastKey [] (keys p.before)) p.next.key ∧
      (insertAt bucket iib (p.point iib.iibKey)).btrPrefixTotal = bucket.btrPrefixTotal + p.pfx -
        common (lastKey [] (keys p.before)) p.next.key + common iib.iibKey p.next.key := by
  obtain ⟨hpfx, hgrows, hroom⟩ := ready
  have hkeylen : iib.iibKey.length < 256 := short
  have hold := common_le_right iib.iibKey p.next.key
  rw [nodesBytes_append, holds_append] at held
  obtain ⟨hbefore, htail⟩ := held
  rw [nodesBytes_append, List.length_append] at length
  generalize hprev : lastKey [] (keys p.before) = prev at *
  have hat := Holds.nodeAt fits (holds_append.mp htail).1
  have hdelta : insertionDelta bucket iib.iibKey (p.point iib.iibKey) + common iib.iibKey p.next.key
      = btnSize + (iib.iibKey.length - p.pfx) + common prev p.next.key := by
    simp only [insertionDelta, Placement.point, hat.pfx, btnSize]
    omega
  have hsize := length_nodeBytes prev p.next
  rw [insertAt_eq bucket iib (p.point iib.iibKey) short
    (by simp only [Placement.point]; omega) (by simp only [btnSize] at hdelta; omega)]
  generalize insertionDelta bucket iib.iibKey (p.point iib.iibKey) = delta at *
  simp only [Placement.point, hat.pfx]
  simp only [btnSize] at hdelta
  refine ⟨?_, ?_, by omega⟩
  · have hmoved : Holds (move bucket.bytes (btrNodes + (nodesBytes [] p.before).length)
        (btrNodes + (nodesBytes [] p.before).length + delta)
        (bucket.btrLength - (btrNodes + (nodesBytes [] p.before).length)))
        (btrNodes + (nodesBytes [] p.before).length + delta)
        (nodesBytes prev (p.next :: p.rest)) := by
      rw [show bucket.btrLength - (btrNodes + (nodesBytes [] p.before).length) =
        (nodesBytes prev (p.next :: p.rest)).length by omega]
      exact htail.move
    -- of the node that moves up only the data behind the shared prefix are kept
    have hdrop : p.next.key.drop (common prev p.next.key) =
        (p.next.key.drop (common prev p.next.key)).take
          (common iib.iibKey p.next.key - common prev p.next.key) ++
        p.next.key.drop (common iib.iibKey p.next.key) := by
      conv_lhs => rw [← List.take_append_drop (common iib.iibKey p.next.key -
        common prev p.next.key) (p.next.key.drop (common prev p.next.key))]
      rw [List.drop_drop, Nat.add_sub_cancel' hgrows]
    have hkept := hmoved
    rw [nodesBytes, nodeBytes, codedNode, hdrop, ← List.append_assoc (quadBytes _),
      ← List.cons_append, ← List.cons_append, List.append_assoc, holds_append] at hkept
    have hnext : nodeBytes iib.iibKey p.next = (UInt8.ofNat (common iib.iibKey p.next.key) ::
        UInt8.ofNat (p.next.key.length - common iib.iibKey p.next.key) ::
          quadBytes p.next.number) ++ p.next.key.drop (common iib.iibKey p.next.key) := rfl
    rw [holds_append, hnext, List.append_assoc _ _ (nodesBytes p.next.key p.rest),
      ← List.append_assoc (codedNode _ _), holds_append]
    have hlen := length_codedNode p.pfx ⟨iib.iibKey, iib.iibNumber⟩
    simp only [btnSize] at hlen
    refine ⟨?_, holds_write _ _ _, ?_⟩
    · refine ((hbefore.write _ (Or.inl (by omega)))).write _ (Or.inl (by omega))
    · refine Holds.write ?_ _ (Or.inr (Nat.le_refl _))
      convert hkept.2 using 1
      simp only [List.length_append, List.length_cons, List.length_take, List.length_drop,
        length_quadBytes, hlen]
      omega
  · rw [ushort_of_lt (by omega)]
    simp only [btnSize]
    omega

end InterBase
