import InterBase.BtrInsertNode

namespace InterBase

open Memory KeyOrder FrontCoding

/-- The bytes of nodes with given prefixes. -/
def streamBytes (cs : List (Nat × Node)) : List UInt8 := cs.flatMap (fun c => codedNode c.1 c.2)

/-- The nodes of a page with the prefixes they are stored with. -/
def coded (prev : Key) : List Node → List (Nat × Node)
  | [] => []
  | n :: ns => (common prev n.key, n) :: coded n.key ns

/-- What a key buffer holds once the nodes have been expanded into it. -/
def keyAfter (key : Nat → UInt8) (cs : List (Nat × Node)) : Nat → UInt8 :=
  cs.foldl (fun key c => write key c.1 (c.2.key.drop c.1)) key

@[simp] theorem streamBytes_cons (c : Nat × Node) (cs : List (Nat × Node)) :
    streamBytes (c :: cs) = codedNode c.1 c.2 ++ streamBytes cs := rfl

@[simp] theorem streamBytes_append (cs ds : List (Nat × Node)) :
    streamBytes (cs ++ ds) = streamBytes cs ++ streamBytes ds := by
  simp [streamBytes]

theorem streamBytes_coded (prev : Key) (ns : List Node) :
    streamBytes (coded prev ns) = nodesBytes prev ns := by
  induction ns generalizing prev with
  | nil => rfl
  | cons n ns ih => rw [coded, streamBytes_cons, ih, nodesBytes, nodeBytes]

theorem coded_append (prev : Key) (ns ms : List Node) :
    coded prev (ns ++ ms) = coded prev ns ++ coded (lastKey prev (keys ns)) ms := by
  induction ns generalizing prev with
  | nil => rfl
  | cons n ns ih => rw [List.cons_append, coded, ih, lastKey_keys_cons, coded, List.cons_append]

theorem keyAfter_coded {key : Nat → UInt8} {prev : Key} (held : Holds key 0 prev) (ns : List Node) :
    Holds (keyAfter key (coded prev ns)) 0 (lastKey prev (keys ns)) := by
  induction ns generalizing key prev with
  | nil => exact held
  | cons n ns ih =>
    rw [lastKey_keys_cons]
    exact ih (Holds.expandKey held n.key)

/-- Overwriting the number of a stored node leaves the rest of it alone. -/
theorem Holds.renumber {m : Nat → UInt8} {node pfx : Nat} {n : Node} (number : Int)
    (held : Holds m node (codedNode pfx n)) :
    Holds (quadPut number m (node + 2)) node (codedNode pfx ⟨n.key, number⟩) := by
  obtain ⟨hp, held⟩ := holds_cons.mp held
  obtain ⟨hl, held⟩ := holds_cons.mp held
  obtain ⟨-, hd⟩ := holds_append.mp held
  refine holds_cons.mpr ⟨?_, holds_cons.mpr ⟨?_, holds_append.mpr ⟨holds_write _ _ _, ?_⟩⟩⟩
  · rw [quadPut, write_below _ _ (by omega), hp]
  · rw [quadPut, write_below _ _ (by omega), hl]
  · exact hd.write _ (Or.inr (Nat.le_refl _))

theorem length_renumber (pfx : Nat) (n : Node) (number : Int) :
    (codedNode pfx ⟨n.key, number⟩).length = (codedNode pfx n).length := by
  rw [length_codedNode, length_codedNode]

theorem Node.Fits.endBucket {n : Node} (h : n.Fits) : Node.Fits ⟨n.key, InterBase.endBucket⟩ :=
  ⟨h.short, by simp [InterBase.endBucket], by simp [InterBase.endBucket]⟩

/-- A node of a stream fits a page and its prefix is part of its key. -/
def CodedFits (c : Nat × Node) : Prop := c.2.Fits ∧ c.1 ≤ c.2.key.length

/-- The split loop stops behind the first node that ends at the midpoint or behind it. -/
theorem splitLoop_spec {m : Nat → UInt8} {cs : List (Nat × Node)} {p midpoint : Nat}
    (fits : ∀ c ∈ cs, CodedFits c) (held : Holds m p (streamBytes cs)) (before : p < midpoint)
    (inside : midpoint ≤ p + (streamBytes cs).length) (node : Nat) (total : Int)
    (key : Nat → UInt8) (keyLength : Nat) :
    ∃ left mid right, cs = left ++ mid :: right ∧
      p + (streamBytes left).length < midpoint ∧
      midpoint ≤ p + (streamBytes left).length + (codedNode mid.1 mid.2).length ∧
      splitLoop m midpoint node p total key keyLength = (p + (streamBytes left).length,
        total + (((left ++ [mid]).map Prod.fst).sum : Nat), keyAfter key (left ++ [mid]),
        mid.2.key.length) := by
  induction cs generalizing p node total key keyLength with
  | nil => simp [streamBytes] at inside; omega
  | cons c cs ih =>
    obtain ⟨hfits, hle⟩ := fits c (by simp)
    obtain ⟨hc, hrest⟩ := holds_append.mp held
    have hat := Holds.codedAt hfits hle hc
    rw [splitLoop, if_pos before, hat.pfx, hat.slice_data, hat.length, hat.nextNode,
      Nat.add_sub_cancel' hle]
    by_cases hnext : p + (codedNode c.1 c.2).length < midpoint
    · obtain ⟨left, mid, right, rfl, hstart, hend, hloop⟩ := ih (fun d hd => fits d (by simp [hd]))
        hrest hnext (by simpa [Nat.add_assoc] using inside) p (total + c.1)
        (write key c.1 (c.2.key.drop c.1)) c.2.key.length
      refine ⟨c :: left, mid, right, rfl, ?_, ?_, ?_⟩
      · simpa [Nat.add_assoc] using hstart
      · simpa [Nat.add_assoc] using hend
      · rw [hloop]
        simp [keyAfter, Nat.add_assoc, Int.add_assoc]
    · refine ⟨[], c, cs, rfl, by simpa [streamBytes] using before,
        by simpa [streamBytes] using Nat.not_lt.mp hnext, ?_⟩
      rw [splitLoop, if_neg hnext]
      simp [keyAfter, streamBytes]

section

variable {pageSize : Nat} {bucket window fresh : Btr} {winPage splitPage : Int}
variable {keyData : Nat → UInt8} {node : Nat} {point : InsertionPoint} {s : Split}

/-- Both pages of a split, over the nodes that the page held before it. -/
theorem splitBucket_spec {cs : List (Nat × Node)}
    (cut : splitBucket pageSize bucket window fresh winPage splitPage keyData node point = s)
    (fits : ∀ c ∈ cs, CodedFits c) (held : Holds bucket.bytes btrNodes (streamBytes cs))
    (length : bucket.btrLength = btrNodes + (streamBytes cs).length)
    (first : btrNodes < splitMidpoint pageSize bucket point)
    (inside : splitMidpoint pageSize bucket point ≤ bucket.btrLength) :
    ∃ left mid right, cs = left ++ mid :: right ∧
      btrNodes + (streamBytes left).length < splitMidpoint pageSize bucket point ∧
      splitMidpoint pageSize bucket point ≤
        btrNodes + (streamBytes left).length + (codedNode mid.1 mid.2).length ∧
      s.newKey = slice (keyAfter keyData (left ++ [mid])) 0 mid.2.key.length ∧
      Holds s.split.bytes btrNodes (codedNode 0 ⟨s.newKey, mid.2.number⟩ ++ streamBytes right) ∧
      s.split.btrLength = btrNodes + (btnSize + mid.2.key.length) + (streamBytes right).length ∧
      Holds s.bucket.bytes btrNodes
        (streamBytes left ++ codedNode mid.1 ⟨mid.2.key, endBucket⟩) ∧
      s.bucket.btrLength =
        btrNodes + (streamBytes left).length + (codedNode mid.1 mid.2).length ∧
      s.split.btrPrefixTotal =
        bucket.btrPrefixTotal - (((left ++ [mid]).map Prod.fst).sum : Nat) ∧
      s.bucket.btrPrefixTotal = ((left.map Prod.fst).sum : Nat) := by
  obtain ⟨left, mid, right, rfl, hstart, hend, hloop⟩ :=
    splitLoop_spec fits held first (by omega) node 0 keyData 0
  refine ⟨left, mid, right, rfl, hstart, hend, ?_⟩
  obtain ⟨hfits, hle⟩ := fits mid (by simp)
  rw [streamBytes_append, streamBytes_cons, holds_append, holds_append] at held
  obtain ⟨hleft, hmid, hright⟩ := held
  have hat := Holds.codedAt hfits hle hmid
  simp only [streamBytes_append, streamBytes_cons, List.length_append] at length
  have hquad : slice bucket.bytes (btrNodes + (streamBytes left).length + 2) 4 =
      quadBytes mid.2.number := by
    have hq := (holds_cons.mp (holds_cons.mp hmid).2).2
    exact (holds_append.mp hq).1
  generalize hkey : slice (keyAfter keyData (left ++ [mid])) 0 mid.2.key.length = newKey
  have hkeylen : newKey.length = mid.2.key.length := by rw [← hkey, length_slice]
  have hshort : mid.2.key.length < 256 := hfits.short
  obtain ⟨hnew, hnext⟩ := write_codedNode fresh.bytes btrNodes 0 ⟨newKey, mid.2.number⟩
    (by rw [hkeylen]; exact hshort)
  have hsize := length_codedNode mid.1 mid.2
  have hnextNode := hat.nextNode
  dsimp only at hnew hnext
  rw [hkeylen, Nat.sub_zero, List.drop_zero, quadPut, show UInt8.ofNat 0 = 0 from rfl] at hnew hnext
  rw [hnew] at hnext
  have hmark := Holds.renumber endBucket hmid
  have hmarked := (Holds.codedAt hfits.endBucket hle hmark).nextNode
  rw [length_renumber] at hmarked
  subst cut
  simp only [splitBucket, hloop, hkey, hkeylen, hquad, hnextNode, hnext, hnew, hmarked, hat.pfx]
  have hlength : bucket.btrLength - (btrNodes + (streamBytes left).length +
      (codedNode mid.1 mid.2).length) = (streamBytes right).length := by omega
  rw [hlength]
  refine ⟨trivial, ?_, ?_, ?_, trivial, by omega, by simp⟩
  · rw [hright, ← write_append]
    exact holds_write _ _ _
  · rw [length_codedNode, hkeylen, Nat.sub_zero]
  · rw [holds_append]
    constructor
    · refine (hleft.write (quadBytes endBucket) (Or.inl (Nat.le_add_right _ 2))).congr
        fun i _ hi => if_pos ?_
      omega
    · refine hmark.congr fun i _ hi => if_pos ?_
      rwa [length_renumber] at hi

/-- The header fields of both pages of a split. -/
theorem splitBucket_header
    (cut : splitBucket pageSize bucket window fresh winPage splitPage keyData node point = s) :
    s.bucket.btrLevel = bucket.btrLevel ∧ s.split.btrLevel = bucket.btrLevel ∧
      s.bucket.btrSibling = splitPage ∧ s.split.btrLeftSibling = winPage ∧
      s.split.btrSibling = bucket.btrSibling ∧
      s.bucket.btrLeftSibling = bucket.btrLeftSibling := by
  subst cut
  exact ⟨rfl, rfl, rfl, rfl, rfl, rfl⟩

/-- The new node `c` and the node `d` behind it in the overflow area. -/
structure Overflows (pageSize : Nat) (bucket : Btr) (point : InsertionPoint)
    (front : List (Nat × Node)) (c d : Nat × Node) (rest : List (Nat × Node)) : Prop where
  legal : 1024 ≤ pageSize
  overflow : pageSize < bucket.btrLength
  fits : ∀ e ∈ front ++ c :: d :: rest, CodedFits e
  held : Holds bucket.bytes btrNodes (streamBytes (front ++ c :: d :: rest))
  length : bucket.btrLength = btrNodes + (streamBytes (front ++ c :: d :: rest)).length
  node : point.node = btrNodes + (streamBytes front).length
  last : point.oldNumber < 0 → rest = []

variable {front rest left right : List (Nat × Node)} {c d mid : Nat × Node}

theorem CodedFits.length_le {c : Nat × Node} (h : CodedFits c) :
    (codedNode c.1 c.2).length ≤ btnSize + 255 := by
  have hshort : c.2.key.length < 256 := h.1.short
  rw [length_codedNode]
  omega

theorem Overflows.nextNode (h : Overflows pageSize bucket point front c d rest) :
    nextNode bucket.bytes point.node = point.node + (codedNode c.1 c.2).length := by
  obtain ⟨hfits, hle⟩ := h.fits c (by simp)
  have hheld := h.held
  rw [streamBytes_append, holds_append, streamBytes_cons, ← h.node] at hheld
  exact (Holds.codedAt hfits hle (holds_append.mp hheld.2).1).nextNode

/-- At the end of a page that still has room for the new node the split is in front of it. -/
theorem Overflows.at_end (h : Overflows pageSize bucket point front c d rest)
    (hend : point.oldNumber < 0 ∧ InterBase.nextNode bucket.bytes point.node ≤ pageSize) :
    rest = [] ∧ splitMidpoint pageSize bucket point = btrNodes + (streamBytes front).length ∧
      btrNodes + (streamBytes (front ++ [c])).length ≤ pageSize := by
  refine ⟨h.last hend.1, ?_, ?_⟩
  · rw [splitMidpoint, if_pos hend, h.node]
  · have hroom := hend.2
    rw [h.nextNode, h.node] at hroom
    simpa [streamBytes, Nat.add_assoc] using hroom

theorem Overflows.midpoint_bounds (h : Overflows pageSize bucket point front c d rest) :
    295 < splitMidpoint pageSize bucket point ∧
      ∀ ls e, front ++ c :: d :: rest = ls ++ [e] →
        splitMidpoint pageSize bucket point ≤ btrNodes + (streamBytes ls).length := by
  have hlegal := h.legal
  have hover := h.overflow
  have hlength := h.length
  have hc := (h.fits c (by simp)).length_le
  have hd := (h.fits d (by simp)).length_le
  simp only [btrNodes, btnSize] at hlength hc hd
  by_cases hend : point.oldNumber < 0 ∧ InterBase.nextNode bucket.bytes point.node ≤ pageSize
  · obtain ⟨rfl, hmid, -⟩ := h.at_end hend
    simp only [streamBytes_append, streamBytes_cons, List.length_append] at hlength
    simp only [hmid, btrNodes]
    refine ⟨by simp [streamBytes] at hlength ⊢; omega, fun ls e he => ?_⟩
    have happ : (front ++ [c]) ++ [d] = ls ++ [e] := by simpa using he
    rw [← (List.append_inj' happ rfl).1, streamBytes_append, List.length_append]
    omega
  · rw [splitMidpoint, if_neg hend]
    simp only [btrNodes]
    refine ⟨by omega, fun ls e he => ?_⟩
    have hlast := (h.fits e (by rw [he]; simp)).length_le
    rw [he, streamBytes_append, List.length_append] at hlength
    simp only [streamBytes_cons, List.length_append, btnSize] at hlast hlength
    simp only [streamBytes, List.flatMap_nil, List.length_nil] at *
    omega

theorem Overflows.midpoint_le (h : Overflows pageSize bucket point front c d rest) :
    splitMidpoint pageSize bucket point ≤ bucket.btrLength := by
  obtain ⟨ls, e, he⟩ := (List.eq_nil_or_concat' (front ++ c :: d :: rest)).resolve_left (by simp)
  have hle := h.midpoint_bounds.2 ls e he
  have hlength := h.length
  rw [he, streamBytes_append, List.length_append] at hlength
  omega

/-- Both halves of a split have an entry, and the lower half fits its page. -/
theorem Overflows.halves (h : Overflows pageSize bucket point front c d rest)
    (split : front ++ c :: d :: rest = left ++ mid :: right)
    (start : btrNodes + (streamBytes left).length < splitMidpoint pageSize bucket point)
    (stop : splitMidpoint pageSize bucket point ≤
      btrNodes + (streamBytes left).length + (codedNode mid.1 mid.2).length) :
    left ≠ [] ∧ right ≠ [] ∧
      btrNodes + (streamBytes left).length + (codedNode mid.1 mid.2).length ≤ pageSize := by
  obtain ⟨hlow, hhigh⟩ := h.midpoint_bounds
  have hmid := (h.fits mid (by rw [split]; simp)).length_le
  have hlegal := h.legal
  simp only [btrNodes, btnSize] at start stop hmid hhigh ⊢
  have hright : right ≠ [] := by
    rintro rfl
    have := hhigh left mid split
    omega
  refine ⟨?_, hright, ?_⟩
  · rintro rfl
    simp only [streamBytes, List.flatMap_nil, List.length_nil] at start stop
    omega
  · by_cases hend : point.oldNumber < 0 ∧ InterBase.nextNode bucket.bytes point.node ≤ pageSize
    · obtain ⟨rfl, -, hroom⟩ := h.at_end hend
      obtain ⟨more, e, rfl⟩ := (List.eq_nil_or_concat' right).resolve_left hright
      have happ : (front ++ [c]) ++ [d] = (left ++ mid :: more) ++ [e] := by simpa using split
      rw [(List.append_inj' happ rfl).1] at hroom
      simp only [streamBytes_append, streamBytes_cons, List.length_append, btrNodes] at hroom
      omega
    · rw [splitMidpoint, if_neg hend] at start
      simp only [btrNodes] at start
      omega

end

end InterBase
