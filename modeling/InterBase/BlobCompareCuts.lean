import InterBase.BlobCompare

namespace InterBase

/-- How a blob is cut: the lengths of its segments, or the length of a stream. -/
inductive BlobShape where
  | segmented (lengths : List Nat)
  | stream (length : Nat)
deriving DecidableEq

def BlobContent.shape : BlobContent → BlobShape
  | segmented segs => .segmented (segs.map List.length)
  | stream bytes => .stream bytes.length

def chunkLengths (n : Nat) : List Nat :=
  if n ≤ bufferLarge then [n] else bufferLarge :: chunkLengths (n - bufferLarge)
termination_by n
decreasing_by
  unfold bufferLarge at *
  omega

/-- The lengths of the pieces that are read. -/
def BlobShape.cuts : BlobShape → List Nat
  | segmented lengths => lengths.flatMap chunkLengths
  | stream n => if n = 0 then [] else chunkLengths n

/-- The length of a segment is a `USHORT`. -/
def BlobShape.Valid : BlobShape → Prop
  | segmented lengths => ∀ l ∈ lengths, l < 65536
  | stream _ => True

/-- Whether nothing at all is compared: both ids are those of temporary blobs, or one is null. -/
def NothingCompared (bid1 bid2 : Bid) : Prop :=
  bid1.bidRelationId = 0 ∧ bid2.bidRelationId = 0 ∨ bid1.isNull ∨ bid2.isNull

instance decidableNothingCompared (bid1 bid2 : Bid) : Decidable (NothingCompared bid1 bid2) :=
  inferInstanceAs (Decidable (_ ∨ _))

/-- Where the comparison of two blobs gets out of step. -/
def blobsOutOfStep (blank : UInt8) (bid1 bid2 : Bid) (content1 content2 : BlobContent) :
    Option Nat :=
  if NothingCompared bid1 bid2 then none
  else Padded.outOfStep blank content1.pieces content2.pieces

/-- When blobs with these ids and contents are compared as their contents are. -/
def ComparedInPlace (blank : UInt8) (bid1 bid2 : Bid) (content1 content2 : BlobContent) : Prop :=
  bid1 = bid2 ∨
    if NothingCompared bid1 bid2 then Padded.compare blank content1.bytes content2.bytes = 0
    else Padded.outOfStep blank content1.pieces content2.pieces = none

/-- A content that is cut as the other one and begins as it does up to the place; the same one where
there is no place. -/
def BlobContent.AlikeUpTo (content content' : BlobContent) : Option Nat → Prop
  | none => content' = content
  | some n => content'.shape = content.shape ∧ content'.bytes.take n = content.bytes.take n

/-- The length of a segment in two bytes. -/
def countBytes (order : ByteOrder) (n : Nat) : List UInt8 :=
  match order with
  | .vax => [UInt8.ofNat n, UInt8.ofNat (n / 256)]
  | .nonVax => [UInt8.ofNat (n / 256), UInt8.ofNat n]

/-- A small blob, all of it in one clump. -/
def clumpBlob (order : ByteOrder) : BlobContent → OpenBlob
  | .segmented segs => ⟨false, false, segs.flatten.length, ⟨false, true,
      segs.flatMap fun seg => countBytes order seg.length ++ seg, [], 0⟩⟩
  | .stream bytes => ⟨true, false, bytes.length, ⟨false, true, bytes, [], 0⟩⟩

section

variable {order : ByteOrder}

theorem number_countBytes {n : Nat} (h : n < 65536) : number order (countBytes order n) = n := by
  have low : (UInt8.ofNat n).toNat = n % 256 := UInt8.toNat_ofNat'
  have high : (UInt8.ofNat (n / 256)).toNat = n / 256 := by
    rw [UInt8.toNat_ofNat']
    exact Nat.mod_eq_of_lt (by omega)
  cases order with
  | vax =>
    show (UInt8.ofNat (n / 256)).toNat * 256 ^ 1 + ((UInt8.ofNat n).toNat * 256 ^ 0 + 0) = n
    rw [low, high]
    omega
  | nonVax =>
    show (UInt8.ofNat (n / 256)).toNat * 256 ^ 1 + ((UInt8.ofNat n).toNat * 256 ^ 0 + 0) = n
    rw [low, high]
    omega

theorem laid_bytes (current : List UInt8) {data : List UInt8} {segs : List (List UInt8)}
    (rest : BlobLaid order data [] [] segs) : BlobLaid order (current ++ data) [] current segs := by
  induction current with
  | nil => exact rest
  | cons b current ih => exact .byte ih

theorem laid_segments {segs : List (List UInt8)} (short : ∀ seg ∈ segs, seg.length < 65536) :
    BlobLaid order (segs.flatMap fun seg => countBytes order seg.length ++ seg) [] [] segs := by
  induction segs with
  | nil => exact .done
  | cons seg segs ih =>
    obtain ⟨first, others⟩ := List.forall_mem_cons.mp short
    have rest := laid_bytes seg (ih others)
    have length : number order (countBytes order seg.length) = seg.length :=
      number_countBytes first
    rw [List.flatMap_cons, List.append_assoc]
    cases order with
    | vax => exact .count length rest
    | nonVax => exact .count length rest

theorem clumpBlob_holds {content : BlobContent} (valid : content.shape.Valid) :
    (clumpBlob order content).Holds order content := by
  cases content with
  | segmented segs =>
    have short : ∀ seg ∈ segs, seg.length < 65536 := fun seg h => valid _ (List.mem_map_of_mem h)
    refine ⟨rfl, rfl, ⟨[], segs, laid_segments short, rfl, rfl⟩, ?_, fun _ _ => rfl⟩
    intro eof
    cases eof
  | stream bytes =>
    refine ⟨rfl, rfl, List.append_nil bytes, List.forall_mem_nil _, fun _ _ => rfl, ?_⟩
    intro unset
    cases unset

/-- Blobs with these contents. -/
theorem exists_store (order : ByteOrder) {bid1 bid2 : Bid} (other : bid1 ≠ bid2) {content1 content2 : BlobContent}
    (valid1 : content1.shape.Valid) (valid2 : content2.shape.Valid) :
    ∃ store : BlobStore order, store.content bid1 = content1 ∧ store.content bid2 = content2 := by
  have holds : ∀ bid, (clumpBlob order (if bid = bid1 then content1 else content2)).Holds order
      (if bid = bid1 then content1 else content2) := by
    intro bid
    split
    · exact clumpBlob_holds valid1
    · exact clumpBlob_holds valid2
  exact ⟨⟨_, _, holds⟩, if_pos rfl, if_neg other.symm⟩

theorem length_chunks (bytes : List UInt8) :
    (chunks bytes).map List.length = chunkLengths bytes.length := by
  fun_induction chunks bytes with
  | case1 bytes short =>
    unfold chunkLengths
    rw [if_pos short]
    rfl
  | case2 bytes long ih =>
    conv_rhs => unfold chunkLengths
    rw [if_neg long, List.map_cons, ih, List.length_drop, List.length_take,
      Nat.min_eq_left (Nat.le_of_lt (Nat.not_le.mp long))]

theorem length_pieces (content : BlobContent) :
    content.pieces.map List.length = content.shape.cuts := by
  cases content with
  | segmented segs =>
    show (segs.flatMap chunks).map List.length = (segs.map List.length).flatMap chunkLengths
    rw [List.map_flatMap, List.flatMap_map]
    exact List.flatMap_congr fun seg _ => length_chunks seg
  | stream bytes =>
    show (if bytes = [] then [] else chunks bytes).map List.length =
      if bytes.length = 0 then [] else chunkLengths bytes.length
    by_cases none : bytes = []
    · rw [if_pos none, if_pos (List.length_eq_zero_iff.mpr none)]
      rfl
    · rw [if_neg none, if_neg fun zero => none (List.length_eq_zero_iff.mp zero), length_chunks]

/-- Pieces of the lengths that a segment is read in are those of a segment. -/
theorem chunks_flatten (n : Nat) : ∀ {ps : List (List UInt8)}, ps.map List.length = chunkLengths n →
    chunks ps.flatten = ps ∧ ps.flatten.length = n := by
  fun_induction chunkLengths n with
  | case1 n short =>
    intro ps lengths
    obtain ⟨p, rfl, length⟩ := List.map_eq_singleton_iff.mp lengths
    rw [List.flatten_singleton]
    exact ⟨chunks_short (by rw [length]; exact short), length⟩
  | case2 n long ih =>
    intro ps lengths
    obtain ⟨p, ps', rfl, length, rest⟩ := List.map_eq_cons_iff.mp lengths
    obtain ⟨again, total⟩ := ih rest
    have whole : (p :: ps').flatten.length = n := by
      rw [List.flatten_cons, List.length_append, length, total]
      omega
    refine ⟨?_, whole⟩
    rw [chunks_long (by rw [whole]; omega), List.flatten_cons, List.take_append_of_le_length
      (Nat.le_of_eq length.symm), List.drop_append_of_le_length (Nat.le_of_eq length.symm),
      List.take_of_length_le (Nat.le_of_eq length), List.drop_eq_nil_of_le (Nat.le_of_eq length),
      List.nil_append, again]

/-- Any pieces of the right lengths are those of a content. -/
theorem exists_content (shape : BlobShape) {ps : List (List UInt8)}
    (lengths : ps.map List.length = shape.cuts) :
    ∃ content : BlobContent, content.shape = shape ∧ content.pieces = ps := by
  cases shape with
  | segmented ls =>
    suffices ∃ segs : List (List UInt8), segs.map List.length = ls ∧ segs.flatMap chunks = ps by
      obtain ⟨segs, same, pieces⟩ := this
      refine ⟨.segmented segs, ?_, pieces⟩
      rw [← same]
      rfl
    change ps.map List.length = ls.flatMap chunkLengths at lengths
    induction ls generalizing ps with
    | nil =>
      rw [List.flatMap_nil, List.map_eq_nil_iff] at lengths
      exact ⟨[], rfl, lengths.symm⟩
    | cons l ls ih =>
      rw [List.flatMap_cons] at lengths
      obtain ⟨first, rest, rfl, hfirst, hrest⟩ := List.map_eq_append_iff.mp lengths
      obtain ⟨segs, same, pieces⟩ := ih hrest
      obtain ⟨again, total⟩ := chunks_flatten l hfirst
      refine ⟨first.flatten :: segs, ?_, ?_⟩
      · rw [List.map_cons, same, total]
      · rw [List.flatMap_cons, pieces, again]
  | stream n =>
    change ps.map List.length = if n = 0 then [] else chunkLengths n at lengths
    by_cases zero : n = 0
    · rw [if_pos zero, List.map_eq_nil_iff] at lengths
      refine ⟨.stream [], ?_, lengths.symm⟩
      rw [zero]
      rfl
    · rw [if_neg zero] at lengths
      obtain ⟨again, total⟩ := chunks_flatten n lengths
      have some : ps.flatten ≠ [] := by
        intro none
        rw [none] at total
        exact zero total.symm
      refine ⟨.stream ps.flatten, ?_, ?_⟩
      · show BlobShape.stream ps.flatten.length = _
        rw [total]
      · show (if ps.flatten = [] then [] else chunks ps.flatten) = ps
        rw [if_neg some, again]

theorem valid_of_shape {content : BlobContent} {shape : BlobShape} (same : content.shape = shape)
    (valid : shape.Valid) : content.shape.Valid := by
  rw [same]
  exact valid

section

variable {intl : Intl} {bidAt : Nat → Bid} {arg1 arg2 : BlobDsc}

/-- The comparison comes to this, as soon as there are rounds enough. -/
def ComesTo (order : ByteOrder) (intl : Intl) (bidAt : Nat → Bid) (store : BlobStore order)
    (arg1 arg2 : BlobDsc) (ret : Int) : Prop :=
  ∃ enough, ∀ fuel, enough ≤ fuel →
    cvt2BlobCompare order intl bidAt store arg1 arg2 fuel = some (.value ret)

theorem ComesTo.unique {store : BlobStore order} {m n : Int}
    (h : ComesTo order intl bidAt store arg1 arg2 m)
    (h' : ComesTo order intl bidAt store arg1 arg2 n) : m = n := by
  obtain ⟨enough, h⟩ := h
  obtain ⟨enough', h'⟩ := h'
  have first := h (max enough enough') (Nat.le_max_left ..)
  rw [h' (max enough enough') (Nat.le_max_right ..)] at first
  cases first
  rfl

theorem comesTo_same {store : BlobStore order}
    (same : sameBlobId (bidAt arg1.dscAddress) (bidAt arg2.dscAddress)) :
    ComesTo order intl bidAt store arg1 arg2 0 := by
  refine ⟨0, fun fuel _ => ?_⟩
  unfold cvt2BlobCompare
  simp only
  by_cases one : arg1.dscAddress = arg2.dscAddress
  · rw [if_pos one]
  · rw [if_neg one, if_pos same]

/-- The ids that the shortcut takes for one. -/
theorem sameBlobId_iff {bid1 bid2 : Bid} : sameBlobId bid1 bid2 ↔
    bid1 = bid2 ∨ bid1.bidRelationId = 0 ∧ bid2.bidRelationId = 0 := by
  constructor
  · intro same
    obtain ⟨relation, ⟨zero, -⟩ | ⟨-, number⟩⟩ := same
    · exact .inr ⟨zero, relation.symm.trans zero⟩
    · refine .inl ?_
      cases bid1
      cases bid2
      simp only at relation number
      rw [relation, number]
  · intro either
    obtain rfl | ⟨zero1, zero2⟩ := either
    · refine ⟨rfl, ?_⟩
      by_cases zero : bid1.bidRelationId = 0
      · exact .inl ⟨zero, rfl⟩
      · exact .inr ⟨zero, rfl⟩
    · exact ⟨zero1.trans zero2.symm, .inl ⟨zero1, rfl⟩⟩

/-- Where one blob is null or both are temporary, nothing is compared. -/
theorem comesTo_zero {store : BlobStore order} (bin : binCmp intl arg1 arg2)
    (none : NothingCompared (bidAt arg1.dscAddress) (bidAt arg2.dscAddress)) :
    ComesTo order intl bidAt store arg1 arg2 0 := by
  obtain both | null := none
  · exact comesTo_same (sameBlobId_iff.mpr (.inr both))
  · exact cvt2BlobCompare_null bin null

theorem comesTo_pieces {store : BlobStore order} (bin : binCmp intl arg1 arg2)
    (other : bidAt arg1.dscAddress ≠ bidAt arg2.dscAddress)
    (some : ¬ NothingCompared (bidAt arg1.dscAddress) (bidAt arg2.dscAddress)) :
    ComesTo order intl bidAt store arg1 arg2 (Padded.pieces (blankChar arg1 arg2)
      (store.content (bidAt arg1.dscAddress)).pieces
      (store.content (bidAt arg2.dscAddress)).pieces) := by
  obtain ⟨both, live⟩ := not_or.mp some
  obtain ⟨live1, live2⟩ := not_or.mp live
  refine cvt2BlobCompare_pieces bin (fun same => other (by rw [same])) ?_ live1 live2
  intro same
  exact (sameBlobId_iff.mp same).elim other both

/-- The comparison of the two blobs comes to that of their contents filled up with blanks. -/
def ComparesContents (order : ByteOrder) (intl : Intl) (bidAt : Nat → Bid) (store : BlobStore order)
    (arg1 arg2 : BlobDsc) : Prop :=
  ComesTo order intl bidAt store arg1 arg2 (Padded.compare (blankChar arg1 arg2)
    (store.content (bidAt arg1.dscAddress)).bytes (store.content (bidAt arg2.dscAddress)).bytes)

theorem comparesContents_of_inPlace {store : BlobStore order} (bin : binCmp intl arg1 arg2)
    (inPlace : ComparedInPlace (blankChar arg1 arg2) (bidAt arg1.dscAddress)
      (bidAt arg2.dscAddress) (store.content (bidAt arg1.dscAddress))
      (store.content (bidAt arg2.dscAddress))) :
    ComparesContents order intl bidAt store arg1 arg2 := by
  unfold ComparesContents
  by_cases same : bidAt arg1.dscAddress = bidAt arg2.dscAddress
  · rw [same, Padded.compare_self]
    exact comesTo_same (sameBlobId_iff.mpr (.inl same))
  have inPlace := inPlace.resolve_left same
  split at inPlace
  next none =>
    rw [inPlace]
    exact comesTo_zero bin none
  next some =>
    rw [← BlobContent.flatten_pieces, ← BlobContent.flatten_pieces, ← Padded.pieces_eq _ inPlace]
    exact comesTo_pieces bin same some

/-- Two blobs that nothing is compared of are found the same. -/
theorem comparesContents_nothing {store : BlobStore order} (bin : binCmp intl arg1 arg2)
    (none : NothingCompared (bidAt arg1.dscAddress) (bidAt arg2.dscAddress)) :
    ComparesContents order intl bidAt store arg1 arg2 ↔ Padded.compare (blankChar arg1 arg2)
      (store.content (bidAt arg1.dscAddress)).bytes
      (store.content (bidAt arg2.dscAddress)).bytes = 0 := by
  constructor
  · intro right
    exact ComesTo.unique right (comesTo_zero bin none)
  · intro same
    unfold ComparesContents
    rw [same]
    exact comesTo_zero bin none

/-- A comparison that gets out of step is wrong for some blobs that are cut the same and begin the
same. -/
theorem exists_misled {store : BlobStore order} (bin : binCmp intl arg1 arg2)
    (other : bidAt arg1.dscAddress ≠ bidAt arg2.dscAddress)
    (some : ¬ NothingCompared (bidAt arg1.dscAddress) (bidAt arg2.dscAddress))
    (valid1 : (store.content (bidAt arg1.dscAddress)).shape.Valid)
    (valid2 : (store.content (bidAt arg2.dscAddress)).shape.Valid) {n : Nat}
    (out : Padded.outOfStep (blankChar arg1 arg2) (store.content (bidAt arg1.dscAddress)).pieces
      (store.content (bidAt arg2.dscAddress)).pieces = Option.some n) :
    ∃ store' : BlobStore order,
      (store.content (bidAt arg1.dscAddress)).AlikeUpTo
        (store'.content (bidAt arg1.dscAddress)) (Option.some n) ∧
      (store.content (bidAt arg2.dscAddress)).AlikeUpTo
        (store'.content (bidAt arg2.dscAddress)) (Option.some n) ∧
      ¬ ComparesContents order intl bidAt store' arg1 arg2 := by
  obtain ⟨z, another⟩ : ∃ z : UInt8, blankChar arg1 arg2 ≠ z := by
    unfold blankChar
    split
    · exact ⟨0, by decide⟩
    · exact ⟨1, by decide⟩
  obtain ⟨ps, qs, lengths1, lengths2, begins1, begins2, ne⟩ :=
    Padded.misled_of_outOfStep another _ out
  obtain ⟨content1, same1, pieces1⟩ := exists_content _ (lengths1.trans (length_pieces _))
  obtain ⟨content2, same2, pieces2⟩ := exists_content _ (lengths2.trans (length_pieces _))
  obtain ⟨store', held1, held2⟩ := exists_store order other
    (valid_of_shape same1 valid1) (valid_of_shape same2 valid2)
  rw [← pieces1, content1.flatten_pieces, BlobContent.flatten_pieces] at begins1
  rw [← pieces2, content2.flatten_pieces, BlobContent.flatten_pieces] at begins2
  refine ⟨store', ?_, ?_, fun right => ?_⟩
  · rw [held1]
    exact ⟨same1, begins1⟩
  · rw [held2]
    exact ⟨same2, begins2⟩
  · have result : ComesTo order intl bidAt store' arg1 arg2 _ := comesTo_pieces bin other some
    unfold ComparesContents at right
    rw [held1, held2, ← content1.flatten_pieces, ← content2.flatten_pieces, pieces1, pieces2]
      at right
    rw [held1, held2, pieces1, pieces2] at result
    exact ne (result.unique right)

theorem BlobContent.AlikeUpTo.refl (content : BlobContent) (place : Option Nat) :
    content.AlikeUpTo content place := by
  cases place with
  | none => rfl
  | some n => exact ⟨rfl, rfl⟩

/-- A comparison of two blobs, that is not one of texts in different character sets, comes to that
of their contents filled up with blanks, for these blobs and for all that are cut as they are and
differ from them only behind the place where the comparison gets out of step, if and only if they
are compared in place. -/
theorem blobCompare_iff (bin : binCmp intl arg1 arg2) (store : BlobStore order)
    (valid1 : (store.content (bidAt arg1.dscAddress)).shape.Valid)
    (valid2 : (store.content (bidAt arg2.dscAddress)).shape.Valid) :
    (∀ store' : BlobStore order,
      (store.content (bidAt arg1.dscAddress)).AlikeUpTo (store'.content (bidAt arg1.dscAddress))
        (blobsOutOfStep (blankChar arg1 arg2) (bidAt arg1.dscAddress) (bidAt arg2.dscAddress)
          (store.content (bidAt arg1.dscAddress)) (store.content (bidAt arg2.dscAddress))) →
      (store.content (bidAt arg2.dscAddress)).AlikeUpTo (store'.content (bidAt arg2.dscAddress))
        (blobsOutOfStep (blankChar arg1 arg2) (bidAt arg1.dscAddress) (bidAt arg2.dscAddress)
          (store.content (bidAt arg1.dscAddress)) (store.content (bidAt arg2.dscAddress))) →
      ComparesContents order intl bidAt store' arg1 arg2) ↔
    ComparedInPlace (blankChar arg1 arg2) (bidAt arg1.dscAddress) (bidAt arg2.dscAddress)
      (store.content (bidAt arg1.dscAddress)) (store.content (bidAt arg2.dscAddress)) := by
  constructor
  · intro right
    have itself := right store (.refl _ _) (.refl _ _)
    by_cases same : bidAt arg1.dscAddress = bidAt arg2.dscAddress
    · exact .inl same
    refine .inr ?_
    unfold blobsOutOfStep at right
    split
    next none => exact (comparesContents_nothing bin none).mp itself
    next some =>
      rw [if_neg some] at right
      cases out : Padded.outOfStep (blankChar arg1 arg2)
          (store.content (bidAt arg1.dscAddress)).pieces
          (store.content (bidAt arg2.dscAddress)).pieces with
      | none => rfl
      | some n =>
        obtain ⟨store', alike1, alike2, wrong⟩ := exists_misled bin same some valid1 valid2 out
        rw [out] at right
        exact absurd (right store' alike1 alike2) wrong
  · intro inPlace store' alike1 alike2
    by_cases same : bidAt arg1.dscAddress = bidAt arg2.dscAddress
    · exact comparesContents_of_inPlace bin (.inl same)
    -- Nothing is out of step, and the contents are the same.
    have none : blobsOutOfStep (blankChar arg1 arg2) (bidAt arg1.dscAddress)
        (bidAt arg2.dscAddress) (store.content (bidAt arg1.dscAddress))
        (store.content (bidAt arg2.dscAddress)) = none := by
      have inPlace := inPlace.resolve_left same
      unfold blobsOutOfStep
      split at inPlace
      next nothing => exact if_pos nothing
      next some => exact (if_neg some).trans inPlace
    rw [none] at alike1 alike2
    refine comparesContents_of_inPlace bin ?_
    rw [alike1, alike2]
    exact inPlace

end

end

/-- A text type table that is not asked for anything here. -/
def noIntl : Intl := ⟨id, fun _ => 1, fun _ _ _ _ => 0⟩

/-- Blobs of segments 1 and 2, 3 and of segments 9, 9 and 3: the first difference is found before
the pieces are out of step. -/
theorem blobCompare_iff_segments : ∃ store : BlobStore .vax,
    (store.content ⟨128, 1⟩).bytes = [1, 2, 3] ∧ (store.content ⟨128, 2⟩).bytes = [9, 9, 3] ∧
      ComesTo .vax noIntl (fun a => ⟨128, a⟩) store ⟨1, 0, 0⟩ ⟨2, 0, 0⟩ (-1) := by
  have valid1 : (BlobContent.segmented [[1], [2, 3]]).shape.Valid := by
    show ∀ l ∈ [1, 2], l < 65536
    decide
  have valid2 : (BlobContent.segmented [[9, 9], [3]]).shape.Valid := by
    show ∀ l ∈ [2, 1], l < 65536
    decide
  obtain ⟨store, held1, held2⟩ : ∃ store : BlobStore .vax,
      store.content ⟨128, 1⟩ = .segmented [[1], [2, 3]] ∧
        store.content ⟨128, 2⟩ = .segmented [[9, 9], [3]] :=
    exists_store .vax (by decide) valid1 valid2
  have inPlace : ComparedInPlace 0 ⟨128, 1⟩ ⟨128, 2⟩ (.segmented [[1], [2, 3]])
      (.segmented [[9, 9], [3]]) := by
    refine .inr ?_
    have pieces1 : (BlobContent.segmented [[1], [2, 3]]).pieces = [[1], [2, 3]] := by
      simp [BlobContent.pieces, chunks, bufferLarge]
    have pieces2 : (BlobContent.segmented [[9, 9], [3]]).pieces = [[9, 9], [3]] := by
      simp [BlobContent.pieces, chunks, bufferLarge]
    rw [if_neg (by decide), pieces1, pieces2]
    rfl
  have bin : binCmp noIntl ⟨1, 0, 0⟩ ⟨2, 0, 0⟩ := .inl (by decide)
  have result : ComparesContents .vax noIntl (fun a => ⟨128, a⟩) store ⟨1, 0, 0⟩ ⟨2, 0, 0⟩ :=
    (blobCompare_iff bin store (by rw [held1]; exact valid1) (by rw [held2]; exact valid2)).mpr
      (by rw [held1, held2]; exact inPlace) store (.refl _ _) (.refl _ _)
  refine ⟨store, by rw [held1]; rfl, by rw [held2]; rfl, ?_⟩
  unfold ComparesContents at result
  rw [held1, held2] at result
  exact result

/-- Two temporary blobs that differ are not compared. -/
theorem blobCompare_temporary : ∃ store : BlobStore .vax,
    (store.content ⟨0, 8⟩).bytes = [1] ∧ (store.content ⟨0, 16⟩).bytes = [2] ∧
      ¬ ComparesContents .vax noIntl (fun a => ⟨0, a⟩) store ⟨8, 0, 0⟩ ⟨16, 0, 0⟩ := by
  have valid : (BlobShape.segmented [1]).Valid := by
    show ∀ l ∈ [1], l < 65536
    decide
  obtain ⟨store, held1, held2⟩ : ∃ store : BlobStore .vax,
      store.content ⟨0, 8⟩ = .segmented [[1]] ∧ store.content ⟨0, 16⟩ = .segmented [[2]] :=
    exists_store .vax (by decide) valid valid
  refine ⟨store, by rw [held1]; rfl, by rw [held2]; rfl, fun right => ?_⟩
  unfold ComparesContents at right
  rw [held1, held2] at right
  have zero : ComesTo .vax noIntl (fun a => ⟨0, a⟩) store ⟨8, 0, 0⟩ ⟨16, 0, 0⟩ 0 :=
    comesTo_same ⟨rfl, .inl ⟨rfl, rfl⟩⟩
  exact absurd (right.unique zero) (by decide)

end InterBase
