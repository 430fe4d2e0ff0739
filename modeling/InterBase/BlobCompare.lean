import InterBase.Library.Padded
import InterBase.BlobRead

namespace InterBase

/-- A blob id: `bid_blob` or `bid_number`. -/
structure Bid where
  bidRelationId : Nat
  bidStuff : Nat
deriving DecidableEq

/-- The blobs that a transaction can open, with their contents; those without a relation are its
temporary ones. -/
structure BlobStore (order : ByteOrder) where
  blob : Bid → OpenBlob
  content : Bid → BlobContent
  holds : ∀ bid, (blob bid).Holds order (content bid)

def nullBlob : OpenBlob := ⟨false, false, 0, ⟨true, false, [], [], 0⟩⟩

def Bid.isNull (bid : Bid) : Prop := bid.bidRelationId = 0 ∧ bid.bidStuff = 0

instance Bid.decidableIsNull (bid : Bid) : Decidable bid.isNull :=
  inferInstanceAs (Decidable (_ ∧ _))

/-- `BLB_open`. The flags it sets, those of a temporary blob among them, have no `BLB_temporary`. -/
def blbOpen {order : ByteOrder} (store : BlobStore order) (bid : Bid) : OpenBlob :=
  if bid.isNull then nullBlob else { store.blob bid with temporary := false }

structure BlobDsc where
  dscAddress : Nat
  dscSubType : Int
  dscScale : Nat

def blobText : Int := 1

def csNone : Nat := 0

def csAscii : Nat := 2

def csDynamic : Nat := 127

/-- The international text types: `texttype_type` and `texttype_bytes_per_char` of what
`INTL_obj_lookup` finds, and `INTL_compare`. -/
structure Intl where
  texttypeType : Nat → Nat
  bytesPerChar : Nat → Nat
  compare : Nat → Nat → List UInt8 → List UInt8 → Int

inductive CompareResult where
  | value (ret : Int)
  | datnotsup
deriving DecidableEq

def BlobDsc.ttype (arg : BlobDsc) : Nat :=
  if arg.dscSubType = blobText then arg.dscScale else csNone

/-- `both_are_text`. -/
def bothAreText (arg1 arg2 : BlobDsc) : Prop :=
  arg1.dscSubType = blobText ∧ arg2.dscSubType = blobText

instance decidableBothAreText (arg1 arg2 : BlobDsc) : Decidable (bothAreText arg1 arg2) :=
  inferInstanceAs (Decidable (_ ∧ _))

def blankChar (arg1 arg2 : BlobDsc) : UInt8 := if bothAreText arg1 arg2 then 32 else 0

/-- `bin_cmp`. -/
def binCmp (intl : Intl) (arg1 arg2 : BlobDsc) : Prop :=
  ¬ bothAreText arg1 arg2 ∨
    let dynamic := arg1.ttype = csDynamic ∨ arg2.ttype = csDynamic
    let ttype1 := if dynamic then intl.texttypeType arg1.ttype else arg1.ttype
    let ttype2 := if dynamic then intl.texttypeType arg2.ttype else arg2.ttype
    ttype1 = ttype2 ∨ ttype1 = csNone ∨ ttype1 = csAscii ∨ ttype2 = csNone ∨
      ttype2 = csAscii

instance decidableBinCmp (intl : Intl) (arg1 arg2 : BlobDsc) : Decidable (binCmp intl arg1 arg2) :=
  inferInstanceAs (Decidable (_ ∨ _))

/-- The loop up to `common_top`. -/
def compareTop : List UInt8 → List UInt8 → Int
  | b1 :: buffer1, b2 :: buffer2 =>
    if b1 ≠ b2 then (if b1 < b2 then -1 else 1) else compareTop buffer1 buffer2
  | _, _ => 0

/-- The loop over what the longer buffer has more: `above` when a byte is above the blank. -/
def compareBlank (blank : UInt8) (above below : Int) : List UInt8 → Int
  | [] => 0
  | b :: buffer =>
    if b ≠ blank then (if blank < b then above else below) else compareBlank blank above below buffer

def compareBuffers (blank : UInt8) (buffer1 buffer2 : List UInt8) : Int :=
  let retVal := compareTop buffer1 buffer2
  if retVal ≠ 0 then retVal
  else if buffer1.length < buffer2.length then
    compareBlank blank (-1) 1 (buffer2.drop buffer1.length)
  else if buffer2.length < buffer1.length then
    compareBlank blank 1 (-1) (buffer1.drop buffer2.length)
  else 0

section

variable (order : ByteOrder)

/-- Where the loop over both blobs ends: `ret_val`, the blobs and the last pieces. -/
structure Compared where
  retVal : Int
  blob1 : OpenBlob
  blob2 : OpenBlob
  buffer1 : List UInt8
  buffer2 : List UInt8

/-- The loop over both blobs, for so many rounds at most. -/
def compareLoop (step : List UInt8 → List UInt8 → Int) : Nat → Compared → Option Compared
  | 0, _ => none
  | fuel + 1, s =>
    if s.blob1.blb.blbEof ∨ s.blob2.blb.blbEof then some s
    else
      let (buffer1, blob1) := s.blob1.getSegment order bufferLarge
      let (buffer2, blob2) := s.blob2.getSegment order bufferLarge
      let retVal := step buffer1 buffer2
      if retVal ≠ 0 then some ⟨retVal, blob1, blob2, buffer1, buffer2⟩
      else compareLoop step fuel ⟨0, blob1, blob2, buffer1, buffer2⟩

/-- The loop over one blob when the other one is at its end. -/
def compareRest (blank : UInt8) (above below : Int) : Nat → OpenBlob → Option Int
  | 0, _ => none
  | fuel + 1, blob =>
    if blob.blb.blbEof then some 0
    else
      let (buffer, blob) := blob.getSegment order bufferLarge
      let retVal := compareBlank blank above below buffer
      if retVal ≠ 0 then some retVal else compareRest blank above below fuel blob

/-- What is left when no difference has been found. `blb_flags & BLB_eof == BLB_eof` is
`blb_flags & 1`, which is `BLB_temporary`. -/
def compareEnds (intl : Intl) (arg1 arg2 : BlobDsc) (fuel : Nat) (s : Compared) : Option Int :=
  let eof1 := s.blob1.temporary
  let eof2 := s.blob2.temporary
  let blank := blankChar arg1 arg2
  if eof1 ∧ ¬ eof2 then
    if binCmp intl arg1 arg2 then compareRest order blank (-1) 1 fuel s.blob2
    else some (intl.compare arg1.ttype arg2.ttype [] s.buffer2)
  else if ¬ eof1 ∧ eof2 then
    if binCmp intl arg1 arg2 then compareRest order blank 1 (-1) fuel s.blob1
    else some (intl.compare arg1.ttype arg2.ttype s.buffer1 [])
  else some 0

/-- The shortcut for one blob id. Of `bid_blob` the first one is compared with itself. -/
def sameBlobId (bid1 bid2 : Bid) : Prop :=
  bid1.bidRelationId = bid2.bidRelationId ∧
    (bid1.bidRelationId = 0 ∧ bid1.bidStuff = bid1.bidStuff ∨
      bid1.bidRelationId ≠ 0 ∧ bid1.bidStuff = bid2.bidStuff)

instance decidableSameBlobId (bid1 bid2 : Bid) : Decidable (sameBlobId bid1 bid2) :=
  inferInstanceAs (Decidable (_ ∧ _))

/-- `CVT2_blob_compare` of two blobs, whose ids are at the addresses in the descriptors. Nothing when
`fuel` rounds are too few. -/
def cvt2BlobCompare (intl : Intl) (bidAt : Nat → Bid) (store : BlobStore order)
    (arg1 arg2 : BlobDsc) (fuel : Nat) : Option CompareResult :=
  let bid1 := bidAt arg1.dscAddress
  let bid2 := bidAt arg2.dscAddress
  if arg1.dscAddress = arg2.dscAddress then some (.value 0)
  else if sameBlobId bid1 bid2 then some (.value 0)
  else
    let blob1 := blbOpen store bid1
    let blob2 := blbOpen store bid2
    let bin := binCmp intl arg1 arg2
    if ¬ bin ∧ (bufferLarge < blob1.blbLength ∨ bufferLarge < blob2.blbLength) ∧
        (intl.bytesPerChar arg1.ttype ≠ 1 ∨ intl.bytesPerChar arg2.ttype ≠ 1) then some .datnotsup
    else
      let step := if bin then compareBuffers (blankChar arg1 arg2)
        else intl.compare arg1.ttype arg2.ttype
      match compareLoop order step fuel ⟨0, blob1, blob2, [], []⟩ with
      | none => none
      | some s =>
        if s.retVal ≠ 0 then some (.value s.retVal)
        else (compareEnds order intl arg1 arg2 fuel s).map .value

end

section

variable {order : ByteOrder} {blank : UInt8}

theorem compareTop_cons (b1 b2 : UInt8) (buffer1 buffer2 : List UInt8) :
    compareTop (b1 :: buffer1) (b2 :: buffer2) =
      if b1 ≠ b2 then (if b1 < b2 then -1 else 1) else compareTop buffer1 buffer2 := rfl

theorem compareBlank_cons (above below : Int) (b : UInt8) (buffer : List UInt8) :
    compareBlank blank above below (b :: buffer) = if b ≠ blank then
      (if blank < b then above else below) else compareBlank blank above below buffer := rfl

theorem compareBlank_nil (buffer : List UInt8) :
    compareBlank blank (-1) 1 buffer = Padded.compare blank [] buffer := by
  induction buffer with
  | nil => rfl
  | cons b buffer ih =>
    rw [Padded.compare_nil_cons, ← ih, compareBlank_cons]
    unfold Padded.sign
    by_cases same : b = blank
    · rw [if_neg (not_not_intro same), if_neg (not_not_intro same.symm)]
    · rw [if_pos same, if_pos (Ne.symm same)]

theorem compareBlank_neg (buffer : List UInt8) :
    compareBlank blank 1 (-1) buffer = -compareBlank blank (-1) 1 buffer := by
  induction buffer with
  | nil => rfl
  | cons b buffer ih =>
    rw [compareBlank_cons, compareBlank_cons]
    split
    · split
      · rfl
      · rfl
    · exact ih

/-- One step compares two pieces as if the shorter one were filled up. -/
theorem compareBuffers_eq (buffer1 : List UInt8) : ∀ buffer2 : List UInt8,
    compareBuffers blank buffer1 buffer2 = Padded.compare blank buffer1 buffer2 := by
  induction buffer1 with
  | nil =>
    intro buffer2
    cases buffer2 with
    | nil => rfl
    | cons b2 buffer2 => exact compareBlank_nil (b2 :: buffer2)
  | cons b1 buffer1 ih =>
    intro buffer2
    cases buffer2 with
    | nil =>
      rw [Padded.compare_swap, ← compareBlank_nil, ← compareBlank_neg]
      rfl
    | cons b2 buffer2 =>
      rw [Padded.compare_cons, ← ih]
      unfold compareBuffers
      rw [compareTop_cons]
      by_cases same : b1 = b2
      · rw [if_neg (not_not_intro same), if_neg (not_not_intro same)]
        simp only [List.length_cons, Nat.add_lt_add_iff_right, List.drop_succ_cons]
      · rw [if_pos same, if_pos same]
        unfold Padded.sign
        simp only
        split
        · rfl
        · rfl

theorem OpenBlob.Reads.more {blob : OpenBlob} {ps : List (List UInt8)}
    (reads : blob.Reads order ps) : blob.blb.blbEof = false := by
  cases reads with
  | last more _ _ => exact more
  | piece more _ _ => exact more

theorem compareLoop_ended {s : Compared} {fuel : Nat} (enough : 0 < fuel)
    (eof : s.blob1.blb.blbEof = true ∨ s.blob2.blb.blbEof = true) :
    compareLoop order (compareBuffers blank) fuel s = some s := by
  obtain ⟨fuel, rfl⟩ : ∃ k, fuel = k + 1 := ⟨fuel - 1, by omega⟩
  unfold compareLoop
  rw [if_pos eof]

/-- One round of the loop. -/
theorem compareLoop_round {s : Compared} {p q : List UInt8} {blob1 blob2 : OpenBlob}
    (more1 : s.blob1.blb.blbEof = false) (more2 : s.blob2.blb.blbEof = false)
    (got1 : s.blob1.getSegment order bufferLarge = (p, blob1))
    (got2 : s.blob2.getSegment order bufferLarge = (q, blob2)) (fuel : Nat) :
    compareLoop order (compareBuffers blank) (fuel + 1) s =
      if Padded.compare blank p q ≠ 0 then some ⟨Padded.compare blank p q, blob1, blob2, p, q⟩
      else compareLoop order (compareBuffers blank) fuel ⟨0, blob1, blob2, p, q⟩ := by
  have not : ¬ (s.blob1.blb.blbEof = true ∨ s.blob2.blb.blbEof = true) := by
    rw [more1, more2]
    decide
  conv_lhs => unfold compareLoop
  rw [if_neg not, got1, got2, ← compareBuffers_eq]

/-- The loop compares the pieces of the blobs in pairs. -/
theorem compareLoop_eq (blank : UInt8) (ps : List (List UInt8)) :
    ∀ {qs : List (List UInt8)} (s : Compared) {fuel : Nat}, s.blob1.Reads order ps → s.blob2.Reads order qs → ps.length + 2 ≤ fuel →
      ∃ s', compareLoop order (compareBuffers blank) fuel s = some s' ∧
        s'.retVal = Padded.pieces blank ps qs ∧ s'.blob1.temporary = s.blob1.temporary ∧
          s'.blob2.temporary = s.blob2.temporary := by
  induction ps with
  | nil =>
    intro qs s fuel reads1 reads2 enough
    rw [List.length_nil] at enough
    obtain ⟨fuel, rfl⟩ : ∃ k, fuel = k + 1 := ⟨fuel - 1, by omega⟩
    cases reads1 with
    | last more1 got1 eof1 =>
      have same1 := congrArg (fun r => r.2.temporary) got1
      cases reads2 with
      | last more2 got2 eof2 =>
        have same2 := congrArg (fun r => r.2.temporary) got2
        rw [compareLoop_round more1 more2 got1 got2, Padded.compare_nil_nil,
          if_neg (not_not_intro rfl), compareLoop_ended (by omega) (.inl eof1)]
        exact ⟨_, rfl, rfl, same1.symm, same2.symm⟩
      | @piece _ _ q qs more2 got2 rest2 =>
        have same2 := congrArg (fun r => r.2.temporary) got2
        rw [compareLoop_round more1 more2 got1 got2]
        split
        next differ => exact ⟨_, rfl, rfl, same1.symm, same2.symm⟩
        next same =>
          rw [compareLoop_ended (by omega) (.inl eof1)]
          exact ⟨_, rfl, (not_not.mp same).symm, same1.symm, same2.symm⟩
  | cons p ps ih =>
    intro qs s fuel reads1 reads2 enough
    rw [List.length_cons] at enough
    obtain ⟨fuel, rfl⟩ : ∃ k, fuel = k + 1 := ⟨fuel - 1, by omega⟩
    cases reads1 with
    | piece more1 got1 rest1 =>
      have same1 := congrArg (fun r => r.2.temporary) got1
      cases reads2 with
      | last more2 got2 eof2 =>
        have same2 := congrArg (fun r => r.2.temporary) got2
        rw [compareLoop_round more1 more2 got1 got2]
        split
        next differ => exact ⟨_, rfl, rfl, same1.symm, same2.symm⟩
        next same =>
          rw [compareLoop_ended (by omega) (.inr eof2)]
          exact ⟨_, rfl, (not_not.mp same).symm, same1.symm, same2.symm⟩
      | @piece _ _ q qs more2 got2 rest2 =>
        have same2 := congrArg (fun r => r.2.temporary) got2
        rw [compareLoop_round more1 more2 got1 got2]
        unfold Padded.pieces
        split
        next differ => exact ⟨_, rfl, rfl, same1.symm, same2.symm⟩
        next same =>
          obtain ⟨s', looped, ret, temporary1, temporary2⟩ :=
            ih ⟨0, _, _, p, q⟩ rest1 rest2 (show ps.length + 2 ≤ fuel by omega)
          exact ⟨s', looped, ret, temporary1.trans same1.symm, temporary2.trans same2.symm⟩

/-- With no temporary blobs open nothing is compared when the loop is over. -/
theorem compareEnds_eq (intl : Intl) (arg1 arg2 : BlobDsc) (fuel : Nat) {s : Compared}
    (temporary1 : s.blob1.temporary = false) (temporary2 : s.blob2.temporary = false) :
    compareEnds order intl arg1 arg2 fuel s = some 0 := by
  unfold compareEnds
  rw [temporary1, temporary2]
  rfl

theorem blbOpen_temporary (store : BlobStore order) (bid : Bid) :
    (blbOpen store bid).temporary = false := by
  unfold blbOpen
  split
  · rfl
  · rfl

theorem holds_temporary {blob : OpenBlob} {content : BlobContent}
    (holds : blob.Holds order content) :
    OpenBlob.Holds order { blob with temporary := false } content := by
  cases content with
  | segmented segs => exact holds
  | stream bytes => exact holds

theorem blbOpen_reads (store : BlobStore order) {bid : Bid} (live : ¬ bid.isNull) :
    (blbOpen store bid).Reads order (store.content bid).pieces := by
  unfold blbOpen
  rw [if_neg live]
  exact (holds_temporary (store.holds bid)).reads

section

variable {intl : Intl} {bidAt : Nat → Bid} {store : BlobStore order} {arg1 arg2 : BlobDsc}

/-- Two blobs with ids that are not null are compared piece by piece. -/
theorem cvt2BlobCompare_pieces (bin : binCmp intl arg1 arg2)
    (other : arg1.dscAddress ≠ arg2.dscAddress)
    (apart : ¬ sameBlobId (bidAt arg1.dscAddress) (bidAt arg2.dscAddress))
    (live1 : ¬ (bidAt arg1.dscAddress).isNull) (live2 : ¬ (bidAt arg2.dscAddress).isNull) :
    ∃ enough, ∀ fuel, enough ≤ fuel →
      cvt2BlobCompare order intl bidAt store arg1 arg2 fuel =
        some (.value (Padded.pieces (blankChar arg1 arg2)
          (store.content (bidAt arg1.dscAddress)).pieces
          (store.content (bidAt arg2.dscAddress)).pieces)) := by
  refine ⟨(store.content (bidAt arg1.dscAddress)).pieces.length + 2, fun fuel enough => ?_⟩
  obtain ⟨s, looped, ret, temporary1, temporary2⟩ := compareLoop_eq (blankChar arg1 arg2) _
    ⟨0, blbOpen store (bidAt arg1.dscAddress), blbOpen store (bidAt arg2.dscAddress), [], []⟩
    (blbOpen_reads store live1) (blbOpen_reads store live2) enough
  unfold cvt2BlobCompare
  simp only
  rw [if_neg other, if_neg apart, if_neg (fun h => h.1 bin), if_pos bin, looped]
  simp only
  rw [compareEnds_eq intl arg1 arg2 fuel (temporary1.trans (blbOpen_temporary ..))
    (temporary2.trans (blbOpen_temporary ..)), ← ret]
  split
  next => rfl
  next none =>
    rw [not_not.mp none]
    rfl

/-- A null blob is at its end when it is opened, and nothing is compared. -/
theorem cvt2BlobCompare_null (bin : binCmp intl arg1 arg2)
    (null : (bidAt arg1.dscAddress).isNull ∨ (bidAt arg2.dscAddress).isNull) :
    ∃ enough, ∀ fuel, enough ≤ fuel →
      cvt2BlobCompare order intl bidAt store arg1 arg2 fuel = some (.value 0) := by
  have eof : (blbOpen store (bidAt arg1.dscAddress)).blb.blbEof = true ∨
      (blbOpen store (bidAt arg2.dscAddress)).blb.blbEof = true := by
    unfold blbOpen
    obtain null | null := null
    · rw [if_pos null]
      exact .inl rfl
    · rw [if_pos null]
      exact .inr rfl
  refine ⟨1, fun fuel enough => ?_⟩
  unfold cvt2BlobCompare
  simp only
  by_cases one : arg1.dscAddress = arg2.dscAddress
  · rw [if_pos one]
  · rw [if_neg one]
    by_cases same : sameBlobId (bidAt arg1.dscAddress) (bidAt arg2.dscAddress)
    · rw [if_pos same]
    · rw [if_neg same, if_neg (fun h => h.1 bin), if_pos bin, compareLoop_ended enough eof]
      simp only
      rw [if_neg (not_not_intro rfl), compareEnds_eq intl arg1 arg2 fuel (blbOpen_temporary ..)
        (blbOpen_temporary ..)]
      rfl

end

end

end InterBase
