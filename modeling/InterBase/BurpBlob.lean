import InterBase.RemoteBlobEqual
import InterBase.Vax

namespace InterBase

/-- An `SLONG` as it lies in memory. -/
def slongBytes (order : ByteOrder) (n : Int) : List UInt8 :=
  match order with
  | .vax => signedBytes 3 n
  | .nonVax => (signedBytes 3 n).reverse

def recBlob : UInt8 := 7
def attBlobFieldNumber : UInt8 := 3
def attBlobType : UInt8 := 4
def attBlobNumberSegments : UInt8 := 5
def attBlobMaxSegment : UInt8 := 6
def attBlobData : UInt8 := 7

/-- The answers of `isc_blob_info`, each a number of four bytes. -/
inductive BlobItem where
  | maxSegment (value : Nat)
  | type (value : Nat)
  | numSegments (value : Nat)
deriving Repr, DecidableEq

section

/- The machine that writes the backup and the one that reads it. -/
variable (order : ByteOrder)

def putNumeric (att : UInt8) (value : Int) : List UInt8 :=
  let vaxValue := vaxInteger (slongBytes order value)
  att :: 4 :: slongBytes order vaxValue

/-- What `put_blob` keeps of the blob's vital statistics, and what it has put of them. -/
structure BlobVitals where
  segments : Nat
  maxSegment : Nat
  put : List UInt8

/-- One round over `blob_info`: `n` is a `USHORT`. -/
def putBlobItem (vitals : BlobVitals) : BlobItem → BlobVitals
  | .maxSegment value =>
    let n := ushort value
    { vitals with
      maxSegment := n
      put := vitals.put ++ putNumeric order attBlobMaxSegment n }
  | .type value =>
    { vitals with put := vitals.put ++ putNumeric order attBlobType (ushort value) }
  | .numSegments value =>
    let n := ushort value
    { vitals with
      segments := n
      put := vitals.put ++ putNumeric order attBlobNumberSegments n }

/-- `while (segments > 0)`: an `isc_get_segment` that does not succeed ends the backup. -/
def putSegmentLoop (maxSegment : Nat) : Nat → Blb → Option (List UInt8)
  | 0, _ => some []
  | segments + 1, blob =>
    let (result, blob) := getSegment order maxSegment blob
    if result.status = .success then
      match putSegmentLoop maxSegment segments blob with
      | none => none
      | some put => some (countWord result.length ++ (result.bytes ++ put))
    else none

/-- `put_blob` for a blob that is not null and could be opened. -/
def putBlob (fieldNumber : Int) (blobInfo : List BlobItem) (blob : Blb) : Option (List UInt8) :=
  let vitals := blobInfo.foldl (putBlobItem order)
    ⟨0, 0, recBlob :: putNumeric order attBlobFieldNumber fieldNumber⟩
  match putSegmentLoop order vitals.maxSegment vitals.segments blob with
  | none => none
  | some put => some (vitals.put ++ attBlobData :: put)

end

/-- `get_numeric`; a text that does not fit ends the restore. -/
def getNumeric : List UInt8 → Option (Int × List UInt8)
  | [] => none
  | l :: stream =>
    if 8 ≤ l.toNat then none
    else if l.toNat ≤ stream.length then
      some (vaxInteger (stream.take l.toNat), stream.drop l.toNat)
    else none

/-- The variables of `get_blob`; `field_number` and `max_segment` have no value at the start. -/
structure BlobAttributes where
  fieldNumber : Option Nat
  maxSegment : Option Nat
  segments : Nat
deriving Repr, DecidableEq

/-- The loop over the attributes up to `att_blob_data`. What `bad_attribute` skips is left out: an
attribute that is not one of a blob is `none`, as is the end of the file. -/
def getBlobAttributes : Nat → List UInt8 → BlobAttributes → Option (BlobAttributes × List UInt8)
  | 0, _, _ => none
  | _, [], _ => none
  | fuel + 1, att :: stream, attributes =>
    if att = attBlobData then some (attributes, stream)
    else
      match getNumeric stream with
      | none => none
      | some (value, stream) =>
        if att = attBlobFieldNumber then
          getBlobAttributes fuel stream
            { attributes with fieldNumber := some (value % 65536).toNat }
        else if att = attBlobMaxSegment then
          getBlobAttributes fuel stream
            { attributes with maxSegment := some (value % 65536).toNat }
        else if att = attBlobNumberSegments then
          getBlobAttributes fuel stream
            { attributes with segments := (value % 4294967296).toNat }
        else if att = attBlobType then getBlobAttributes fuel stream attributes
        else none

/-- Eat up blob segments: those that are put into the new blob, and what is left of the file. A
segment that is longer than the buffer is written past its end: `none`. -/
def eatSegments (bufferSize : Nat) :
    Nat → List UInt8 → Option (List (List UInt8) × List UInt8)
  | 0, stream => some ([], stream)
  | segments + 1, c0 :: c1 :: stream =>
    let length := c0.toNat + 256 * c1.toNat
    if bufferSize < length ∨ stream.length < length then none
    else
      match eatSegments bufferSize segments (stream.drop length) with
      | none => none
      | some (segs, rest) => some (stream.take length :: segs, rest)
  | _ + 1, _ => none

structure RestoredBlob where
  fieldNumber : Nat
  segs : List (List UInt8)
  rest : List UInt8
deriving Repr, DecidableEq

/-- `get_blob` behind `rec_blob`: the field whose blob id is set, the segments that are put and what
is left of the file. -/
def getBlob (fields : List Nat) (stream : List UInt8) : Option RestoredBlob :=
  match getBlobAttributes stream.length stream ⟨none, none, 0⟩ with
  | some (⟨some fieldNumber, some maxSegment, segments⟩, stream) =>
    if fieldNumber ∈ fields then
      match eatSegments (max 1024 maxSegment) segments stream with
      | none => none
      | some (segs, rest) => some ⟨fieldNumber, segs, rest⟩
    else none
  | _ => none

/-- What `isc_blob_info` reports of a blob with these segments: `blb_count` is an `ULONG`. -/
def blobInfoOf (segs : List (List UInt8)) : List BlobItem :=
  [.maxSegment (segs.foldr (fun seg n => max seg.length n) 0), .numSegments (ulong segs.length)]

/-- The restore makes the blob that was backed up and stops right behind it. -/
def BlobSurvives (order : ByteOrder) (fields : List Nat) (fieldNumber : Nat) (blob : Blb)
    (segs : List (List UInt8)) : Prop :=
  ∃ put, putBlob order fieldNumber (blobInfoOf segs) blob = some (recBlob :: put) ∧
    ∀ rest, getBlob fields (put ++ rest) = some ⟨fieldNumber, segs, rest⟩

theorem putNumeric_eq (order : ByteOrder) (att : UInt8) {value : Int} (low : -2147483648 ≤ value)
    (high : value ≤ 2147483647) : putNumeric order att value = att :: 4 :: signedBytes 3 value := by
  cases order with
  | vax =>
    have hvax : vaxInteger (signedBytes 3 value) = value :=
      vaxInteger_signedBytes 3 (by omega) (by omega)
    show att :: 4 :: signedBytes 3 (vaxInteger (signedBytes 3 value)) = _
    rw [hvax]
  | nonVax =>
    have hlen : (signedBytes 3 value).reverse.length = 3 + 1 := by
      rw [List.length_reverse, length_signedBytes]
    show att :: 4 :: (signedBytes 3 (vaxInteger (signedBytes 3 value).reverse)).reverse = _
    rw [signedBytes_vaxInteger hlen, List.reverse_reverse]

theorem getNumeric_signedBytes {value : Int} (low : -2147483648 ≤ value)
    (high : value ≤ 2147483647) (rest : List UInt8) :
    getNumeric (4 :: (signedBytes 3 value ++ rest)) = some (value, rest) := by
  have hvax : vaxInteger (signedBytes 3 value) = value :=
    vaxInteger_signedBytes 3 (by omega) (by omega)
  have htake : (signedBytes 3 value ++ rest).take 4 = signedBytes 3 value :=
    List.take_left' (length_signedBytes 3 value)
  have hdrop : (signedBytes 3 value ++ rest).drop 4 = rest :=
    List.drop_left' (length_signedBytes 3 value)
  have hlen : 4 ≤ (signedBytes 3 value ++ rest).length := by
    rw [List.length_append, length_signedBytes]
    omega
  have hfour : (4 : UInt8).toNat = 4 := rfl
  rw [getNumeric, hfour, if_neg (by decide), if_pos hlen, htake, hvax, hdrop]

section

variable {order : ByteOrder} {segs : List (List UInt8)} {blob : Blb}

/-- The backup puts the next segments, each after its length. -/
theorem putSegmentLoop_stored (stored : blob.Stored order segs) {maxSegment : Nat}
    (fits : ∀ seg ∈ segs, seg.length ≤ maxSegment) {k : Nat} (hk : k ≤ segs.length) :
    putSegmentLoop order maxSegment k blob = some (packSegments (segs.take k)) := by
  induction k generalizing segs blob with
  | zero => rfl
  | succ k ih =>
    obtain ⟨seg, segs, rfl⟩ := List.exists_cons_of_length_pos (Nat.lt_of_lt_of_le k.succ_pos hk)
    obtain ⟨blob', got, stored'⟩ := getSegment_stored stored maxSegment
    have whole := fits seg List.mem_cons_self
    rw [nextSegment_whole whole] at got stored'
    have later := ih stored' (fun other mem => fits other (List.mem_cons_of_mem seg mem))
      (Nat.le_of_succ_le_succ hk)
    rw [putSegmentLoop, got]
    dsimp only
    rw [if_pos rfl, later, List.take_succ_cons, packSegments_cons]

theorem eatSegments_pack {bufferSize : Nat} (fits : ∀ seg ∈ segs, seg.length ≤ bufferSize)
    (small : ∀ seg ∈ segs, seg.length < 65536) (rest : List UInt8) :
    eatSegments bufferSize segs.length (packSegments segs ++ rest) = some (segs, rest) := by
  induction segs with
  | nil => rfl
  | cons seg segs ih =>
    have later := ih (fun other mem => fits other (List.mem_cons_of_mem seg mem))
      (fun other mem => small other (List.mem_cons_of_mem seg mem))
    have hvalue := countWord_value (small seg List.mem_cons_self)
    have hfits := fits seg List.mem_cons_self
    have hstream : packSegments (seg :: segs) ++ rest =
        UInt8.ofNat seg.length :: UInt8.ofNat (seg.length / 256) ::
          (seg ++ (packSegments segs ++ rest)) := by
      rw [packSegments_cons, List.append_assoc, List.append_assoc]
      rfl
    rw [hstream, List.length_cons, eatSegments, hvalue, if_neg (by rw [List.length_append]; omega), List.take_left, List.drop_left, later]

/-- The attributes of the blob come back as the 16 bits that were put of each. -/
theorem getBlobAttributes_put {fieldNumber maxSegment segments : Nat} (hfield : fieldNumber < 32768)
    (hmax : maxSegment < 65536) (hsegments : segments < 65536) (stream : List UInt8) {fuel : Nat}
    (enough : 4 ≤ fuel) :
    getBlobAttributes fuel
        (attBlobFieldNumber :: 4 :: (signedBytes 3 fieldNumber ++
          (attBlobMaxSegment :: 4 :: (signedBytes 3 maxSegment ++
            (attBlobNumberSegments :: 4 :: (signedBytes 3 segments ++
              (attBlobData :: stream))))))) ⟨none, none, 0⟩ =
      some (⟨some fieldNumber, some maxSegment, segments⟩, stream) := by
  obtain ⟨fuel, rfl⟩ := Nat.exists_eq_add_of_le' enough
  have h1 : ((fieldNumber : Int) % 65536).toNat = fieldNumber := by omega
  have h2 : ((maxSegment : Int) % 65536).toNat = maxSegment := by omega
  have h3 : ((segments : Int) % 4294967296).toNat = segments := by omega
  rw [getBlobAttributes, if_neg (by decide), getNumeric_signedBytes (by omega) (by omega)]
  dsimp only
  rw [if_pos rfl, getBlobAttributes, if_neg (by decide),
    getNumeric_signedBytes (by omega) (by omega)]
  dsimp only
  rw [if_neg (by decide), if_pos rfl, getBlobAttributes, if_neg (by decide),
    getNumeric_signedBytes (by omega) (by omega)]
  dsimp only
  rw [if_neg (by decide), if_neg (by decide), if_pos rfl, getBlobAttributes, if_pos rfl, h1, h2, h3]

theorem length_le_maxSegment {seg : List UInt8} (mem : seg ∈ segs) :
    seg.length ≤ segs.foldr (fun seg n => max seg.length n) 0 := by
  induction segs with
  | nil => cases mem
  | cons other segs ih =>
    rw [List.foldr_cons]
    rcases List.mem_cons.mp mem with rfl | mem
    · exact Nat.le_max_left _ _
    · exact Nat.le_trans (ih mem) (Nat.le_max_right _ _)

theorem maxSegment_lt (small : ∀ seg ∈ segs, seg.length < 65536) :
    segs.foldr (fun seg n => max seg.length n) 0 < 65536 := by
  induction segs with
  | nil => decide
  | cons seg segs ih =>
    rw [List.foldr_cons]
    exact Nat.max_lt.mpr ⟨small seg List.mem_cons_self,
      ih (fun other mem => small other (List.mem_cons_of_mem seg mem))⟩

/-- As many segments come back as the 16 bits of their number say. -/
theorem getBlob_putBlob (stored : blob.Stored order segs)
    (small : ∀ seg ∈ segs, seg.length < 65536) {fields : List Nat} {fieldNumber : Nat}
    (hfield : fieldNumber < 32768) (known : fieldNumber ∈ fields) :
    ∃ put, putBlob order fieldNumber (blobInfoOf segs) blob = some (recBlob :: put) ∧
      ∀ rest, getBlob fields (put ++ rest) =
        some ⟨fieldNumber, segs.take (segs.length % 65536), rest⟩ := by
  have hmax := maxSegment_lt small
  have hcount : ushort (ulong segs.length) = segs.length % 65536 := by
    unfold ushort ulong
    omega
  have hlt : segs.length % 65536 < 65536 := Nat.mod_lt _ (by decide)
  have hle : segs.length % 65536 ≤ segs.length := Nat.mod_le _ _
  have put := putSegmentLoop_stored stored (fun seg mem => length_le_maxSegment mem) hle
  generalize hm : segs.foldr (fun seg n => max seg.length n) 0 = maxSegment at hmax put
  generalize hn : segs.length % 65536 = segments at hcount hlt hle put
  refine ⟨attBlobFieldNumber :: 4 :: (signedBytes 3 fieldNumber ++
      (attBlobMaxSegment :: 4 :: (signedBytes 3 maxSegment ++
        (attBlobNumberSegments :: 4 :: (signedBytes 3 segments ++
          (attBlobData :: packSegments (segs.take segments))))))), ?_, ?_⟩
  · unfold putBlob blobInfoOf
    simp only [List.foldl_cons, List.foldl_nil, putBlobItem]
    rw [hm, ushort_of_lt hmax, hcount, put, putNumeric_eq order _ (by omega) (by omega),
      putNumeric_eq order _ (by omega) (by omega), putNumeric_eq order _ (by omega) (by omega)]
    simp only [List.cons_append, List.append_assoc]
  · intro rest
    have taken : (segs.take segments).length = segments := List.length_take_of_le hle
    have eaten := @eatSegments_pack (segs.take segments) (max 1024 maxSegment)
      (fun seg mem => by
        have hseg := length_le_maxSegment (List.mem_of_mem_take mem)
        rw [hm] at hseg
        exact Nat.le_trans hseg (Nat.le_max_right _ _))
      (fun seg mem => small seg (List.mem_of_mem_take mem)) rest
    rw [taken] at eaten
    simp only [List.cons_append, List.append_assoc]
    have enough : 4 ≤ (attBlobFieldNumber :: 4 :: (signedBytes 3 fieldNumber ++
        (attBlobMaxSegment :: 4 :: (signedBytes 3 maxSegment ++
          (attBlobNumberSegments :: 4 :: (signedBytes 3 segments ++
            (attBlobData :: (packSegments (segs.take segments) ++ rest)))))))).length := by
      simp only [List.length_cons, List.length_append, length_signedBytes]
      omega
    rw [getBlob, getBlobAttributes_put hfield hmax hlt _ enough]
    dsimp only
    rw [if_pos known, eaten]

end

/-- A blob of `n` segments without a byte. -/
def emptySegmentsBlob (n : Nat) : Blb := ⟨false, false, List.replicate (2 * n) 0, [], 0⟩

theorem emptySegmentsBlob_stored (n : Nat) :
    (emptySegmentsBlob n).Stored .vax (List.replicate n []) := by
  have laid : BlobLaid .vax (List.replicate (2 * n) 0) [] [] (List.replicate n []) := by
    induction n with
    | zero => exact .done
    | succ n ih =>
      have hbytes : List.replicate (2 * (n + 1)) (0 : UInt8) = 0 :: 0 :: List.replicate (2 * n) 0 := rfl
      rw [hbytes, List.replicate_succ]
      exact .count rfl ih
  refine ⟨⟨[], List.replicate n [], laid, rfl, rfl⟩, fun eof => ?_, fun started => ?_⟩
  · cases eof
  · cases started

theorem emptySegments_lost {n : Nat} (h : 65536 ≤ n) :
    ¬ BlobSurvives .vax [0] 0 (emptySegmentsBlob n) (List.replicate n []) := by
  have small : ∀ seg ∈ List.replicate n ([] : List UInt8), seg.length < 65536 := by
    intro seg mem
    rw [List.eq_of_mem_replicate mem]
    decide
  rintro ⟨put, hput, hget⟩
  obtain ⟨put', hput', hget'⟩ := getBlob_putBlob (emptySegmentsBlob_stored n) small
    (show 0 < 32768 by decide) (List.mem_singleton.mpr rfl)
  have heq := hput.symm.trans hput'
  obtain ⟨-, rfl⟩ := List.cons.inj (Option.some.inj heq)
  have hsegs := congrArg RestoredBlob.segs (Option.some.inj ((hget []).symm.trans (hget' [])))
  have hlen := congrArg List.length hsegs
  rw [List.length_take, List.length_replicate] at hlen
  have hmod := Nat.mod_lt n (show 0 < 65536 by decide)
  omega

end InterBase
