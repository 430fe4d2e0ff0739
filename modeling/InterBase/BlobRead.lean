import InterBase.Blb

namespace InterBase

/-- A blob that is open for reading, segmented or `BLB_stream`; `temporary` is `BLB_temporary`. -/
structure OpenBlob where
  stream : Bool
  temporary : Bool
  blbLength : Nat
  blb : Blb

/-- Move what the buffer takes; when the clump is used up, get the next one. -/
def moveStream : List (List UInt8) → Nat → List UInt8 → List UInt8 × List UInt8 × List (List UInt8)
  | pages, bufferLength, data =>
    let l := min bufferLength data.length
    if data.drop l ≠ [] then (data.take l, data.drop l, pages)
    else
      match pages with
      | [] => (data.take l, [], [])
      | page :: pages =>
        if bufferLength - l = 0 then (data.take l, page, pages)
        else
          let (bytes, data', pages') := moveStream pages (bufferLength - l) page
          (data.take l ++ bytes, data', pages')

/-- `BLB_get_segment` of a stream blob. `blb_fragment_size` is 1 up to the end. -/
def streamGetSegment (bufferLength : Nat) (blob : Blb) : List UInt8 × Blb :=
  if blob.blbEof then ([], blob)
  else if blob.blbData = [] ∧ blob.blbSegment then ([], { blob with blbEof := true })
  else
    let (bytes, data, pages) := moveStream blob.blbPages bufferLength blob.blbData
    (bytes, { blob with
      blbSegment := true
      blbData := data
      blbPages := pages
      blbFragmentSize := if data = [] then 0 else 1 })

def OpenBlob.getSegment (order : ByteOrder) (bufferLength : Nat) (blob : OpenBlob) :
    List UInt8 × OpenBlob :=
  let (bytes, blb) :=
    if blob.stream then streamGetSegment bufferLength blob.blb
    else blbGetSegment order bufferLength blob.blb
  (bytes, { blob with blb })

def bufferLarge : Nat := 1024

/-- What `BLB_get_segment` with a buffer of `BUFFER_LARGE` gives, call by call, up to the one that
finds the end. -/
inductive OpenBlob.Reads (order : ByteOrder) : OpenBlob → List (List UInt8) → Prop
  | last {blob blob' : OpenBlob} (more : blob.blb.blbEof = false)
      (got : blob.getSegment order bufferLarge = ([], blob')) (ended : blob'.blb.blbEof = true) :
      Reads order blob []
  | piece {blob blob' : OpenBlob} {p : List UInt8} {ps : List (List UInt8)}
      (more : blob.blb.blbEof = false) (got : blob.getSegment order bufferLarge = (p, blob'))
      (rest : Reads order blob' ps) : Reads order blob (p :: ps)

/-- What is in a blob. -/
inductive BlobContent where
  | segmented (segs : List (List UInt8))
  | stream (bytes : List UInt8)

def BlobContent.bytes : BlobContent → List UInt8
  | segmented segs => segs.flatten
  | stream bytes => bytes

/-- A segment in pieces that the buffer takes. An empty one is a piece of its own. -/
def chunks (bytes : List UInt8) : List (List UInt8) :=
  if bytes.length ≤ bufferLarge then [bytes]
  else bytes.take bufferLarge :: chunks (bytes.drop bufferLarge)
termination_by bytes.length
decreasing_by
  rw [List.length_drop]
  unfold bufferLarge at *
  omega

def BlobContent.pieces : BlobContent → List (List UInt8)
  | segmented segs => segs.flatMap chunks
  | stream bytes => if bytes = [] then [] else chunks bytes

/-- A stream blob whose bytes, from where it is read on, are these. -/
structure Blb.Streams (blob : Blb) (bytes : List UInt8) : Prop where
  held : blob.blbData ++ blob.blbPages.flatten = bytes
  filled : ∀ page ∈ blob.blbPages, page ≠ []
  fetched : blob.blbSegment = true → blob.blbData = [] → blob.blbPages = []
  opened : blob.blbSegment = false → blob.blbData = [] ∧ blob.blbPages ≠ []

/-- An open blob with its content. -/
def OpenBlob.Holds (order : ByteOrder) (blob : OpenBlob) : BlobContent → Prop
  | .segmented segs => blob.stream = false ∧ blob.blb.blbEof = false ∧ blob.blb.Stored order segs
  | .stream bytes => blob.stream = true ∧ blob.blb.blbEof = false ∧ blob.blb.Streams bytes

section

variable {order : ByteOrder}

theorem chunks_short {bytes : List UInt8} (h : bytes.length ≤ bufferLarge) :
    chunks bytes = [bytes] := by
  unfold chunks
  rw [if_pos h]

theorem chunks_long {bytes : List UInt8} (h : bufferLarge < bytes.length) :
    chunks bytes = bytes.take bufferLarge :: chunks (bytes.drop bufferLarge) := by
  conv_lhs => unfold chunks
  rw [if_neg (Nat.not_le.mpr h)]

theorem flatten_chunks (bytes : List UInt8) : (chunks bytes).flatten = bytes := by
  fun_induction chunks bytes with
  | case1 bytes short => exact List.append_nil bytes
  | case2 bytes long ih =>
    rw [List.flatten_cons, ih]
    exact List.take_append_drop _ _

theorem BlobContent.flatten_pieces (content : BlobContent) :
    content.pieces.flatten = content.bytes := by
  cases content with
  | segmented segs =>
    show (segs.flatMap chunks).flatten = segs.flatten
    induction segs with
    | nil => rfl
    | cons seg segs ih =>
      rw [List.flatMap_cons, List.flatten_append, ih, flatten_chunks, List.flatten_cons]
  | stream bytes =>
    show (if bytes = [] then [] else chunks bytes).flatten = bytes
    split
    next none => exact none.symm
    next => exact flatten_chunks bytes

theorem status_eof {blob : Blb} : blob.status = .segstrEof ↔ blob.blbEof = true := by
  unfold Blb.status
  cases blob.blbEof with
  | true => exact iff_of_true rfl rfl
  | false =>
    refine iff_of_false ?_ Bool.false_ne_true
    simp only [Bool.false_eq_true, if_false]
    split
    next => exact SegmentStatus.noConfusion
    next => exact SegmentStatus.noConfusion

/-- A call on a segmented blob. -/
theorem OpenBlob.getSegment_segmented {blob : OpenBlob} {segs : List (List UInt8)}
    (segmented : blob.stream = false) (stored : blob.blb.Stored order segs) :
    ∃ blob', blob.getSegment order bufferLarge = ((nextSegment bufferLarge segs).1.bytes, blob') ∧
      blob'.stream = false ∧ blob'.blb.Stored order (nextSegment bufferLarge segs).2 ∧
        (blob'.blb.blbEof = true ↔ segs = []) := by
  obtain ⟨blb, got, stored'⟩ := getSegment_stored stored bufferLarge
  unfold InterBase.getSegment at got
  have bytes := congrArg (fun r => r.1.bytes) got
  have status := congrArg (fun r => r.1.status) got
  have same : (blbGetSegment order bufferLarge blob.blb).2 = blb := congrArg Prod.snd got
  simp only at bytes status
  refine ⟨{ blob with blb }, ?_, segmented, stored', ?_⟩
  · unfold OpenBlob.getSegment
    rw [if_neg (by rw [segmented]; exact Bool.false_ne_true)]
    rw [← bytes, ← same]
  · show blb.blbEof = true ↔ _
    rw [← status_eof, ← same, status]
    cases segs with
    | nil => exact iff_of_true rfl rfl
    | cons seg segs =>
      refine iff_of_false ?_ (List.cons_ne_nil seg segs)
      obtain part | whole := Nat.lt_or_ge bufferLarge seg.length
      · rw [nextSegment_part part]
        exact SegmentStatus.noConfusion
      · rw [nextSegment_whole whole]
        exact SegmentStatus.noConfusion

theorem reads_segmented (n : Nat) : ∀ {blob : OpenBlob} (segs : List (List UInt8)),
    (segs.map fun seg => seg.length + 1).sum ≤ n → blob.stream = false →
      blob.blb.blbEof = false → blob.blb.Stored order segs →
        blob.Reads order (segs.flatMap chunks) := by
  induction n with
  | zero =>
    intro blob segs small segmented more stored
    cases segs with
    | nil =>
      obtain ⟨blob', got, -, -, ended⟩ := OpenBlob.getSegment_segmented segmented stored
      exact .last more got (ended.mpr rfl)
    | cons seg segs =>
      rw [List.map_cons, List.sum_cons] at small
      omega
  | succ n ih =>
    intro blob segs small segmented more stored
    obtain ⟨blob', got, segmented', stored', ended⟩ := OpenBlob.getSegment_segmented segmented stored
    cases segs with
    | nil => exact .last more got (ended.mpr rfl)
    | cons seg segs =>
      have more' : blob'.blb.blbEof = false :=
        Bool.eq_false_iff.mpr fun eof => List.cons_ne_nil seg segs (ended.mp eof)
      rw [List.map_cons, List.sum_cons] at small
      rw [List.flatMap_cons]
      obtain part | whole := Nat.lt_or_ge bufferLarge seg.length
      · rw [nextSegment_part part] at got stored'
        rw [chunks_long part]
        have rest := ih (seg.drop bufferLarge :: segs) (by
          rw [List.map_cons, List.sum_cons, List.length_drop]
          unfold bufferLarge at *
          omega) segmented' more' stored'
        exact .piece more got rest
      · rw [nextSegment_whole whole] at got stored'
        rw [chunks_short whole]
        exact .piece more got (ih segs (by omega) segmented' more' stored')

/-- What one call moves, and what it leaves. -/
theorem moveStream_spec (pages : List (List UInt8)) : ∀ (n : Nat) (data : List UInt8),
    (∀ page ∈ pages, page ≠ []) → ∃ data' pages',
      moveStream pages n data = ((data ++ pages.flatten).take n, data', pages') ∧
        data' ++ pages'.flatten = (data ++ pages.flatten).drop n ∧
          (∀ page ∈ pages', page ≠ []) ∧ (data' = [] → pages' = []) := by
  induction pages with
  | nil =>
    intro n data filled
    unfold moveStream
    simp only [List.flatten_nil, List.append_nil]
    have taken : data.take (min n data.length) = data.take n := by
      rw [← List.take_take, List.take_length]
    have left : data.drop (min n data.length) = data.drop n := by
      obtain le | ge := Nat.le_total n data.length
      · rw [Nat.min_eq_left le]
      · rw [Nat.min_eq_right ge, List.drop_length, List.drop_eq_nil_of_le ge]
    rw [taken, left]
    split
    next more => exact ⟨data.drop n, [], rfl, List.append_nil _, filled, fun _ => rfl⟩
    next none =>
      have none := not_not.mp none
      exact ⟨[], [], rfl, none.symm, filled, fun _ => rfl⟩
  | cons page pages ih =>
    intro n data filled
    obtain ⟨first, others⟩ := List.forall_mem_cons.mp filled
    unfold moveStream
    rw [List.flatten_cons]
    simp only
    split
    next more =>
      have lt : n < data.length := by
        by_contra all
        rw [Nat.min_eq_right (Nat.not_lt.mp all)] at more
        exact more List.drop_length
      rw [Nat.min_eq_left (Nat.le_of_lt lt)]
      refine ⟨data.drop n, page :: pages, ?_, ?_, filled, ?_⟩
      · rw [List.take_append_of_le_length (Nat.le_of_lt lt)]
      · rw [List.drop_append_of_le_length (Nat.le_of_lt lt), List.flatten_cons]
      · intro none
        exact absurd (List.drop_eq_nil_iff.mp none) (Nat.not_le.mpr lt)
    next all =>
      have ge : data.length ≤ n := by
        have none := List.drop_eq_nil_iff.mp (not_not.mp all)
        omega
      rw [Nat.min_eq_right ge, List.take_length]
      obtain ⟨data', pages', moved, rest, filled', ends⟩ := ih (n - data.length) page others
      rw [List.take_append, List.take_of_length_le ge, List.drop_append,
        List.drop_eq_nil_of_le ge, List.nil_append]
      split
      next full =>
        rw [full]
        refine ⟨page, pages, ?_, rfl, others, fun none => absurd none first⟩
        rw [List.take_zero, List.append_nil]
      next =>
        rw [moved]
        exact ⟨data', pages', rfl, rest, filled', ends⟩

/-- A call on a stream blob. -/
theorem OpenBlob.getSegment_stream {blob : OpenBlob} {bytes : List UInt8}
    (stream : blob.stream = true) (more : blob.blb.blbEof = false)
    (streams : blob.blb.Streams bytes) : ∃ blob',
      blob.getSegment order bufferLarge = (bytes.take bufferLarge, blob') ∧ blob'.stream = true ∧
        blob'.blb.Streams (bytes.drop bufferLarge) ∧ (blob'.blb.blbEof = true ↔ bytes = []) := by
  have step : blob.getSegment order bufferLarge =
      ((streamGetSegment bufferLarge blob.blb).1,
        { blob with blb := (streamGetSegment bufferLarge blob.blb).2 }) := by
    unfold OpenBlob.getSegment
    rw [if_pos stream]
  rw [step]
  unfold streamGetSegment
  rw [if_neg (by rw [more]; exact Bool.false_ne_true)]
  split
  next used =>
    have none : bytes = [] := by
      rw [← streams.held, used.1, streams.fetched used.2 used.1]
      rfl
    subst none
    exact ⟨_, rfl, stream, { streams with }, iff_of_true rfl rfl⟩
  next fresh =>
    obtain ⟨data', pages', moved, rest, filled, ends⟩ :=
      moveStream_spec blob.blb.blbPages bufferLarge blob.blb.blbData streams.filled
    rw [moved, streams.held]
    rw [streams.held] at rest
    refine ⟨_, rfl, stream, ⟨rest, filled, fun _ => ends, ?_⟩, ?_⟩
    · intro unset
      cases unset
    · refine iff_of_false ?_ fun none => ?_
      · show ¬ blob.blb.blbEof = true
        rw [more]
        exact Bool.false_ne_true
      · have empty := streams.held.trans none
        obtain ⟨data, pages⟩ := List.append_eq_nil_iff.mp empty
        cases segment : blob.blb.blbSegment with
        | true => exact fresh ⟨data, segment⟩
        | false =>
          obtain ⟨-, some⟩ := streams.opened segment
          obtain ⟨page, pages', whole⟩ := List.exists_cons_of_ne_nil some
          have filled := streams.filled page (whole ▸ List.mem_cons_self)
          exact filled (List.flatten_eq_nil_iff.mp pages page (whole ▸ List.mem_cons_self))

theorem reads_stream (n : Nat) : ∀ {blob : OpenBlob} (bytes : List UInt8), bytes.length ≤ n →
    blob.stream = true → blob.blb.blbEof = false → blob.blb.Streams bytes →
      blob.Reads order (BlobContent.stream bytes).pieces := by
  induction n with
  | zero =>
    intro blob bytes small stream more streams
    obtain rfl := List.eq_nil_of_length_eq_zero (Nat.le_zero.mp small)
    obtain ⟨blob', got, -, -, ended⟩ := OpenBlob.getSegment_stream stream more streams
    exact .last more got (ended.mpr rfl)
  | succ n ih =>
    intro blob bytes small stream more streams
    obtain ⟨blob', got, stream', streams', ended⟩ := OpenBlob.getSegment_stream stream more streams
    show blob.Reads order (if bytes = [] then [] else chunks bytes)
    split
    next none =>
      subst none
      exact .last more got (ended.mpr rfl)
    next some =>
      have more' : blob'.blb.blbEof = false := Bool.eq_false_iff.mpr fun eof => some (ended.mp eof)
      have rest := ih (bytes.drop bufferLarge) (by
        rw [List.length_drop]
        unfold bufferLarge
        omega) stream' more' streams'
      have next : blob.Reads order (bytes.take bufferLarge ::
          if bytes.drop bufferLarge = [] then [] else chunks (bytes.drop bufferLarge)) :=
        .piece more got rest
      obtain part | whole := Nat.lt_or_ge bufferLarge bytes.length
      · have left : bytes.drop bufferLarge ≠ [] :=
          fun none => absurd (List.drop_eq_nil_iff.mp none) (Nat.not_le.mpr part)
        rw [chunks_long part]
        rwa [if_neg left] at next
      · have left : bytes.drop bufferLarge = [] := List.drop_eq_nil_of_le whole
        rw [chunks_short whole]
        rwa [if_pos left, List.take_of_length_le whole] at next

/-- What is read of a blob are the pieces of its content. -/
theorem OpenBlob.Holds.reads {blob : OpenBlob} {content : BlobContent}
    (holds : blob.Holds order content) : blob.Reads order content.pieces := by
  cases content with
  | segmented segs =>
    obtain ⟨segmented, more, stored⟩ := holds
    exact reads_segmented _ segs (Nat.le_refl _) segmented more stored
  | stream bytes =>
    obtain ⟨stream, more, streams⟩ := holds
    exact reads_stream _ bytes (Nat.le_refl _) stream more streams

end

end InterBase
