import InterBase.SortKeyField

namespace InterBase

/-- A segmented blob that is open for reading. -/
structure Blb where
  blbEof : Bool
  /-- `blb_segment` has been set. -/
  blbSegment : Bool
  /-- The `blb_space_remaining` bytes from `blb_segment` on. -/
  blbData : List UInt8
  /-- The `blp_data` of the pages that `get_next_page` has still to give. -/
  blbPages : List (List UInt8)
  blbFragmentSize : Nat

inductive SegmentStatus where
  | success
  | segment
  | segstrEof
deriving Repr, DecidableEq

structure SegmentResult where
  status : SegmentStatus
  length : Nat
  bytes : List UInt8
deriving Repr, DecidableEq

/-- The loop `while (length < 2)` and the length of the next segment after it. -/
def pickCount (order : ByteOrder) :
    List (List UInt8) → List UInt8 → Option (Nat × List UInt8 × List (List UInt8))
  | pages, c0 :: c1 :: data => some (number order [c0, c1], data, pages)
  | page :: pages, _ => pickCount order pages page
  | [], _ => none

structure Moved where
  bytes : List UInt8
  fragment : Nat
  data : List UInt8
  pages : List (List UInt8)

/-- Move what fits; when the clump is used up, get the next one. -/
def moveSegment (pages : List (List UInt8)) (bufferLength fragment : Nat) (data : List UInt8) : Moved :=
  let l := min (min bufferLength data.length) fragment
  let bytes := data.take l
  if data.drop l ≠ [] then ⟨bytes, fragment - l, data.drop l, pages⟩
  else
    match pages with
    | [] => ⟨bytes, fragment - l, [], []⟩
    | page :: pages =>
      if bufferLength - l = 0 ∨ fragment - l = 0 then ⟨bytes, fragment - l, page, pages⟩
      else
        let moved := moveSegment pages (bufferLength - l) (fragment - l) page
        { moved with bytes := bytes ++ moved.bytes }

def Blb.take (blob : Blb) (moved : Moved) : List UInt8 × Blb :=
  (moved.bytes, { blob with
    blbSegment := true
    blbData := moved.data
    blbPages := moved.pages
    blbFragmentSize := moved.fragment })

def blbGetSegment (order : ByteOrder) (bufferLength : Nat) (blob : Blb) : List UInt8 × Blb :=
  if blob.blbEof then ([], blob)
  else if blob.blbData = [] ∧ blob.blbSegment then ([], { blob with blbEof := true })
  else
    let next :=
      if blob.blbFragmentSize = 0 then pickCount order blob.blbPages blob.blbData
      else some (blob.blbFragmentSize, blob.blbData, blob.blbPages)
    match next with
    | none => ([], { blob with blbEof := true, blbData := [], blbPages := [] })
    | some (fragment, data, pages) => blob.take (moveSegment pages bufferLength fragment data)

def Blb.status (blob : Blb) : SegmentStatus :=
  if blob.blbEof then .segstrEof
  else if blob.blbFragmentSize ≠ 0 then .segment
  else .success

/-- `jrd8_get_segment`. -/
def getSegment (order : ByteOrder) (bufferLength : Nat) (blob : Blb) : SegmentResult × Blb :=
  let (bytes, blob) := blbGetSegment order bufferLength blob
  (⟨blob.status, bytes.length, bytes⟩, blob)

/-- A call for each buffer length. -/
def getSegments (order : ByteOrder) : List Nat → Blb → List SegmentResult
  | [], _ => []
  | bufferLength :: lengths, blob =>
    let (result, blob) := getSegment order bufferLength blob
    result :: getSegments order lengths blob

/-- What a caller may rely on: the next segment, or as much of it as the buffer takes. -/
def nextSegment (bufferLength : Nat) :
    List (List UInt8) → SegmentResult × List (List UInt8)
  | [] => (⟨.segstrEof, 0, []⟩, [])
  | seg :: segs =>
    if bufferLength < seg.length then
      (⟨.segment, bufferLength, seg.take bufferLength⟩, seg.drop bufferLength :: segs)
    else (⟨.success, seg.length, seg⟩, segs)

/-- The clump and the pages after it hold the bytes `current` and then the segments `segs`, each
after its length. A length does not straddle pages: a byte before it may be unused. -/
inductive BlobLaid (order : ByteOrder) :
    List UInt8 → List (List UInt8) → List UInt8 → List (List UInt8) → Prop
  | done : BlobLaid order [] [] [] []
  | byte {b : UInt8} {data : List UInt8} {pages : List (List UInt8)} {current : List UInt8}
      {segs : List (List UInt8)} (rest : BlobLaid order data pages current segs) :
      BlobLaid order (b :: data) pages (b :: current) segs
  | count {c0 c1 : UInt8} {data : List UInt8} {pages : List (List UInt8)} {seg : List UInt8}
      {segs : List (List UInt8)} (length : number order [c0, c1] = seg.length)
      (rest : BlobLaid order data pages seg segs) : BlobLaid order (c0 :: c1 :: data) pages [] (seg :: segs)
  | page {page : List UInt8} {pages : List (List UInt8)} {current : List UInt8}
      {segs : List (List UInt8)} (filled : page ≠ []) (rest : BlobLaid order page pages current segs) :
      BlobLaid order [] (page :: pages) current segs
  | unused {b : UInt8} {page : List UInt8} {pages : List (List UInt8)} {seg : List UInt8}
      {segs : List (List UInt8)} (filled : page ≠ []) (rest : BlobLaid order page pages [] (seg :: segs)) :
      BlobLaid order [b] (page :: pages) [] (seg :: segs)

/-- An open blob whose segments, from where it is read on, are `segs`. -/
structure Blb.Stored (order : ByteOrder) (blob : Blb) (segs : List (List UInt8)) : Prop where
  held : ∃ current later, BlobLaid order blob.blbData blob.blbPages current later ∧
    blob.blbFragmentSize = current.length ∧
    segs = if current = [] then later else current :: later
  eof : blob.blbEof = true → segs = []
  fetched : blob.blbSegment = true → blob.blbData = [] → blob.blbPages = []

section

variable {order : ByteOrder} {data : List UInt8} {pages : List (List UInt8)} {current : List UInt8}
  {segs : List (List UInt8)}

theorem nextSegment_part {n : Nat} {seg : List UInt8} (part : n < seg.length) :
    nextSegment n (seg :: segs) = (⟨.segment, n, seg.take n⟩, seg.drop n :: segs) := if_pos part

theorem nextSegment_whole {n : Nat} {seg : List UInt8} (whole : seg.length ≤ n) :
    nextSegment n (seg :: segs) = (⟨.success, seg.length, seg⟩, segs) := if_neg (Nat.not_lt.mpr whole)

theorem nextSegment_length (n : Nat) (segs : List (List UInt8)) :
    (nextSegment n segs).1.bytes.length = (nextSegment n segs).1.length := by
  cases segs with
  | nil => rfl
  | cons seg segs =>
    rcases Nat.lt_or_ge n seg.length with part | whole
    · rw [nextSegment_part part]
      exact (List.length_take ..).trans (Nat.min_eq_left part.le)
    · rw [nextSegment_whole whole]

theorem BlobLaid.byte_inv {b c : UInt8} (laid : BlobLaid order (b :: data) pages (c :: current) segs) :
    b = c ∧ BlobLaid order data pages current segs := by
  cases laid with
  | byte rest => exact ⟨rfl, rest⟩

theorem BlobLaid.page_inv {page : List UInt8} (laid : BlobLaid order [] (page :: pages) current segs) :
    page ≠ [] ∧ BlobLaid order page pages current segs := by
  cases laid with
  | page filled rest => exact ⟨filled, rest⟩

/-- Reading on within the clump. -/
theorem BlobLaid.read {l : Nat} (laid : BlobLaid order data pages current segs) (inData : l ≤ data.length)
    (inCurrent : l ≤ current.length) :
    data.take l = current.take l ∧ BlobLaid order (data.drop l) pages (current.drop l) segs := by
  induction l generalizing data current with
  | zero => exact ⟨rfl, laid⟩
  | succ l ih =>
    obtain ⟨b, data, rfl⟩ := List.exists_cons_of_length_pos (Nat.lt_of_lt_of_le l.succ_pos inData)
    obtain ⟨c, current, rfl⟩ :=
      List.exists_cons_of_length_pos (Nat.lt_of_lt_of_le l.succ_pos inCurrent)
    obtain ⟨rfl, rest⟩ := laid.byte_inv
    obtain ⟨bytes, later⟩ := ih rest (Nat.le_of_succ_le_succ inData) (Nat.le_of_succ_le_succ inCurrent)
    exact ⟨by rw [List.take_succ_cons, List.take_succ_cons, bytes], later⟩

theorem BlobLaid.exhausted (laid : BlobLaid order data pages current segs) (none : current = [])
    (last : segs = []) : data = [] ∧ pages = [] := by
  induction laid with
  | done => exact ⟨rfl, rfl⟩
  | byte rest ih => cases none
  | count length rest ih => cases last
  | page filled rest ih => exact absurd (ih none last).1 filled
  | unused filled rest ih => cases last

theorem BlobLaid.empty (laid : BlobLaid order data pages current segs) (noData : data = [])
    (noPages : pages = []) : current = [] ∧ segs = [] := by
  cases laid with
  | done => exact ⟨rfl, rfl⟩
  | byte rest => cases noData
  | count length rest => cases noData
  | page filled rest => cases noPages
  | unused filled rest => cases noData

theorem pickCount_laid {later : List (List UInt8)} (laid : BlobLaid order data pages current later)
    (none : current = []) {seg : List UInt8} (next : later = seg :: segs) :
    ∃ data' pages', pickCount order pages data = some (seg.length, data', pages') ∧
      BlobLaid order data' pages' seg segs := by
  induction laid with
  | done => cases next
  | byte rest ih => cases none
  | @count c0 c1 data pages seg' segs' length rest ih =>
    obtain ⟨rfl, rfl⟩ := List.cons.inj next
    exact ⟨data, pages, by rw [pickCount, length], rest⟩
  | page filled rest ih =>
    obtain ⟨data', pages', picked, laid'⟩ := ih none next
    exact ⟨data', pages', by rw [pickCount, picked]; simp, laid'⟩
  | unused filled rest ih =>
    obtain ⟨data', pages', picked, laid'⟩ := ih none next
    exact ⟨data', pages', by rw [pickCount, picked]; simp, laid'⟩

/-- Where the buffer or the segment is used up, the bytes moved are the ones asked for. -/
theorem take_enough {l n : Nat} (bytes : List UInt8) (most : l ≤ n) (all : n ≤ l ∨ bytes.length ≤ l) :
    bytes.take l = bytes.take n ∧ bytes.length - l = bytes.length - n ∧
      bytes.drop l = bytes.drop n := by
  rcases all with enough | all
  · rw [Nat.le_antisymm most enough]
    exact ⟨rfl, rfl, rfl⟩
  · have whole : bytes.length ≤ n := Nat.le_trans all most
    rw [List.take_of_length_le all, List.take_of_length_le whole, List.drop_eq_nil_of_le all,
      List.drop_eq_nil_of_le whole, Nat.sub_eq_zero_of_le all, Nat.sub_eq_zero_of_le whole]
    exact ⟨rfl, rfl, rfl⟩

/-- What is moved is the front of the segment, and the next clump is there if there is one. -/
theorem moveSegment_laid (laid : BlobLaid order data pages current segs) (n : Nat) :
    ∃ data' pages', moveSegment pages n current.length data =
        ⟨current.take n, current.length - n, data', pages'⟩ ∧
      BlobLaid order data' pages' (current.drop n) segs ∧ (data' = [] → pages' = []) := by
  induction pages generalizing data current n with
  | nil =>
    obtain ⟨l, hl⟩ : ∃ l, l = min (min n data.length) current.length := ⟨_, rfl⟩
    obtain ⟨bytes, later⟩ := laid.read (show l ≤ data.length by omega) (by omega)
    have all : n ≤ l ∨ current.length ≤ l := by
      rcases Nat.lt_or_ge l data.length with more | none
      · omega
      · have ended := (later.empty (List.drop_eq_nil_of_le none) rfl).1
        exact .inr (List.drop_eq_nil_iff.mp ended)
    obtain ⟨take, left, drop⟩ := take_enough current (show l ≤ n by omega) all
    rw [drop] at later
    refine ⟨data.drop l, [], ?_, later, fun _ => rfl⟩
    unfold moveSegment
    simp only [← hl]
    rw [bytes, take, left]
    split
    next => rfl
    next ended => rw [not_not.mp ended]
  | cons page pages ih =>
    obtain ⟨l, hl⟩ : ∃ l, l = min (min n data.length) current.length := ⟨_, rfl⟩
    obtain ⟨bytes, later⟩ := laid.read (show l ≤ data.length by omega) (by omega)
    unfold moveSegment
    simp only [← hl]
    rw [bytes]
    by_cases ended : data.drop l = []
    · rw [if_neg (not_not.mpr ended)]
      rw [ended] at later
      obtain ⟨filled, next⟩ := later.page_inv
      by_cases done : n - l = 0 ∨ current.length - l = 0
      · obtain ⟨take, left, drop⟩ := take_enough current (show l ≤ n by omega) (by omega)
        rw [drop] at next
        rw [if_pos done, take, left]
        exact ⟨page, pages, rfl, next, fun none => absurd none filled⟩
      · obtain ⟨data', pages', moved, laid', fetched⟩ := ih next (n - l)
        rw [List.length_drop] at moved
        rw [List.drop_drop, Nat.add_sub_of_le (show l ≤ n by omega)] at laid'
        rw [if_neg done, moved]
        refine ⟨data', pages', ?_, laid', fetched⟩
        have joined : current.take l ++ (current.drop l).take (n - l) = current.take n := by
          rw [← List.take_add, Nat.add_sub_of_le (show l ≤ n by omega)]
        simp only [joined]
        congr 1
        omega
    · have more : l < data.length := by
        by_contra none
        exact ended (List.drop_eq_nil_of_le (Nat.not_lt.mp none))
      obtain ⟨take, left, drop⟩ := take_enough current (show l ≤ n by omega) (by omega)
      rw [drop] at later
      rw [if_pos ended, take, left]
      exact ⟨data.drop l, page :: pages, rfl, later, fun none => absurd none ended⟩

theorem take_stored {seg : List UInt8} (laid : BlobLaid order data pages seg segs) {blob : Blb}
    (more : blob.blbEof = false) (n : Nat) :
    ∃ blob', blob.take (moveSegment pages n seg.length data) =
        ((nextSegment n (seg :: segs)).1.bytes, blob') ∧
      blob'.status = (nextSegment n (seg :: segs)).1.status ∧
      blob'.Stored order (nextSegment n (seg :: segs)).2 := by
  obtain ⟨data', pages', moved, laid', fetched⟩ := moveSegment_laid laid n
  rw [moved]
  unfold Blb.take
  have open' {p : Prop} (ended : blob.blbEof = true) : p := by
    rw [more] at ended
    cases ended
  rcases Nat.lt_or_ge n seg.length with part | whole
  · have left : seg.drop n ≠ [] := by simpa using part
    have fragment : seg.length - n ≠ 0 := by omega
    rw [nextSegment_part part]
    refine ⟨_, rfl, by simp [Blb.status, more, fragment], ?_, fun ended => open' ended,
      fun _ => fetched⟩
    exact ⟨seg.drop n, segs, laid', (List.length_drop ..).symm, (if_neg left).symm⟩
  · have none : seg.drop n = [] := List.drop_eq_nil_of_le whole
    have fragment : seg.length - n = 0 := Nat.sub_eq_zero_of_le whole
    rw [nextSegment_whole whole, List.take_of_length_le whole, fragment]
    rw [none] at laid'
    refine ⟨_, rfl, by simp [Blb.status, more], ⟨[], segs, laid', rfl, rfl⟩, fun ended => open' ended,
      fun _ => fetched⟩

/-- `BLB_get_segment` gives the next segment of what the blob holds. -/
theorem getSegment_stored {blob : Blb} (stored : blob.Stored order segs) (n : Nat) :
    ∃ blob', getSegment order n blob = ((nextSegment n segs).1, blob') ∧
      blob'.Stored order (nextSegment n segs).2 := by
  obtain ⟨⟨current, later, laid, fragment, rfl⟩, eof, fetched⟩ := stored
  have finish {seg : List UInt8} {segs : List (List UInt8)} {data : List UInt8}
      {pages : List (List UInt8)} (laid : BlobLaid order data pages seg segs)
      (more : blob.blbEof = false)
      (got : blbGetSegment order n blob = blob.take (moveSegment pages n seg.length data)) :
      ∃ blob', getSegment order n blob = ((nextSegment n (seg :: segs)).1, blob') ∧
        blob'.Stored order (nextSegment n (seg :: segs)).2 := by
    obtain ⟨blob', taken, status, stored⟩ := take_stored laid more n
    refine ⟨blob', ?_, stored⟩
    simp only [getSegment, got, taken, status, nextSegment_length]
  have ended {blob' : Blb} (got : blbGetSegment order n blob = ([], blob'))
      (isEof : blob'.blbEof = true) (last : (if current = [] then later else current :: later) = [])
      (data : blob'.blbData = []) (pages : blob'.blbPages = []) (none : blob'.blbFragmentSize = 0) :
      ∃ blob', getSegment order n blob =
          ((nextSegment n (if current = [] then later else current :: later)).1, blob') ∧
        blob'.Stored order (nextSegment n (if current = [] then later else current :: later)).2 := by
    rw [last]
    refine ⟨blob', by simp [getSegment, got, Blb.status, isEof, nextSegment], ?_, fun _ => rfl,
      fun _ _ => pages⟩
    refine ⟨[], [], ?_, none, rfl⟩
    rw [data, pages]
    exact .done
  cases more : blob.blbEof with
  | true =>
    have last := eof more
    have both : current = [] ∧ later = [] := by
      by_cases current = [] <;> simp_all
    obtain ⟨rfl, rfl⟩ := both
    obtain ⟨data, pages⟩ := laid.exhausted rfl rfl
    exact ended (if_pos more) more last data pages fragment
  | false =>
    have notEof : ¬blob.blbEof = true := by simp [more]
    by_cases used : blob.blbData = [] ∧ blob.blbSegment = true
    · obtain ⟨rfl, rfl⟩ := laid.empty used.1 (fetched used.2 used.1)
      have got : blbGetSegment order n blob = ([], { blob with blbEof := true }) := by
        rw [blbGetSegment, if_neg notEof, if_pos used]
      exact ended got rfl rfl used.1 (fetched used.2 used.1) fragment
    · by_cases fresh : current = []
      · subst fresh
        cases later with
        | nil =>
          obtain ⟨data, pages⟩ := laid.exhausted rfl rfl
          have got : blbGetSegment order n blob =
              ([], { blob with blbEof := true, blbData := [], blbPages := [] }) := by
            rw [blbGetSegment, if_neg notEof, if_neg used, data, pages]
            simp [fragment, pickCount]
          exact ended got rfl rfl rfl rfl fragment
        | cons seg segs =>
          obtain ⟨data', pages', picked, laid'⟩ := pickCount_laid laid rfl rfl
          refine finish laid' more ?_
          rw [blbGetSegment, if_neg notEof, if_neg used, picked]
          simp [fragment]
      · rw [if_neg fresh]
        have size : current.length ≠ 0 := by simpa using fresh
        refine finish laid more ?_
        rw [blbGetSegment, if_neg notEof, if_neg used, fragment]
        simp [size]

end

end InterBase
