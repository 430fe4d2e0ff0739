import InterBase.RemoteBlob

namespace InterBase

/-- Segments as they are packed in a transfer buffer. -/
def packSegments (pieces : List (List UInt8)) : List UInt8 :=
  pieces.flatMap fun piece => countWord piece.length ++ piece

/-- The segments that pieces in hand and those to come make up, where the last piece in hand may be
cut. -/
def rejoin (cut : Bool) : List (List UInt8) → List (List UInt8) → List (List UInt8)
  | [], rest => rest
  | [piece], rest => if cut then (piece ++ rest.headD []) :: rest.tail else piece :: rest
  | piece :: next :: pieces, rest => piece :: rejoin cut (next :: pieces) rest

/-- The pieces that lie in the client's buffer; the first may have lost its front. -/
structure Rbl.Holds (rbl : Rbl) (pieces : List (List UInt8)) : Prop where
  data : (rbl.rblFragmentLength = 0 ∧ rbl.rblData = packSegments pieces) ∨
    ∃ piece later, pieces = piece :: later ∧ piece ≠ [] ∧
      rbl.rblFragmentLength = piece.length ∧ rbl.rblData = piece ++ packSegments later
  small : ∀ piece ∈ pieces, piece.length < 65536

/-- A segment has been cut: the piece in hand and the rest are not empty. -/
def CutAt (pieces rest : List (List UInt8)) : Prop :=
  (∀ piece ∈ pieces.getLast?, piece ≠ []) ∧ ∃ s more, rest = s :: more ∧ s ≠ []

/-- Client and server hold the segments `segs` between them. -/
structure Joint (order : ByteOrder) (rbl : Rbl) (blob : Blb) (segs : List (List UInt8)) : Prop where
  held : ∃ pieces rest, rbl.Holds pieces ∧ blob.Stored order rest ∧
    segs = rejoin rbl.rblSegment pieces rest ∧ (rbl.rblSegment = true → CutAt pieces rest) ∧
    (rbl.rblEofPending = true → rest = [] ∧ rbl.rblSegment = false) ∧
    ∀ seg ∈ rest, seg.length < 65536
  eof : rbl.rblEof = true → segs = []
  room : 2 < rbl.rblBufferLength

section

variable {order : ByteOrder} {pieces rest segs : List (List UInt8)} {piece : List UInt8} {cut : Bool}

@[simp] theorem packSegments_nil : packSegments [] = [] := rfl

@[simp] theorem packSegments_cons (piece : List UInt8) (pieces : List (List UInt8)) :
    packSegments (piece :: pieces) = countWord piece.length ++ (piece ++ packSegments pieces) := by
  simp [packSegments]

theorem packSegments_eq_nil : packSegments pieces = [] ↔ pieces = [] := by
  cases pieces with
  | nil => simp
  | cons piece pieces => simp [countWord]

@[simp] theorem rejoin_nil : rejoin cut [] rest = rest := rfl

theorem rejoin_cons (more : pieces ≠ []) :
    rejoin cut (piece :: pieces) rest = piece :: rejoin cut pieces rest := by
  obtain ⟨next, pieces, rfl⟩ := List.exists_cons_of_ne_nil more
  rfl

theorem countWord_value {n : Nat} (small : n < 65536) :
    (UInt8.ofNat n).toNat + 256 * (UInt8.ofNat (n / 256)).toNat = n := by
  simp only [UInt8.toNat_ofNat']
  omega

/-- What the server has packed, and what it has left. -/
structure Answered (order : ByteOrder) (bufferLength : Nat) (segs : List (List UInt8))
    (answer : SegmentResponse × Blb) (pieces rest : List (List UInt8)) : Prop where
  data : answer.1.data = packSegments pieces
  stored : answer.2.Stored order rest
  segs_eq : segs = rejoin (answer.1.object == 1) pieces rest
  cut : answer.1.object = 1 → pieces ≠ [] ∧ CutAt pieces rest
  ended : answer.1.object = 2 → rest = []
  filled : 2 < bufferLength → answer.1.object ≠ 2 → pieces ≠ []
  small : ∀ piece ∈ pieces, piece.length < 65536
  later : ∀ seg ∈ rest, seg.length < 65536

theorem gobble_answered {blob : Blb} {fuel bufferLength : Nat} (stored : blob.Stored order segs)
    (small : ∀ seg ∈ segs, seg.length < 65536) (enough : bufferLength ≤ fuel) :
    ∃ pieces rest, Answered order bufferLength segs (gobble order fuel bufferLength blob) pieces rest := by
  induction fuel generalizing bufferLength blob segs with
  | zero =>
    refine ⟨[], segs, rfl, stored, rfl, fun cut => ?_, fun ended => ?_, fun room => by omega, by simp, small⟩
    · cases cut
    · cases ended
  | succ fuel ih =>
    by_cases room : bufferLength > 2
    · obtain ⟨blob', got, stored'⟩ := getSegment_stored stored (bufferLength - 2)
      unfold gobble
      simp only [if_pos room, got]
      cases segs with
      | nil =>
        refine ⟨[], [], rfl, stored', rfl, fun cut => ?_, fun _ => rfl, fun _ other => ?_, by simp, by simp⟩
        · cases cut
        · exact absurd rfl other
      | cons seg segs =>
        rcases Nat.lt_or_ge (bufferLength - 2) seg.length with part | whole
        · rw [nextSegment_part part] at stored' ⊢
          have taken : (seg.take (bufferLength - 2)).length = bufferLength - 2 :=
            (List.length_take ..).trans (Nat.min_eq_left part.le)
          refine ⟨[seg.take (bufferLength - 2)], seg.drop (bufferLength - 2) :: segs, ?_, stored', ?_,
            fun _ => ⟨by simp, ?_, ?_⟩, fun ended => ?_, fun _ _ => by simp, ?_, ?_⟩
          · simp [taken]
          · simp [rejoin]
          · intro piece mem
            obtain rfl : seg.take (bufferLength - 2) = piece := by simpa using mem
            exact List.ne_nil_of_length_pos (by omega)
          · exact ⟨_, segs, rfl, by simpa using part⟩
          · cases ended
          · intro piece mem
            obtain rfl := List.mem_singleton.mp mem
            have whole := small seg (by simp)
            omega
          · intro other mem
            have whole := small seg (by simp)
            rcases List.mem_cons.mp mem with rfl | later
            · rw [List.length_drop]
              omega
            · exact small other (by simp [later])
        · rw [nextSegment_whole whole] at stored' ⊢
          obtain ⟨pieces, rest, answered⟩ :=
            ih stored' (fun other mem => small other (by simp [mem]))
              (show bufferLength - 2 - seg.length ≤ fuel by omega)
          refine ⟨seg :: pieces, rest, ?_, answered.stored, ?_, fun cut => ?_, answered.ended,
            fun _ _ => by simp, ?_, answered.later⟩
          · simp [answered.data]
          · have eq := answered.segs_eq
            by_cases more : pieces = []
            · subst more
              have uncut : ((gobble order fuel (bufferLength - 2 - seg.length) blob').1.object == 1) =
                  false := by
                by_contra cut
                simp only [Bool.not_eq_false, beq_iff_eq] at cut
                exact (answered.cut cut).1 rfl
              simp only [uncut] at eq ⊢
              rw [eq]
              rfl
            · rw [rejoin_cons more, ← eq]
          · obtain ⟨more, last, behind⟩ := answered.cut cut
            refine ⟨by simp, ?_, behind⟩
            rwa [List.getLast?_cons_of_ne_nil more]
          · intro piece mem
            rcases List.mem_cons.mp mem with rfl | later
            · exact small piece (by simp)
            · exact answered.small piece later
    · unfold gobble
      rw [if_neg room]
      refine ⟨[], segs, rfl, stored, rfl, fun cut => ?_, fun ended => ?_, fun more => by omega, by simp, small⟩
      · cases cut
      · cases ended

theorem nextSegment_append {n : Nat} {seg : List UInt8} (inside : piece.length ≤ n) :
    nextSegment n ((piece ++ seg) :: rest) =
      (⟨(nextSegment (n - piece.length) (seg :: rest)).1.status,
        piece.length + (nextSegment (n - piece.length) (seg :: rest)).1.length,
        piece ++ (nextSegment (n - piece.length) (seg :: rest)).1.bytes⟩,
        (nextSegment (n - piece.length) (seg :: rest)).2) := by
  rcases Nat.lt_or_ge (n - piece.length) seg.length with part | whole
  · have split : n = piece.length + (n - piece.length) := by omega
    have bytes : (piece ++ seg).take n = piece ++ seg.take (n - piece.length) := by
      rw [List.take_append, List.take_of_length_le inside]
    have left : (piece ++ seg).drop n = seg.drop (n - piece.length) := by
      rw [List.drop_append, List.drop_eq_nil_of_le inside, List.nil_append]
    rw [nextSegment_part part, nextSegment_part (by rw [List.length_append]; omega), bytes, left,
      ← split]
  · rw [nextSegment_whole whole, nextSegment_whole (by rw [List.length_append]; omega),
      List.length_append]

variable {rbl : Rbl} {blob : Blb} {result : SegmentResult} {n : Nat} {later : List (List UInt8)}

theorem Rbl.Holds.data_eq_nil (holds : rbl.Holds pieces) : rbl.rblData = [] ↔ pieces = [] := by
  rcases holds.data with ⟨-, data⟩ | ⟨piece, later, rfl, filled, -, data⟩
  · rw [data, packSegments_eq_nil]
  · rw [data]
    simp [filled]

/-- The length and the data that the client looks at are those of the first piece in hand. -/
theorem Rbl.Holds.front (holds : rbl.Holds (piece :: later)) :
    (if rbl.rblFragmentLength ≠ 0 then (rbl.rblFragmentLength, rbl.rblData)
      else ((rbl.rblData[0]?.getD 0).toNat + 256 * (rbl.rblData[1]?.getD 0).toNat,
        rbl.rblData.drop 2)) = (piece.length, piece ++ packSegments later) := by
  rcases holds.data with ⟨whole, data⟩ | ⟨piece', later', eq, filled, part, data⟩
  · have small := holds.small piece (by simp)
    have value := countWord_value small
    rw [whole, data]
    simpa [countWord] using value
  · obtain ⟨rfl, rfl⟩ := List.cons.inj eq
    have more : piece.length ≠ 0 := by simpa using filled
    rw [part, data, if_pos more]

theorem take_piece (piece behind : List UInt8) (n : Nat) :
    (piece ++ behind).take (min piece.length n) = piece.take n ∧
      (piece ++ behind).drop (min piece.length n) = piece.drop n ++ behind := by
  rcases Nat.le_total piece.length n with whole | part
  · rw [Nat.min_eq_left whole, List.take_left, List.drop_left, List.take_of_length_le whole,
      List.drop_eq_nil_of_le whole]
    exact ⟨rfl, rfl⟩
  · rw [Nat.min_eq_right part, List.take_append_of_le_length part,
      List.drop_append_of_le_length part]
    exact ⟨rfl, rfl⟩

theorem passOut_eq (holds : rbl.Holds (piece :: later)) :
    passOut n result rbl =
      { result := ⟨if min piece.length n = n ∧
            min piece.length n = (piece ++ packSegments later).length ∧ rbl.rblSegment = true
          then .segment else if piece.length > n then .segment else result.status,
          result.length + min piece.length n, result.bytes ++ piece.take n⟩
        rbl := { rbl with
          rblData := piece.drop n ++ packSegments later
          rblFragmentLength := piece.length - n }
        bufferLength := n - piece.length } := by
  obtain ⟨taken, left⟩ := take_piece piece (packSegments later) n
  have least : (if piece.length > n then n else piece.length) = min piece.length n := by
    split <;> omega
  have fragment : (if piece.length > n then piece.length - n else 0) = piece.length - n := by
    split <;> omega
  have rest : n - min piece.length n = n - piece.length := by omega
  unfold passOut
  simp only [holds.front, least, taken, left, fragment, rest]

/-- A piece that the buffer takes whole. -/
theorem passOut_whole (holds : rbl.Holds (piece :: later)) (whole : piece.length ≤ n) :
    passOut n result rbl =
      { result := ⟨if piece.length = n ∧ later = [] ∧ rbl.rblSegment = true then .segment
          else result.status, result.length + piece.length, result.bytes ++ piece⟩
        rbl := { rbl with rblData := packSegments later, rblFragmentLength := 0 }
        bufferLength := n - piece.length } := by
  have last : piece.length = (piece ++ packSegments later).length ↔ later = [] := by
    rw [List.length_append, ← packSegments_eq_nil, ← List.length_eq_zero_iff]
    omega
  rw [passOut_eq holds, Nat.min_eq_left whole, List.take_of_length_le whole,
    List.drop_eq_nil_of_le whole, Nat.sub_eq_zero_of_le whole, if_neg (Nat.not_lt.mpr whole)]
  simp only [last, List.nil_append]

/-- A piece that the buffer takes the front of. -/
theorem passOut_part (holds : rbl.Holds (piece :: later)) (part : n < piece.length) :
    passOut n result rbl =
      { result := ⟨.segment, result.length + n, result.bytes ++ piece.take n⟩
        rbl := { rbl with
          rblData := piece.drop n ++ packSegments later
          rblFragmentLength := piece.length - n }
        bufferLength := 0 } := by
  rw [passOut_eq holds, Nat.min_eq_right part.le, if_pos part, Nat.sub_eq_zero_of_le part.le]
  split <;> rfl

theorem Rbl.Holds.fragment_eq_zero (holds : rbl.Holds []) : rbl.rblFragmentLength = 0 := by
  rcases holds.data with ⟨whole, -⟩ | ⟨piece, later, eq, -⟩
  · exact whole
  · cases eq

/-- After the server's answer the client has data, or knows that there is no more. -/
theorem askMore_joint (joint : Joint order rbl blob segs) (empty : rbl.rblData = [])
    (pending : rbl.rblEofPending = false) (n : Nat) :
    Joint order (askMore order n rbl blob).1 (askMore order n rbl blob).2 segs ∧
      ((askMore order n rbl blob).1.rblData = [] →
        (askMore order n rbl blob).1.rblEofPending = true) ∧
      (askMore order n rbl blob).1.rblEof = rbl.rblEof := by
  obtain ⟨⟨pieces, rest, holds, stored, segs_eq, -, -, small⟩, eof, room⟩ := joint
  obtain rfl := holds.data_eq_nil.mp empty
  obtain rfl : segs = rest := segs_eq
  obtain ⟨size, hsize⟩ : ∃ size, size =
      if n > rbl.rblBufferLength - 2 ∧ rbl.rblBufferLength ≤ 65535 - 2 then
        if n + 2 > 65535 then n else n + 2
      else rbl.rblBufferLength := ⟨_, rfl⟩
  have large : 2 < size := by
    rw [hsize]
    split
    next => split <;> omega
    next => exact room
  obtain ⟨pieces, rest, answered⟩ := gobble_answered stored small (Nat.le_refl size)
  unfold askMore serverGetSegment
  simp only [← hsize]
  refine ⟨⟨⟨pieces, rest, ⟨.inl ⟨holds.fragment_eq_zero, answered.data⟩, answered.small⟩,
    answered.stored, answered.segs_eq, fun cut => (answered.cut (beq_iff_eq.mp cut)).2, ?_,
    answered.later⟩, eof, large⟩, ?_, trivial⟩
  · intro ended
    by_cases two : (gobble order size size blob).1.object = 2
    · exact ⟨answered.ended two, by simp [two]⟩
    · simp [two, pending] at ended
  · intro none
    by_contra other
    have two : (gobble order size size blob).1.object ≠ 2 := by
      intro two
      simp [two] at other
    have data := answered.data
    rw [none] at data
    exact answered.filled large two (packSegments_eq_nil.mp data.symm)

/-- The first piece in hand is the front of the first segment. -/
theorem rejoin_front (cut : Bool) (later rest : List (List UInt8)) :
    ∃ behind more, ∀ front, rejoin cut (front :: later) rest = (front ++ behind) :: more := by
  cases later with
  | nil =>
    cases cut with
    | true => exact ⟨rest.headD [], rest.tail, fun front => rfl⟩
    | false => exact ⟨[], rest, fun front => by rw [List.append_nil]; rfl⟩
  | cons next later =>
    exact ⟨[], rejoin cut (next :: later) rest, fun front => by rw [List.append_nil]; rfl⟩

theorem getSegmentLoop_returns {fuel : Nat} (filled : rbl.rblData ≠ [])
    (done : (passOut n result rbl).bufferLength = 0 ∨ (passOut n result rbl).rbl.rblData ≠ [] ∨
      (passOut n result rbl).rbl.rblSegment = false) :
    getSegmentLoop order (fuel + 1) n result rbl blob =
      some ((passOut n result rbl).result, (passOut n result rbl).rbl, blob) := by
  unfold getSegmentLoop
  rw [if_pos filled]
  exact if_pos ⟨filled, done⟩

theorem getSegmentLoop_joins {fuel : Nat} (filled : rbl.rblData ≠ [])
    (more : ¬((passOut n result rbl).bufferLength = 0 ∨ (passOut n result rbl).rbl.rblData ≠ [] ∨
      (passOut n result rbl).rbl.rblSegment = false))
    (pending : (passOut n result rbl).rbl.rblEofPending = false) :
    getSegmentLoop order (fuel + 1) n result rbl blob =
      getSegmentLoop order fuel (passOut n result rbl).bufferLength (passOut n result rbl).result
        (askMore order (passOut n result rbl).bufferLength (passOut n result rbl).rbl blob).1
        (askMore order (passOut n result rbl).bufferLength (passOut n result rbl).rbl blob).2 := by
  have goesOn : ¬(rbl.rblData ≠ [] ∧ ((passOut n result rbl).bufferLength = 0 ∨
      (passOut n result rbl).rbl.rblData ≠ [] ∨ (passOut n result rbl).rbl.rblSegment = false)) :=
    fun done => more done.2
  rw [getSegmentLoop]
  simp only [if_pos filled, if_neg goesOn, pending]
  exact if_neg Bool.false_ne_true

/-- The buffer takes the front of the piece only. -/
theorem getSegmentLoop_part {fuel : Nat} (joint : Joint order rbl blob segs)
    (more : rbl.rblEof = false) (holds : rbl.Holds (piece :: later)) (stored : blob.Stored order rest)
    (segs_eq : segs = rejoin rbl.rblSegment (piece :: later) rest)
    (cutAt : rbl.rblSegment = true → CutAt (piece :: later) rest)
    (pending : rbl.rblEofPending = true → rest = [] ∧ rbl.rblSegment = false)
    (small : ∀ seg ∈ rest, seg.length < 65536) (part : n < piece.length) :
    ∃ rbl' blob', getSegmentLoop order (fuel + 1) n result rbl blob =
        some (⟨(nextSegment n segs).1.status, result.length + (nextSegment n segs).1.length,
          result.bytes ++ (nextSegment n segs).1.bytes⟩, rbl', blob') ∧
      Joint order rbl' blob' (nextSegment n segs).2 := by
  have filled : rbl.rblData ≠ [] := fun none => by
    have absurd := holds.data_eq_nil.mp none
    cases absurd
  obtain ⟨behind, others, front⟩ := rejoin_front rbl.rblSegment later rest
  have inside : n < (piece ++ behind).length := by
    rw [List.length_append]
    omega
  rw [getSegmentLoop_returns filled (.inl (by rw [passOut_part holds part])), passOut_part holds part,
    segs_eq, front, nextSegment_part inside, List.take_append_of_le_length part.le,
    List.drop_append_of_le_length part.le, ← front]
  refine ⟨_, _, rfl, ⟨⟨piece.drop n :: later, rest, ⟨?_, ?_⟩, stored, rfl,
    fun cut => ⟨?_, (cutAt cut).2⟩, pending, small⟩, ?_, joint.room⟩⟩
  · exact .inr ⟨piece.drop n, later, rfl, by simpa using part, by simp, rfl⟩
  · intro other mem
    rcases List.mem_cons.mp mem with rfl | mem
    · have size := holds.small piece (by simp)
      rw [List.length_drop]
      omega
    · exact holds.small other (by simp [mem])
  · intro other mem
    cases later with
    | nil =>
      obtain rfl : piece.drop n = other := by simpa using mem
      simpa using part
    | cons next later => exact (cutAt cut).1 other mem
  · intro ended
    rw [show rbl.rblEof = true from ended] at more
    cases more

/-- The piece is a whole segment, or the rest of one. -/
theorem getSegmentLoop_whole {fuel : Nat} (joint : Joint order rbl blob segs)
    (more : rbl.rblEof = false) (fresh : result.status = .success)
    (holds : rbl.Holds (piece :: later)) (stored : blob.Stored order rest)
    (segs_eq : segs = rejoin rbl.rblSegment (piece :: later) rest)
    (cutAt : rbl.rblSegment = true → CutAt (piece :: later) rest)
    (pending : rbl.rblEofPending = true → rest = [] ∧ rbl.rblSegment = false)
    (small : ∀ seg ∈ rest, seg.length < 65536) (whole : piece.length ≤ n)
    (alone : ¬(later = [] ∧ rbl.rblSegment = true)) :
    ∃ rbl' blob', getSegmentLoop order (fuel + 1) n result rbl blob =
        some (⟨(nextSegment n segs).1.status, result.length + (nextSegment n segs).1.length,
          result.bytes ++ (nextSegment n segs).1.bytes⟩, rbl', blob') ∧
      Joint order rbl' blob' (nextSegment n segs).2 := by
  have filled : rbl.rblData ≠ [] := fun none => by
    have absurd := holds.data_eq_nil.mp none
    cases absurd
  have first : segs = piece :: rejoin rbl.rblSegment later rest := by
    rw [segs_eq]
    by_cases last : later = []
    · have uncut : rbl.rblSegment = false := by
        by_contra cut
        rw [Bool.not_eq_false] at cut
        exact alone ⟨last, cut⟩
      rw [last, uncut]
      rfl
    · exact rejoin_cons last
  have done : (passOut n result rbl).rbl.rblData ≠ [] ∨
      (passOut n result rbl).rbl.rblSegment = false := by
    rw [passOut_whole holds whole]
    by_cases last : later = []
    · right
      by_contra cut
      rw [Bool.not_eq_false] at cut
      exact alone ⟨last, cut⟩
    · exact .inl (mt packSegments_eq_nil.mp last)
  have status : ¬(piece.length = n ∧ later = [] ∧ rbl.rblSegment = true) := fun cut => alone cut.2
  rw [getSegmentLoop_returns filled (.inr done), passOut_whole holds whole, first,
    nextSegment_whole whole, if_neg status, fresh]
  refine ⟨_, _, rfl, ⟨⟨later, rest, ⟨.inl ⟨rfl, rfl⟩, fun other mem => holds.small other
    (by simp [mem])⟩, stored, rfl, fun cut => ⟨?_, (cutAt cut).2⟩, pending, small⟩, ?_, joint.room⟩⟩
  · intro other mem
    have behind : later ≠ [] := fun last => alone ⟨last, cut⟩
    refine (cutAt cut).1 other ?_
    rwa [List.getLast?_cons_of_ne_nil behind]
  · intro ended
    rw [show rbl.rblEof = true from ended] at more
    cases more

/-- The rounds that the loop may still need. -/
def rounds (rbl : Rbl) (n : Nat) : Nat :=
  if rbl.rblData ≠ [] then n + 1 else if rbl.rblEofPending then 1 else n + 2

theorem rounds_askMore {fuel : Nat} (none : (askMore order n rbl blob).1.rblData = [] →
    (askMore order n rbl blob).1.rblEofPending = true) (enough : n + 1 ≤ fuel) :
    rounds (askMore order n rbl blob).1 n ≤ fuel := by
  unfold rounds
  split
  next => exact enough
  next empty =>
    rw [if_pos (none (not_not.mp empty))]
    omega

/-- The loop hands out the next segment of what client and server hold. -/
theorem getSegmentLoop_spec {fuel : Nat} (joint : Joint order rbl blob segs)
    (more : rbl.rblEof = false) (fresh : result.status = .success) (enough : rounds rbl n ≤ fuel) :
    ∃ rbl' blob', getSegmentLoop order fuel n result rbl blob =
        some (⟨(nextSegment n segs).1.status, result.length + (nextSegment n segs).1.length,
          result.bytes ++ (nextSegment n segs).1.bytes⟩, rbl', blob') ∧
      Joint order rbl' blob' (nextSegment n segs).2 := by
  induction fuel generalizing n result rbl blob segs with
  | zero =>
    unfold rounds at enough
    split at enough
    · omega
    · split at enough <;> omega
  | succ fuel ih =>
    obtain ⟨pieces, rest, holds, stored, segs_eq, cutAt, pending, small⟩ := joint.held
    unfold rounds at enough
    cases pieces with
    | nil =>
      have empty := holds.data_eq_nil.mpr rfl
      have none : ¬rbl.rblData ≠ [] := not_not.mpr empty
      rw [if_neg none] at enough
      cases ended : rbl.rblEofPending with
      | true =>
        obtain ⟨rfl, uncut⟩ := pending ended
        obtain rfl : segs = [] := segs_eq
        refine ⟨{ rbl with rblEof := true }, blob, by simp [getSegmentLoop, ended, nextSegment, empty],
          ⟨[], [], ⟨holds.data, by simp⟩, stored, rfl, cutAt, pending, by simp⟩, fun _ => rfl,
          joint.room⟩
      | false =>
        rw [if_neg (by simp [ended])] at enough
        obtain ⟨joint', filled, sameEof⟩ := askMore_joint joint empty ended n
        obtain ⟨rbl', blob', loops, joint''⟩ := ih joint' (sameEof.trans more) fresh
          (rounds_askMore filled (show n + 1 ≤ fuel by omega))
        refine ⟨rbl', blob', ?_, joint''⟩
        rw [getSegmentLoop]
        simpa [empty, ended] using loops
    | cons piece later =>
      rcases Nat.lt_or_ge n piece.length with part | whole
      · exact getSegmentLoop_part joint more holds stored segs_eq cutAt pending small part
      · by_cases join : later = [] ∧ rbl.rblSegment = true
        · obtain ⟨rfl, cut⟩ := join
          have filled : rbl.rblData ≠ [] := fun none => by
            have absurd := holds.data_eq_nil.mp none
            cases absurd
          rw [if_pos filled] at enough
          obtain ⟨last, seg, others, rfl, filledSeg⟩ := cutAt cut
          have nonempty : 0 < piece.length := List.length_pos_of_ne_nil (last piece rfl)
          have notPending : rbl.rblEofPending = false := by
            by_contra ended
            rw [Bool.not_eq_false] at ended
            cases (pending ended).1
          obtain rfl : segs = (piece ++ seg) :: others := by
            rw [segs_eq, cut]
            rfl
          have joint1 : Joint order (passOut n result rbl).rbl blob (seg :: others) := by
            rw [passOut_whole holds whole]
            refine ⟨⟨[], seg :: others, ⟨.inl ⟨rfl, rfl⟩, by simp⟩, stored, rfl,
              fun _ => ⟨by simp, seg, others, rfl, filledSeg⟩, pending, small⟩, fun ended => ?_,
              joint.room⟩
            rw [show rbl.rblEof = true from ended] at more
            cases more
          rw [nextSegment_append whole]
          by_cases full : piece.length = n
          · subst full
            have done : (passOut piece.length result rbl).bufferLength = 0 := by
              rw [passOut_whole holds whole]
              exact Nat.sub_self _
            rw [Nat.sub_self, nextSegment_part (List.length_pos_of_ne_nil filledSeg),
              getSegmentLoop_returns filled (.inl done)]
            refine ⟨_, _, ?_, joint1⟩
            rw [passOut_whole holds whole]
            simp [cut]
          · have goesOn : ¬((passOut n result rbl).bufferLength = 0 ∨
                (passOut n result rbl).rbl.rblData ≠ [] ∨
                (passOut n result rbl).rbl.rblSegment = false) := by
              rw [passOut_whole holds whole]
              simp [cut]
              omega
            have empty : (passOut n result rbl).rbl.rblData = [] := by
              rw [passOut_whole holds whole]
              rfl
            have pending1 : (passOut n result rbl).rbl.rblEofPending = false := by
              rw [passOut_whole holds whole]
              exact notPending
            have more1 : (passOut n result rbl).rbl.rblEof = false := by
              rw [passOut_whole holds whole]
              exact more
            have result_eq : (passOut n result rbl).result =
                ⟨.success, result.length + piece.length, result.bytes ++ piece⟩ := by
              rw [passOut_whole holds whole]
              simp [full, fresh]
            have left : (passOut n result rbl).bufferLength = n - piece.length := by
              rw [passOut_whole holds whole]
            obtain ⟨joint2, none, sameEof⟩ :=
              askMore_joint joint1 empty pending1 (passOut n result rbl).bufferLength
            obtain ⟨rbl', blob', loops, joint3⟩ := ih joint2 (sameEof.trans more1)
              (show (passOut n result rbl).result.status = .success by rw [result_eq])
              (rounds_askMore none (show _ ≤ fuel by omega))
            rw [getSegmentLoop_joins filled goesOn pending1, loops, result_eq, left]
            rw [left] at joint3
            refine ⟨rbl', blob', ?_, joint3⟩
            simp [Nat.add_assoc]
        · exact getSegmentLoop_whole joint more fresh holds stored segs_eq cutAt pending small whole join

theorem gdsGetSegment_spec (joint : Joint order rbl blob segs) (n : Nat) :
    ∃ rbl' blob', gdsGetSegment order n rbl blob = some ((nextSegment n segs).1, rbl', blob') ∧
      Joint order rbl' blob' (nextSegment n segs).2 := by
  unfold gdsGetSegment
  cases more : rbl.rblEof with
  | true =>
    obtain rfl := joint.eof more
    exact ⟨rbl, blob, rfl, joint⟩
  | false =>
    have enough : rounds rbl n ≤ n + 2 := by
      unfold rounds
      split
      next => omega
      next => split <;> omega
    obtain ⟨rbl', blob', loops, joint'⟩ := @getSegmentLoop_spec order segs rbl blob
      ⟨.success, 0, []⟩ n (n + 2) joint more rfl enough
    refine ⟨rbl', blob', ?_, joint'⟩
    rw [if_neg Bool.false_ne_true, loops]
    simp

theorem gdsGetSegments_eq (joint : Joint order rbl blob segs) {direct : Blb}
    (stored : direct.Stored order segs) (lengths : List Nat) :
    gdsGetSegments order lengths rbl blob = getSegments order lengths direct := by
  induction lengths generalizing rbl blob segs direct with
  | nil => rfl
  | cons n lengths ih =>
    obtain ⟨rbl', blob', remote, joint'⟩ := gdsGetSegment_spec joint n
    obtain ⟨direct', localResult, stored'⟩ := getSegment_stored stored n
    unfold gdsGetSegments getSegments
    simp only [remote, localResult, ih joint' stored']

theorem openedRbl_joint (stored : blob.Stored order segs) (small : ∀ seg ∈ segs, seg.length < 65536) :
    Joint order openedRbl blob segs := by
  refine ⟨⟨[], segs, ⟨.inl ⟨rfl, rfl⟩, by simp⟩, stored, rfl, fun cut => ?_, fun pending => ?_,
    small⟩, fun eof => ?_, by decide⟩
  · cases cut
  · cases pending
  · cases eof

/-- A batch is put segment by segment. -/
theorem issueBatch_pack {fuel : Nat} (small : ∀ piece ∈ pieces, piece.length < 65536)
    (enough : (packSegments pieces).length ≤ fuel) : issueBatch fuel (packSegments pieces) = pieces := by
  induction pieces generalizing fuel with
  | nil => cases fuel <;> rfl
  | cons piece pieces ih =>
    obtain ⟨fuel, rfl⟩ : ∃ k, fuel = k + 1 := ⟨fuel - 1, by simp [countWord] at enough; omega⟩
    have value := countWord_value (small piece (by simp))
    rw [packSegments_cons, countWord]
    show (piece ++ packSegments pieces).take _ ::
      issueBatch fuel ((piece ++ packSegments pieces).drop _) = _
    rw [value, List.take_left, List.drop_left, ih (fun other mem => small other (by simp [mem]))]
    simp [countWord] at enough
    omega

theorem gdsCloseBlob_issues {created : CreatedRbl} (small : ∀ piece ∈ pieces, piece.length < 65536)
    (held : created.rblBuffer = packSegments pieces) :
    (gdsCloseBlob created).flatMap serverPutSegment = pieces := by
  unfold gdsCloseBlob
  rw [held]
  by_cases none : pieces = []
  · subst none
    rfl
  · rw [if_pos (mt packSegments_eq_nil.mp none)]
    simpa [serverPutSegment] using issueBatch_pack small (Nat.le_refl _)

/-- One call: what goes out and what stays are the segments so far. -/
theorem gdsPutSegment_issues {created : CreatedRbl} {seg : List UInt8}
    (small : ∀ piece ∈ pieces, piece.length < 65536) (smallSeg : seg.length < 65536)
    (held : created.rblBuffer = packSegments pieces) :
    ∃ left, (gdsPutSegment seg created).2.rblBuffer = packSegments left ∧
      (∀ piece ∈ left, piece.length < 65536) ∧
      (gdsPutSegment seg created).1.flatMap serverPutSegment ++ left = pieces ++ [seg] := by
  have flush := gdsCloseBlob_issues small held
  unfold gdsCloseBlob at flush
  unfold gdsPutSegment
  simp only
  split
  next full =>
    split
    next alone =>
      refine ⟨[], rfl, by simp, ?_⟩
      rw [List.flatMap_append, flush, List.append_nil]
      rfl
    next =>
      refine ⟨[seg], by simp, by simpa using smallSeg, ?_⟩
      rw [flush]
  next =>
    refine ⟨pieces ++ [seg], by simp [held, packSegments], fun other mem => ?_, rfl⟩
    rcases List.mem_append.mp mem with mem | mem
    · exact small other mem
    · rw [List.mem_singleton.mp mem]
      exact smallSeg

theorem gdsPutSegments_issues {created : CreatedRbl} (small : ∀ piece ∈ pieces, piece.length < 65536)
    (smallSegs : ∀ seg ∈ segs, seg.length < 65536) (held : created.rblBuffer = packSegments pieces) :
    (gdsPutSegments segs created).flatMap serverPutSegment = pieces ++ segs := by
  induction segs generalizing pieces created with
  | nil =>
    rw [List.append_nil]
    exact gdsCloseBlob_issues small held
  | cons seg segs ih =>
    obtain ⟨left, held', small', issued⟩ :=
      gdsPutSegment_issues small (smallSegs seg (by simp)) held
    have later := ih small' (fun other mem => smallSegs other (by simp [mem])) held'
    unfold gdsPutSegments
    rw [List.flatMap_append, later, ← List.append_assoc, issued, List.append_assoc]
    rfl

end

/-- What a client gets from a blob is what `BLB_get_segment` gives, and what it puts is put. -/
theorem remote_segments_are_local {order : ByteOrder} {blob : Blb} {segs : List (List UInt8)}
    (stored : blob.Stored order segs) (small : ∀ seg ∈ segs, seg.length < 65536) :
    (∀ lengths, gdsGetSegments order lengths openedRbl blob = getSegments order lengths blob) ∧
      ∀ puts : List (List UInt8), (∀ seg ∈ puts, seg.length < 65536) →
        (gdsPutSegments puts createdRbl).flatMap serverPutSegment = puts :=
  ⟨fun lengths => gdsGetSegments_eq (openedRbl_joint stored small) stored lengths,
    fun puts smallPuts => @gdsPutSegments_issues [] puts createdRbl (by simp) smallPuts rfl⟩

/-- Two pages; the last byte of the first one is unused. -/
def pagedBlob : Blb := ⟨false, false, [], [[3, 0, 1, 2, 3, 9], [2, 0, 4, 5, 0, 0]], 0⟩

theorem pagedBlob_stored : pagedBlob.Stored .vax [[1, 2, 3], [4, 5], []] := by
  refine ⟨⟨[], [[1, 2, 3], [4, 5], []], ?_, rfl, rfl⟩, fun eof => ?_, fun started => ?_⟩
  · have last : BlobLaid .vax [0, 0] [] [] [[]] := .count rfl .done
    have second : BlobLaid .vax [2, 0, 4, 5, 0, 0] [] [] [[4, 5], []] :=
      .count rfl (.byte (.byte last))
    have first : BlobLaid .vax [3, 0, 1, 2, 3, 9] [[2, 0, 4, 5, 0, 0]] [] [[1, 2, 3], [4, 5], []] :=
      .count rfl (.byte (.byte (.byte (.unused (by decide) second))))
    exact .page (by decide) first
  · cases eof
  · cases started

theorem remote_segments_are_local_paged :
    gdsGetSegments .vax [2, 0, 5, 2, 3, 1] openedRbl pagedBlob =
        getSegments .vax [2, 0, 5, 2, 3, 1] pagedBlob ∧
      (gdsPutSegments [[1, 2, 3], [], [4]] createdRbl).flatMap serverPutSegment =
        [[1, 2, 3], [], [4]] :=
  have equal := remote_segments_are_local pagedBlob_stored (by decide)
  ⟨equal.1 [2, 0, 5, 2, 3, 1], equal.2 [[1, 2, 3], [], [4]] (by decide)⟩

end InterBase
