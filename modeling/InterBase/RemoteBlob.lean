import InterBase.Blb

namespace InterBase

/-- The client's side of a blob that is open for reading. -/
structure Rbl where
  /-- The `rbl_length` bytes from `rbl_ptr` on. -/
  rblData : List UInt8
  rblFragmentLength : Nat
  rblBufferLength : Nat
  rblSegment : Bool
  rblEof : Bool
  rblEofPending : Bool

/-- The count word of a segment on the line. -/
def countWord (n : Nat) : List UInt8 := [UInt8.ofNat n, UInt8.ofNat (n / 256)]

/-- What the server answers: the packed segments and `p_resp_object`. -/
structure SegmentResponse where
  data : List UInt8
  object : Nat

section

variable (order : ByteOrder)

/-- Gobble up a buffer's worth of segments. -/
def gobble : Nat → Nat → Blb → SegmentResponse × Blb
  | 0, _, blob => (⟨[], 0⟩, blob)
  | fuel + 1, bufferLength, blob =>
    if bufferLength > 2 then
      let bufferLength := bufferLength - 2
      let (got, blob) := getSegment order bufferLength blob
      match got.status with
      | .segstrEof => (⟨[], 2⟩, blob)
      | .segment => (⟨countWord got.length ++ got.bytes, 1⟩, blob)
      | .success =>
        let (response, blob) := gobble fuel (bufferLength - got.length) blob
        (⟨countWord got.length ++ got.bytes ++ response.data, response.object⟩, blob)
    else (⟨[], 0⟩, blob)

/-- `get_segment` of the server. Each round takes two bytes of the buffer at least. -/
def serverGetSegment (bufferLength : Nat) (blob : Blb) : SegmentResponse × Blb :=
  gobble order bufferLength bufferLength blob

/-- The client asks for more data, with a larger buffer if the caller has one. -/
def askMore (bufferLength : Nat) (rbl : Rbl) (blob : Blb) : Rbl × Blb :=
  let rblBufferLength :=
    if bufferLength > rbl.rblBufferLength - 2 ∧ rbl.rblBufferLength ≤ 65535 - 2 then
      if bufferLength + 2 > 65535 then bufferLength else bufferLength + 2
    else rbl.rblBufferLength
  let (response, blob) := serverGetSegment order rblBufferLength blob
  ({ rbl with
    rblData := response.data
    rblBufferLength
    rblSegment := response.object == 1
    rblEofPending := if response.object = 2 then true else rbl.rblEofPending }, blob)

/-- One pass of the client's loop over the data it has. -/
structure PassOut where
  result : SegmentResult
  rbl : Rbl
  bufferLength : Nat

def passOut (bufferLength : Nat) (result : SegmentResult) (rbl : Rbl) : PassOut :=
  let (l, p) :=
    if rbl.rblFragmentLength ≠ 0 then (rbl.rblFragmentLength, rbl.rblData)
    else ((rbl.rblData[0]?.getD 0).toNat + 256 * (rbl.rblData[1]?.getD 0).toNat, rbl.rblData.drop 2)
  let fragment := if l > bufferLength then l - bufferLength else 0
  let status := if l > bufferLength then .segment else result.status
  let l := if l > bufferLength then bufferLength else l
  let status := if l = bufferLength ∧ l = p.length ∧ rbl.rblSegment then .segment else status
  { result := ⟨status, result.length + l, result.bytes ++ p.take l⟩
    rbl := { rbl with rblData := p.drop l, rblFragmentLength := fragment }
    bufferLength := bufferLength - l }

/-- The loop of `GDS_GET_SEGMENT`; without fuel it has not come to an end. -/
def getSegmentLoop : Nat → Nat → SegmentResult → Rbl → Blb → Option (SegmentResult × Rbl × Blb)
  | 0, _, _, _, _ => none
  | fuel + 1, bufferLength, result, rbl, blob =>
    let passed := if rbl.rblData ≠ [] then passOut bufferLength result rbl else ⟨result, rbl, bufferLength⟩
    if rbl.rblData ≠ [] ∧
        (passed.bufferLength = 0 ∨ passed.rbl.rblData ≠ [] ∨ passed.rbl.rblSegment = false) then
      some (passed.result, passed.rbl, blob)
    else if passed.rbl.rblEofPending then
      some ({ passed.result with status := .segstrEof }, { passed.rbl with rblEof := true }, blob)
    else
      let (rbl, blob) := askMore order passed.bufferLength passed.rbl blob
      getSegmentLoop fuel passed.bufferLength passed.result rbl blob

/-- `GDS_GET_SEGMENT`. A round hands out a byte, or asks for data, or is the last. -/
def gdsGetSegment (bufferLength : Nat) (rbl : Rbl) (blob : Blb) :
    Option (SegmentResult × Rbl × Blb) :=
  if rbl.rblEof then some (⟨.segstrEof, 0, []⟩, rbl, blob)
  else getSegmentLoop order (bufferLength + 2) bufferLength ⟨.success, 0, []⟩ rbl blob

/-- A call for each buffer length, as far as the calls return. -/
def gdsGetSegments : List Nat → Rbl → Blb → List SegmentResult
  | [], _, _ => []
  | bufferLength :: lengths, rbl, blob =>
    match gdsGetSegment order bufferLength rbl blob with
    | none => []
    | some (result, rbl, blob) => result :: gdsGetSegments lengths rbl blob

end

/-- The client's side of a blob after `GDS_OPEN_BLOB`. -/
def openedRbl : Rbl := ⟨[], 0, 16384, false, false, false⟩

/-- The client's side of a blob that has been created: `rbl_buffer` up to `rbl_ptr`. -/
structure CreatedRbl where
  rblBuffer : List UInt8
  rblBufferLength : Nat

def createdRbl : CreatedRbl := ⟨[], 16384⟩

inductive PutPacket where
  | putSegment (segment : List UInt8)
  | batchSegments (buffer : List UInt8)
deriving Repr, DecidableEq

/-- `GDS_PUT_SEGMENT`: the packets that `send_blob` sends and what stays in the buffer. -/
def gdsPutSegment (segment : List UInt8) (rbl : CreatedRbl) : List PutPacket × CreatedRbl :=
  let room := rbl.rblBufferLength - rbl.rblBuffer.length
  let word := countWord segment.length
  if segment.length + 2 > room then
    let flushed := if rbl.rblBuffer ≠ [] then [.batchSegments rbl.rblBuffer] else []
    if segment.length + 2 > rbl.rblBufferLength then
      (flushed ++ [.putSegment segment], { rbl with rblBuffer := [] })
    else (flushed, { rbl with rblBuffer := word ++ segment })
  else ([], { rbl with rblBuffer := rbl.rblBuffer ++ word ++ segment })

def gdsCloseBlob (rbl : CreatedRbl) : List PutPacket :=
  if rbl.rblBuffer ≠ [] then [.batchSegments rbl.rblBuffer] else []

def gdsPutSegments : List (List UInt8) → CreatedRbl → List PutPacket
  | [], rbl => gdsCloseBlob rbl
  | segment :: segments, rbl =>
    let (packets, rbl) := gdsPutSegment segment rbl
    packets ++ gdsPutSegments segments rbl

/-- The loop of the server's `put_segment` over a batch: the segments it puts. -/
def issueBatch : Nat → List UInt8 → List (List UInt8)
  | fuel + 1, c0 :: c1 :: p =>
    let length := c0.toNat + 256 * c1.toNat
    p.take length :: issueBatch fuel (p.drop length)
  | _, _ => []

/-- `put_segment` of the server. -/
def serverPutSegment : PutPacket → List (List UInt8)
  | .putSegment segment => [segment]
  | .batchSegments buffer => issueBatch buffer.length buffer

end InterBase
