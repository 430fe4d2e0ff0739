import InterBase.Library.Emission
import InterBase.Wal

namespace InterBase

namespace Wal

open TornWrite Emission

/-- A log file as the system has it. Its header is kept decoded; what is at its place among the bytes
is not looked at. -/
structure LogFile where
  header : Walfh
  bytes : List UInt8

/-- The logs there are: by the name of the file and the offset of the partition. -/
abbrev LogFiles := Name → Int → Option LogFile

inductive LogError where
  | logrHeaderSmall
  | logbSmall
  | logfUnexpectedEof
  | logrIncomplete
  | loghSmall
  | loghInvVersion
  | loghDiffDbname
deriving Repr, DecidableEq

/-- What `WAL_FORMAT_ERROR` or `WAL_ERROR` puts into the status vector. -/
structure LogStatus where
  code : LogError
  logname : Name
  offset : Option Int
deriving Repr, DecidableEq

/-- What a routine of the reader returns. A `fault` is a use of memory that the routine does not have,
or that nobody wrote: it has no defined result. A failure without a status is one of the system's. -/
inductive Ret where
  | success
  | endOfLog
  | failure (status : Option LogStatus)
  | fault
deriving Repr, DecidableEq

/-- `WALR`, with the file in the place of `walr_fd`. Of the two buffers it has the bytes that were
written into them. -/
structure Walr where
  logname : Name
  logPartitionOffset : Int
  fd : List UInt8
  /-- Where the next `LLIO_read` starts. -/
  filePos : Nat
  nextBsn : Int
  eof : Bool
  readAheadBytes : Nat
  logHeader : Walfh
  offset : Int
  recOffset : Nat
  readAheadBuffer : List UInt8
  buffer : List UInt8

/-- `WALRS`. -/
structure Walrs where
  dbname : Name
  maxLogs : Nat
  curLog : Nat
  logs : List (Name × Int)
  timestamp : Option (Int × Int)
  eofScan : Bool
  dontScanTailLogs : Bool
  walr : Option Walr

/-- A log record as `WALR_get` returns it. -/
structure LogRecord where
  bytes : List UInt8
  seqno : Int
  offset : Int
deriving Repr, DecidableEq

/-- What `LLIO_read` reads of the file from an offset on. -/
def llioRead (fd : List UInt8) (pos len : Nat) : List UInt8 := (fd.drop pos).take len

/-- `LLIO_read` with `LLIO_SEEK_BEGIN`, which fails where the offset is negative. -/
def llioReadAt (fd : List UInt8) (pos : Int) (len : Nat) : Option (List UInt8) :=
  if pos < 0 then none else some (llioRead fd pos.toNat len)

/-- `WALF_open_log_file`. -/
def walfOpenLogFile (files : LogFiles) (dbname logname : Name) (logPartitionOffset : Int) :
    Except Ret LogFile :=
  match files logname logPartitionOffset with
  | none => .error (.failure none)
  | some file =>
    if logPartitionOffset < 0 then .error (.failure none)
    else if (file.bytes.length : Int) - logPartitionOffset < sizeofWalfh then
      .error (.failure (some ⟨.loghSmall, logname, none⟩))
    else if file.header.version ≠ walfhVersion then
      .error (.failure (some ⟨.loghInvVersion, logname, none⟩))
    else if dbname ≠ file.header.dbname then
      .error (.failure (some ⟨.loghDiffDbname, logname, none⟩))
    else .ok file

/-- `get_next_logname`. -/
def getNextLogname (s : Walrs) (w : Walr) : Option (Name × Int × Walrs) :=
  if s.maxLogs ≤ s.curLog then
    if s.dontScanTailLogs then none
    else if 1 < w.logHeader.nextLogname.length then
      some (w.logHeader.nextLogname, w.logHeader.nextLogPartitionOffset, s)
    else none
  else
    match s.logs[s.curLog]? with
    | some (logname, logPartitionOffset) =>
      some (logname, logPartitionOffset, { s with curLog := s.curLog + 1 })
    | none => none

/-- Whether the header that was read ahead is later than the time the scan goes up to. -/
def pastTimestamp (limit : Option (Int × Int)) (header : List UInt8) : Bool :=
  match limit with
  | none => false
  | some timestamp =>
    let blk := timestampOf header
    blk.1 > timestamp.1 || (blk.1 = timestamp.1 && blk.2 > timestamp.2)

/-- What `read_next_block` does with a block whose lengths agree: `buffer` has it and `got` bytes were
read of it and of the header behind it. -/
def checkNextHeader (s : Walrs) (w : Walr) (buffer : List UInt8) (got : Nat) : Ret × Walrs :=
  let len := blklenOf buffer
  let w' := { w with
    buffer := buffer, filePos := w.filePos + got
    offset := w.offset + blklenOf w.buffer, recOffset := blkHdrovhd }
  if (got : Int) = (len : Int) - w.readAheadBytes then
    if bsnOf buffer < w.logHeader.hibsn then
      (.failure (some ⟨.logfUnexpectedEof, w.logname, some w.offset⟩),
        { s with walr := some { w with buffer := buffer, filePos := w.filePos + got } })
    else (.success, { s with walr := some { w' with eof := true } })
  else if got < len then (.success, { s with walr := some { w' with eof := true } })
  else
    let next := (buffer.drop len).take w.readAheadBytes
    (.success, { s with
      eofScan := s.eofScan || pastTimestamp s.timestamp next
      walr := some { w' with
        readAheadBuffer := next
        eof := w.eof || decide (bsnOf next ≠ w.nextBsn)
        nextBsn := slong (w.nextBsn + 1) } })

/-- `read_next_block`, where it stays in the log file. -/
def readBlock (s : Walrs) (w : Walr) : Ret × Walrs :=
  let front := overwrite 0 w.buffer 0 w.readAheadBuffer
  let len := blklenOf front
  let data := llioRead w.fd w.filePos len
  let buffer := overwrite 0 front w.readAheadBytes data
  let w' := { w with buffer := buffer, filePos := w.filePos + data.length }
  -- `walr_buffer` has `MAX_WALBUFLEN` bytes behind the ones that were read ahead
  if maxWalbuflen < data.length then (.fault, s)
  else if (data.length : Int) < (len : Int) - w.readAheadBytes then
    (.endOfLog, { s with walr := some w' })
  else if len < blkTailovhd ∨ buffer.length < len then (.fault, s)
  else if ushortAt buffer (len - blkTailovhd) ≠ len then (.endOfLog, { s with walr := some w' })
  else checkNextHeader s w buffer data.length

/-- The part of `log_open` that finds the block and, for a record's offset, the record in it. -/
def locateBlock (file : LogFile) (logname : Name) (logPartitionOffset : Int) (offset : Nat) :
    Except Ret (Int × Nat) :=
  if offset = 0 then .ok (file.header.offset, 0)
  else
    let sectorOffset := offset - offset % logSectorSize
    match llioReadAt file.bytes (logPartitionOffset + sectorOffset) (2 * logSectorSize) with
    | none => .error (.failure none)
    | some sectorBytes =>
      if sectorBytes.length < offset - sectorOffset + recHdrovhd then
        .error (.failure (some ⟨.logrHeaderSmall, logname, some offset⟩))
      else if sectorBytes.take recHdrovhd = logTerminatorBlock.take recHdrovhd then .error .endOfLog
      else
        let recOffset := ushortAt sectorBytes (offset % logSectorSize + 2)
        .ok ((offset : Int) - recOffset, recOffset)

/-- The handle that `log_open` builds over the header of the starting block. -/
def newWalr (file : LogFile) (logname : Name) (logPartitionOffset blkOffset : Int)
    (sectorBytes : List UInt8) : Walr where
  logname := logname
  logPartitionOffset := logPartitionOffset
  fd := file.bytes
  filePos := (logPartitionOffset + blkOffset).toNat + sectorBytes.length
  nextBsn := slong (bsnOf sectorBytes + 1)
  eof := false
  readAheadBytes := if file.header.raw then logSectorSize else blkHdrovhd
  logHeader := file.header
  offset := blkOffset
  recOffset := 0
  readAheadBuffer := sectorBytes
  buffer := ushortBytes 0

/-- The end of `log_open`: the first block, of a handle that has no end of file yet. -/
def readFirstBlock (s : Walrs) (w : Walr) (offset recOffset : Nat) : Ret × Walrs :=
  let opened := { s with walr := some w }
  let first := if s.eofScan then (.endOfLog, opened) else readBlock opened w
  match first with
  | (.success, s') =>
    if 0 < offset then
      (.success, { s' with walr := s'.walr.map fun w' => { w' with recOffset := recOffset } })
    else (.success, s')
  | (ret, s') => (ret, { s' with walr := none })

/-- `log_open`. -/
def logOpen (files : LogFiles) (s : Walrs) (logname : Name) (logPartitionOffset : Int)
    (offset : Nat) : Ret × Walrs :=
  match walfOpenLogFile files s.dbname logname logPartitionOffset with
  | .error ret => (ret, s)
  | .ok file =>
    match locateBlock file logname logPartitionOffset offset with
    | .error ret => (ret, s)
    | .ok (blkOffset, recOffset) =>
      let readAheadBytes := if file.header.raw then logSectorSize else blkHdrovhd
      match llioReadAt file.bytes (logPartitionOffset + blkOffset) readAheadBytes with
      | none => (.failure none, s)
      | some sectorBytes =>
        if sectorBytes.length = 0 then (.endOfLog, s)
        else if sectorBytes.length < blkHdrovhd then
          (.failure (some ⟨.logbSmall, logname, some blkOffset⟩), s)
        else if sectorBytes.take blkHdrovhd = logTerminatorBlock.take blkHdrovhd then (.endOfLog, s)
        else
          readFirstBlock s (newWalr file logname logPartitionOffset blkOffset sectorBytes) offset
            recOffset

/-- `read_next_block`. -/
def readNextBlock (files : LogFiles) (s : Walrs) (w : Walr) : Ret × Walrs :=
  if s.eofScan then (.endOfLog, s)
  else if w.eof then
    match getNextLogname s w with
    | none => (.endOfLog, s)
    | some (logname, logPartitionOffset, s') =>
      match logOpen files s' logname logPartitionOffset 0 with
      | (.success, s'') => (.success, s'')
      | (.fault, s'') => (.fault, s'')
      | (_, s'') => (.endOfLog, s'')
  else readBlock s w

/-- `WALR_get` from the record header on. -/
def getRecord (s : Walrs) (w : Walr) : Step Walrs LogRecord Ret :=
  let remainingBlockBytes : Int := (lenOf w.buffer : Int) - w.recOffset
  if w.buffer.length < w.recOffset + recHdrovhd then .stop .fault s
  else
    let reclen := ushortAt w.buffer w.recOffset
    if reclen = 0 then
      .skip { s with walr := some { w with recOffset := w.recOffset + recHdrovhd } }
    else
      let logOffset := w.offset + w.recOffset
      if remainingBlockBytes - recHdrovhd < reclen then
        .stop (.failure (some ⟨.logrIncomplete, w.logname, some logOffset⟩)) s
      else if w.buffer.length < w.recOffset + recHdrovhd + reclen then .stop .fault s
      else
        .emit ⟨(w.buffer.drop (w.recOffset + recHdrovhd)).take reclen, w.logHeader.seqno, logOffset⟩
          { s with walr := some { w with recOffset := w.recOffset + recHdrovhd + reclen } }

/-- `WALR_get` after `read_next_block`. -/
def getFromBlock : Ret × Walrs → Step Walrs LogRecord Ret
  | (.success, s) =>
    match s.walr with
    | none => .stop .fault s
    | some w => getRecord s w
  | (ret, s) => .stop ret s

/-- The body of `WALR_get`; where it calls itself, for a record without bytes, it goes on. -/
def walrGet (files : LogFiles) (s : Walrs) : Step Walrs LogRecord Ret :=
  match s.walr with
  | none => .stop .fault s
  | some w =>
    -- `REC_HDROVHD` is a `sizeof`, so a count below zero is not less than it
    if lenOf w.buffer < w.recOffset ∨ w.recOffset + recHdrovhd ≤ lenOf w.buffer then getRecord s w
    else getFromBlock (readNextBlock files s w)

/-- `WALR_open` on the log and those after it. -/
def walrOpen (files : LogFiles) (dbname : Name) (log : Name × Int) (more : List (Name × Int))
    (firstLogOffset : Nat) (timestamp : Option (Int × Int)) (dontScanTailLogs : Bool) :
    Ret × Walrs :=
  let walrset : Walrs := ⟨dbname, (log :: more).length, 0, log :: more, timestamp, false,
    dontScanTailLogs, none⟩
  match logOpen files walrset log.1 log.2 firstLogOffset with
  | (.success, s) => (.success, { s with curLog := s.curLog + 1 })
  | (ret, s) => (ret, s)

/-- What a caller does that wants all of a log: it opens it and gets records until `WALR_get` returns
something else than success. -/
def readLog (files : LogFiles) (fuel : Nat) (dbname : Name) (log : Name × Int)
    (dontScanTailLogs : Bool) : Option (List LogRecord × Ret × Walrs) :=
  match walrOpen files dbname log [] 0 none dontScanTailLogs with
  | (.success, s) => run (walrGet files) fuel s
  | (ret, s) => some ([], ret, s)

end Wal

end InterBase
