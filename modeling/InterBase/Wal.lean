import InterBase.Library.TornWrite
import InterBase.Vax

namespace InterBase

namespace Wal

open TornWrite

/-- A name as the bytes in front of the terminating zero. -/
abbrev Name := List UInt8

def logSectorSize : Nat := 512

def walTerminatorChar : UInt8 := 255

def walTerminatorBlklen : Nat := logSectorSize

/-- `log_terminator_block`. -/
def logTerminatorBlock : List UInt8 := List.replicate walTerminatorBlklen walTerminatorChar

def maxWalbuflen : Nat := 64000

def walfhLength : Nat := 2048

/-- `sizeof (struct walfh)`. -/
def sizeofWalfh : Nat := 80

def walfhVersion : Nat := 4

def walfhRaw : Nat := 16

/-- The fields of the log file header that reading a log and writing its blocks look at. -/
structure Walfh where
  version : Nat
  dbname : Name
  seqno : Int
  logPartitionOffset : Int
  length : Nat
  hibsn : Int
  flags : Nat
  offset : Int
  nextLogname : Name
  nextLogPartitionOffset : Int
deriving Repr, DecidableEq

def Walfh.raw (h : Walfh) : Bool := h.flags &&& walfhRaw ≠ 0

/-- A `USHORT` as it lies in memory. -/
def ushortBytes (n : Nat) : List UInt8 := [UInt8.ofNat (n % 256), UInt8.ofNat (n / 256)]

/-- An `SLONG` as it lies in memory. -/
def slongBytes (n : Int) : List UInt8 := signedBytes 3 n

def ushortAt (bytes : List UInt8) (i : Nat) : Nat :=
  (bytes.getD i 0).toNat + 256 * (bytes.getD (i + 1) 0).toNat

def slongAt (bytes : List UInt8) (i : Nat) : Int := vaxInteger ((bytes.drop i).take 4)

/-- `REC_HDROVHD`. -/
def recHdrovhd : Nat := 4

/-- `BLK_HDROVHD`. -/
def blkHdrovhd : Nat := 16

/-- `BLK_TAILOVHD`. -/
def blkTailovhd : Nat := 2

/-- `WALBLK_HDR`. -/
structure WalblkHdr where
  blklen : Nat
  len : Nat
  bsn : Int
  timestamp : Int × Int

def WalblkHdr.bytes (h : WalblkHdr) : List UInt8 :=
  ushortBytes h.blklen ++ (ushortBytes h.len ++ (slongBytes h.bsn ++
    (slongBytes h.timestamp.1 ++ slongBytes h.timestamp.2)))

/-- `walblk_hdr_blklen` of the header at the front of the bytes. -/
def blklenOf (bytes : List UInt8) : Nat := ushortAt bytes 0

/-- `walblk_hdr_len`. -/
def lenOf (bytes : List UInt8) : Nat := ushortAt bytes 2

/-- `walblk_hdr_bsn`. -/
def bsnOf (bytes : List UInt8) : Int := slongAt bytes 4

/-- `walblk_hdr_timestamp`. -/
def timestampOf (bytes : List UInt8) : Int × Int := (slongAt bytes 8, slongAt bytes 12)

/-- `WALBLK`. -/
structure Walblk where
  curOffset : Nat
  roundupOffset : Nat
  buf : List UInt8

/-- `copy_buffer`, with the two sources one behind the other. -/
def copyBuffer (wblk : Walblk) (source : List UInt8) : Walblk :=
  let cur := if wblk.curOffset = 0 then blkHdrovhd else wblk.curOffset
  let totalCount := ushort source.length
  { wblk with
    curOffset := ushort (cur + (totalCount + recHdrovhd))
    buf := overwrite 0 wblk.buf cur (ushortBytes totalCount ++ (ushortBytes cur ++ source)) }

/-- `WALC_setup_buffer_block`. -/
def walcSetupBufferBlock (roundupSize : Nat) (wblk : Walblk) : Walblk :=
  let roundupOffset := ushort (wblk.curOffset + blkTailovhd)
  if roundupSize ≠ 0 then
    let paddingBytes := ushort (roundupSize - roundupOffset % roundupSize)
    { wblk with roundupOffset := ushort (roundupOffset + paddingBytes % roundupSize) }
  else { wblk with roundupOffset := roundupOffset }

/-- `prepare_wal_block`. -/
def prepareWalBlock (blkseqno : Int) (timestamp : Int × Int) (wblk : Walblk) : Walblk :=
  let len := wblk.roundupOffset
  let header : WalblkHdr := ⟨len, wblk.curOffset, blkseqno, timestamp⟩
  { wblk with
    buf := overwrite 0 (overwrite 0 wblk.buf 0 header.bytes) (len - blkTailovhd) (ushortBytes len) }

/-- What `write_wal_block` hands to `LLIO_write`. -/
def walBlockBytes (wblk : Walblk) : List UInt8 := wblk.buf.take wblk.roundupOffset

/-- `write_log_header_and_reposition`, on what is behind the log file header: the terminator goes to
`walfh_length`, where the next block will be. -/
def writeTerminator (header : Walfh) (bytes : List UInt8) : List UInt8 :=
  overwrite 0 bytes (header.logPartitionOffset + header.length).toNat logTerminatorBlock

/-- The size in the file of a record that `wal_put2` puts into a buffer. -/
def recordSize (source : List UInt8) : Nat := recHdrovhd + source.length

/-- What the buffer takes up to the last of its records: the test of `wal_put2` leaves room for the
trailing length. -/
def recordsEnd (records : List (List UInt8)) : Nat := blkHdrovhd + (records.map recordSize).sum

/-- A block of the log: what the buffer had in it, the records put into it, and what
`prepare_wal_block` gives it. `WALC` keeps `wals_bufsize` within `MAX_WALBUFLEN`, and the roundup size
is a sector or there is none. -/
structure Block where
  memory : List UInt8
  records : List (List UInt8)
  roundupSize : Nat
  bsn : Int
  timestamp : Int × Int
  nonempty : records ≠ []
  fits : recordsEnd records + blkTailovhd ≤ maxWalbuflen
  memory_length : memory.length = maxWalbuflen
  roundupSize_eq : roundupSize = 0 ∨ roundupSize = logSectorSize
  bsn_mem : -2147483648 ≤ bsn ∧ bsn < 2147483648

/-- The buffer with the records and the header, ready to be written. -/
def Block.walblk (b : Block) : Walblk :=
  prepareWalBlock b.bsn b.timestamp
    (walcSetupBufferBlock b.roundupSize (b.records.foldl copyBuffer ⟨0, 0, b.memory⟩))

/-- The block in the file. -/
def Block.bytes (b : Block) : List UInt8 := walBlockBytes b.walblk

/-- `walblk_hdr_blklen`. -/
def Block.blklen (b : Block) : Nat := b.walblk.roundupOffset

end Wal

end InterBase
