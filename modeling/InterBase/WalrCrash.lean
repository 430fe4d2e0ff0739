import InterBase.WalrExact

namespace InterBase

namespace Wal

open TornWrite Emission

/-- Blocks with the sequence numbers from `n` on, as `prepare_wal_block` gives them. -/
def NumberedFrom : Int → List Block → Prop
  | _, [] => True
  | n, b :: bs => b.bsn = n ∧ NumberedFrom (n + 1) bs

/-- A log that `setup_log_header_info` began in a file, the blocks that were written into it, and the
one of which a crash left `k` bytes. -/
structure NewLog where
  header : Walfh
  old : List UInt8
  written : List Block
  torn : Block
  k : Nat
  partition_nonneg : 0 ≤ header.logPartitionOffset
  version : header.version = walfhVersion
  offset : header.offset = walfhLength
  length : header.length = walfhLength
  nextLogname : header.nextLogname = []
  raw : header.raw = true → ∀ b ∈ written, b.roundupSize = logSectorSize
  numbered : NumberedFrom (header.hibsn + 1) written
  old_length : header.logPartitionOffset + walfhLength ≤ old.length

namespace NewLog

variable (n : NewLog)

/-- Where the blocks start in the file. -/
def start : Nat := (n.header.logPartitionOffset + n.header.length).toNat

/-- The file: the terminator is written where the blocks start, then the blocks, then a part of one. -/
def file : List UInt8 :=
  crash 0 (writeTerminator n.header n.old) n.start (n.written.map Block.bytes) n.torn.bytes n.k

/-- The size of what was written. -/
def size : Nat := (n.written.flatMap Block.bytes).length + (n.torn.bytes.take n.k).length

/-- What is behind the whole blocks. -/
def rest : List UInt8 :=
  n.torn.bytes.take n.k ++ (writeTerminator n.header n.old).drop (n.start + n.size)

theorem start_eq : (n.start : Int) = n.header.logPartitionOffset + n.header.offset := by
  have hpart := n.partition_nonneg
  rw [start, n.length, n.offset]
  omega

theorem start_le : n.start ≤ n.old.length := by
  have hold := n.old_length
  have hstart := n.start_eq
  rw [n.offset] at hstart
  omega

theorem start_le_terminator : n.start ≤ (writeTerminator n.header n.old).length := by
  have hlen := length_overwrite 0 logTerminatorBlock n.start_le
  have hstart := n.start_le
  show n.start ≤ (overwrite 0 n.old n.start logTerminatorBlock).length
  omega

/-- The log as the crash leaves it. -/
def crashed : CrashedLog where
  files := fun _ _ => some ⟨n.header,
    n.old.take n.start ++ (n.written.flatMap Block.bytes ++ n.rest)⟩
  logname := []
  logPartitionOffset := n.header.logPartitionOffset
  dontScanTailLogs := false
  header := n.header
  front := n.old.take n.start
  blocks := n.written
  rest := n.rest
  partition_nonneg := n.partition_nonneg
  version := n.version
  room := by rw [n.offset]
  front_length := by
    have hle := n.start_le
    rw [List.length_take, Nat.min_eq_left hle, n.start_eq]
  raw := n.raw
  last := Or.inr (by rw [n.nextLogname]; exact Nat.zero_le 1)
  there := rfl

end NewLog

/-- A torn block in front of the terminator, or of what is left of it, is taken for the end. -/
theorem rejected_torn {readAheadBytes k r : Nat} {b : Block} (hsector : readAheadBytes ≤ 512)
    (hsixteen : 16 ≤ readAheadBytes) (hk : k < b.blklen) (hr : r ≤ 512)
    (hlen : readAheadBytes ≤ (b.bytes.take k ++ List.replicate r walTerminatorChar).length) :
    Rejected readAheadBytes (b.bytes.take k ++ List.replicate r walTerminatorChar) := by
  have hmem := b.blklen_mem
  have htake : (b.bytes.take k).length = k := by
    rw [List.length_take, b.length_bytes]
    omega
  generalize ht : b.bytes.take k ++ List.replicate r walTerminatorChar = t at hlen ⊢
  have hsize : t.length = k + r := by
    rw [← ht, List.length_append, htake, List.length_replicate]
  have hbyte : ∀ i, k ≤ i → i < t.length → (t.getD i 0).toNat = 255 := by
    intro i hle hlt
    rw [← ht, List.getD_append_right _ _ _ _ (by omega), htake, List.getD_eq_getElem?_getD,
      List.getElem?_replicate, if_pos (by omega)]
    rfl
  rcases Nat.lt_or_ge k 2 with hshort | hlong
  · have hhigh := hbyte 1 (by omega) (by omega)
    have hblk : 65280 ≤ blklenOf t := by
      show 65280 ≤ (t.getD 0 0).toNat + 256 * (t.getD 1 0).toNat
      omega
    exact ⟨by show min _ _ ≤ 64000; omega, Or.inl (by omega)⟩
  · have hblk : blklenOf t = b.blklen := by
      rw [← b.blklenOf_bytes [], List.append_nil, ← ht]
      exact (ushortAt_append _ (by omega)).trans (ushortAt_take (by omega))
    rw [Rejected, hblk]
    refine ⟨by show min _ _ ≤ 64000; omega, ?_⟩
    rcases Nat.lt_or_ge t.length b.blklen with hlt | hge
    · exact Or.inl (by omega)
    · refine Or.inr ⟨by show 2 ≤ _; omega, hge, ?_⟩
      have hhigh := hbyte (b.blklen - 2 + 1) (by omega) (by omega)
      show (t.getD (b.blklen - 2) 0).toNat + 256 * (t.getD (b.blklen - 2 + 1) 0).toNat ≠ b.blklen
      omega

/-- Behind blocks that are numbered one after the other it is what follows them that counts. -/
theorem endsAfter_of_numbered {readAheadBytes : Nat} {hibsn m : Int} {b : Block} {bs : List Block}
    {rest : List UInt8} (h : NumberedFrom m (b :: bs)) (hhi : hibsn ≤ m)
    (hrest : readAheadBytes ≤ rest.length → Rejected readAheadBytes rest) :
    EndsAfter readAheadBytes hibsn b bs rest := by
  induction bs generalizing b m with
  | nil => exact ⟨fun _ => hhi.trans (le_of_eq h.1.symm), fun hle _ => hrest hle⟩
  | cons b' bs ih =>
    have hmem := b'.bsn_mem
    have hbsn : b'.bsn = b.bsn + 1 := by rw [h.2.1, h.1]
    refine ⟨?_, ih h.2 (by omega)⟩
    rw [slong_of_mem] <;> omega

/-- In a file that had nothing behind the log file header every crash leaves a log that is read to the
right place. -/
theorem NewLog.stopsRight_of_fresh (n : NewLog) (hfresh : n.old.length = n.start)
    (htorn : n.k < n.torn.blklen) : n.crashed.StopsRight := by
  have hmem := n.crashed.readAheadBytes_mem
  have hrest : n.rest = n.torn.bytes.take n.k ++
      List.replicate (512 - n.size) walTerminatorChar := by
    have hterm : (writeTerminator n.header n.old).drop n.start = logTerminatorBlock := by
      have hdrop := drop_overwrite 0 logTerminatorBlock n.start_le
      rw [List.drop_of_length_le (show n.old.length ≤ _ by omega), List.append_nil] at hdrop
      exact hdrop
    rw [rest, ← List.drop_drop, hterm, logTerminatorBlock, List.drop_replicate]
    rfl
  have hreject : n.crashed.readAheadBytes ≤ n.rest.length →
      Rejected n.crashed.readAheadBytes n.rest := by
    intro hle
    rw [hrest] at hle ⊢
    exact rejected_torn hmem.2 hmem.1 htorn (by omega) hle
  cases h : n.written with
  | nil =>
    rw [n.crashed.stopsRight_nil h]
    have hlen : 512 ≤ n.rest.length := by
      rw [hrest, List.length_append, List.length_replicate, size, h, List.flatMap_nil,
        List.length_nil]
      omega
    unfold CrashedLog.EndsCleanly
    rw [show n.crashed.blocks = [] from h]
    exact Or.inr ⟨by show 16 ≤ n.rest.length; omega, Or.inr (hreject (by omega))⟩
  | cons b bs =>
    rw [n.crashed.stopsRight_cons h]
    have hnum := n.numbered
    rw [h] at hnum
    unfold CrashedLog.EndsCleanly
    rw [show n.crashed.blocks = b :: bs from h]
    exact endsAfter_of_numbered hnum (by show n.header.hibsn ≤ _; omega) hreject

/-- A log that a crash leaves is read to an end whatever it has, and to the right place if and only if
what is behind its whole blocks does not pass for a block of it. -/
theorem readLog_stops_iff (log : CrashedLog) :
    log.read.isSome ∧ (log.StopsRight ↔ log.EndsCleanly) := by
  refine ⟨log.read_isSome, ?_⟩
  cases h : log.blocks with
  | nil => exact log.stopsRight_nil h
  | cons b bs => exact log.stopsRight_cons h

/-- A block of 600 bytes with one record. -/
def sampleBlock (bsn : Int) (byte : UInt8) (h : -2147483648 ≤ bsn ∧ bsn < 2147483648) : Block where
  memory := List.replicate maxWalbuflen 0
  records := [List.replicate 578 byte]
  roundupSize := 0
  bsn := bsn
  timestamp := (0, 0)
  nonempty := List.cons_ne_nil _ _
  fits := by
    simp only [recordsEnd, List.map_cons, List.map_nil, List.sum_cons, List.sum_nil, recordSize,
      List.length_replicate]
    decide
  memory_length := List.length_replicate
  roundupSize_eq := Or.inl rfl
  bsn_mem := h

/-- A log of another time had a block of 600 bytes at the place where the new log begins. Of the new
log's first block, which has the same length, one sector was written. -/
def reusedLog : NewLog where
  header := ⟨walfhVersion, [], 2, 0, walfhLength, 6, 0, walfhLength, [], 0⟩
  old := List.replicate walfhLength 0 ++ (sampleBlock 3 1 (by decide)).bytes
  written := []
  torn := sampleBlock 7 2 (by decide)
  k := logSectorSize
  partition_nonneg := by decide
  version := rfl
  offset := rfl
  length := rfl
  nextLogname := rfl
  raw := by decide
  numbered := trivial
  old_length := by
    simp only [List.length_append, List.length_replicate]
    omega

/-- What a reader takes for a block: the new one up to the end of the sector, then the old one. -/
def mixedBlock : Block :=
  { sampleBlock 7 2 (by decide) with
    records := [List.replicate 492 2 ++ List.replicate 86 1]
    nonempty := List.cons_ne_nil _ _
    fits := by
      simp only [recordsEnd, List.map_cons, List.map_nil, List.sum_cons, List.sum_nil, recordSize,
        List.length_append, List.length_replicate]
      decide }

/-- What a block with one record of 578 bytes has in front of the record. -/
def oneFront (b : Block) : List UInt8 :=
  (⟨600, 598, b.bsn, b.timestamp⟩ : WalblkHdr).bytes ++ (ushortBytes 578 ++ ushortBytes 16)

theorem length_oneFront (b : Block) : (oneFront b).length = 20 := by
  rw [oneFront, List.length_append, length_headerBytes, List.length_append, length_ushortBytes,
    length_ushortBytes]
  rfl

theorem oneFront_congr {b c : Block} (bsn : b.bsn = c.bsn) (timestamp : b.timestamp = c.timestamp) :
    oneFront b = oneFront c := by
  rw [oneFront, bsn, timestamp, oneFront]

theorem bytes_of_one {b : Block} {record : List UInt8} (records : b.records = [record])
    (length : record.length = 578) (size : b.roundupSize = 0) :
    b.bytes = oneFront b ++ (record ++ ushortBytes 600) := by
  have hend : recordsEnd b.records = 598 := by
    rw [records, recordsEnd, List.map_cons, List.map_nil, List.sum_cons, List.sum_nil, recordSize,
      length]
    rfl
  have hblklen : b.blklen = 600 := by
    rw [Block.blklen_eq, hend, size]
    rfl
  have hpadding : b.padding = [] := by
    rw [Block.padding, hblklen, hend]
    exact List.take_zero
  have hrecords : recordsBytes blkHdrovhd b.records =
      ushortBytes 578 ++ (ushortBytes 16 ++ record) := by
    rw [records, recordsBytes, recordsBytes, length, List.append_nil]
    rfl
  rw [Block.bytes_eq, Block.header, hblklen, hend, hpadding, hrecords, List.nil_append, oneFront]
  simp only [List.append_assoc]

/-- The sector that was written and the rest of the old block make up a block. -/
theorem reusedLog_rest : reusedLog.crashed.rest = mixedBlock.bytes := by
  have htorn : reusedLog.torn.bytes.take 512 =
      oneFront reusedLog.torn ++ List.replicate 492 2 := by
    rw [bytes_of_one (show reusedLog.torn.records = [List.replicate 578 2] from rfl)
      List.length_replicate rfl, show 512 = (oneFront reusedLog.torn).length + 492 by
        rw [length_oneFront], List.take_length_add_append,
      List.take_append_of_le_length (by rw [List.length_replicate]; omega), List.take_replicate]
    rfl
  have hlength : (sampleBlock 3 1 (by decide)).bytes.length = 600 := by
    rw [bytes_of_one (show (sampleBlock 3 1 (by decide)).records = [List.replicate 578 1] from rfl)
      List.length_replicate rfl, List.length_append, length_oneFront, List.length_append,
      List.length_replicate, length_ushortBytes]
  have hold : (sampleBlock 3 1 (by decide)).bytes.drop 512 =
      List.replicate 86 1 ++ ushortBytes 600 := by
    rw [bytes_of_one (show (sampleBlock 3 1 (by decide)).records = [List.replicate 578 1] from rfl)
      List.length_replicate rfl, show 512 = (oneFront (sampleBlock 3 1 (by decide))).length + 492 by
        rw [length_oneFront], List.drop_length_add_append,
      List.drop_append_of_le_length (by rw [List.length_replicate]; omega), List.drop_replicate]
  have hsize : reusedLog.size = 512 := by
    rw [NewLog.size, show reusedLog.k = 512 from rfl, htorn, List.length_append, length_oneFront,
      List.length_replicate]
    rfl
  have hbehind : (writeTerminator reusedLog.header reusedLog.old).drop (reusedLog.start + 512) =
      (sampleBlock 3 1 (by decide)).bytes.drop 512 := by
    have hterm := drop_overwrite 0 logTerminatorBlock reusedLog.start_le
    rw [← List.drop_drop]
    have hlen : logTerminatorBlock.length = 512 := List.length_replicate
    have hstart : reusedLog.start = walfhLength := rfl
    rw [writeTerminator, ← NewLog.start, hterm, List.drop_left' hlen, hlen, ← List.drop_drop, hstart,
      show reusedLog.old = List.replicate walfhLength 0 ++ (sampleBlock 3 1 (by decide)).bytes from rfl,
      List.drop_left' List.length_replicate]
  rw [show reusedLog.crashed.rest = reusedLog.rest from rfl, NewLog.rest, hsize, hbehind, hold,
    show reusedLog.k = 512 from rfl, htorn,
    bytes_of_one (show mixedBlock.records = [List.replicate 492 2 ++ List.replicate 86 1] from rfl)
      (by rw [List.length_append, List.length_replicate, List.length_replicate]) rfl,
    oneFront_congr (show reusedLog.torn.bsn = mixedBlock.bsn from rfl) rfl]
  simp only [List.append_assoc]

/-- The log with that block for its last one. -/
def mixedLog : CrashedLog :=
  { reusedLog.crashed with
    blocks := [mixedBlock]
    rest := []
    raw := by
      intro h
      cases h
    there := by
      have hthere := reusedLog.crashed.there
      rw [show reusedLog.crashed.blocks = [] from rfl, List.flatMap_nil, List.nil_append,
        reusedLog_rest] at hthere
      rw [List.flatMap_singleton, List.append_nil]
      exact hthere }

theorem mixedLog_read : mixedLog.read = reusedLog.crashed.read := by
  have hbytes : mixedLog.bytes = reusedLog.crashed.bytes := by
    rw [CrashedLog.bytes, CrashedLog.body, show mixedLog.blocks = [mixedBlock] from rfl,
      List.flatMap_singleton, show mixedLog.rest = [] from rfl, List.append_nil, ← reusedLog_rest,
      CrashedLog.bytes, CrashedLog.body, show reusedLog.crashed.blocks = [] from rfl, List.flatMap_nil,
      List.nil_append]
    rfl
  rw [CrashedLog.read, hbytes]
  rfl

/-- The torn block is read, the end of its record from the older log. -/
theorem readLog_torn_fails : reusedLog.crashed.read.map (fun out => out.1) =
    some [⟨List.replicate 492 2 ++ List.replicate 86 1, 2, 2064⟩] ∧
    ¬reusedLog.crashed.StopsRight := by
  have hread : reusedLog.crashed.read.map (fun out => out.1) =
      some [⟨List.replicate 492 2 ++ List.replicate 86 1, 2, 2064⟩] := by
    have hends : mixedLog.EndsCleanly :=
      ⟨fun _ => by decide, fun hle => absurd hle (by decide)⟩
    obtain ⟨s, hsome, -⟩ := (mixedLog.stopsRight_cons rfl).mpr hends
    rw [← mixedLog_read, hsome]
    rfl
  refine ⟨hread, ?_⟩
  rintro ⟨s, hsome, -⟩
  rw [hsome] at hread
  exact List.cons_ne_nil _ _ (Option.some.inj hread).symm

end Wal

end InterBase
