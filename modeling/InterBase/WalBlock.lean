import InterBase.Wal

namespace InterBase

namespace Wal

open TornWrite

theorem length_ushortBytes (n : Nat) : (ushortBytes n).length = 2 := rfl

theorem length_signedBytes (k : Nat) (n : Int) : (signedBytes k n).length = k + 1 := by
  induction k generalizing n with
  | zero => rfl
  | succ k ih => rw [signedBytes, List.length_cons, ih]

theorem length_slongBytes (n : Int) : (slongBytes n).length = 4 := length_signedBytes 3 n

theorem length_headerBytes (h : WalblkHdr) : h.bytes.length = blkHdrovhd := by
  simp only [WalblkHdr.bytes, List.length_append, length_ushortBytes, length_slongBytes, blkHdrovhd]

theorem ushortAt_append {xs : List UInt8} {i : Nat} (ys : List UInt8) (h : i + 2 ≤ xs.length) :
    ushortAt (xs ++ ys) i = ushortAt xs i := by
  unfold ushortAt
  rw [List.getD_append _ _ _ _ (by omega), List.getD_append _ _ _ _ (by omega)]

theorem ushortAt_append_right (xs ys : List UInt8) (i : Nat) :
    ushortAt (xs ++ ys) (xs.length + i) = ushortAt ys i := by
  unfold ushortAt
  have hnext : xs.length + i + 1 - xs.length = i + 1 := by omega
  rw [List.getD_append_right _ _ _ _ (by omega), List.getD_append_right _ _ _ _ (by omega), hnext,
    Nat.add_sub_cancel_left]

theorem ushortAt_drop (xs : List UInt8) (i j : Nat) :
    ushortAt (xs.drop i) j = ushortAt xs (i + j) := by
  unfold ushortAt
  simp only [List.getD_eq_getElem?_getD, List.getElem?_drop, Nat.add_assoc]

theorem ushortAt_ushortBytes {n : Nat} (h : n < 65536) (rest : List UInt8) :
    ushortAt (ushortBytes n ++ rest) 0 = n := by
  have low : (UInt8.ofNat (n % 256)).toNat = n % 256 := by
    rw [UInt8.toNat_ofNat']
    omega
  have high : (UInt8.ofNat (n / 256)).toNat = n / 256 := by
    rw [UInt8.toNat_ofNat']
    omega
  show (UInt8.ofNat (n % 256)).toNat + 256 * (UInt8.ofNat (n / 256)).toNat = n
  rw [low, high]
  omega

theorem ushortAt_lt (bytes : List UInt8) (i : Nat) : ushortAt bytes i < 65536 := by
  have low := (bytes.getD i 0).toNat_lt
  have high := (bytes.getD (i + 1) 0).toNat_lt
  unfold ushortAt
  omega

theorem slongAt_append {xs : List UInt8} {i : Nat} (ys : List UInt8) (h : i + 4 ≤ xs.length) :
    slongAt (xs ++ ys) i = slongAt xs i := by
  unfold slongAt
  rw [List.drop_append_of_le_length (by omega), List.take_append_of_le_length (by
    rw [List.length_drop]
    omega)]

theorem bsnOf_headerBytes (h : WalblkHdr) (low : -2147483648 ≤ h.bsn) (high : h.bsn < 2147483648)
    (rest : List UInt8) : bsnOf (h.bytes ++ rest) = h.bsn := by
  have hfront : (ushortBytes h.blklen ++ ushortBytes h.len).length = 4 := rfl
  have htake : ((h.bytes ++ rest).drop 4).take 4 = slongBytes h.bsn := by
    have happ : h.bytes ++ rest = (ushortBytes h.blklen ++ ushortBytes h.len) ++
        (slongBytes h.bsn ++ (slongBytes h.timestamp.1 ++ (slongBytes h.timestamp.2 ++ rest))) := by
      simp only [WalblkHdr.bytes, List.append_assoc]
    rw [happ, List.drop_left' hfront, List.take_left' (length_slongBytes _)]
  rw [bsnOf, slongAt, htake, slongBytes, vaxInteger_signedBytes 3 (by omega) (by omega)]

theorem blklenOf_headerBytes (h : WalblkHdr) (hlt : h.blklen < 65536) (rest : List UInt8) :
    blklenOf (h.bytes ++ rest) = h.blklen := by
  rw [blklenOf, WalblkHdr.bytes, List.append_assoc]
  exact ushortAt_ushortBytes hlt _

theorem lenOf_headerBytes (h : WalblkHdr) (hlt : h.len < 65536) (rest : List UInt8) :
    lenOf (h.bytes ++ rest) = h.len := by
  rw [lenOf, WalblkHdr.bytes, List.append_assoc, List.append_assoc]
  exact (ushortAt_append_right (ushortBytes h.blklen) _ 0).trans (ushortAt_ushortBytes hlt _)

/-- What a record is in a block: its length, its offset in the block, and itself. -/
def recordsBytes : Nat → List (List UInt8) → List UInt8
  | _, [] => []
  | cur, source :: rest =>
    ushortBytes source.length ++ (ushortBytes cur ++ (source ++
      recordsBytes (cur + recordSize source) rest))

theorem length_recordsBytes (cur : Nat) (records : List (List UInt8)) :
    (recordsBytes cur records).length = (records.map recordSize).sum := by
  induction records generalizing cur with
  | nil => rfl
  | cons source rest ih =>
    simp only [recordsBytes, List.length_append, length_ushortBytes, ih, List.map_cons,
      List.sum_cons, recordSize, recHdrovhd]
    omega

theorem copyBuffer_eq {wblk : Walblk} {source : List UInt8} (hcur : wblk.curOffset ≠ 0)
    (hfit : wblk.curOffset + recordSize source < 65536) :
    copyBuffer wblk source = { wblk with
      curOffset := wblk.curOffset + recordSize source
      buf := overwrite 0 wblk.buf wblk.curOffset (recordsBytes wblk.curOffset [source]) } := by
  have hcount : ushort source.length = source.length :=
    ushort_of_lt (by simp only [recordSize] at hfit; omega)
  have hsize : ushort (wblk.curOffset + (source.length + recHdrovhd)) =
      wblk.curOffset + recordSize source := by
    rw [recordSize, Nat.add_comm source.length]
    exact ushort_of_lt hfit
  rw [copyBuffer, if_neg hcur, hcount, hsize, recordsBytes, recordsBytes, List.append_nil]

/-- The records that are put into a buffer lie there one behind the other. -/
theorem foldl_copyBuffer {cur : Nat} (ro : Nat) {buf : List UInt8} (records : List (List UInt8))
    (hcur : cur ≠ 0) (hfit : cur + (records.map recordSize).sum < 65536) (hbuf : cur ≤ buf.length) :
    records.foldl copyBuffer ⟨cur, ro, buf⟩ =
      ⟨cur + (records.map recordSize).sum, ro, overwrite 0 buf cur (recordsBytes cur records)⟩ := by
  induction records generalizing cur buf with
  | nil => rfl
  | cons source rest ih =>
    rw [List.map_cons, List.sum_cons] at hfit ⊢
    have hone : (recordsBytes cur [source]).length = recordSize source := by
      rw [length_recordsBytes]
      simp
    have hlen := length_overwrite 0 (recordsBytes cur [source]) hbuf
    have hall : overwrite 0 buf cur (recordsBytes cur (source :: rest)) =
        overwrite 0 (overwrite 0 buf cur (recordsBytes cur [source])) (cur + recordSize source)
          (recordsBytes (cur + recordSize source) rest) := by
      rw [← hone, overwrite_overwrite 0 _ _ hbuf, hone]
      simp only [recordsBytes, List.append_nil, List.append_assoc]
    rw [List.foldl_cons, copyBuffer_eq hcur (by show cur + recordSize source < 65536; omega), ih
      (by show cur + recordSize source ≠ 0; omega)
      (by show cur + recordSize source + (rest.map recordSize).sum < 65536; omega)
      (by show cur + recordSize source ≤ (overwrite 0 buf cur (recordsBytes cur [source])).length
          omega), hall, Nat.add_assoc]

/-- The first record goes behind the header. -/
theorem foldl_copyBuffer_zero {records : List (List UInt8)} (hne : records ≠ []) (ro : Nat)
    (buf : List UInt8) : records.foldl copyBuffer ⟨0, ro, buf⟩ =
      records.foldl copyBuffer ⟨blkHdrovhd, ro, buf⟩ := by
  cases records with
  | nil => exact absurd rfl hne
  | cons source rest => rfl

theorem recordsEnd_ge {records : List (List UInt8)} (hne : records ≠ []) :
    blkHdrovhd + recHdrovhd ≤ recordsEnd records := by
  cases records with
  | nil => exact absurd rfl hne
  | cons source rest =>
    simp only [recordsEnd, List.map_cons, List.sum_cons, recordSize]
    omega

namespace Block

variable (b : Block)

theorem recordsEnd_le : recordsEnd b.records + 2 ≤ 64000 := b.fits

/-- The buffer with the records, before its size is rounded up. -/
theorem filled : b.records.foldl copyBuffer ⟨0, 0, b.memory⟩ = ⟨recordsEnd b.records, 0,
    overwrite 0 b.memory blkHdrovhd (recordsBytes blkHdrovhd b.records)⟩ := by
  have hfit := b.recordsEnd_le
  have hmem : b.memory.length = 64000 := b.memory_length
  rw [foldl_copyBuffer_zero b.nonempty, foldl_copyBuffer 0 b.records (by simp [blkHdrovhd])
    (by rw [recordsEnd] at hfit; omega) (by rw [hmem]; simp [blkHdrovhd])]
  rfl

theorem blklen_eq : b.blklen =
    (walcSetupBufferBlock b.roundupSize ⟨recordsEnd b.records, 0, []⟩).roundupOffset := by
  rw [blklen, walblk, filled, prepareWalBlock]
  unfold walcSetupBufferBlock
  split <;> rfl

theorem roundup : recordsEnd b.records + 2 ≤ b.blklen ∧ b.blklen ≤ 64000 ∧
    (b.roundupSize = logSectorSize → 512 ∣ b.blklen) := by
  have hfit := b.recordsEnd_le
  have hofs : ushort (recordsEnd b.records + 2) = recordsEnd b.records + 2 :=
    ushort_of_lt (by omega)
  rw [blklen_eq]
  rcases b.roundupSize_eq with h | h
  · have hval : (walcSetupBufferBlock 0 ⟨recordsEnd b.records, 0, []⟩).roundupOffset =
        recordsEnd b.records + 2 := hofs
    rw [h, hval]
    refine ⟨le_refl _, hfit, ?_⟩
    intro hsector
    cases hsector
  · rw [h]
    generalize hn : recordsEnd b.records + 2 = n at *
    have hpad : ushort (512 - n % 512) = 512 - n % 512 := ushort_of_lt (by omega)
    have hsum : ushort (n + (512 - n % 512) % 512) = n + (512 - n % 512) % 512 :=
      ushort_of_lt (by omega)
    have hval : (walcSetupBufferBlock logSectorSize
        ⟨recordsEnd b.records, 0, []⟩).roundupOffset = n + (512 - n % 512) % 512 := by
      simp only [walcSetupBufferBlock, logSectorSize, blkTailovhd, ne_eq, OfNat.ofNat_ne_zero,
        not_false_eq_true, if_true, hn, hofs, hpad, hsum]
    rw [hval]
    omega

/-- The header that `prepare_wal_block` gives the block. -/
def header : WalblkHdr := ⟨b.blklen, recordsEnd b.records, b.bsn, b.timestamp⟩

/-- What the buffer had where the block is only padded. -/
def padding : List UInt8 :=
  (b.memory.drop (recordsEnd b.records)).take (b.blklen - 2 - recordsEnd b.records)

theorem bytes_eq : b.bytes = b.header.bytes ++ (recordsBytes blkHdrovhd b.records ++
    (b.padding ++ ushortBytes b.blklen)) := by
  obtain ⟨hlow, hhigh, _⟩ := b.roundup
  have hmem : b.memory.length = 64000 := b.memory_length
  have hrecs : (recordsBytes blkHdrovhd b.records).length + 16 = recordsEnd b.records := by
    rw [length_recordsBytes, recordsEnd, Nat.add_comm]
    rfl
  have hhdr : b.header.bytes.length = 16 := length_headerBytes _
  have hbuf : b.walblk.buf = overwrite 0 (overwrite 0
      (overwrite 0 b.memory 16 (recordsBytes blkHdrovhd b.records)) 0 b.header.bytes)
      (b.blklen - 2) (ushortBytes b.blklen) := by
    rw [header, blklen_eq, walblk, filled, prepareWalBlock]
    unfold walcSetupBufferBlock
    split <;> rfl
  have hfront : overwrite 0 (overwrite 0 b.memory 16 (recordsBytes blkHdrovhd b.records)) 0
      b.header.bytes = b.header.bytes ++ (recordsBytes blkHdrovhd b.records ++
        b.memory.drop (recordsEnd b.records)) := by
    rw [overwrite_zero, hhdr, drop_overwrite 0 _ (by omega), Nat.add_comm 16, hrecs]
  have hlen : (b.header.bytes ++ (recordsBytes blkHdrovhd b.records ++
      b.memory.drop (recordsEnd b.records))).length = 64000 := by
    simp only [List.length_append, List.length_drop]
    omega
  have htake : (b.header.bytes ++ (recordsBytes blkHdrovhd b.records ++
      b.memory.drop (recordsEnd b.records))).take (b.blklen - 2) =
      b.header.bytes ++ (recordsBytes blkHdrovhd b.records ++ b.padding) := by
    rw [padding, List.take_append, List.take_of_length_le (by omega), List.take_append,
      List.take_of_length_le (by omega), hhdr]
    congr 3
    omega
  have hsize : (b.header.bytes ++ (recordsBytes blkHdrovhd b.records ++ b.padding)).length =
      b.blklen - 2 := by
    rw [← htake, List.length_take, hlen]
    omega
  show b.walblk.buf.take b.blklen = _
  rw [hbuf, hfront, overwrite_of_le 0 _ (by omega), htake, ← List.append_assoc, List.take_left']
  · simp only [List.append_assoc]
  · rw [List.length_append, hsize, length_ushortBytes]
    omega

theorem length_bytes : b.bytes.length = b.blklen := by
  obtain ⟨hlow, hhigh, _⟩ := b.roundup
  have hmem : b.memory.length = 64000 := b.memory_length
  have hhdr : b.header.bytes.length = 16 := length_headerBytes _
  have hrecs : (recordsBytes blkHdrovhd b.records).length + 16 = recordsEnd b.records := by
    rw [length_recordsBytes, recordsEnd, Nat.add_comm]
    rfl
  rw [bytes_eq]
  simp only [List.length_append, padding, List.length_take, List.length_drop, length_ushortBytes]
  omega

/-- A block cannot be taken for the terminator, and it is longer than its header. -/
theorem blklen_mem : 22 ≤ b.blklen ∧ b.blklen ≤ 64000 := by
  have hrec := recordsEnd_ge b.nonempty
  simp only [blkHdrovhd, recHdrovhd] at hrec
  have := b.roundup
  omega

theorem blklenOf_bytes (rest : List UInt8) : blklenOf (b.bytes ++ rest) = b.blklen := by
  have hmem := b.blklen_mem
  rw [bytes_eq, List.append_assoc]
  exact blklenOf_headerBytes b.header (by show b.blklen < 65536; omega) _

theorem lenOf_bytes (rest : List UInt8) : lenOf (b.bytes ++ rest) = recordsEnd b.records := by
  have hfit := b.recordsEnd_le
  rw [bytes_eq, List.append_assoc]
  exact lenOf_headerBytes b.header (by show recordsEnd b.records < 65536; omega) _

theorem bsnOf_bytes (rest : List UInt8) : bsnOf (b.bytes ++ rest) = b.bsn := by
  rw [bytes_eq, List.append_assoc]
  exact bsnOf_headerBytes b.header b.bsn_mem.1 b.bsn_mem.2 _

/-- The last two bytes of a block are its length. -/
theorem trailing (rest : List UInt8) : ushortAt (b.bytes ++ rest) (b.blklen - 2) = b.blklen := by
  have hmem := b.blklen_mem
  have hlen := b.length_bytes
  have hfront : b.bytes = (b.header.bytes ++ (recordsBytes blkHdrovhd b.records ++ b.padding)) ++
      ushortBytes b.blklen := by
    rw [bytes_eq]
    simp only [List.append_assoc]
  have hsize : (b.header.bytes ++ (recordsBytes blkHdrovhd b.records ++ b.padding)).length + 0 =
      b.blklen - 2 := by
    rw [hfront, List.length_append, length_ushortBytes] at hlen
    omega
  rw [hfront, List.append_assoc, ← hsize, ushortAt_append_right]
  exact ushortAt_ushortBytes (by omega) rest

theorem drop_bytes (rest : List UInt8) : ∃ more, (b.bytes ++ rest).drop blkHdrovhd =
    recordsBytes blkHdrovhd b.records ++ more := by
  refine ⟨b.padding ++ (ushortBytes b.blklen ++ rest), ?_⟩
  rw [bytes_eq, List.append_assoc, List.drop_left' (length_headerBytes _)]
  simp only [List.append_assoc]

end Block

end Wal

end InterBase
