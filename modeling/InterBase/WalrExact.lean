import InterBase.WalrPrefix

namespace InterBase

namespace Wal

open TornWrite Emission

/-- A log as a crash leaves it, the last one to be read: its blocks that were written whole, and then
whatever there is. A raw device has its blocks rounded up to sectors. -/
structure CrashedLog where
  files : LogFiles
  logname : Name
  logPartitionOffset : Int
  dontScanTailLogs : Bool
  header : Walfh
  /-- What is in front of the first block: the log file header, and the partitions before this one. -/
  front : List UInt8
  blocks : List Block
  rest : List UInt8
  partition_nonneg : 0 ≤ logPartitionOffset
  version : header.version = walfhVersion
  room : (walfhLength : Int) ≤ header.offset
  front_length : (front.length : Int) = logPartitionOffset + header.offset
  raw : header.raw = true → ∀ b ∈ blocks, b.roundupSize = logSectorSize
  last : dontScanTailLogs = true ∨ header.nextLogname.length ≤ 1
  there : files logname logPartitionOffset =
    some ⟨header, front ++ (blocks.flatMap Block.bytes ++ rest)⟩

namespace CrashedLog

variable (log : CrashedLog)

/-- The file from the first block on. -/
def body : List UInt8 := log.blocks.flatMap Block.bytes ++ log.rest

def bytes : List UInt8 := log.front ++ log.body

def readAheadBytes : Nat := if log.header.raw then logSectorSize else blkHdrovhd

/-- What a caller gets that opens the log and reads it. -/
def read : Option (List LogRecord × Ret × Walrs) :=
  readLog log.files ((log.bytes.length + 3) * 65536) log.header.dbname
    (log.logname, log.logPartitionOffset) log.dontScanTailLogs

/-- The log is read to the right place: the records are those of the whole blocks, the end of the log is
reported, and the reader is at the last of the blocks, or it never opened the log where there is none. -/
def StopsRight : Prop :=
  ∃ s, log.read = some (logRecords log.header.seqno log.header.offset log.blocks, .endOfLog, s) ∧
    s.walr.map Walr.offset = lastOffset log.header.offset log.blocks

/-- What is behind the whole blocks does not pass for a block of this log. -/
def EndsCleanly : Prop :=
  match log.blocks with
  | [] => log.rest = [] ∨ (blkHdrovhd ≤ log.rest.length ∧
    (log.rest.take blkHdrovhd = logTerminatorBlock.take blkHdrovhd ∨
      Rejected log.readAheadBytes log.rest))
  | b :: bs => EndsAfter log.readAheadBytes log.header.hibsn b bs log.rest

/-- `WALRS` as `WALR_open` builds it. -/
def walrset : Walrs :=
  ⟨log.header.dbname, 1, 0, [(log.logname, log.logPartitionOffset)], none, false,
    log.dontScanTailLogs, none⟩

/-- `WALR` before the first block is read. -/
def handle : Walr :=
  newWalr ⟨log.header, log.bytes⟩ log.logname log.logPartitionOffset log.header.offset
    (log.body.take log.readAheadBytes)

theorem readAheadBytes_mem : 16 ≤ log.readAheadBytes ∧ log.readAheadBytes ≤ 512 := by
  unfold readAheadBytes
  split <;> simp [logSectorSize, blkHdrovhd]

/-- A block is not shorter than what is read ahead of it. -/
theorem readAheadBytes_le {b : Block} (h : b ∈ log.blocks) : log.readAheadBytes ≤ b.blklen := by
  have hmem := b.blklen_mem
  unfold readAheadBytes
  split
  next hraw =>
    have hdvd := b.roundup.2.2 (log.raw hraw b h)
    exact Nat.le_of_dvd (by omega) hdvd
  · simp only [blkHdrovhd]
    omega

theorem drop_bytes : log.bytes.drop log.front.length = log.body := List.drop_left

theorem handle_pos : log.handle.filePos =
    log.front.length + (log.body.take log.readAheadBytes).length := by
  have hlen := log.front_length
  show (log.logPartitionOffset + log.header.offset).toNat + _ = _
  rw [← hlen, Int.toNat_natCast]

theorem handle_ahead (h : 16 ≤ log.body.length) : Ahead log.handle log.body := by
  have hmem := log.readAheadBytes_mem
  refine ⟨rfl, ?_, h, hmem.1, Or.inr ?_⟩
  · show log.bytes.drop log.handle.filePos = log.body.drop log.readAheadBytes
    rw [log.handle_pos, ← List.drop_drop, log.drop_bytes, List.length_take]
    rcases Nat.le_total log.readAheadBytes log.body.length with hle | hge
    · rw [Nat.min_eq_left hle]
    · rw [Nat.min_eq_right hge, List.drop_length, List.drop_of_length_le hge]
  · show 2 ≤ log.body.length
    omega

theorem handle_sane : Sane log.handle := by
  have hmem := log.readAheadBytes_mem
  refine ⟨hmem.1, hmem.2, ?_, ?_⟩
  · show (log.body.take log.readAheadBytes).length ≤ 512
    rw [List.length_take]
    omega
  · show 2 ≤ 64512
    omega

theorem handle_nextBsn (h : 16 ≤ log.body.length) : log.handle.nextBsn = slong (bsnOf log.body + 1) := by
  have hmem := log.readAheadBytes_mem
  show slong (bsnOf (log.body.take log.readAheadBytes) + 1) = _
  rw [bsnOf_take]
  rw [List.length_take]
  omega

/-- The log file is there, with a header of its version. -/
theorem walfOpenLogFile_eq :
    walfOpenLogFile log.files log.header.dbname log.logname log.logPartitionOffset =
      .ok ⟨log.header, log.bytes⟩ := by
  have hroom := log.room
  have hpart := log.partition_nonneg
  have hthere : log.files log.logname log.logPartitionOffset = some ⟨log.header, log.bytes⟩ :=
    log.there
  have hlen := log.front_length
  have hsmall : ¬(log.bytes.length : Int) - log.logPartitionOffset < sizeofWalfh := by
    simp only [walfhLength] at hroom
    simp only [bytes, sizeofWalfh, List.length_append]
    omega
  rw [walfOpenLogFile, hthere]
  dsimp only
  rw [if_neg (by omega), if_neg hsmall, if_neg (not_not_intro log.version),
    if_neg (not_not_intro rfl)]

/-- How `log_open` comes to its result. -/
theorem logOpen_eq :
    logOpen log.files log.walrset log.logname log.logPartitionOffset 0 =
      if (log.body.take log.readAheadBytes).length = 0 then (.endOfLog, log.walrset)
      else if (log.body.take log.readAheadBytes).length < blkHdrovhd then
        (.failure (some ⟨.logbSmall, log.logname, some log.header.offset⟩), log.walrset)
      else if (log.body.take log.readAheadBytes).take blkHdrovhd =
          logTerminatorBlock.take blkHdrovhd then (.endOfLog, log.walrset)
      else readFirstBlock log.walrset log.handle 0 0 := by
  have hpart := log.partition_nonneg
  have hroom := log.room
  have hread : llioReadAt log.bytes (log.logPartitionOffset + log.header.offset)
      log.readAheadBytes = some (log.body.take log.readAheadBytes) := by
    rw [llioReadAt, if_neg (by omega), ← log.front_length, Int.toNat_natCast, llioRead,
      log.drop_bytes]
  have hlocate : locateBlock ⟨log.header, log.bytes⟩ log.logname log.logPartitionOffset 0 =
      .ok (log.header.offset, 0) :=
    if_pos rfl
  have hsize : (if log.header.raw then logSectorSize else blkHdrovhd) = log.readAheadBytes := rfl
  rw [logOpen, show log.walrset.dbname = log.header.dbname from rfl, log.walfOpenLogFile_eq]
  dsimp only
  rw [hlocate]
  dsimp only
  rw [hsize, hread]
  rfl

/-- The first block is read as any other, and the handle goes where there is none. -/
theorem readFirstBlock_eq {ret : Ret} {s : Walrs}
    (hblock : readBlock { log.walrset with walr := some log.handle } log.handle = (ret, s)) :
    readFirstBlock log.walrset log.handle 0 0 =
      if ret = .success then (ret, s) else (ret, { s with walr := none }) := by
  have hscan : log.walrset.eofScan = false := rfl
  unfold readFirstBlock
  dsimp only
  rw [hscan, if_neg Bool.false_ne_true, ← hscan, hblock]
  cases ret <;> rfl

/-- How `WALR_open` comes to its result. -/
theorem walrOpen_eq :
    walrOpen log.files log.header.dbname (log.logname, log.logPartitionOffset) [] 0 none
      log.dontScanTailLogs =
      if log.body = [] then (.endOfLog, log.walrset)
      else if log.body.length < 16 then
        (.failure (some ⟨.logbSmall, log.logname, some log.header.offset⟩), log.walrset)
      else if log.body.take blkHdrovhd = logTerminatorBlock.take blkHdrovhd then
        (.endOfLog, log.walrset)
      else
        match readBlock { log.walrset with walr := some log.handle } log.handle with
        | (.success, s) => (.success, { s with curLog := s.curLog + 1 })
        | (ret, s) => (ret, { s with walr := none }) := by
  have hmem := log.readAheadBytes_mem
  unfold walrOpen
  dsimp only
  generalize hr : logOpen _ _ _ _ _ = r
  replace hr : logOpen log.files log.walrset log.logname log.logPartitionOffset 0 = r := hr
  rw [log.logOpen_eq] at hr
  subst hr
  rw [List.length_take]
  by_cases hnil : log.body = []
  · rw [if_pos hnil, if_pos (by rw [hnil]; simp)]
  have hpos : 0 < log.body.length := List.length_pos_iff.mpr hnil
  rw [if_neg hnil, if_neg (by omega)]
  by_cases hshort : log.body.length < 16
  · rw [if_pos hshort, if_pos (show min _ _ < blkHdrovhd from by rw [blkHdrovhd]; omega)]
  rw [if_neg hshort, if_neg (show ¬min _ _ < blkHdrovhd from by rw [blkHdrovhd]; omega),
    List.take_take, Nat.min_eq_left (show blkHdrovhd ≤ log.readAheadBytes from hmem.1)]
  by_cases hterm : log.body.take blkHdrovhd = logTerminatorBlock.take blkHdrovhd
  · rw [if_pos hterm, if_pos hterm]
  rw [if_neg hterm, if_neg hterm]
  cases hblock : readBlock { log.walrset with walr := some log.handle } log.handle with
  | mk ret s =>
    rw [log.readFirstBlock_eq hblock]
    cases ret <;> rfl

/-- An open log has the reader in it, and its handle. -/
theorem alone_of_first {s' : Walrs}
    (h : readBlock { log.walrset with walr := some log.handle } log.handle = (.success, s')) :
    ∃ w, s' = { log.walrset with walr := some w } ∧ Advanced log.handle w ∧
      Alone { s' with curLog := s'.curLog + 1 } w ∧ w.left < (log.bytes.length + 3) * 65536 := by
  obtain ⟨w, hstate, hadv, hsuccess⟩ := readBlock_spec
    (s := { log.walrset with walr := some log.handle }) rfl rfl rfl log.handle_sane
  rw [h] at hstate hsuccess
  dsimp only at hstate hsuccess
  subst hstate
  refine ⟨w, rfl, hadv, ⟨rfl, rfl, rfl, le_refl _, ?_, hadv.sane⟩, ?_⟩
  · rw [hadv.logHeader]
    exact log.last
  · have hfd : w.fd = log.bytes := hadv.fd
    have hone : (if w.eof = true then 0 else 1) ≤ 1 := by split <;> omega
    unfold Walr.left
    rw [hfd]
    omega

/-- How a caller comes to what it gets. -/
theorem read_eq : log.read =
    if log.body = [] then some ([], .endOfLog, log.walrset)
    else if log.body.length < 16 then
      some ([], .failure (some ⟨.logbSmall, log.logname, some log.header.offset⟩), log.walrset)
    else if log.body.take blkHdrovhd = logTerminatorBlock.take blkHdrovhd then
      some ([], .endOfLog, log.walrset)
    else
      match readBlock { log.walrset with walr := some log.handle } log.handle with
      | (.success, s) => run (walrGet log.files) ((log.bytes.length + 3) * 65536)
          { s with curLog := s.curLog + 1 }
      | (ret, s) => some ([], ret, { s with walr := none }) := by
  unfold read readLog
  rw [log.walrOpen_eq]
  by_cases hnil : log.body = []
  · rw [if_pos hnil, if_pos hnil]
  by_cases hshort : log.body.length < 16
  · rw [if_neg hnil, if_neg hnil, if_pos hshort, if_pos hshort]
  by_cases hterm : log.body.take blkHdrovhd = logTerminatorBlock.take blkHdrovhd
  · rw [if_neg hnil, if_neg hnil, if_neg hshort, if_neg hshort, if_pos hterm, if_pos hterm]
  rw [if_neg hnil, if_neg hnil, if_neg hshort, if_neg hshort, if_neg hterm, if_neg hterm]
  cases readBlock { log.walrset with walr := some log.handle } log.handle with
  | mk ret s =>
    cases ret <;> rfl

/-- The log is read to an end, whatever it has. -/
theorem read_isSome : log.read.isSome := by
  rw [read_eq]
  split
  · rfl
  split
  · rfl
  split
  · rfl
  cases hfirst : readBlock { log.walrset with walr := some log.handle } log.handle with
  | mk ret s =>
    cases ret with
    | success =>
      obtain ⟨w, -, -, halone, hleft⟩ := log.alone_of_first hfirst
      exact run_walrGet_isSome _ halone hleft
    | endOfLog => rfl
    | failure status => rfl
    | fault => rfl

/-- A log without a whole block. -/
theorem stopsRight_nil (h : log.blocks = []) : log.StopsRight ↔ log.EndsCleanly := by
  have hbody : log.body = log.rest := by
    rw [body, h]
    rfl
  have hmem := log.readAheadBytes_mem
  have hget : ∀ {ret : Ret} {s : Walrs}, log.read = some ([], ret, s) → s.walr = none →
      (log.StopsRight ↔ ret = .endOfLog) := by
    intro ret s hread hw
    unfold StopsRight
    rw [hread, h]
    constructor
    · rintro ⟨s', hsome, _⟩
      cases hsome
      rfl
    · rintro rfl
      exact ⟨s, rfl, by rw [hw]; rfl⟩
  have hread := log.read_eq
  unfold EndsCleanly
  rw [h]
  rw [hbody] at hread
  dsimp only
  by_cases hnil : log.rest = []
  · rw [if_pos hnil] at hread
    exact iff_of_true ((hget hread rfl).mpr rfl) (Or.inl hnil)
  rw [if_neg hnil] at hread
  by_cases hshort : log.rest.length < 16
  · rw [if_pos hshort] at hread
    refine iff_of_false (fun hstop => Ret.noConfusion ((hget hread rfl).mp hstop)) ?_
    rintro (hnil' | ⟨hlong, _⟩)
    · exact hnil hnil'
    · exact absurd hshort (Nat.not_lt.mpr hlong)
  rw [if_neg hshort] at hread
  have hlong : blkHdrovhd ≤ log.rest.length := Nat.not_lt.mp hshort
  by_cases hterm : log.rest.take blkHdrovhd = logTerminatorBlock.take blkHdrovhd
  · rw [if_pos hterm] at hread
    exact iff_of_true ((hget hread rfl).mpr rfl) (Or.inr ⟨hlong, Or.inl hterm⟩)
  rw [if_neg hterm] at hread
  have ha := log.handle_ahead (by rw [hbody]; exact hlong)
  rw [hbody] at ha
  by_cases hr : Rejected log.readAheadBytes log.rest
  · obtain ⟨w, hfirst, _⟩ :=
      readBlock_rejected (s := { log.walrset with walr := some log.handle }) ha hr
    rw [hfirst] at hread
    exact iff_of_true ((hget hread rfl).mpr rfl) (Or.inr ⟨hlong, Or.inr hr⟩)
  · have hne := readBlock_not_rejected (s := { log.walrset with walr := some log.handle }) ha hr
    refine iff_of_false ?_ ?_
    · cases hfirst : readBlock { log.walrset with walr := some log.handle } log.handle with
      | mk ret s =>
        rw [hfirst] at hread hne
        cases ret with
        | success =>
          obtain ⟨w, -, -, halone, -⟩ := log.alone_of_first hfirst
          rintro ⟨u, hsome, hofs⟩
          obtain ⟨v, hv, -⟩ := runs_offset halone (runs_of_run (hread.symm.trans hsome))
          rw [hv.walr, h] at hofs
          cases hofs
        | endOfLog => exact absurd rfl hne
        | failure status => exact fun hstop => Ret.noConfusion ((hget hread rfl).mp hstop)
        | fault => exact fun hstop => Ret.noConfusion ((hget hread rfl).mp hstop)
    · rintro (hnil' | ⟨_, hterm' | hr'⟩)
      · exact hnil hnil'
      · exact hterm hterm'
      · exact hr hr'

theorem terminator_blklen : blklenOf (logTerminatorBlock.take blkHdrovhd) = 65535 := by
  decide

/-- A log with whole blocks. -/
theorem stopsRight_cons {b : Block} {bs : List Block} (h : log.blocks = b :: bs) :
    log.StopsRight ↔ log.EndsCleanly := by
  have hbody : log.body = b.bytes ++ (bs.flatMap Block.bytes ++ log.rest) := by
    rw [body, h, List.flatMap_cons, List.append_assoc]
  have hmem := b.blklen_mem
  have hlen : 16 ≤ log.body.length := by
    rw [hbody, List.length_append, b.length_bytes]
    omega
  have hnil : log.body ≠ [] := by
    intro hnil
    rw [hnil, List.length_nil] at hlen
    omega
  have hterm : log.body.take blkHdrovhd ≠ logTerminatorBlock.take blkHdrovhd := by
    intro hterm
    have hblk : blklenOf (log.body.take blkHdrovhd) = b.blklen := by
      rw [blklenOf, ushortAt_take, ← blklenOf, hbody, b.blklenOf_bytes]
      rw [List.length_take, blkHdrovhd]
      omega
    rw [hterm, terminator_blklen] at hblk
    omega
  have hread := log.read_eq
  rw [if_neg hnil, if_neg (by omega), if_neg hterm] at hread
  have ha := log.handle_ahead hlen
  have hnext : log.handle.nextBsn = slong (b.bsn + 1) := by
    rw [log.handle_nextBsn hlen, hbody, b.bsnOf_bytes]
  have hb : b ∈ log.blocks := by
    rw [h]
    exact List.mem_cons_self
  rw [hbody] at ha
  obtain ⟨hbad, hgood⟩ := readBlock_written (s := { log.walrset with walr := some log.handle }) ha
    rfl rfl (log.readAheadBytes_le hb) hnext
  unfold EndsCleanly StopsRight
  rw [h]
  dsimp only
  by_cases hend : bs.flatMap Block.bytes ++ log.rest = [] ∧ b.bsn < log.header.hibsn
  · obtain ⟨status, s', hfirst⟩ := hbad hend
    rw [hfirst] at hread
    refine iff_of_false ?_ fun hends => ?_
    · rintro ⟨u, hsome, _⟩
      have hret := (Prod.mk.inj (Option.some.inj (hread.symm.trans hsome))).2
      exact Ret.noConfusion (Prod.mk.inj hret).1
    · have hle := hends.hibsn hend.1
      omega
  · obtain ⟨w, hfirst, hload, hrec, hofs, hheader, hahead⟩ := hgood hend
    obtain ⟨w', hstate, -, halone, hleft⟩ := log.alone_of_first hfirst
    cases Option.some.inj (congrArg Walrs.walr hstate)
    rw [hfirst] at hread
    have hsome := run_walrGet_isSome log.files halone hleft
    have hbase : w.offset = log.header.offset := hofs.trans (add_zero _)
    have hseqno : w.logHeader.seqno = log.header.seqno := congrArg Walfh.seqno hheader
    have hiff := loaded_stops_iff log.files
      (s := { log.walrset with curLog := 1 }) hload halone hrec (by
        rw [hahead]
        exact fun c hc => log.readAheadBytes_le (by rw [h]; exact List.mem_cons_of_mem _ hc))
    rw [hbase, hseqno, hheader, hahead] at hiff
    rw [hread]
    simp only [run_eq_some_iff hsome]
    exact hiff

end CrashedLog

end Wal

end InterBase
