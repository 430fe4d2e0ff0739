import InterBase.WalrRun

namespace InterBase

namespace Wal

open TornWrite Emission

/-- The records of a block that starts at `base` in the file, from `cur` on. A record without bytes is
a checkpoint's. -/
def recordsOf (seqno base : Int) : Nat → List (List UInt8) → List LogRecord
  | _, [] => []
  | cur, source :: rest =>
    if source = [] then recordsOf seqno base (cur + recordSize source) rest
    else ⟨source, seqno, base + cur⟩ :: recordsOf seqno base (cur + recordSize source) rest

/-- The records of the blocks of a log. -/
def logRecords (seqno : Int) : Int → List Block → List LogRecord
  | _, [] => []
  | base, b :: bs => recordsOf seqno base blkHdrovhd b.records ++ logRecords seqno (base + b.blklen) bs

/-- Where the last block starts. -/
def lastOffset : Int → List Block → Option Int
  | _, [] => none
  | base, [_] => some base
  | base, b :: b' :: bs => lastOffset (base + b.blklen) (b' :: bs)

/-- The sequence numbers of the blocks go up by one, and what is behind the last of them does not pass
for the next one. Where nothing is behind it, the header knows of no later block. -/
def EndsAfter (readAheadBytes : Nat) (hibsn : Int) : Block → List Block → List UInt8 → Prop
  | b, [], rest => (rest = [] → hibsn ≤ b.bsn) ∧
    (readAheadBytes ≤ rest.length → bsnOf rest = slong (b.bsn + 1) → Rejected readAheadBytes rest)
  | b, b' :: bs, rest => b'.bsn = slong (b.bsn + 1) ∧ EndsAfter readAheadBytes hibsn b' bs rest

theorem lastOffset_ge {base x : Int} {b : Block} {bs : List Block}
    (h : lastOffset base (b :: bs) = some x) : base ≤ x := by
  induction bs generalizing base b with
  | nil =>
    cases h
    exact le_refl _
  | cons b' bs ih =>
    have hle := ih (b := b') h
    omega

/-- The handle with its next record at `r`. -/
def Walr.atRecord (w : Walr) (r : Nat) : Walr := { w with recOffset := r }

theorem walrGet_inside {files : LogFiles} {s : Walrs} {w : Walr} (hw : s.walr = some w)
    (h : w.recOffset + 4 ≤ lenOf w.buffer) : walrGet files s = getRecord s w := by
  rw [walrGet, hw]
  exact if_pos (Or.inr h)

/-- A record of the block is the next result, or it is skipped. -/
theorem walrGet_record (files : LogFiles) {s : Walrs} {w : Walr} {source more : List UInt8}
    (hw : s.walr = some w) (hdrop : w.buffer.drop w.recOffset =
      ushortBytes source.length ++ (ushortBytes w.recOffset ++ (source ++ more)))
    (hend : w.recOffset + recordSize source ≤ lenOf w.buffer) :
    walrGet files s =
      if source = [] then .skip { s with walr := some (w.atRecord (w.recOffset + recordSize source)) }
      else .emit ⟨source, w.logHeader.seqno, w.offset + w.recOffset⟩
        { s with walr := some (w.atRecord (w.recOffset + recordSize source)) } := by
  have hlen : (w.buffer.drop w.recOffset).length = recordSize source + more.length := by
    rw [hdrop]
    simp only [List.length_append, length_ushortBytes, recordSize, recHdrovhd]
    omega
  have hsize : recordSize source = 4 + source.length := rfl
  have hlt := ushortAt_lt w.buffer 2
  rw [List.length_drop] at hlen
  have hreclen : ushortAt w.buffer w.recOffset = source.length := by
    have hzero := ushortAt_drop w.buffer w.recOffset 0
    rw [Nat.add_zero] at hzero
    rw [← hzero, hdrop]
    exact ushortAt_ushortBytes (by unfold lenOf at hend; omega) _
  have hsource : (w.buffer.drop (w.recOffset + recHdrovhd)).take source.length = source := by
    rw [← List.drop_drop, hdrop]
    exact List.take_left
  have hheader : ¬w.buffer.length < w.recOffset + recHdrovhd := by
    rw [recHdrovhd]
    omega
  have hbody : ¬w.buffer.length < w.recOffset + recHdrovhd + source.length := by
    rw [recHdrovhd]
    omega
  have hwhole : ¬(lenOf w.buffer : Int) - w.recOffset - recHdrovhd < source.length := by
    rw [recHdrovhd]
    omega
  rw [walrGet_inside hw (by omega), getRecord]
  dsimp only
  rw [if_neg hheader, hreclen]
  by_cases hnil : source = []
  · subst hnil
    rw [if_pos (show ([] : List UInt8).length = 0 from rfl), if_pos rfl]
    rfl
  · have hpos : ¬source.length = 0 := mt List.length_eq_zero_iff.mp hnil
    rw [if_neg hpos, if_neg hwhole, if_neg hbody, if_neg hnil, hsource, Nat.add_assoc]
    rfl

/-- The records of the block come out one after the other. -/
theorem runs_records {files : LogFiles} {s u : Walrs} {w : Walr} {records : List (List UInt8)}
    {more : List UInt8} {out : List LogRecord} {e : Ret}
    (hdrop : w.buffer.drop w.recOffset = recordsBytes w.recOffset records ++ more)
    (hend : w.recOffset + (records.map recordSize).sum = lenOf w.buffer) :
    Runs (walrGet files) { s with walr := some w }
      (recordsOf w.logHeader.seqno w.offset w.recOffset records ++ out) e u ↔
      Runs (walrGet files) { s with walr := some (w.atRecord (lenOf w.buffer)) } out e u := by
  induction records generalizing w with
  | nil =>
    have hat : w.atRecord (lenOf w.buffer) = w := by
      rw [← hend]
      rfl
    rw [hat]
    rfl
  | cons source rest ih =>
    rw [List.map_cons, List.sum_cons] at hend
    have hdrop' : w.buffer.drop w.recOffset = ushortBytes source.length ++
        (ushortBytes w.recOffset ++ (source ++
          (recordsBytes (w.recOffset + recordSize source) rest ++ more))) := by
      rw [hdrop]
      simp only [recordsBytes, List.append_assoc]
    have hnext : (w.atRecord (w.recOffset + recordSize source)).buffer.drop (w.recOffset + recordSize source) =
        recordsBytes (w.recOffset + recordSize source) rest ++ more := by
      show w.buffer.drop _ = _
      rw [← List.drop_drop, hdrop', ← List.append_assoc, ← List.append_assoc, List.drop_left']
      simp only [List.length_append, length_ushortBytes, recordSize, recHdrovhd]
    have hstep := walrGet_record files (show { s with walr := some w }.walr = some w from rfl) hdrop'
      (by omega)
    have hrest := ih (w := w.atRecord (w.recOffset + recordSize source)) hnext
      (by show w.recOffset + recordSize source + _ = lenOf w.buffer; omega)
    rw [recordsOf]
    by_cases hnil : source = []
    · rw [if_pos hnil] at hstep ⊢
      rw [runs_of_skip hstep]
      exact hrest
    · rw [if_neg hnil] at hstep ⊢
      rw [List.cons_append, runs_of_emit hstep]
      exact hrest

theorem Loaded.atRecord {w : Walr} {b : Block} {t : List UInt8} (h : Loaded w b t) (r : Nat) :
    Loaded (w.atRecord r) b t :=
  ⟨h.buffer, h.bytes, h.hibsn, h.short, h.eof, h.readAhead, h.file, h.nextBsn⟩

theorem Alone.atRecord {s : Walrs} {w : Walr} (h : Alone s w) (r : Nat) :
    Alone { s with walr := some (w.atRecord r) } (w.atRecord r) :=
  ⟨rfl, h.timestamp, h.eofScan, h.done, h.last,
    ⟨h.sane.sixteen, h.sane.sector, h.sane.readAhead, h.sane.buffer⟩⟩

theorem Loaded.lenOf {w : Walr} {b : Block} {t : List UInt8} (h : Loaded w b t) :
    lenOf w.buffer = recordsEnd b.records := by
  obtain ⟨stale, hbuf⟩ := h.buffer
  rw [hbuf, b.lenOf_bytes]

theorem Loaded.blklenOf {w : Walr} {b : Block} {t : List UInt8} (h : Loaded w b t) :
    blklenOf w.buffer = b.blklen := by
  obtain ⟨stale, hbuf⟩ := h.buffer
  rw [hbuf, b.blklenOf_bytes]

/-- A block that was loaded gives its records, and then the reader is at its end. -/
theorem runs_loaded {files : LogFiles} {s u : Walrs} {w : Walr} {b : Block} {t : List UInt8}
    {out : List LogRecord} {e : Ret} (h : Loaded w b t) (hrec : w.recOffset = 16) :
    Runs (walrGet files) { s with walr := some w }
      (recordsOf w.logHeader.seqno w.offset blkHdrovhd b.records ++ out) e u ↔
      Runs (walrGet files) { s with walr := some (w.atRecord (recordsEnd b.records)) } out e u := by
  obtain ⟨stale, hbuf⟩ := h.buffer
  obtain ⟨more, hmore⟩ := b.drop_bytes stale
  have hofs : w.recOffset = blkHdrovhd := hrec
  have hdrop : w.buffer.drop w.recOffset = recordsBytes w.recOffset b.records ++ more := by
    rw [hbuf, hofs]
    exact hmore
  have hend : w.recOffset + (b.records.map recordSize).sum = lenOf w.buffer := by
    rw [h.lenOf, hofs]
    rfl
  rw [← h.lenOf, ← hofs]
  exact runs_records hdrop hend

/-- At the end of a block the next one is read. -/
theorem walrGet_end (files : LogFiles) {s : Walrs} {w : Walr} {b : Block} {t : List UInt8}
    (h : Loaded w b t) (hs : Alone s w) (hrec : w.recOffset = recordsEnd b.records) :
    walrGet files s = getFromBlock (if w.eof then (.endOfLog, s) else readBlock s w) := by
  have houtside : ¬(lenOf w.buffer < w.recOffset ∨ w.recOffset + recHdrovhd ≤ lenOf w.buffer) := by
    rw [h.lenOf, hrec, recHdrovhd]
    omega
  rw [← readNextBlock_alone files hs, walrGet, hs.walr]
  exact if_neg houtside

/-- A block that was just loaded has a record to be got. -/
theorem walrGet_loaded {files : LogFiles} {s : Walrs} {w : Walr} {b : Block} {t : List UInt8}
    (h : Loaded w b t) (hw : s.walr = some w) (hrec : w.recOffset = 16) :
    walrGet files s = getRecord s w := by
  have hge := recordsEnd_ge b.nonempty
  simp only [blkHdrovhd, recHdrovhd] at hge
  exact walrGet_inside hw (by rw [h.lenOf, hrec]; omega)

/-- What is read in the place of a block shows in the position. -/
theorem not_stops_of_accepted {files : LogFiles} {s u : Walrs} {w : Walr} {t : List UInt8}
    {out : List LogRecord} (hs : Alone s w) (heof : w.eof = false) (ha : Ahead w t)
    (hr : ¬Rejected w.readAheadBytes t) (hblk : 0 < blklenOf w.buffer)
    (hstep : walrGet files s = getFromBlock (readBlock s w))
    (hrun : Runs (walrGet files) s out .endOfLog u) : u.walr.map Walr.offset ≠ some w.offset := by
  have hne := readBlock_not_rejected (s := s) ha hr
  obtain ⟨w', hstate, hadv, hsuccess⟩ := readBlock_spec hs.walr hs.timestamp heof hs.sane
  cases hread : readBlock s w with
  | mk ret s' =>
    rw [hread] at hne hstate hsuccess hstep
    dsimp only at hstate hsuccess
    subst hstate
    cases ret with
    | endOfLog => exact absurd rfl hne
    | failure status => cases ((runs_of_stop hstep).mp hrun).2.1
    | fault => cases ((runs_of_stop hstep).mp hrun).2.1
    | success =>
      obtain ⟨v, hv, hle⟩ := runs_offset_behind hstep (hs.advance hadv) hrun
      have hofs := (hsuccess rfl).1
      rw [hv.walr]
      intro h
      have heq : v.offset = w.offset := Option.some.inj h
      omega

theorem EndsAfter.hibsn {ra : Nat} {hibsn : Int} {b : Block} {bs : List Block} {rest : List UInt8}
    (h : EndsAfter ra hibsn b bs rest) (hnil : bs.flatMap Block.bytes ++ rest = []) : hibsn ≤ b.bsn := by
  cases bs with
  | nil => exact h.1 hnil
  | cons b' bs =>
    have hmem := b'.blklen_mem
    have hlen := congrArg List.length hnil
    simp only [List.flatMap_cons, List.length_append, b'.length_bytes, List.length_nil] at hlen
    omega

/-- From a block on, the rest of the log is read as it should be if and only if it ends as it should. -/
theorem loaded_stops_iff (files : LogFiles) {s : Walrs} {w : Walr} {b : Block} {bs : List Block}
    {rest : List UInt8} (h : Loaded w b (bs.flatMap Block.bytes ++ rest))
    (hs : Alone { s with walr := some w } w) (hrec : w.recOffset = 16)
    (hlong : ∀ b' ∈ bs, w.readAheadBytes ≤ b'.blklen) :
    (∃ u, Runs (walrGet files) { s with walr := some w }
      (logRecords w.logHeader.seqno w.offset (b :: bs)) .endOfLog u ∧
        u.walr.map Walr.offset = lastOffset w.offset (b :: bs)) ↔
      EndsAfter w.readAheadBytes w.logHeader.hibsn b bs rest := by
  induction bs generalizing b w with
  | nil =>
    have hv := h.atRecord (recordsEnd b.records)
    have hsv := hs.atRecord (recordsEnd b.records)
    have hstep := walrGet_end files hv hsv rfl
    rw [List.flatMap_nil, List.nil_append] at h hv
    have hcut : logRecords w.logHeader.seqno w.offset [b] =
        recordsOf w.logHeader.seqno w.offset blkHdrovhd b.records ++ [] := rfl
    have hgood : ∀ {u : Walrs}, walrGet files { s with walr := some (w.atRecord (recordsEnd b.records)) } =
        .stop .endOfLog u → u.walr.map Walr.offset = some w.offset →
        ∃ u, Runs (walrGet files) { s with walr := some (w.atRecord (recordsEnd b.records)) } [] .endOfLog u ∧
          u.walr.map Walr.offset = lastOffset w.offset [b] :=
      fun hstop hofs => ⟨_, Runs.stop hstop, hofs⟩
    rw [hcut]
    simp only [runs_loaded h hrec]
    rcases Nat.lt_or_ge rest.length w.readAheadBytes with hshort | hfull
    · rw [show (w.atRecord (recordsEnd b.records)).eof = true from h.short hshort] at hstep
      refine iff_of_true (hgood hstep rfl) ⟨h.hibsn, fun hle => ?_⟩
      exact absurd hshort (Nat.not_lt.mpr hle)
    · have heof : (w.atRecord (recordsEnd b.records)).eof = decide (bsnOf rest ≠ slong (b.bsn + 1)) :=
        h.eof hfull
      by_cases hbsn : bsnOf rest = slong (b.bsn + 1)
      · rw [decide_eq_false (not_not_intro hbsn)] at heof
        rw [heof] at hstep
        have ha := hv.ahead hfull
        by_cases hr : Rejected w.readAheadBytes rest
        · obtain ⟨w', hread, hofs⟩ := readBlock_rejected
            (s := { s with walr := some (w.atRecord (recordsEnd b.records)) }) ha hr
          rw [if_neg Bool.false_ne_true, hread] at hstep
          exact iff_of_true (hgood hstep (congrArg some hofs)) ⟨h.hibsn, fun _ _ => hr⟩
        · have hblk : 0 < blklenOf (w.atRecord (recordsEnd b.records)).buffer := by
            have := b.blklen_mem
            rw [hv.blklenOf]
            omega
          refine iff_of_false ?_ fun hends => hr (hends.2 hfull hbsn)
          rintro ⟨u, hrun, hofs⟩
          exact not_stops_of_accepted hsv heof ha hr hblk hstep hrun hofs
      · rw [decide_eq_true hbsn] at heof
        rw [heof] at hstep
        exact iff_of_true (hgood hstep rfl) ⟨h.hibsn, fun _ h' => absurd h' hbsn⟩
  | cons b' bs ih =>
    have hv := h.atRecord (recordsEnd b.records)
    have hsv := hs.atRecord (recordsEnd b.records)
    have hstep := walrGet_end files hv hsv rfl
    have hcut : logRecords w.logHeader.seqno w.offset (b :: b' :: bs) =
        recordsOf w.logHeader.seqno w.offset blkHdrovhd b.records ++
          logRecords w.logHeader.seqno (w.offset + b.blklen) (b' :: bs) := rfl
    rw [List.flatMap_cons, List.append_assoc] at h hv
    have hb' := hlong b' List.mem_cons_self
    have hfull : w.readAheadBytes ≤ (b'.bytes ++ (bs.flatMap Block.bytes ++ rest)).length := by
      rw [List.length_append, b'.length_bytes]
      omega
    have heof : (w.atRecord (recordsEnd b.records)).eof = decide (b'.bsn ≠ slong (b.bsn + 1)) := by
      rw [← b'.bsnOf_bytes (bs.flatMap Block.bytes ++ rest)]
      exact h.eof hfull
    rw [hcut]
    simp only [runs_loaded h hrec]
    by_cases hbsn : b'.bsn = slong (b.bsn + 1)
    · rw [decide_eq_false (not_not_intro hbsn)] at heof
      rw [heof, if_neg Bool.false_ne_true] at hstep
      have hnext : (w.atRecord (recordsEnd b.records)).nextBsn = slong (b'.bsn + 1) := by
        rw [hbsn]
        exact h.nextBsn hfull
      obtain ⟨hbad, hgood⟩ := readBlock_written
        (s := { s with walr := some (w.atRecord (recordsEnd b.records)) }) (hv.ahead hfull)
        hsv.timestamp heof hb' hnext
      by_cases hend : bs.flatMap Block.bytes ++ rest = [] ∧ b'.bsn < w.logHeader.hibsn
      · obtain ⟨status, s', hread⟩ := hbad hend
        rw [hread] at hstep
        refine iff_of_false ?_ fun hends => ?_
        · rintro ⟨u, hrun, _⟩
          cases ((runs_of_stop hstep).mp hrun).2.1
        · have hle := hends.2.hibsn hend.1
          omega
      · obtain ⟨w', hread, hload, hrec', hofs, hheader, hahead⟩ := hgood hend
        obtain ⟨w'', hstate, hadv, _⟩ := readBlock_spec hsv.walr hsv.timestamp heof hsv.sane
        rw [hread] at hstate hstep
        cases Option.some.inj (congrArg Walrs.walr hstate)
        have hs' : Alone { s with walr := some w' } w' := hsv.advance hadv
        have hsame : walrGet files { s with walr := some (w.atRecord (recordsEnd b.records)) } =
            walrGet files { s with walr := some w' } :=
          hstep.trans (walrGet_loaded hload rfl hrec').symm
        have hbase : w'.offset = w.offset + b.blklen := by
          rw [hofs, hv.blklenOf]
          rfl
        have hseqno : w'.logHeader.seqno = w.logHeader.seqno := congrArg Walfh.seqno hheader
        have hrest := ih hload hs' hrec' (by
          rw [hahead]
          exact fun c hc => hlong c (List.mem_cons_of_mem _ hc))
        rw [hbase, hseqno, hheader, hahead] at hrest
        simp only [runs_congr hsame]
        exact hrest.trans ⟨fun hends => ⟨hbsn, hends⟩, And.right⟩
    · rw [decide_eq_true hbsn] at heof
      rw [heof] at hstep
      refine iff_of_false ?_ fun hends => hbsn hends.1
      rintro ⟨u, hrun, hofs⟩
      obtain ⟨-, -, rfl⟩ := (runs_of_stop hstep).mp hrun
      have hlast : lastOffset (w.offset + b.blklen) (b' :: bs) = some w.offset := hofs.symm
      have hle := lastOffset_ge hlast
      have hmem := b.blklen_mem
      omega

end Wal

end InterBase
