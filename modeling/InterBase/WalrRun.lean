import InterBase.WalrBlock

namespace InterBase

namespace Wal

open TornWrite Emission

/-- The buffers are not larger than what `log_open` allocates for them. -/
structure Sane (w : Walr) : Prop where
  sixteen : 16 ≤ w.readAheadBytes
  sector : w.readAheadBytes ≤ 512
  readAhead : w.readAheadBuffer.length ≤ 512
  buffer : w.buffer.length ≤ 64512

/-- The reader is in the last log that it goes through. -/
structure Alone (s : Walrs) (w : Walr) : Prop where
  walr : s.walr = some w
  timestamp : s.timestamp = none
  eofScan : s.eofScan = false
  done : s.maxLogs ≤ s.curLog
  last : s.dontScanTailLogs = true ∨ w.logHeader.nextLogname.length ≤ 1
  sane : Sane w

/-- What is left to be read: the file, and the block. -/
def Walr.left (w : Walr) : Nat :=
  (w.fd.length - w.filePos + if w.eof then 0 else 1) * 65536 + (65536 - w.recOffset)

/-- What a read does to the handle. -/
structure Advanced (w w' : Walr) : Prop where
  sane : Sane w'
  offset : w.offset ≤ w'.offset
  logHeader : w'.logHeader = w.logHeader
  fd : w'.fd = w.fd

theorem Advanced.refl {w : Walr} (h : Sane w) : Advanced w w := ⟨h, le_refl _, rfl, rfl⟩

theorem length_llioRead (fd : List UInt8) (pos len : Nat) :
    (llioRead fd pos len).length = min len (fd.length - pos) := by
  rw [llioRead, List.length_take, List.length_drop]

theorem overwrite_sane {w : Walr} (h : Sane w) {data : List UInt8} (hdata : data.length ≤ 64000) :
    (overwrite 0 (overwrite 0 w.buffer 0 w.readAheadBuffer) w.readAheadBytes data).length ≤ 64512 := by
  obtain ⟨_, hsector, hahead, hbuf⟩ := h
  have hfront := overwrite_length_le 0 w.buffer 0 w.readAheadBuffer
  have hall := overwrite_length_le 0 (overwrite 0 w.buffer 0 w.readAheadBuffer) w.readAheadBytes data
  omega

theorem left_lt {w w' : Walr} (hfd : w'.fd = w.fd) (heof : w.eof = false) (hrec : w'.recOffset = 16)
    (hpos : w'.eof = true ∧ w.filePos ≤ w'.filePos ∨
      w.filePos + 2 ≤ w'.filePos ∧ w'.filePos ≤ w.fd.length) : w'.left < w.left := by
  unfold Walr.left
  rw [hfd, hrec, heof]
  rcases hpos with ⟨heof', hle⟩ | ⟨hlow, hhigh⟩
  · rw [heof']
    simp only [if_true, Bool.false_eq_true, if_false]
    omega
  · have hone : (if w'.eof = true then 0 else 1) ≤ 1 := by split <;> omega
    simp only [Bool.false_eq_true, if_false]
    omega

theorem checkNextHeader_spec {s : Walrs} {w : Walr} {buffer : List UInt8} {got : Nat}
    (htime : s.timestamp = none) (heof : w.eof = false) (hsane : Sane w)
    (hbuf : buffer.length ≤ 64512) (hlen : 2 ≤ blklenOf buffer)
    (hgot : got ≤ w.fd.length - w.filePos) :
    ∃ w', (checkNextHeader s w buffer got).2 = { s with walr := some w' } ∧ Advanced w w' ∧
      ((checkNextHeader s w buffer got).1 = .success → w'.offset = w.offset + blklenOf w.buffer ∧
        w'.recOffset = 16 ∧ w'.left < w.left) := by
  obtain ⟨hsixteen, hsector, hahead, _⟩ := hsane
  have hmore : w.offset ≤ w.offset + blklenOf w.buffer := by omega
  have hend : ∀ w' : Walr, w' = { w with
      buffer := buffer, filePos := w.filePos + got, offset := w.offset + blklenOf w.buffer
      recOffset := blkHdrovhd, eof := true } → Advanced w w' ∧
        (w'.offset = w.offset + blklenOf w.buffer ∧ w'.recOffset = 16 ∧ w'.left < w.left) := by
    rintro w' rfl
    exact ⟨⟨⟨hsixteen, hsector, hahead, hbuf⟩, hmore, rfl, rfl⟩, rfl, rfl,
      left_lt rfl heof rfl (Or.inl ⟨rfl, Nat.le_add_right _ _⟩)⟩
  unfold checkNextHeader
  dsimp only
  split
  · split
    · exact ⟨_, rfl, ⟨⟨hsixteen, hsector, hahead, hbuf⟩, le_refl _, rfl, rfl⟩, Ret.noConfusion⟩
    · have hw := hend _ rfl
      exact ⟨_, rfl, hw.1, fun _ => hw.2⟩
  · split
    · have hw := hend _ rfl
      exact ⟨_, rfl, hw.1, fun _ => hw.2⟩
    next hfull =>
      have hscan : ∀ next, (s.eofScan || pastTimestamp s.timestamp next) = s.eofScan := by
        intro next
        rw [htime]
        exact Bool.or_false _
      rw [hscan]
      have hnext : ((buffer.drop (blklenOf buffer)).take w.readAheadBytes).length ≤ 512 := by
        rw [List.length_take]
        omega
      have htwo : 2 ≤ got := by omega
      exact ⟨_, rfl, ⟨⟨hsixteen, hsector, hnext, hbuf⟩, hmore, rfl, rfl⟩, fun _ => ⟨rfl, rfl,
        left_lt rfl heof rfl (Or.inr ⟨by dsimp only; omega, by dsimp only; omega⟩)⟩⟩

theorem blklenOf_overwrite (buffer : List UInt8) {i : Nat} (data : List UInt8) (h : 2 ≤ i) :
    blklenOf (overwrite 0 buffer i data) = blklenOf buffer := by
  unfold blklenOf ushortAt
  rw [getD_overwrite 0 data (by omega), getD_overwrite 0 data (by omega)]

theorem readBlock_spec {s : Walrs} {w : Walr} (hw : s.walr = some w) (htime : s.timestamp = none)
    (heof : w.eof = false) (hsane : Sane w) :
    ∃ w', (readBlock s w).2 = { s with walr := some w' } ∧ Advanced w w' ∧
      ((readBlock s w).1 = .success → w'.offset = w.offset + blklenOf w.buffer ∧
        w'.recOffset = 16 ∧ w'.left < w.left) := by
  have hsame : s = { s with walr := some w } := by
    rw [← hw]
  have hrefl := Advanced.refl hsane
  unfold readBlock
  dsimp only
  split
  · exact ⟨w, hsame, hrefl, Ret.noConfusion⟩
  next hfits =>
  have hbuf := overwrite_sane hsane (Nat.le_of_not_lt hfits)
  have hkeep := hsane
  obtain ⟨hsixteen, hsector, hahead, _⟩ := hkeep
  split
  · exact ⟨_, rfl, ⟨⟨hsixteen, hsector, hahead, hbuf⟩, le_refl _, rfl, rfl⟩, Ret.noConfusion⟩
  split
  · exact ⟨w, hsame, hrefl, Ret.noConfusion⟩
  split
  · exact ⟨_, rfl, ⟨⟨hsixteen, hsector, hahead, hbuf⟩, le_refl _, rfl, rfl⟩, Ret.noConfusion⟩
  next hlong hgood _ =>
  rw [not_or, Nat.not_lt, Nat.not_lt] at hgood
  have hlen : 2 ≤ blklenOf (overwrite 0 (overwrite 0 w.buffer 0 w.readAheadBuffer) w.readAheadBytes
      (llioRead w.fd w.filePos (blklenOf (overwrite 0 w.buffer 0 w.readAheadBuffer)))) := by
    rw [blklenOf_overwrite _ _ (by omega)]
    exact hgood.1
  exact checkNextHeader_spec htime heof hsane hbuf hlen (by rw [length_llioRead]; omega)

theorem getNextLogname_alone {s : Walrs} {w : Walr} (h : Alone s w) : getNextLogname s w = none := by
  rw [getNextLogname, if_pos h.done]
  split
  · rfl
  next hscan =>
    have hname := h.last.resolve_left hscan
    rw [if_neg (by omega)]

theorem readNextBlock_alone {s : Walrs} {w : Walr} (files : LogFiles) (h : Alone s w) :
    readNextBlock files s w = if w.eof then (.endOfLog, s) else readBlock s w := by
  rw [readNextBlock, h.eofScan, getNextLogname_alone h]
  rfl

theorem Alone.advance {s : Walrs} {w w' : Walr} (h : Alone s w) (hw : Advanced w w') :
    Alone { s with walr := some w' } w' :=
  ⟨rfl, h.timestamp, h.eofScan, h.done, by rw [hw.logHeader]; exact h.last, hw.sane⟩

theorem readNextBlock_spec {s : Walrs} {w : Walr} (files : LogFiles) (h : Alone s w) :
    ∃ w', (readNextBlock files s w).2 = { s with walr := some w' } ∧ Advanced w w' ∧
      ((readNextBlock files s w).1 = .success → w'.offset = w.offset + blklenOf w.buffer ∧
        w'.recOffset = 16 ∧ w'.left < w.left) := by
  rw [readNextBlock_alone files h]
  split
  · exact ⟨w, by rw [← h.walr], Advanced.refl h.sane, Ret.noConfusion⟩
  next heof => exact readBlock_spec h.walr h.timestamp (Bool.eq_false_iff.mpr heof) h.sane

theorem getRecord_spec {s : Walrs} {w : Walr} (h : Alone s w) :
    ∃ w', (getRecord s w).state = { s with walr := some w' } ∧ Advanced w w' ∧
      ((getRecord s w).Goes → w'.left < w.left) := by
  have hsame : s = { s with walr := some w } := by
    rw [← h.walr]
  have hrefl := Advanced.refl h.sane
  have hbuf := h.sane.buffer
  have hmove : ∀ r : Nat, w.recOffset < r → w.recOffset + 4 ≤ w.buffer.length →
      Advanced w { w with recOffset := r } ∧ ({ w with recOffset := r } : Walr).left < w.left := by
    intro r hr hroom
    refine ⟨⟨⟨h.sane.sixteen, h.sane.sector, h.sane.readAhead, hbuf⟩, le_refl _, rfl, rfl⟩, ?_⟩
    unfold Walr.left
    dsimp only
    omega
  unfold getRecord
  dsimp only
  split
  · exact ⟨w, hsame, hrefl, False.elim⟩
  next hroom =>
  have hroom' : w.recOffset + 4 ≤ w.buffer.length := Nat.not_lt.mp hroom
  split
  · have hw := hmove (w.recOffset + 4) (by omega) hroom'
    exact ⟨_, rfl, hw.1, fun _ => hw.2⟩
  split
  · exact ⟨w, hsame, hrefl, False.elim⟩
  split
  · exact ⟨w, hsame, hrefl, False.elim⟩
  · have hw := hmove (w.recOffset + 4 + ushortAt w.buffer w.recOffset) (by omega) hroom'
    exact ⟨_, rfl, hw.1, fun _ => hw.2⟩

/-- A call of `WALR_get` keeps the reader in its log, moves forward, and leaves less to be read. -/
theorem walrGet_spec {s : Walrs} {w : Walr} (files : LogFiles) (h : Alone s w) :
    ∃ w', Alone (walrGet files s).state w' ∧ w.offset ≤ w'.offset ∧
      ((walrGet files s).Goes → w'.left < w.left) := by
  have hrec : ∀ {t : Walrs} {v : Walr}, Alone t v → w.offset ≤ v.offset → v.left ≤ w.left →
      ∃ w', Alone (getRecord t v).state w' ∧ w.offset ≤ w'.offset ∧
        ((getRecord t v).Goes → w'.left < w.left) := by
    intro t v hv hofs hleft
    obtain ⟨w', hstate, hadv, hgoes⟩ := getRecord_spec hv
    rw [hstate]
    exact ⟨w', hv.advance hadv, le_trans hofs hadv.offset,
      fun hg => lt_of_lt_of_le (hgoes hg) hleft⟩
  rw [walrGet, h.walr]
  dsimp only
  split
  · exact hrec h (le_refl _) (le_refl _)
  · obtain ⟨w', hstate, hadv, hsuccess⟩ := readNextBlock_spec files h
    have halone := h.advance hadv
    cases hread : readNextBlock files s w with
    | mk ret s' =>
      rw [hread] at hstate hsuccess
      dsimp only at hstate hsuccess
      subst hstate
      cases ret with
      | success => exact hrec halone hadv.offset (Nat.le_of_lt (hsuccess rfl).2.2)
      | endOfLog => exact ⟨w', halone, hadv.offset, False.elim⟩
      | failure status => exact ⟨w', halone, hadv.offset, False.elim⟩
      | fault => exact ⟨w', halone, hadv.offset, False.elim⟩

/-- The position never goes back. -/
theorem walrGet_keeps (files : LogFiles) (base : Int) (t : Walrs)
    (h : ∃ v, Alone t v ∧ base ≤ v.offset) : ∃ v, Alone (walrGet files t).state v ∧ base ≤ v.offset := by
  obtain ⟨v, hv, hofs⟩ := h
  obtain ⟨v', hv', hofs', _⟩ := walrGet_spec files hv
  exact ⟨v', hv', le_trans hofs hofs'⟩

theorem runs_offset {files : LogFiles} {s u : Walrs} {w : Walr} {rs : List LogRecord} {e : Ret}
    (h : Alone s w) (hr : Runs (walrGet files) s rs e u) : ∃ w', Alone u w' ∧ w.offset ≤ w'.offset :=
  hr.keeps (walrGet_keeps files w.offset) ⟨w, h, le_refl _⟩

/-- The same, where the first step reads a block. -/
theorem runs_offset_behind {files : LogFiles} {s s' u : Walrs} {w' : Walr} {rs : List LogRecord}
    {e : Ret} (hstep : walrGet files s = getRecord s' w') (h : Alone s' w')
    (hr : Runs (walrGet files) s rs e u) : ∃ v, Alone u v ∧ w'.offset ≤ v.offset := by
  obtain ⟨v, hstate, hadv, _⟩ := getRecord_spec h
  refine hr.keeps_behind (walrGet_keeps files w'.offset) ⟨v, ?_, hadv.offset⟩
  rw [hstep, hstate]
  exact h.advance hadv

/-- Reading a log comes to an end, whatever is in it. -/
theorem run_walrGet_isSome (files : LogFiles) {s : Walrs} {w : Walr} (h : Alone s w) {fuel : Nat}
    (hfuel : w.left < fuel) : (run (walrGet files) fuel s).isSome := by
  have hleft : ∀ {t : Walrs} {v : Walr}, Alone t v → (t.walr.map Walr.left).getD 0 = v.left := by
    intro t v hv
    rw [hv.walr]
    rfl
  refine run_isSome (P := fun t => ∃ v, Alone t v) (fun t => (t.walr.map Walr.left).getD 0) ?_ ?_
    ⟨w, h⟩ (by rw [hleft h]; exact hfuel)
  · rintro t ⟨v, hv⟩
    obtain ⟨v', hv', _⟩ := walrGet_spec files hv
    exact ⟨v', hv'⟩
  · rintro t ⟨v, hv⟩ hgoes
    obtain ⟨v', hv', _, hlt⟩ := walrGet_spec files hv
    rw [hleft hv, hleft hv']
    exact hlt hgoes

end Wal

end InterBase
