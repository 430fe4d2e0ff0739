import InterBase.Walr
import InterBase.WalBlock

namespace InterBase

namespace Wal

open TornWrite Emission

/-- What makes `read_next_block` take the bytes for the end of the log: they stop inside the block that
they begin, or the length behind it is another one. The read stays within `walr_buffer`. -/
def Rejected (readAheadBytes : Nat) (t : List UInt8) : Prop :=
  min (blklenOf t) (t.length - readAheadBytes) ≤ maxWalbuflen ∧
    (max readAheadBytes t.length < blklenOf t ∨
      (blkTailovhd ≤ blklenOf t ∧ blklenOf t ≤ t.length ∧
        ushortAt t (blklenOf t - blkTailovhd) ≠ blklenOf t))

instance (readAheadBytes : Nat) (t : List UInt8) : Decidable (Rejected readAheadBytes t) := by
  unfold Rejected
  infer_instance

/-- The next block to be read begins the bytes `t`, and its header was read ahead. -/
structure Ahead (w : Walr) (t : List UInt8) : Prop where
  readAhead : w.readAheadBuffer = t.take w.readAheadBytes
  file : w.fd.drop w.filePos = t.drop w.readAheadBytes
  header : 16 ≤ t.length
  bytes : 16 ≤ w.readAheadBytes
  full : w.readAheadBytes ≤ t.length ∨ w.buffer.length ≤ t.length

/-- The block lies in `walr_buffer`, and of the bytes `t` behind it as much was read ahead as the reader
reads. -/
structure Loaded (w : Walr) (b : Block) (t : List UInt8) : Prop where
  buffer : ∃ stale, w.buffer = b.bytes ++ stale
  bytes : 16 ≤ w.readAheadBytes
  hibsn : t = [] → w.logHeader.hibsn ≤ b.bsn
  short : t.length < w.readAheadBytes → w.eof = true
  eof : w.readAheadBytes ≤ t.length → w.eof = decide (bsnOf t ≠ slong (b.bsn + 1))
  readAhead : w.readAheadBytes ≤ t.length → w.readAheadBuffer = t.take w.readAheadBytes
  file : w.readAheadBytes ≤ t.length → w.fd.drop w.filePos = t.drop w.readAheadBytes
  nextBsn : w.readAheadBytes ≤ t.length → w.nextBsn = slong (slong (b.bsn + 1) + 1)

theorem ushortAt_take {t : List UInt8} {n i : Nat} (h : i + 2 ≤ (t.take n).length) :
    ushortAt (t.take n) i = ushortAt t i := by
  conv => rhs; rw [← List.take_append_drop n t]
  exact (ushortAt_append _ h).symm

theorem bsnOf_take {t : List UInt8} {n : Nat} (h : 8 ≤ (t.take n).length) :
    bsnOf (t.take n) = bsnOf t := by
  conv => rhs; rw [← List.take_append_drop n t]
  exact (slongAt_append _ h).symm

namespace Ahead

variable {w : Walr} {t : List UInt8}

theorem sixteen (h : Ahead w t) : 16 ≤ (t.take w.readAheadBytes).length := by
  have := h.header
  have := h.bytes
  rw [List.length_take]
  omega

theorem front_eq (h : Ahead w t) : overwrite 0 w.buffer 0 w.readAheadBuffer =
    t.take w.readAheadBytes ++ w.buffer.drop (t.take w.readAheadBytes).length := by
  rw [h.readAhead, overwrite_zero]

theorem blklen_front (h : Ahead w t) :
    blklenOf (overwrite 0 w.buffer 0 w.readAheadBuffer) = blklenOf t := by
  have := h.sixteen
  rw [h.front_eq]
  exact (ushortAt_append _ (by omega)).trans (ushortAt_take (by omega))

theorem length_data (h : Ahead w t) (n : Nat) :
    (llioRead w.fd w.filePos n).length = min n (t.length - w.readAheadBytes) := by
  rw [llioRead, h.file, List.length_take, List.length_drop]

/-- What is in `walr_buffer` after the read: the bytes, and behind them what was there before. -/
theorem buffer_eq (h : Ahead w t) (n : Nat) : ∃ stale,
    overwrite 0 (overwrite 0 w.buffer 0 w.readAheadBuffer) w.readAheadBytes
      (llioRead w.fd w.filePos n) = t.take (w.readAheadBytes + n) ++ stale ∧
    (t.length < w.readAheadBytes → stale = []) := by
  rcases Nat.lt_or_ge t.length w.readAheadBytes with hlt | hge
  · have hbuf : w.buffer.length ≤ t.length := by
      rcases h.full with hfull | hbuf
      · omega
      · exact hbuf
    have hnil : llioRead w.fd w.filePos n = [] := by
      rw [llioRead, h.file, List.drop_of_length_le (by omega), List.take_nil]
    refine ⟨[], ?_, fun _ => rfl⟩
    rw [hnil, overwrite_nil, h.front_eq, List.take_of_length_le (Nat.le_of_lt hlt),
      List.take_of_length_le (by omega), List.drop_of_length_le hbuf]
  · have hlen : (t.take w.readAheadBytes).length = w.readAheadBytes := by
      rw [List.length_take]
      omega
    refine ⟨((t.take w.readAheadBytes) ++ w.buffer.drop (t.take w.readAheadBytes).length).drop
      (w.readAheadBytes + (llioRead w.fd w.filePos n).length), ?_, fun hlt => by omega⟩
    rw [h.front_eq, overwrite_of_le 0 _ (by rw [List.length_append]; omega), List.take_left' hlen,
      List.take_add, llioRead, h.file, List.append_assoc]

end Ahead

/-- `read_next_block` over the bytes that begin with the next block. -/
theorem readBlock_ahead {s : Walrs} {w : Walr} {t : List UInt8} (h : Ahead w t) :
    ∃ buffer stale, buffer = t.take (w.readAheadBytes + blklenOf t) ++ stale ∧
      readBlock s w =
        let got := min (blklenOf t) (t.length - w.readAheadBytes)
        if 64000 < got then (.fault, s)
        else if max w.readAheadBytes t.length < blklenOf t then
          (.endOfLog, { s with walr := some { w with buffer := buffer, filePos := w.filePos + got } })
        else if blklenOf t < 2 ∨ t.length < blklenOf t then (.fault, s)
        else if ushortAt t (blklenOf t - 2) ≠ blklenOf t then
          (.endOfLog, { s with walr := some { w with buffer := buffer, filePos := w.filePos + got } })
        else checkNextHeader s w buffer got := by
  obtain ⟨stale, hbuf, hstale⟩ := h.buffer_eq (blklenOf t)
  have hsixteen := h.bytes
  have hdata := h.length_data (blklenOf t)
  refine ⟨_, stale, hbuf, ?_⟩
  have hlen : ((t.take (w.readAheadBytes + blklenOf t) ++ stale).length < blklenOf t ↔
      t.length < blklenOf t) ∨ max w.readAheadBytes t.length < blklenOf t := by
    rw [List.length_append, List.length_take]
    rcases Nat.lt_or_ge t.length w.readAheadBytes with hlt | hge
    · rw [hstale hlt, List.length_nil]
      omega
    · omega
  have htrail : blklenOf t < 2 ∨ t.length < blklenOf t ∨
      ushortAt (t.take (w.readAheadBytes + blklenOf t) ++ stale) (blklenOf t - 2) =
        ushortAt t (blklenOf t - 2) := by
    by_cases hle : blklenOf t < 2 ∨ t.length < blklenOf t
    · rcases hle with hle | hle
      · exact Or.inl hle
      · exact Or.inr (Or.inl hle)
    · have htake : blklenOf t - 2 + 2 ≤ (t.take (w.readAheadBytes + blklenOf t)).length := by
        rw [List.length_take]
        omega
      rw [ushortAt_append _ htake]
      exact Or.inr (Or.inr (ushortAt_take htake))
  unfold readBlock
  simp only [h.blklen_front, hdata, hbuf]
  by_cases hroom : 64000 < min (blklenOf t) (t.length - w.readAheadBytes)
  · rw [if_pos (show maxWalbuflen < _ from hroom), if_pos hroom]
  rw [if_neg (show ¬maxWalbuflen < _ from hroom), if_neg hroom]
  by_cases hshort : max w.readAheadBytes t.length < blklenOf t
  · rw [if_pos (by omega), if_pos hshort]
  rw [if_neg (by omega), if_neg hshort]
  have hlen' := hlen.resolve_right hshort
  by_cases hbad : blklenOf t < 2 ∨ t.length < blklenOf t
  · rw [if_pos (show blklenOf t < blkTailovhd ∨ _ from hbad.imp id hlen'.mpr), if_pos hbad]
  rw [if_neg (show ¬(blklenOf t < blkTailovhd ∨ _) from fun h' => hbad (h'.imp id hlen'.mp)),
    if_neg hbad]
  have htrail' := (htrail.resolve_left fun h' => hbad (Or.inl h')).resolve_left
    fun h' => hbad (Or.inr h')
  show (if ushortAt (t.take (w.readAheadBytes + blklenOf t) ++ stale) (blklenOf t - 2) ≠ blklenOf t
    then _ else _) = _
  rw [htrail']

theorem readBlock_rejected {s : Walrs} {w : Walr} {t : List UInt8} (h : Ahead w t)
    (hr : Rejected w.readAheadBytes t) :
    ∃ w', readBlock s w = (.endOfLog, { s with walr := some w' }) ∧ w'.offset = w.offset := by
  obtain ⟨buffer, stale, _, hread⟩ := readBlock_ahead (s := s) h
  obtain ⟨hfits, hends⟩ := hr
  have hroom : ¬64000 < min (blklenOf t) (t.length - w.readAheadBytes) := Nat.not_lt.mpr hfits
  rw [hread]
  dsimp only
  rw [if_neg hroom]
  by_cases hshort : max w.readAheadBytes t.length < blklenOf t
  · rw [if_pos hshort]
    exact ⟨_, rfl, rfl⟩
  · obtain ⟨htail, hle, hne⟩ := hends.resolve_left hshort
    have hgood : ¬(blklenOf t < 2 ∨ t.length < blklenOf t) := by
      rintro (h' | h')
      · exact absurd htail (Nat.not_le.mpr h')
      · omega
    have hne' : ushortAt t (blklenOf t - 2) ≠ blklenOf t := hne
    rw [if_neg hshort, if_neg hgood, if_pos hne']
    exact ⟨_, rfl, rfl⟩

theorem checkNextHeader_ne (s : Walrs) (w : Walr) (buffer : List UInt8) (got : Nat) :
    (checkNextHeader s w buffer got).1 ≠ .endOfLog := by
  unfold checkNextHeader
  dsimp only
  split
  · split <;> exact Ret.noConfusion
  · split <;> exact Ret.noConfusion

/-- What is not taken for the end of the log is used. -/
theorem readBlock_not_rejected {s : Walrs} {w : Walr} {t : List UInt8} (h : Ahead w t)
    (hr : ¬Rejected w.readAheadBytes t) : (readBlock s w).1 ≠ .endOfLog := by
  obtain ⟨buffer, stale, _, hread⟩ := readBlock_ahead (s := s) h
  rw [hread]
  dsimp only
  split
  · exact Ret.noConfusion
  next hfits =>
  split
  next hshort => exact absurd ⟨Nat.le_of_not_lt hfits, Or.inl hshort⟩ hr
  next =>
  split
  · exact Ret.noConfusion
  next hgood =>
  rw [not_or, Nat.not_lt, Nat.not_lt] at hgood
  split
  next hne => exact absurd ⟨Nat.le_of_not_lt hfits, Or.inr ⟨hgood.1, hgood.2, hne⟩⟩ hr
  next => exact checkNextHeader_ne s w buffer _

/-- A block that was written whole is read, unless the file stops behind it too early for the header. -/
theorem readBlock_written {s : Walrs} {w : Walr} {b : Block} {t : List UInt8}
    (h : Ahead w (b.bytes ++ t)) (htime : s.timestamp = none) (heof : w.eof = false)
    (hlong : w.readAheadBytes ≤ b.blklen) (hbsn : w.nextBsn = slong (b.bsn + 1)) :
    (t = [] ∧ b.bsn < w.logHeader.hibsn → ∃ status s', readBlock s w = (.failure status, s')) ∧
    (¬(t = [] ∧ b.bsn < w.logHeader.hibsn) → ∃ w',
      readBlock s w = (.success, { s with walr := some w' }) ∧ Loaded w' b t ∧ w'.recOffset = 16 ∧
        w'.offset = w.offset + blklenOf w.buffer ∧ w'.logHeader = w.logHeader ∧
        w'.readAheadBytes = w.readAheadBytes) := by
  obtain ⟨buffer, stale, hbuf, hread⟩ := readBlock_ahead (s := s) h
  have hmem := b.blklen_mem
  have hlen := b.length_bytes
  have hsixteen := h.bytes
  have hdrop := h.file
  rw [b.blklenOf_bytes, List.length_append, hlen] at hread
  rw [b.blklenOf_bytes] at hbuf
  dsimp only at hread
  rw [if_neg (by omega), if_neg (by omega), if_neg (by omega),
    if_neg (by rw [b.trailing]; exact not_not_intro rfl)] at hread
  rw [List.take_append, List.take_of_length_le (by omega), hlen,
    show w.readAheadBytes + b.blklen - b.blklen = w.readAheadBytes by omega, List.append_assoc] at hbuf
  have hblk : blklenOf buffer = b.blklen := by rw [hbuf, b.blklenOf_bytes]
  have hb : bsnOf buffer = b.bsn := by rw [hbuf, b.bsnOf_bytes]
  rw [hread, checkNextHeader]
  dsimp only
  rw [hblk, hb]
  by_cases hnil : t = []
  · subst hnil
    rw [if_pos (by rw [List.length_nil]; omega)]
    constructor
    · rintro ⟨-, hlt⟩
      rw [if_pos hlt]
      exact ⟨_, _, rfl⟩
    · intro hok
      have hge : ¬b.bsn < w.logHeader.hibsn := fun hlt => hok ⟨rfl, hlt⟩
      rw [if_neg hge]
      refine ⟨_, rfl, ⟨⟨_, hbuf⟩, hsixteen, fun _ => Int.not_lt.mp hge, fun _ => rfl, ?_, ?_, ?_, ?_⟩,
        rfl, rfl, rfl, rfl⟩ <;> intro hle <;> dsimp only [List.length_nil] at hle <;> omega
  · have hpos : 0 < t.length := List.length_pos_iff.mpr hnil
    refine ⟨fun hbad => absurd hbad.1 hnil, fun _ => ?_⟩
    rw [if_neg (by omega)]
    by_cases hshort : t.length < w.readAheadBytes
    · rw [if_pos (by omega)]
      refine ⟨_, rfl, ⟨⟨_, hbuf⟩, hsixteen, fun h' => absurd h' hnil, fun _ => rfl, ?_, ?_, ?_, ?_⟩,
        rfl, rfl, rfl, rfl⟩ <;> intro hle <;> dsimp only at hle <;> omega
    · have hnext : (buffer.drop b.blklen).take w.readAheadBytes = t.take w.readAheadBytes := by
        rw [hbuf, List.drop_left' hlen, List.take_left']
        rw [List.length_take]
        omega
      have hgot : min b.blklen (b.blklen + t.length - w.readAheadBytes) = b.blklen := by omega
      have hpos' : w.fd.drop (w.filePos + b.blklen) = t.drop w.readAheadBytes := by
        rw [← List.drop_drop, hdrop, List.drop_drop, List.drop_append, hlen,
          List.drop_of_length_le (by omega), List.nil_append]
        congr 1
        omega
      rw [if_neg (by omega), hnext, hgot, htime]
      have hscan : (s.eofScan || pastTimestamp none (t.take w.readAheadBytes)) = s.eofScan :=
        Bool.or_false _
      rw [hscan]
      refine ⟨_, rfl, ⟨⟨_, hbuf⟩, hsixteen, fun h' => absurd h' hnil,
        fun h' => absurd h' hshort, ?_, fun _ => rfl, fun _ => hpos', fun _ => ?_⟩, rfl, rfl, rfl, rfl⟩
      · intro _
        show (w.eof || decide (bsnOf (t.take w.readAheadBytes) ≠ w.nextBsn)) = _
        rw [heof, Bool.false_or, hbsn, bsnOf_take]
        rw [List.length_take]
        omega
      · show slong (w.nextBsn + 1) = _
        rw [hbsn]

theorem Loaded.ahead {w : Walr} {b : Block} {t : List UInt8} (h : Loaded w b t)
    (hle : w.readAheadBytes ≤ t.length) : Ahead w t :=
  ⟨h.readAhead hle, h.file hle, le_trans h.bytes hle, h.bytes, Or.inl hle⟩

end Wal

end InterBase
