import InterBase.SqzRoundTrip

namespace InterBase

open Memory RunLength

/-- What a control block of `SQZ_compress` ends with: the bytes taken in and put out when the
space is used up, or else the space, the input, the bytes taken in and put out so far. -/
abbrev Compressing := (Nat × List UInt8) ⊕ (Int × List UInt8 × Nat × List UInt8)

/-- One control block of `SQZ_compress`; `n` is `input - start`. -/
def sqzCompressBlock : List UInt8 → Int → List UInt8 → Nat → List UInt8 → Compressing
  | [], space, input, n, output => .inr (space, input, n, output)
  | c :: control, space, input, n, output =>
    let space := space - 1
    if space ≤ 0 then .inl (n, if space = 0 then output ++ [0] else output)
    else
      let length := schar c
      if length < 0 then
        sqzCompressBlock control (space - 1) (input.drop (-length).toNat) (n + (-length).toNat)
          (output ++ [c, input.getD 0 0])
      else
        let space := space - length
        if space < 0 then
          let length := length + space
          if 0 < length then
            .inl (n + length.toNat, output ++ toSchar length :: input.take length.toNat)
          else .inl (n, output ++ [toSchar length])
        else if 0 < length then
          sqzCompressBlock control space (input.drop length.toNat) (n + length.toNat)
            (output ++ c :: input.take length.toNat)
        else sqzCompressBlock control space input n (output ++ [c])

/-- The walk of `SQZ_compress` over the control blocks; a chain that ends is bugcheck 178. -/
def sqzCompressChain : List Dcc → Int → List UInt8 → Nat → List UInt8 →
    Except Nat (Nat × List UInt8)
  | [], _, _, _, _ => .error 178
  | dcc :: dccs, space, input, n, output =>
    match sqzCompressBlock dcc.string space input n output with
    | .inl (n, output) => .ok (ushort n, output)
    | .inr (space, input, n, output) => sqzCompressChain dccs space input n output

def sqzCompress (dccs : List Dcc) (input : List UInt8) (space : Int) :
    Except Nat (Nat × List UInt8) :=
  sqzCompressChain dccs space input 0 []

/-- One control block of `SQZ_compress_length`: `input - start` when the space is used up, or
else the space left and `input - start` so far. -/
def sqzCompressLengthBlock : List UInt8 → Int → Nat → Nat ⊕ (Int × Nat)
  | [], space, n => .inr (space, n)
  | c :: control, space, n =>
    let space := space - 1
    if space ≤ 0 then .inl n
    else
      let length := schar c
      if length < 0 then sqzCompressLengthBlock control (space - 1) (n + (-length).toNat)
      else
        let space := space - length
        if space < 0 then .inl (n + (length + space).toNat)
        else sqzCompressLengthBlock control space (n + length.toNat)

def sqzCompressLengthChain : List Dcc → Int → Nat → Except Nat Nat
  | [], _, _ => .error 178
  | dcc :: dccs, space, n =>
    match sqzCompressLengthBlock dcc.string space n with
    | .inl n => .ok (ushort n)
    | .inr (space, n) => sqzCompressLengthChain dccs space n

def sqzCompressLength (dccs : List Dcc) (space : Int) : Except Nat Nat :=
  sqzCompressLengthChain dccs space 0

theorem sqzCompressBlock_append (c d : List UInt8) (space : Int) (input : List UInt8) (n : Nat)
    (output : List UInt8) :
    sqzCompressBlock (c ++ d) space input n output =
      (sqzCompressBlock c space input n output).elim .inl
        (fun s => sqzCompressBlock d s.1 s.2.1 s.2.2.1 s.2.2.2) := by
  induction c generalizing space input n output with
  | nil => rfl
  | cons b c ih =>
    simp only [List.cons_append, sqzCompressBlock]
    repeat' split
    all_goals first
      | rfl
      | exact ih _ _ _ _

theorem sqzCompressLengthBlock_append (c d : List UInt8) (space : Int) (n : Nat) :
    sqzCompressLengthBlock (c ++ d) space n =
      (sqzCompressLengthBlock c space n).elim .inl
        (fun s => sqzCompressLengthBlock d s.1 s.2) := by
  induction c generalizing space n with
  | nil => rfl
  | cons b c ih =>
    simp only [List.cons_append, sqzCompressLengthBlock]
    repeat' split
    all_goals first
      | rfl
      | exact ih _ _

/-- The block boundaries of the control string do not show where the space ends. -/
theorem sqzCompressChain_eq {dccs : List Dcc} {space : Int} {input : List UInt8} {n : Nat}
    {output : List UInt8} {r : Nat × List UInt8}
    (h : sqzCompressBlock (dccs.flatMap Dcc.string) space input n output = .inl r) :
    sqzCompressChain dccs space input n output = .ok (ushort r.1, r.2) := by
  induction dccs generalizing space input n output with
  | nil => cases h
  | cons dcc dccs ih =>
    rw [List.flatMap_cons, sqzCompressBlock_append] at h
    rw [sqzCompressChain]
    cases hb : sqzCompressBlock dcc.string space input n output with
    | inl s =>
      rw [hb] at h
      cases h
      rfl
    | inr s =>
      rw [hb] at h
      exact ih h

theorem sqzCompressLengthChain_eq {dccs : List Dcc} {space : Int} {n k : Nat}
    (h : sqzCompressLengthBlock (dccs.flatMap Dcc.string) space n = .inl k) :
    sqzCompressLengthChain dccs space n = .ok (ushort k) := by
  induction dccs generalizing space n with
  | nil => cases h
  | cons dcc dccs ih =>
    rw [List.flatMap_cons, sqzCompressLengthBlock_append] at h
    rw [sqzCompressLengthChain]
    cases hb : sqzCompressLengthBlock dcc.string space n with
    | inl s =>
      rw [hb] at h
      cases h
      rfl
    | inr s =>
      rw [hb] at h
      exact ih h

/-- A segment that does not fit: the control byte is cut down to the space behind it. -/
theorem sqzCompressBlock_clip {s : Segment UInt8} (hs : s.Within 127 128) {room : Nat}
    (short : room < s.size) (control rest : List UInt8) (n : Nat) (output : List UInt8) :
    sqzCompressBlock (controlByte s :: control) room (s.expand ++ rest) n output =
      .inl (n + (expand (s.clip room)).length, output ++ packed (s.clip room)) := by
  rw [sqzCompressBlock]
  cases room with
  | zero => simp [Segment.clip, packed]
  | succ room =>
    cases room with
    | zero =>
      have hpad : packed (s.clip (0 + 1)) = [0] := by
        simp only [Segment.clip, List.take_zero]
        rfl
      rw [hpad]
      simp [Segment.clip, Segment.expand]
    | succ room =>
      cases s with
      | run k x =>
        simp only [Segment.size] at short
        omega
      | literal xs =>
        have hl : schar (toSchar xs.length) = xs.length :=
          schar_toSchar (by omega) (by have := hs.2; omega)
        simp only [Segment.size] at short
        have hcut : (xs.length : Int) + ((room + 1 + 1 : Nat) - 1 - xs.length) = (room + 1 : Nat) := by
          omega
        simp only [controlByte, hl]
        rw [if_neg (by omega), if_neg (by omega), if_pos (by omega), hcut, if_pos (by omega)]
        simp only [Segment.clip, Segment.expand, Int.toNat_natCast, expand_cons, expand_nil,
          List.append_nil, packed, packedBytes, List.flatMap_cons, List.flatMap_nil]
        rw [List.take_append_of_le_length (by omega), List.length_take, Nat.min_eq_left (by omega)]

/-- `SQZ_compress` puts out the packed form cut to its space. -/
theorem sqzCompressBlock_segments {ss : List (Segment UInt8)} (h : ∀ s ∈ ss, s.Within 127 128)
    {room : Nat} (short : room < size ss) (rest : List UInt8) (n : Nat) (output : List UInt8) :
    sqzCompressBlock (ss.map controlByte) room (expand ss ++ rest) n output =
      .inl (n + (expand (cut room ss)).length, output ++ packed (cut room ss)) := by
  induction ss generalizing room n output with
  | nil => simp at short
  | cons s ss ih =>
    have hs := h s (by simp)
    rw [List.map_cons, expand_cons, List.append_assoc, cut]
    split
    next hfits =>
      rw [size_cons] at short
      have hnext := fun n output =>
        ih (fun t ht => h t (by simp [ht])) (show room - s.size < size ss by omega) n output
      cases s with
      | literal xs =>
        have hl : schar (toSchar xs.length) = xs.length :=
          schar_toSchar (by omega) (by have := hs.2; omega)
        have hpos := hs.1
        simp only [Segment.size] at hfits
        have hspace : (room : Int) - 1 - xs.length = (room - (Segment.literal xs).size : Nat) := by
          simp only [Segment.size]
          omega
        simp only [sqzCompressBlock, controlByte, hl, hspace]
        rw [if_neg (by omega), if_neg (by omega), if_neg (by omega), if_pos (by omega)]
        simp only [Segment.expand, Int.toNat_natCast, List.drop_left, List.take_left]
        rw [hnext]
        simp only [expand_cons, Segment.expand, List.length_append, Nat.add_assoc, packed,
          List.flatMap_cons, packedBytes, List.append_assoc, List.cons_append]
      | run k x =>
        have hk : schar (toSchar (-k)) = -k := schar_toSchar (by have := hs.2; omega) (by omega)
        have hpos := hs.1
        simp only [Segment.size] at hfits
        have hspace : (room : Int) - 1 - 1 = (room - (Segment.run k x).size : Nat) := by
          simp only [Segment.size]
          omega
        have hlen : (-(-(k : Int))).toNat = (List.replicate k x).length := by simp
        have hhead : (List.replicate k x ++ (expand ss ++ rest)).getD 0 0 = x := by
          obtain ⟨j, rfl⟩ := Nat.exists_eq_add_of_lt hpos
          simp [Nat.add_comm 0 j, List.replicate_succ]
        simp only [sqzCompressBlock, controlByte, hk, hspace]
        rw [if_neg (by omega), if_pos (by omega)]
        simp only [Segment.expand, hlen, List.drop_left, hhead]
        rw [hnext]
        simp only [expand_cons, Segment.expand, List.length_append, Nat.add_assoc, packed,
          List.flatMap_cons, packedBytes, List.append_assoc, List.cons_append, List.nil_append]
    next hlong => exact sqzCompressBlock_clip hs (by omega) _ _ n output

/-- `SQZ_compress_length` stops where `SQZ_compress` does, whatever the input is. -/
theorem sqzCompressLengthBlock_eq (control : List UInt8) (space : Int) (input : List UInt8) (n : Nat)
    (output : List UInt8) :
    sqzCompressLengthBlock control space n =
      (sqzCompressBlock control space input n output).map Prod.fst (fun s => (s.1, s.2.2.1)) := by
  induction control generalizing space input n output with
  | nil => rfl
  | cons c control ih =>
    rw [sqzCompressLengthBlock, sqzCompressBlock]
    by_cases hz : space - 1 ≤ 0
    · rw [if_pos hz, if_pos hz]
      rfl
    · rw [if_neg hz, if_neg hz]
      dsimp only
      by_cases hneg : schar c < 0
      · rw [if_pos hneg, if_pos hneg]
        exact ih _ _ _ _
      · rw [if_neg hneg, if_neg hneg]
        by_cases hover : space - 1 - schar c < 0
        · rw [if_pos hover, if_pos hover, if_pos (by omega)]
          rfl
        · rw [if_neg hover, if_neg hover]
          by_cases hpos : 0 < schar c
          · rw [if_pos hpos]
            exact ih _ _ _ _
          · rw [if_neg hpos]
            have hzero : schar c = 0 := by omega
            rw [hzero]
            exact ih _ _ _ _

/-- Both walks on the control blocks that `SQZ_length` left, in less space than the packed
record takes. -/
theorem sqzCompress_segments {data : List UInt8} (h : data.length < 65536) {space : Nat}
    (short : space < size (segments 127 128 data)) :
    sqzCompress (sqzLength data).1 data space =
        .ok ((expand (cut space (segments 127 128 data))).length,
          packed (cut space (segments 127 128 data))) ∧
      sqzCompressLength (sqzLength data).1 space =
        .ok (expand (cut space (segments 127 128 data))).length := by
  have hexpand : expand (segments 127 128 data) = data := expand_segments (by omega) (by omega) data
  have hbytes : (sqzLength data).1.flatMap Dcc.string = (segments 127 128 data).map controlByte := by
    have := (sqzLengthLoop_spec data {} h).1
    simp only [sqzLength, DccChain.bytes_blocks, this]
    simp [DccChain.bytes]
  have hblock := sqzCompressBlock_segments (segments_within 127 (show 0 < 128 by omega) data)
    short [] 0 []
  rw [hexpand, List.append_nil, ← hbytes] at hblock
  have hlength := sqzCompressLengthBlock_eq ((sqzLength data).1.flatMap Dcc.string) space data 0 []
  rw [hblock] at hlength
  have hle : (expand (cut space (segments 127 128 data))).length ≤ data.length := by
    have := ( expand_cut_prefix space (segments 127 128 data)).length_le
    rwa [hexpand] at this
  simp only [Nat.zero_add, Sum.map_inl, List.nil_append] at hblock hlength
  refine ⟨?_, ?_⟩
  · unfold sqzCompress
    rw [sqzCompressChain_eq hblock, ushort_of_lt (by omega)]
  · unfold sqzCompressLength
    rw [sqzCompressLengthChain_eq hlength, ushort_of_lt (by omega)]

/-- A header piece of `space` bytes: estimate and compression take in the same `n` bytes of the
record and put out as many as there is space for. -/
structure SqzPiece (data : List UInt8) (space n : Nat) (output : List UInt8) : Prop where
  estimate : sqzCompressLength (sqzLength data).1 space = .ok n
  compress : sqzCompress (sqzLength data).1 data space = .ok (n, output)
  filled : output.length = space
  inside : n ≤ data.length

/-- What the tail fragment relies on: unpacking the piece yields the first `n` bytes. -/
def SqzUnpacks (data : List UInt8) (space n : Nat) (output : List UInt8) : Prop :=
  ∀ m input room, Holds m input output → n ≤ room →
    sqzDecompress m input space room = .ok (data.take n)

theorem sqzPiece_cut {data : List UInt8} (h : data.length ≤ 65535) {space : Nat}
    (short : space < size (segments 127 128 data)) :
    SqzPiece data space (expand (cut space (segments 127 128 data))).length
      (packed (cut space (segments 127 128 data))) := by
  have hexpand : expand (segments 127 128 data) = data := expand_segments (by omega) (by omega) data
  obtain ⟨hcompress, hlength⟩ := sqzCompress_segments (by omega) short
  refine ⟨hlength, hcompress, ?_, ?_⟩
  · rw [length_packed]
    exact size_cut (segments_within 127 (show 0 < 128 by omega) data) (by omega)
  · have := ( expand_cut_prefix space (segments 127 128 data)).length_le
    rwa [hexpand] at this

theorem sqzUnpacks_cut {data : List UInt8} {space : Nat} (fits : space ≤ 65535)
    (short : space < size (segments 127 128 data)) :
    SqzUnpacks data space (expand (cut space (segments 127 128 data))).length
      (packed (cut space (segments 127 128 data))) := by
  intro m input room held roomy
  have within := segments_within 127 (show 0 < 128 by omega) data
  have hexpand : expand (segments 127 128 data) = data := expand_segments (by omega) (by omega) data
  have hprefix := expand_cut_prefix space (segments 127 128 data)
  rw [hexpand] at hprefix
  have hsize := size_cut within (show space ≤ size (segments 127 128 data) by omega)
  have hd := sqzDecompressLoop_segments room []
    (cut_packable space (show 0 < 127 by omega) within) held (by simpa using roomy)
  rw [hsize, List.nil_append] at hd
  rw [sqzDecompress, ushort_of_lt (by omega), hd]
  exact congrArg _ (List.prefix_iff_eq_take.mp hprefix)

/-- The header piece holds the front of the record and nothing is lost between it and the tail;
the length that `SQZ_decompress` is handed is a `USHORT`. -/
theorem sqzCompress_fragment (data : List UInt8) (h : data.length ≤ 65535) (space : Nat)
    (short : space < (sqzFast (sqzLength data).1 data).length) :
    ∃ n output, SqzPiece data space n output ∧
      (space ≤ 65535 → SqzUnpacks data space n output) := by
  rw [sqzFast_sqzLength (by omega), length_packed] at short
  refine ⟨_, _, sqzPiece_cut h short, ?_⟩
  intro fits
  exact sqzUnpacks_cut fits short

/-- A run marker that is left one byte of space becomes a control byte for no bytes. -/
theorem sqzCompress_fragment_pad : ∃ n output, SqzPiece [5, 5, 5, 5] 1 n output ∧
    (1 ≤ 65535 → SqzUnpacks [5, 5, 5, 5] 1 n output) := by
  have hdrop : [(5 : UInt8), 5, 5, 5].drop (leadingLiterals [5, 5, 5, 5]) = [5, 5, 5, 5] := by
    decide
  have hsize : size (segments 127 128 [(5 : UInt8), 5, 5, 5]) = 2 := by
    rw [segments_of_drop_cons (by omega) hdrop]
    have hrun : leadingRun 128 [(5 : UInt8), 5, 5, 5] = 4 := by decide
    have hlit : leadingLiterals [(5 : UInt8), 5, 5, 5] = 0 := by decide
    simp [hrun, hlit, size, Segment.size]
  apply sqzCompress_fragment [5, 5, 5, 5] (by decide) 1
  rw [sqzFast_sqzLength (by decide), length_packed, hsize]
  decide

/-- A piece that holds two bytes or more stands for some of the record. -/
theorem sqzPiece_pos {data : List UInt8} (h : data.length ≤ 65535) {space n : Nat}
    {output : List UInt8} (short : space < size (segments 127 128 data)) (two : 2 ≤ space)
    (piece : SqzPiece data space n output) : 0 < n := by
  have within := segments_within 127 (show 0 < 128 by omega) data
  have hn := piece.estimate.symm.trans (sqzPiece_cut h short).estimate
  have hsize := size_cut within (show space ≤ size (segments 127 128 data) by omega)
  have hle := size_cut_le space within
  injection hn with hn
  omega

/-- In 65536 bytes of space the `USHORT` length of `SQZ_decompress` is zero. -/
theorem sqzCompress_fragment_wraps : (alternating 65535).length ≤ 65535 ∧
    65536 < (sqzFast (sqzLength (alternating 65535)).1 (alternating 65535)).length ∧
    ¬∃ n output, SqzPiece (alternating 65535) 65536 n output ∧
      SqzUnpacks (alternating 65535) 65536 n output := by
  have hlen := alternating_length 65535
  have hdrop : (alternating 65535).drop (leadingLiterals (alternating 65535)) = [] := by
    rw [leadingLiterals_of_isChain (alternating_isChain 65535), List.drop_length]
  have hsize : 65536 < size (segments 127 128 (alternating 65535)) := by
    rw [segments_of_drop_nil hdrop, size_pieces (by omega), hlen]
    decide
  refine ⟨by omega, ?_, ?_⟩
  · rw [sqzFast_sqzLength (by omega), length_packed]
    exact hsize
  · rintro ⟨n, output, piece, unpacks⟩
    have hpos := sqzPiece_pos (by omega) hsize (by omega) piece
    have hempty := unpacks (write (fun _ => 0) 0 output) 0 n
      (slice_write_self (fun _ => 0) 0 output) le_rfl
    have hnil : sqzDecompress (write (fun _ => 0) 0 output) 0 65536 n = .ok [] := by
      rw [sqzDecompress, sqzDecompressLoop]
      simp [ushort]
    rw [hnil] at hempty
    injection hempty with hempty
    have htake := congrArg List.length hempty
    have := piece.inside
    simp only [List.length_nil, List.length_take] at htake
    omega

end InterBase
