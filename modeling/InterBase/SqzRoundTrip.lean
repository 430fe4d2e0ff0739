import InterBase.Library.RunLength
import InterBase.Sqz

namespace InterBase

open Memory RunLength

/-- The control byte of a segment: a count of literals, or minus the length of a run. -/
def controlByte : Segment UInt8 → UInt8
  | .literal xs => toSchar xs.length
  | .run n _ => toSchar (-n)

/-- The bytes a segment becomes in the packed record. -/
def packedBytes : Segment UInt8 → List UInt8
  | .literal xs => toSchar xs.length :: xs
  | .run n x => [toSchar (-n), x]

def packed (ss : List (Segment UInt8)) : List UInt8 := ss.flatMap packedBytes

theorem length_packedBytes (s : Segment UInt8) : (packedBytes s).length = s.size := by
  cases s with
  | literal xs => simp [packedBytes, Segment.size, Nat.add_comm]
  | run n x => rfl

theorem length_packed (ss : List (Segment UInt8)) : (packed ss).length = size ss := by
  induction ss with
  | nil => rfl
  | cons s ss ih => simpa [packed, length_packedBytes] using ih

/-- All control bytes written so far, the block boundaries forgotten. -/
def DccChain.bytes (s : DccChain) : List UInt8 := s.full.flatMap Dcc.string ++ s.control

@[simp] theorem DccChain.bytes_put (s : DccChain) (n : Int) :
    (s.put n).bytes = s.bytes ++ [toSchar n] := by
  simp only [DccChain.put, DccChain.bytes]
  split <;> simp

@[simp] theorem DccChain.length_put (s : DccChain) (n : Int) : (s.put n).length = s.length := by
  simp only [DccChain.put]
  split <;> rfl

theorem DccChain.bytes_blocks (s : DccChain) : s.blocks.flatMap Dcc.string = s.bytes := by
  simp [DccChain.blocks, DccChain.bytes]

theorem scanRun_eq {max : Nat} {data : List UInt8} (k : Nat) (h : data.length = max + 1)
    (hmax : 1 < max) :
    scanRun max data k =
      if leadingLiterals data = data.length then none else some (k + leadingLiterals data) := by
  induction max generalizing data k with
  | zero => omega
  | succ max ih =>
    match data, h with
    | [], h => simp at h
    | [a], h => simp at h
    | [a, b], h =>
      simp only [List.length_cons, List.length_nil] at h
      omega
    | a :: b :: c :: rest, h =>
      have hle := leadingLiterals_le (b :: c :: rest)
      by_cases he : a = b ∧ a = c
      · obtain ⟨rfl, rfl⟩ := he
        simp [scanRun, leadingLiterals]
      · have hne : a ≠ b ∨ a ≠ c := by
          by_cases hab : a = b
          · exact Or.inr (fun hac => he ⟨hab, hac⟩)
          · exact Or.inl hab
        simp only [scanRun, leadingLiterals, List.getD_cons_zero, List.getD_cons_succ, if_pos hne,
          if_neg he, List.tail_cons, List.length_cons, Nat.add_right_cancel_iff]
        by_cases hm : 1 < max
        · rw [if_pos hm, ih (k + 1) (by simpa using h) hm]
          simp only [List.length_cons]
          split
          · rfl
          · congr 1
            omega
        · have hr : rest = [] := by
            apply List.eq_nil_of_length_eq_zero
            simp only [List.length_cons] at h
            omega
          subst hr
          simp [hm, leadingLiterals]

theorem literalCount_eq {data : List UInt8} (h : data.length < 65536) :
    literalCount data = leadingLiterals data := by
  have hle := leadingLiterals_le data
  simp only [literalCount, ushort_of_lt h]
  by_cases hm : 1 < data.length - 1
  · rw [if_pos hm, scanRun_eq 0 (by omega) hm]
    split
    next he => exact he.symm
    next => simp
  · rw [if_neg hm]
    rcases data with _ | ⟨a, _ | ⟨b, _ | ⟨c, rest⟩⟩⟩
    · rfl
    · rfl
    · rfl
    · simp at hm

theorem equalCount_eq (c : UInt8) {max : Nat} {data : List UInt8} (h : max ≤ data.length) :
    equalCount c max data = min max (data.takeWhile (· = c)).length := by
  induction max generalizing data with
  | zero => simp [equalCount]
  | succ max ih =>
    cases data with
    | nil => simp at h
    | cons b rest =>
      by_cases hb : b = c
      · simp only [equalCount, List.getD_cons_zero, hb, ne_eq, not_true, if_false, List.tail_cons,
          List.takeWhile_cons, decide_true, if_true, List.length_cons]
        rw [ih (by simpa using h)]
        omega
      · simp [equalCount, hb]

theorem equalCount_leadingRun {x : UInt8} {rest : List UInt8} :
    equalCount x (min 128 (x :: rest).length) (x :: rest) = leadingRun 128 (x :: rest) := by
  rw [equalCount_eq x (Nat.min_le_right _ _)]
  have hle : ((x :: rest).takeWhile (· = x)).length ≤ (x :: rest).length :=
    (List.takeWhile_prefix _).length_le
  simp only [leadingRun]
  omega

theorem putLiterals_spec (xs : List UInt8) (s : DccChain) :
    (putLiterals xs.length s).bytes = s.bytes ++ (pieces 127 xs).map controlByte ∧
      (putLiterals xs.length s).length = s.length + size (pieces 127 xs) := by
  induction hn : xs.length using Nat.strong_induction_on generalizing xs s with
  | _ n ih =>
    rw [putLiterals]
    by_cases hz : n = 0
    · have hx : xs = [] := List.eq_nil_of_length_eq_zero (by omega)
      subst hx
      simp [hz]
    · have hx : ¬(xs = [] ∨ 127 = 0) := by
        rintro (rfl | h)
        · exact hz hn.symm
        · omega
      have hrest : (xs.drop 127).length = n - min n 127 := by simp; omega
      have htake : (xs.take 127).length = min n 127 := by simp; omega
      obtain ⟨hb, hl⟩ := ih (n - min n 127) (by omega) (xs.drop 127)
        ({ s with length := s.length + (1 + min n 127) }.put (min n 127 : Nat)) hrest
      rw [pieces, if_neg hx, if_neg hz]
      refine ⟨?_, ?_⟩
      · rw [hb, DccChain.bytes_put]
        change s.bytes ++ _ ++ _ = _
        simp [controlByte, htake]
      · rw [hl]
        simp only [DccChain.length_put, size_cons, Segment.size, htake]
        omega

/-- The control blocks and the length that `SQZ_length` builds, segment by segment. -/
theorem sqzLengthLoop_spec (data : List UInt8) (s : DccChain) (h : data.length < 65536) :
    (sqzLengthLoop data s).bytes = s.bytes ++ (segments 127 128 data).map controlByte ∧
      (sqzLengthLoop data s).length = s.length + size (segments 127 128 data) := by
  induction hn : data.length using Nat.strong_induction_on generalizing data s with
  | _ n ih =>
    rw [sqzLengthLoop, ushort_of_lt h, literalCount_eq h]
    by_cases hz : data.length = 0
    · have hd : data = [] := List.eq_nil_of_length_eq_zero hz
      subst hd
      simp
    · have hle := leadingLiterals_le data
      have hput := putLiterals_spec (data.take (leadingLiterals data)) s
      rw [List.length_take, Nat.min_eq_left hle] at hput
      rw [dif_neg hz]
      rcases drop_leadingLiterals data with hd | ⟨a, rest, hd⟩
      · have hrest : ¬3 ≤ min 128 (data.drop (leadingLiterals data)).length := by simp [hd]
        have htake : data.take (leadingLiterals data) = data :=
          List.take_of_length_le (by simpa using hd)
        rw [dif_neg hrest, hd, sqzLengthLoop, segments_of_drop_nil hd]
        rw [htake] at hput
        simpa [ushort] using hput
      · have hlen := congrArg List.length hd
        simp only [List.length_drop, List.length_cons] at hlen
        have hmax : 3 ≤ min 128 (data.drop (leadingLiterals data)).length := by
          simp only [List.length_drop]
          omega
        rw [dif_pos hmax, segments_of_drop_cons (by omega) hd, hd]
        simp only [List.getD_cons_zero, equalCount_leadingRun]
        have hpos := leadingRun_pos (show 0 < 128 by omega) a (a :: a :: rest)
        have hshort : ((a :: a :: a :: rest).drop (leadingRun 128 (a :: a :: a :: rest))).length < n := by
          simp only [List.length_drop, List.length_cons]
          omega
        obtain ⟨hb, hl⟩ := ih _ hshort _
          ({ putLiterals (leadingLiterals data) s with
              length := (putLiterals (leadingLiterals data) s).length + 2 }.put
            (-(leadingRun 128 (a :: a :: a :: rest) : Nat))) (by omega) rfl
        refine ⟨?_, ?_⟩
        · rw [hb, DccChain.bytes_put]
          change (putLiterals (leadingLiterals data) s).bytes ++ _ ++ _ = _
          rw [hput.1]
          simp [controlByte]
        · rw [hl, DccChain.length_put, size_append, size_cons]
          simp only [Segment.size, hput.2]
          omega

theorem sqzFastBlock_append (c d input : List UInt8) :
    sqzFastBlock (c ++ d) input =
      ((sqzFastBlock c input).1 ++ (sqzFastBlock d (sqzFastBlock c input).2).1,
        (sqzFastBlock d (sqzFastBlock c input).2).2) := by
  induction c generalizing input with
  | nil => rfl
  | cons b c ih =>
    simp only [List.cons_append, sqzFastBlock]
    split
    · simp [ih]
    · split <;> simp [ih]

/-- The block boundaries of the control string do not show in the output. -/
theorem sqzFast_eq (dccs : List Dcc) (input : List UInt8) :
    sqzFast dccs input = (sqzFastBlock (dccs.flatMap Dcc.string) input).1 := by
  induction dccs generalizing input with
  | nil => rfl
  | cons dcc dccs ih => simp [sqzFast, sqzFastBlock_append, ih]

theorem sqzFastBlock_segments {ss : List (Segment UInt8)} (h : ∀ s ∈ ss, s.Within 127 128)
    (rest : List UInt8) :
    sqzFastBlock (ss.map controlByte) (expand ss ++ rest) = (packed ss, rest) := by
  induction ss with
  | nil => rfl
  | cons s ss ih =>
    have hs := h s (by simp)
    have hrest := ih (fun t ht => h t (by simp [ht]))
    cases s with
    | literal xs =>
      have hx : schar (toSchar xs.length) = xs.length :=
        schar_toSchar (by omega) (by have := hs.2; omega)
      have hpos : ¬((xs.length : Int) < 0) ∧ (0 : Int) < xs.length := by have := hs.1; omega
      simp only [List.map_cons, controlByte, sqzFastBlock, hx, if_neg hpos.1, if_pos hpos.2,
        expand_cons, Segment.expand, List.append_assoc, Int.toNat_natCast]
      rw [List.drop_left, List.take_left, hrest]
      rfl
    | run n x =>
      have hn : schar (toSchar (-n)) = -n := schar_toSchar (by have := hs.2; omega) (by omega)
      have hneg : -(n : Int) < 0 := by have := hs.1; omega
      have hlen : (-(-(n : Int))).toNat = (List.replicate n x).length := by simp
      have hhead : (List.replicate n x ++ (expand ss ++ rest)).getD 0 0 = x := by
        obtain ⟨k, rfl⟩ := Nat.exists_eq_add_of_lt hs.1
        simp [Nat.add_comm 0 k, List.replicate_succ]
      simp only [List.map_cons, controlByte, sqzFastBlock, hn, if_pos hneg, expand_cons,
        Segment.expand, List.append_assoc, hlen, hhead]
      rw [List.drop_left, hrest]
      rfl

theorem sqzLength_short {data : List UInt8} (h : data.length < 65536) :
    (sqzLength data).2 = ushort (size (segments 127 128 data)) := by
  simp [sqzLength, (sqzLengthLoop_spec data {} h).2]

/-- `SQZ_fast` puts out the packed form of the segments that `SQZ_length` counted. -/
theorem sqzFast_sqzLength {data : List UInt8} (h : data.length < 65536) :
    sqzFast (sqzLength data).1 data = packed (segments 127 128 data) := by
  have hbytes := (sqzLengthLoop_spec data {} h).1
  have hblock := sqzFastBlock_segments (segments_within 127 (show 0 < 128 by omega) data) []
  rw [expand_segments (by omega) (by omega), List.append_nil] at hblock
  simp only [sqzLength, sqzFast_eq, DccChain.bytes_blocks, hbytes]
  simp [DccChain.bytes, hblock]

theorem sqzDecompressLoop_segments {m : Nat → UInt8} {input : Nat} (room : Nat)
    (output : List UInt8) {ss : List (Segment UInt8)} (h : ∀ s ∈ ss, s.Packable 127 128)
    (held : Holds m input (packed ss))
    (fits : output.length + (expand ss).length ≤ room) :
    sqzDecompressLoop m input (input + size ss) room output = .ok (output ++ expand ss) := by
  induction ss generalizing input output with
  | nil =>
    rw [sqzDecompressLoop]
    simp at fits
    simp [fits]
  | cons s ss ih =>
    have hs := h s (by simp)
    obtain ⟨hhead, htail⟩ := holds_append.mp held
    rw [length_packedBytes] at htail
    have hrest := ih (output ++ s.expand) (fun t ht => h t (by simp [ht])) htail
      (by simpa [Nat.add_assoc] using fits)
    have hpos : 0 < s.size := by cases s <;> (simp only [Segment.size]; omega)
    have hlt : input < input + size (s :: ss) := by
      rw [size_cons]
      omega
    rw [sqzDecompressLoop, if_pos hlt]
    rw [size_cons, ← Nat.add_assoc, expand_cons, ← List.append_assoc]
    cases s with
    | literal xs =>
      obtain ⟨hc, hx⟩ := holds_cons.mp hhead
      have hl : schar (m input) = xs.length := by
        rw [hc]
        exact schar_toSchar (by omega) (by change xs.length ≤ 127 at hs; omega)
      have hroom : ¬room < output.length + xs.length := by
        simp only [expand_cons, Segment.expand, List.length_append] at fits
        omega
      simp only [hl, if_neg (show ¬((xs.length : Int) < 0) by omega), Int.toNat_natCast,
        if_neg hroom]
      rw [show slice m (input + 1) xs.length = xs from hx]
      simpa [Segment.size, Segment.expand, Nat.add_assoc] using hrest
    | run n x =>
      obtain ⟨hc, hx⟩ := holds_cons.mp hhead
      have hl : schar (m input) = -n := by
        rw [hc]
        exact schar_toSchar (by have := hs.2; omega) (by omega)
      have hneg : -(n : Int) < 0 := by have := hs.1; omega
      have hroom : ¬room < output.length + (-(-(n : Int))).toNat := by
        simp only [expand_cons, Segment.expand, List.length_append, List.length_replicate] at fits
        omega
      simp only [hl, if_pos hneg, if_neg hroom]
      rw [(holds_cons.mp hx).1]
      simpa [Segment.size, Segment.expand] using hrest

/-- What `SQZ_length`, `SQZ_fast` and `SQZ_decompress` owe a record image: the promised number
of bytes is put out, and unpacking them from anywhere in memory restores the record. -/
def SqzRoundTrip (data : List UInt8) : Prop :=
  (sqzFast (sqzLength data).1 data).length = (sqzLength data).2 ∧
    ∀ m input, Holds m input (sqzFast (sqzLength data).1 data) →
      sqzDecompress m input (sqzFast (sqzLength data).1 data).length data.length = .ok data

theorem not_sqzRoundTrip {data : List UInt8} (h : data.length ≤ 65535)
    (long : 65535 < size (segments 127 128 data)) : ¬SqzRoundTrip data := by
  rintro ⟨hl, _⟩
  rw [sqzFast_sqzLength (by omega), sqzLength_short (by omega), length_packed] at hl
  have := ushort_lt (size (segments 127 128 data))
  omega

/-- The round trip holds exactly while the packed record is short enough for a `USHORT`. -/
theorem sqzRoundTrip_iff (data : List UInt8) (h : data.length ≤ 65535) :
    SqzRoundTrip data ↔ size (segments 127 128 data) ≤ 65535 := by
  constructor
  · intro trip
    by_contra long
    exact not_sqzRoundTrip h (by omega) trip
  · intro short
    unfold SqzRoundTrip
    rw [sqzFast_sqzLength (by omega), sqzLength_short (by omega), length_packed,
      ushort_of_lt (by omega)]
    refine ⟨rfl, fun m input held => ?_⟩
    have hx : expand (segments 127 128 data) = data := expand_segments (by omega) (by omega) data
    have hd := sqzDecompressLoop_segments data.length []
      (fun s hs => (segments_within 127 (by omega) data s hs).packable) held (by simp [hx])
    rw [sqzDecompress, ushort_of_lt (by omega), hd, hx]
    rfl

theorem sqzRoundTrip_short_record : SqzRoundTrip [7, 7, 7, 1] :=
  (sqzRoundTrip_iff [7, 7, 7, 1] (by decide)).mpr
    ((size_segments_le (by omega) (by omega) [7, 7, 7, 1]).trans (by decide))

/-- A record image without two equal neighbours. -/
def alternating : Nat → List UInt8
  | 0 => []
  | n + 1 => UInt8.ofNat (n % 2) :: alternating n

theorem alternating_length (n : Nat) : (alternating n).length = n := by
  induction n with
  | zero => rfl
  | succ n ih => simp [alternating, ih]

theorem alternating_isChain (n : Nat) : (alternating n).IsChain (· ≠ ·) := by
  induction n with
  | zero => exact List.IsChain.nil
  | succ n ih =>
    cases n with
    | zero => exact List.IsChain.singleton _
    | succ n =>
      refine List.isChain_cons_cons.mpr ⟨?_, ih⟩
      rcases Nat.mod_two_eq_zero_or_one n with h | h
      · simp [Nat.add_mod, h]
      · simp [Nat.add_mod, h]

/-- 65535 bytes without a run need 517 control bytes, and the promised length wraps. -/
theorem sqzRoundTrip_alternating_fails :
    (alternating 65535).length ≤ 65535 ∧ ¬SqzRoundTrip (alternating 65535) := by
  have hlen := alternating_length 65535
  refine ⟨by omega, not_sqzRoundTrip (by omega) ?_⟩
  have hdrop : (alternating 65535).drop (leadingLiterals (alternating 65535)) = [] := by
    rw [leadingLiterals_of_isChain (alternating_isChain 65535), List.drop_length]
  rw [segments_of_drop_nil hdrop, size_pieces (by omega), hlen]
  decide

end InterBase
