import InterBase.Sqz
import InterBase.SqzDifferences

namespace InterBase

open Memory

/-- The addresses a decoder reads of its input and writes of its output area. -/
structure Accesses where
  reads : List Nat := []
  writes : List Nat := []
deriving Repr, DecidableEq

def Accesses.before (a b : Accesses) : Accesses := ⟨a.reads ++ b.reads, a.writes ++ b.writes⟩

/-- The loop of `SQZ_decompress` with the addresses it uses up to where it stops. -/
def sqzDecompressTrace (m : Nat → UInt8) (input last room : Nat) (output : List UInt8) :
    Except Nat (List UInt8) × Accesses :=
  if input < last then
    let l := schar (m input)
    if l < 0 then
      let c := m (input + 1)
      if room < output.length + (-l).toNat then (.error 179, ⟨[input, input + 1], []⟩)
      else
        let r := sqzDecompressTrace m (input + 2) last room
          (output ++ List.replicate (-l).toNat c)
        (r.1, Accesses.before ⟨[input, input + 1], List.range' output.length (-l).toNat⟩ r.2)
    else if room < output.length + l.toNat then (.error 179, ⟨[input], []⟩)
    else
      let r := sqzDecompressTrace m (input + 1 + l.toNat) last room
        (output ++ slice m (input + 1) l.toNat)
      (r.1, Accesses.before
        ⟨input :: List.range' (input + 1) l.toNat, List.range' output.length l.toNat⟩ r.2)
  else if room < output.length then (.error 179, {})
  else (.ok output, {})
termination_by last - input

/-- The loop of `SQZ_apply_differences` with the addresses it uses: those read of the difference
string and those written of the record. -/
def applyDifferencesTrace (diff : Nat → UInt8) (e pEnd d p : Nat) (data : Nat → UInt8) :
    Except Nat (Nat × Nat × (Nat → UInt8)) × Accesses :=
  if d < e ∧ p < pEnd then
    let l := schar (diff d)
    if 0 < l then
      if pEnd < p + l.toNat then (.error 177, ⟨[d], []⟩)
      else
        let r := applyDifferencesTrace diff e pEnd (d + 1 + l.toNat) (p + l.toNat)
          (write data p (slice diff (d + 1) l.toNat))
        (r.1, Accesses.before ⟨d :: List.range' (d + 1) l.toNat, List.range' p l.toNat⟩ r.2)
    else
      let r := applyDifferencesTrace diff e pEnd (d + 1) (p + (-l).toNat) data
      (r.1, Accesses.before ⟨[d], []⟩ r.2)
  else (.ok (d, p, data), {})
termination_by e - d

theorem sqzDecompressTrace_fst (m : Nat → UInt8) (input last room : Nat) (output : List UInt8) :
    (sqzDecompressTrace m input last room output).1 =
      sqzDecompressLoop m input last room output := by
  fun_induction sqzDecompressTrace m input last room output with
  | case1 input output more l run excess =>
    rw [sqzDecompressLoop, if_pos more]
    exact (if_pos run).trans (if_pos excess) |>.symm
  | case2 input output more l run c fits r ih =>
    rw [sqzDecompressLoop, if_pos more]
    exact ih.trans ((if_pos run).trans (if_neg fits)).symm
  | case3 input output more l literal excess =>
    rw [sqzDecompressLoop, if_pos more]
    exact ((if_neg literal).trans (if_pos excess)).symm
  | case4 input output more l literal fits r ih =>
    rw [sqzDecompressLoop, if_pos more]
    exact ih.trans ((if_neg literal).trans (if_neg fits)).symm
  | case5 input output done excess => rw [sqzDecompressLoop, if_neg done, if_pos excess]
  | case6 input output done fits => rw [sqzDecompressLoop, if_neg done, if_neg fits]

theorem applyDifferencesTrace_fst (diff : Nat → UInt8) (e pEnd d p : Nat) (data : Nat → UInt8) :
    (applyDifferencesTrace diff e pEnd d p data).1 =
      applyDifferencesLoop diff e pEnd d p data := by
  fun_induction applyDifferencesTrace diff e pEnd d p data with
  | case1 d p data more l literal excess =>
    rw [applyDifferencesLoop, if_pos more]
    exact ((if_pos literal).trans (if_pos excess)).symm
  | case2 d p data more l literal fits r ih =>
    rw [applyDifferencesLoop, if_pos more]
    exact ih.trans ((if_pos literal).trans (if_neg fits)).symm
  | case3 d p data more l skip r ih =>
    rw [applyDifferencesLoop, if_pos more]
    exact ih.trans (if_neg skip).symm
  | case4 d p data done => rw [applyDifferencesLoop, if_neg done]

/-- The addresses that `SQZ_decompress` uses on `length` bytes at `input`. -/
def sqzDecompressAccesses (m : Nat → UInt8) (input length room : Nat) : Accesses :=
  (sqzDecompressTrace m input (input + ushort length) room []).2

/-- The addresses that `SQZ_apply_differences` uses; bugcheck 176 comes before the first of them. -/
def sqzApplyDifferencesAccesses (recData : Nat → UInt8) (recLength : Nat) (diff : Nat → UInt8)
    (d e : Nat) : Accesses :=
  if maxDifferences < e - d then {} else (applyDifferencesTrace diff e recLength d 0 recData).2

/-- Nothing is read outside `[low, high)` and nothing is written from `room` on. -/
structure Accesses.Inside (a : Accesses) (low high room : Nat) : Prop where
  reads : ∀ i ∈ a.reads, low ≤ i ∧ i < high
  writes : ∀ i ∈ a.writes, i < room

def Rejected {α : Type} (result : Except Nat α) : Prop := ∃ code, result = .error code

/-- Each control byte the decoder acts on has its data inside the input: a sample for a run, the
bytes themselves for literals. It acts on none behind the first that overruns the output. -/
def SqzWhole (m : Nat → UInt8) (input last room : Nat) : Prop :=
  if input < last then
    let l := schar (m input)
    if l < 0 then
      room < (-l).toNat ∨ (input + 2 ≤ last ∧ SqzWhole m (input + 2) last (room - (-l).toNat))
    else
      room < l.toNat ∨
        (input + 1 + l.toNat ≤ last ∧ SqzWhole m (input + 1 + l.toNat) last (room - l.toNat))
  else True
termination_by last - input

/-- The same of a difference string, whose negative control bytes have no data. -/
def DifferencesWhole (diff : Nat → UInt8) (e d room : Nat) : Prop :=
  if d < e ∧ 0 < room then
    let l := schar (diff d)
    if 0 < l then
      room < l.toNat ∨
        (d + 1 + l.toNat ≤ e ∧ DifferencesWhole diff e (d + 1 + l.toNat) (room - l.toNat))
    else DifferencesWhole diff e (d + 1) (room - (-l).toNat)
  else True
termination_by e - d

theorem Accesses.Inside.before {a b : Accesses} {low high room : Nat} (ha : a.Inside low high room)
    (hb : b.Inside low high room) : (a.before b).Inside low high room := by
  refine ⟨?_, ?_⟩
  · intro i hi
    rcases List.mem_append.mp hi with hi | hi
    · exact ha.reads i hi
    · exact hb.reads i hi
  · intro i hi
    rcases List.mem_append.mp hi with hi | hi
    · exact ha.writes i hi
    · exact hb.writes i hi

theorem Accesses.Inside.of_before_right {a b : Accesses} {low high room : Nat}
    (h : (a.before b).Inside low high room) : b.Inside low high room :=
  ⟨fun i hi => h.reads i (List.mem_append_right _ hi),
    fun i hi => h.writes i (List.mem_append_right _ hi)⟩

theorem Accesses.inside_empty (low high room : Nat) : (⟨[], []⟩ : Accesses).Inside low high room :=
  ⟨fun i hi => by simp at hi, fun i hi => by simp at hi⟩

theorem run_inside {low input last room length n : Nat} (start : low ≤ input)
    (whole : input + 2 ≤ last) (fits : ¬room < length + n) :
    (⟨[input, input + 1], List.range' length n⟩ : Accesses).Inside low last room := by
  refine ⟨?_, ?_⟩
  · intro i hi
    have : i = input ∨ i = input + 1 := by simpa using hi
    omega
  · intro i hi
    have := List.mem_range'_1.mp hi
    omega

theorem literal_inside {low input last room length n : Nat} (start : low ≤ input)
    (whole : input + 1 + n ≤ last) (fits : ¬room < length + n) :
    (⟨input :: List.range' (input + 1) n, List.range' length n⟩ : Accesses).Inside low last room := by
  refine ⟨?_, ?_⟩
  · intro i hi
    rcases List.mem_cons.mp hi with rfl | hi
    · omega
    · have := List.mem_range'_1.mp hi
      omega
  · intro i hi
    have := List.mem_range'_1.mp hi
    omega

/-- Whole data keeps the decoder inside its areas, or is rejected. -/
theorem sqzDecompressTrace_inside (output : List UInt8) {m : Nat → UInt8}
    {low input last room : Nat} (start : low ≤ input) (fits : output.length ≤ room)
    (whole : SqzWhole m input last (room - output.length)) :
    Rejected (sqzDecompressTrace m input last room output).1 ∨
      (sqzDecompressTrace m input last room output).2.Inside low last room := by
  fun_induction sqzDecompressTrace m input last room output with
  | case1 input output more l run excess => exact Or.inl ⟨179, rfl⟩
  | case2 input output more l run c roomy r ih =>
    rw [SqzWhole, if_pos more] at whole
    simp only [if_pos (show schar (m input) < 0 from run)] at whole
    obtain ⟨hlast, hrest⟩ := whole.resolve_left (by omega)
    rw [show room - output.length - (-schar (m input)).toNat =
      room - (output ++ List.replicate (-l).toNat c).length by simp [l]; omega] at hrest
    rcases ih (by omega) (by simp; omega) hrest with rejected | inside
    · exact Or.inl rejected
    · exact Or.inr ((run_inside start hlast roomy).before inside)
  | case3 input output more l literal excess => exact Or.inl ⟨179, rfl⟩
  | case4 input output more l literal roomy r ih =>
    rw [SqzWhole, if_pos more] at whole
    simp only [if_neg (show ¬schar (m input) < 0 from literal)] at whole
    obtain ⟨hlast, hrest⟩ := whole.resolve_left (by omega)
    rw [show room - output.length - (schar (m input)).toNat =
      room - (output ++ slice m (input + 1) l.toNat).length by simp [l]; omega] at hrest
    rcases ih (by omega) (by simp; omega) hrest with rejected | inside
    · exact Or.inl rejected
    · exact Or.inr ((literal_inside start hlast roomy).before inside)
  | case5 input output done excess => exact Or.inl ⟨179, rfl⟩
  | case6 input output done fits => exact Or.inr (Accesses.inside_empty low last room)

theorem sqzDecompressTrace_past {m : Nat → UInt8} {input last room : Nat} {output : List UInt8}
    (past : last ≤ input) (fits : output.length ≤ room) :
    (sqzDecompressTrace m input last room output).1 = .ok output := by
  rw [sqzDecompressTrace, if_neg (by omega), if_neg (by omega)]

/-- Behind a control byte that wants more than there is, nothing notices the bytes beyond. -/
theorem sqzDecompressTrace_outside (low : Nat) (output : List UInt8) {m : Nat → UInt8}
    {input last room : Nat} (fits : output.length ≤ room)
    (damaged : ¬SqzWhole m input last (room - output.length)) :
    (∃ packed, (sqzDecompressTrace m input last room output).1 = .ok packed) ∧
      ¬(sqzDecompressTrace m input last room output).2.Inside low last room := by
  fun_induction sqzDecompressTrace m input last room output with
  | case1 input output more l run excess =>
    rw [SqzWhole, if_pos more] at damaged
    simp only [if_pos (show schar (m input) < 0 from run)] at damaged
    exact absurd (Or.inl (by omega)) damaged
  | case2 input output more l run c roomy r ih =>
    rw [SqzWhole, if_pos more] at damaged
    simp only [if_pos (show schar (m input) < 0 from run), not_or, not_and] at damaged
    have hlen : room - output.length - (-schar (m input)).toNat =
        room - (output ++ List.replicate (-l).toNat c).length := by simp [l]; omega
    rw [hlen] at damaged
    by_cases hlast : input + 2 ≤ last
    · obtain ⟨hok, hout⟩ := ih (by simp; omega) (damaged.2 hlast)
      exact ⟨hok, fun inside => hout inside.of_before_right⟩
    · refine ⟨⟨_, sqzDecompressTrace_past (by omega) (by simp; omega)⟩, ?_⟩
      intro inside
      have := (inside.reads (input + 1) (by simp [Accesses.before])).2
      omega
  | case3 input output more l literal excess =>
    rw [SqzWhole, if_pos more] at damaged
    simp only [if_neg (show ¬schar (m input) < 0 from literal)] at damaged
    exact absurd (Or.inl (by omega)) damaged
  | case4 input output more l literal roomy r ih =>
    rw [SqzWhole, if_pos more] at damaged
    simp only [if_neg (show ¬schar (m input) < 0 from literal), not_or, not_and] at damaged
    have hlen : room - output.length - (schar (m input)).toNat =
        room - (output ++ slice m (input + 1) l.toNat).length := by simp [l]; omega
    rw [hlen] at damaged
    by_cases hlast : input + 1 + l.toNat ≤ last
    · obtain ⟨hok, hout⟩ := ih (by simp; omega) (damaged.2 hlast)
      exact ⟨hok, fun inside => hout inside.of_before_right⟩
    · refine ⟨⟨_, sqzDecompressTrace_past (by omega) (by simp; omega)⟩, ?_⟩
      intro inside
      -- the last literal lies beyond `last`, which was above the control byte
      have hmem : input + l.toNat ∈ input :: List.range' (input + 1) l.toNat := by
        apply List.mem_cons_of_mem
        apply List.mem_range'_1.mpr
        omega
      have := (inside.reads (input + l.toNat) (List.mem_append_left _ hmem)).2
      omega
  | case5 input output done excess => omega
  | case6 input output done fits =>
    rw [SqzWhole, if_neg done] at damaged
    exact absurd trivial damaged

theorem skip_inside {low d e : Nat} (start : low ≤ d) (more : d < e) (room : Nat) :
    (⟨[d], []⟩ : Accesses).Inside low e room := by
  refine ⟨?_, fun i hi => by simp at hi⟩
  intro i hi
  have : i = d := by simpa using hi
  omega

theorem applyDifferencesTrace_inside (p : Nat) (data : Nat → UInt8) {diff : Nat → UInt8}
    {low e pEnd d : Nat}
    (start : low ≤ d) (whole : DifferencesWhole diff e d (pEnd - p)) :
    Rejected (applyDifferencesTrace diff e pEnd d p data).1 ∨
      (applyDifferencesTrace diff e pEnd d p data).2.Inside low e pEnd := by
  fun_induction applyDifferencesTrace diff e pEnd d p data with
  | case1 d p data more l literal excess => exact Or.inl ⟨177, rfl⟩
  | case2 d p data more l literal fits r ih =>
    rw [DifferencesWhole, if_pos ⟨more.1, by omega⟩] at whole
    simp only [if_pos (show 0 < schar (diff d) from literal)] at whole
    obtain ⟨hlast, hrest⟩ := whole.resolve_left (by omega)
    rw [Nat.sub_sub] at hrest
    rcases ih (by omega) hrest with rejected | inside
    · exact Or.inl rejected
    · exact Or.inr ((literal_inside start hlast fits).before inside)
  | case3 d p data more l skip r ih =>
    rw [DifferencesWhole, if_pos ⟨more.1, by omega⟩] at whole
    simp only [if_neg (show ¬0 < schar (diff d) from skip)] at whole
    rw [Nat.sub_sub] at whole
    rcases ih (by omega) whole with rejected | inside
    · exact Or.inl rejected
    · exact Or.inr ((skip_inside start more.1 pEnd).before inside)
  | case4 d p data done => exact Or.inr (Accesses.inside_empty low e pEnd)

/-- After literals read from beyond the difference string the loop is over, inside the record. -/
theorem applyDifferencesTrace_outside (low p : Nat) (data : Nat → UInt8) {diff : Nat → UInt8}
    {e pEnd d : Nat}
    (damaged : ¬DifferencesWhole diff e d (pEnd - p)) :
    (∃ d' p' data', (applyDifferencesTrace diff e pEnd d p data).1 = .ok (d', p', data') ∧
      e ≤ d' ∧ p' ≤ pEnd) ∧
      ¬(applyDifferencesTrace diff e pEnd d p data).2.Inside low e pEnd := by
  fun_induction applyDifferencesTrace diff e pEnd d p data with
  | case1 d p data more l literal excess =>
    rw [DifferencesWhole, if_pos ⟨more.1, by omega⟩] at damaged
    simp only [if_pos (show 0 < schar (diff d) from literal)] at damaged
    exact absurd (Or.inl (by omega)) damaged
  | case2 d p data more l literal fits r ih =>
    rw [DifferencesWhole, if_pos ⟨more.1, by omega⟩] at damaged
    simp only [if_pos (show 0 < schar (diff d) from literal), not_or, not_and] at damaged
    rw [Nat.sub_sub] at damaged
    by_cases hlast : d + 1 + l.toNat ≤ e
    · obtain ⟨hok, hout⟩ := ih (damaged.2 hlast)
      exact ⟨hok, fun inside => hout inside.of_before_right⟩
    · refine ⟨⟨d + 1 + l.toNat, p + l.toNat, write data p (slice diff (d + 1) l.toNat), ?_,
        by omega, by omega⟩, ?_⟩
      · show (applyDifferencesTrace diff e pEnd _ _ _).1 = _
        rw [applyDifferencesTrace, if_neg (by omega)]
      · intro inside
        have hmem : d + l.toNat ∈ d :: List.range' (d + 1) l.toNat := by
          apply List.mem_cons_of_mem
          apply List.mem_range'_1.mpr
          omega
        have := (inside.reads (d + l.toNat) (List.mem_append_left _ hmem)).2
        omega
  | case3 d p data more l skip r ih =>
    rw [DifferencesWhole, if_pos ⟨more.1, by omega⟩] at damaged
    simp only [if_neg (show ¬0 < schar (diff d) from skip)] at damaged
    rw [Nat.sub_sub] at damaged
    obtain ⟨hok, hout⟩ := ih damaged
    exact ⟨hok, fun inside => hout inside.of_before_right⟩
  | case4 d p data done =>
    rw [DifferencesWhole, if_neg (by omega)] at damaged
    exact absurd trivial damaged

theorem not_rejected_ok {α : Type} {result : Except Nat α} {a : α} (h : result = .ok a) :
    ¬Rejected result := by
  rintro ⟨code, rejected⟩
  rw [h] at rejected
  cases rejected

/-- `SQZ_decompress` rejects the record or stays inside it and inside the output area. -/
def SqzDecompressConfined (m : Nat → UInt8) (input : Nat) (length : UInt16) (room : Nat) : Prop :=
  Rejected (sqzDecompress m input length.toNat room) ∨
    (sqzDecompressAccesses m input length.toNat room).Inside input (input + length.toNat) room

/-- `SQZ_apply_differences` rejects the differences or stays inside them and inside the record. -/
def SqzApplyConfined (recData : Nat → UInt8) (recLength : Nat) (diff : Nat → UInt8) (d e : Nat) :
    Prop :=
  Rejected (sqzApplyDifferences recData recLength diff d e) ∨
    (sqzApplyDifferencesAccesses recData recLength diff d e).Inside d e recLength

theorem sqzDecompressConfined_iff (m : Nat → UInt8) (input : Nat) (length : UInt16) (room : Nat) :
    SqzDecompressConfined m input length room ↔ SqzWhole m input (input + length.toNat) room := by
  have hlength : ushort length.toNat = length.toNat := ushort_of_lt length.toNat_lt
  unfold SqzDecompressConfined sqzDecompress sqzDecompressAccesses
  rw [hlength, ← sqzDecompressTrace_fst]
  constructor
  · intro kept
    by_contra damaged
    obtain ⟨⟨packed, hok⟩, outside⟩ := sqzDecompressTrace_outside input []
      (Nat.zero_le room) damaged
    rcases kept with rejected | inside
    · exact not_rejected_ok hok rejected
    · exact outside inside
  · intro whole
    exact sqzDecompressTrace_inside [] le_rfl (Nat.zero_le room) whole

theorem sqzApplyConfined_iff (recData : Nat → UInt8) (recLength : Nat) (diff : Nat → UInt8)
    (d e : Nat) :
    SqzApplyConfined recData recLength diff d e ↔
      maxDifferences < e - d ∨ DifferencesWhole diff e d recLength := by
  unfold SqzApplyConfined sqzApplyDifferences sqzApplyDifferencesAccesses
  by_cases hlong : maxDifferences < e - d
  · rw [if_pos hlong, if_pos hlong]
    exact ⟨fun _ => Or.inl hlong, fun _ => Or.inl ⟨176, rfl⟩⟩
  · rw [if_neg hlong, if_neg hlong, ← applyDifferencesTrace_fst]
    constructor
    · intro kept
      apply Or.inr
      by_contra damaged
      obtain ⟨⟨d', p', data', hok, hd, hp⟩, outside⟩ :=
        applyDifferencesTrace_outside d 0 recData damaged
      rw [hok] at kept
      rcases kept with rejected | inside
      · have hle := Nat.mod_le p' 65536
        dsimp only at rejected
        rw [if_neg (by unfold ushort; omega)] at rejected
        exact not_rejected_ok rfl rejected
      · exact outside inside
    · intro whole
      rcases applyDifferencesTrace_inside 0 recData le_rfl
        (whole.resolve_left hlong) with ⟨code, rejected⟩ | inside
      · rw [rejected]
        exact Or.inl ⟨code, rfl⟩
      · exact Or.inr inside

/-- Damaged data is rejected or does no harm exactly when every control byte up to the first that
overruns the output has its data inside the input. -/
theorem sqz_confined_iff (m : Nat → UInt8) (input : Nat) (length : UInt16) (room : Nat)
    (recData : Nat → UInt8) (recLength : Nat) (diff : Nat → UInt8) (d e : Nat) :
    (SqzDecompressConfined m input length room ↔ SqzWhole m input (input + length.toNat) room) ∧
      (SqzApplyConfined recData recLength diff d e ↔
        maxDifferences < e - d ∨ DifferencesWhole diff e d recLength) := by
  constructor
  · exact sqzDecompressConfined_iff m input length room
  · exact sqzApplyConfined_iff recData recLength diff d e

/-- A run marker as the very last byte, and a literal control byte as the only one. -/
theorem sqz_reads_beyond : ¬SqzDecompressConfined (fun _ => 255) 0 1 1 ∧
    ¬SqzApplyConfined (fun _ => 0) 1 (fun _ => 1) 0 1 := by
  constructor
  · rw [sqzDecompressConfined_iff, SqzWhole]
    simp [schar]
  · rw [sqzApplyConfined_iff, DifferencesWhole]
    simp [schar, maxDifferences]

end InterBase
