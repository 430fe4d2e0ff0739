import InterBase.BlrMessages

namespace InterBase.Blr

open Memory BigEndian

section

variable {wide : Bool} {blr rest : List UInt8} {desc : XdrDsc} {descs : List XdrDsc}
  {n offset last net fuel : Nat} {ms : List ParMsg}

theorem le_fbAlign {n b : Nat} (pos : 0 < b) : n ≤ fbAlign n b := by
  unfold fbAlign
  have split := Nat.div_add_mod (n + b - 1) b
  have rem := Nat.mod_lt (n + b - 1) pos
  rw [Nat.mul_comm] at split
  omega

theorem fbAlign_lt {n b : Nat} (pos : 0 < b) : fbAlign n b < n + b := by
  unfold fbAlign
  have le := Nat.div_mul_le_self (n + b - 1) b
  omega

theorem typeAlignments_le (wide : Bool) (dtype : XdrDtype) : typeAlignments wide dtype ≤ 8 := by
  cases wide <;> cases dtype <;> decide

theorem typeAlignments_ne_one (wide : Bool) (dtype : XdrDtype) : typeAlignments wide dtype ≠ 1 := by
  cases wide <;> cases dtype <;> decide

/-- Where a field is put that is parsed at `offset`. -/
def placed (wide : Bool) (desc : XdrDsc) (offset : Nat) : Nat :=
  if typeAlignments wide desc.dscDtype ≠ 0 then fbAlign offset (typeAlignments wide desc.dscDtype)
  else offset

theorem le_placed : offset ≤ placed wide desc offset := by
  unfold placed
  split
  · rename_i aligned
    exact le_fbAlign (Nat.pos_of_ne_zero aligned)
  · exact Nat.le_refl offset

theorem placed_room (sized : Sized desc) :
    placed wide desc offset + desc.dscLength ≤ offset + 65536 := by
  have small := desc.length_lt
  have le := typeAlignments_le wide desc.dscDtype
  unfold placed
  split
  · rename_i aligned
    have lt := fbAlign_lt (n := offset) (Nat.pos_of_ne_zero aligned)
    by_cases string : fixedLength desc.dscDtype = none
    · have two : typeAlignments wide desc.dscDtype ≤ 2 := by
        cases dtype : desc.dscDtype <;> rw [dtype] at string <;>
          first | exact Nat.le_refl 2 | exact Nat.zero_le 2 | exact absurd string (by decide)
      omega
    · obtain ⟨l, fixed⟩ := Option.ne_none_iff_exists'.mp string
      have length := sized l fixed
      have short : l ≤ 8 := by
        cases dtype : desc.dscDtype <;> rw [dtype] at fixed <;>
          simp only [fixedLength, Option.some.injEq, reduceCtorEq] at fixed <;> omega
      omega
  · omega

/-- The fields lie one behind the other, from `offset` up to `last`. -/
def Laid : Nat → Nat → List XdrDsc → Prop
  | offset, last, [] => offset = last
  | offset, last, desc :: descs =>
    offset ≤ desc.dscAddress ∧ Laid (desc.dscAddress + desc.dscLength) last descs

theorem Laid.le (h : Laid offset last descs) : offset ≤ last := by
  induction descs generalizing offset with
  | nil => exact Nat.le_of_eq h
  | cons desc descs ih =>
    have later := ih h.2
    have here := h.1
    omega

/-- `net_length` after the fields. -/
def countNet (net : Nat) (descs : List XdrDsc) : Nat :=
  descs.foldl (fun net desc => ushort (net + netLength desc)) net

def netTotal (descs : List XdrDsc) : Nat := (descs.map netLength).sum

theorem countNet_eq (small : net < 65536) : countNet net descs = ushort (net + netTotal descs) := by
  induction descs generalizing net with
  | nil => exact (ushort_of_lt small).symm
  | cons desc descs ih =>
    show countNet (ushort (net + netLength desc)) descs = _
    rw [ih (ushort_lt _)]
    unfold netTotal
    rw [List.map_cons, List.sum_cons]
    unfold ushort
    omega

/-- Where the engine's loop ends within a format, that of the remote layer gives the same fields. -/
theorem parDescs_spec (h : parDescs wide n offset blr = some (descs, last, rest))
    (room : offset + n * 65536 < 4294967296) :
    Laid offset last descs ∧ (∀ desc ∈ descs, Sized desc) ∧
      (last < 65536 → ∀ net, parseDescs wide n offset net blr =
        some (descs, last, countNet net descs, rest)) := by
  induction n generalizing offset blr descs with
  | zero =>
    simp only [parDescs, Option.some.injEq, Prod.mk.injEq] at h
    obtain ⟨rfl, rfl, rfl⟩ := h
    exact ⟨rfl, fun desc mem => absurd mem List.not_mem_nil, fun _ net => rfl⟩
  | succ n ih =>
    unfold parDescs at h
    obtain ⟨⟨desc, blr'⟩, hdesc, h⟩ := Option.bind_eq_some_iff.mp h
    have sized := parDesc_sized hdesc
    have le : offset ≤ placed wide desc offset := le_placed
    have fits : placed wide desc offset + desc.dscLength ≤ offset + 65536 := placed_room sized
    have address : (if typeAlignments wide desc.dscDtype ≠ 0 then
        ulong (fbAlign offset (typeAlignments wide desc.dscDtype)) else offset) =
        placed wide desc offset := by
      unfold placed at fits ⊢
      split
      · rename_i aligned
        rw [if_pos aligned] at fits
        exact ulong_of_lt (by omega)
      · rfl
    dsimp only at h
    rw [address, ulong_of_lt (by omega)] at h
    obtain ⟨⟨descs', last', rest'⟩, later, equal⟩ := Option.map_eq_some_iff.mp h
    simp only [Prod.mk.injEq] at equal
    obtain ⟨rfl, rfl, rfl⟩ := equal
    obtain ⟨laid, all, same⟩ := ih later (by omega)
    refine ⟨⟨le, laid⟩, fun d mem => ?_, fun small net => ?_⟩
    · rcases List.mem_cons.mp mem with rfl | mem
      · exact sized
      · exact all d mem
    · have bound := laid.le
      have short : (if 1 < typeAlignments wide desc.dscDtype then
          ushort (fbAlign offset (typeAlignments wide desc.dscDtype)) else offset) =
          placed wide desc offset := by
        have other := typeAlignments_ne_one wide desc.dscDtype
        unfold placed at bound ⊢
        by_cases aligned : typeAlignments wide desc.dscDtype = 0
        · rw [if_neg (by omega), if_neg (by omega)]
        · rw [if_pos aligned] at bound
          rw [if_pos (by omega), if_pos aligned, ushort_of_lt (by omega)]
      unfold parseDescs
      rw [parseDesc_eq, hdesc, Option.bind_some]
      dsimp only
      rw [short, ushort_of_lt (by omega), same small]
      rfl

/-- What the remote layer makes of the engine's messages, from a given `net_length` on. -/
def remoteMsgs : Nat → List ParMsg → List RemoteMsg
  | _, [] => []
  | net, m :: ms =>
    let net := ushort (net + netTotal m.format.fmtDesc)
    ⟨m.msgNumber, m.format, net⟩ :: remoteMsgs net ms

structure WellLaid (format : Fmt) : Prop where
  laid : Laid 0 format.fmtLength format.fmtDesc
  sized : ∀ desc ∈ format.fmtDesc, Sized desc

theorem blrWord_lt (h : blrWord blr = some (n, rest)) : n < 65536 := by
  unfold blrWord at h
  rcases blr with _ | ⟨a, _ | ⟨b, blr⟩⟩ <;> simp only [blrByte, Option.bind_none, Option.bind_some,
    Option.map_none, Option.map_some, Option.some.injEq, Prod.mk.injEq, reduceCtorEq] at h
  have ha := a.toNat_lt
  have hb := b.toNat_lt
  omega

theorem blrWord_bytes (h : blrWord blr = some (n, rest)) :
    ∃ low high blr', blrByte blr = some (low, blr') ∧ blrByte blr' = some (high, rest) ∧
      low + high * 256 = n := by
  unfold blrWord at h
  obtain ⟨⟨low, blr'⟩, hlow, h⟩ := Option.bind_eq_some_iff.mp h
  obtain ⟨⟨high, blr''⟩, hhigh, equal⟩ := Option.map_eq_some_iff.mp h
  simp only [Prod.mk.injEq] at equal
  obtain ⟨rfl, rfl⟩ := equal
  exact ⟨low, high, blr', hlow, hhigh, rfl⟩

theorem parMessage_spec {m : ParMsg} (h : parMessage wide blr = some (m, rest)) :
    WellLaid m.format ∧ ∀ net, net < 65536 → parseMessage wide net blr =
      some (⟨m.msgNumber, m.format, ushort (net + netTotal m.format.fmtDesc)⟩, rest) := by
  unfold parMessage at h
  obtain ⟨⟨number, blr₁⟩, hnumber, h⟩ := Option.bind_eq_some_iff.mp h
  obtain ⟨⟨count, blr₂⟩, hcount, h⟩ := Option.bind_eq_some_iff.mp h
  obtain ⟨⟨descs, last, blr₃⟩, hdescs, h⟩ := Option.bind_eq_some_iff.mp h
  dsimp only at h
  split at h
  · rename_i small
    simp only [Option.some.injEq, Prod.mk.injEq] at h
    obtain ⟨rfl, rfl⟩ := h
    have few := blrWord_lt hcount
    obtain ⟨laid, sized, same⟩ := parDescs_spec hdescs (by omega)
    refine ⟨⟨laid, sized⟩, fun net hnet => ?_⟩
    obtain ⟨low, high, blr', hlow, hhigh, equal⟩ := blrWord_bytes hcount
    unfold parseMessage
    simp only [hnumber, hlow, hhigh, Option.bind_some, equal, ushort_of_lt few, same small,
      Option.map_some, ushort_of_lt small, countNet_eq hnet]
  · exact absurd h (by simp)

theorem parLoop_spec (h : parLoop wide fuel blr = some ms) :
    (∀ m ∈ ms, WellLaid m.format) ∧ ∀ message net, net < 65536 →
      parseLoop wide fuel message net blr = some ((remoteMsgs net ms).reverse ++ message) := by
  induction fuel generalizing blr ms with
  | zero => exact absurd h (by simp [parLoop])
  | succ fuel ih =>
    unfold parLoop at h
    obtain ⟨⟨verb, blr₁⟩, hverb, h⟩ := Option.bind_eq_some_iff.mp h
    dsimp only at h
    split at h
    · rename_i isMessage
      obtain ⟨⟨m, blr₂⟩, hm, h⟩ := Option.bind_eq_some_iff.mp h
      obtain ⟨ms', later, rfl⟩ := Option.map_eq_some_iff.mp h
      obtain ⟨wellLaid, same⟩ := parMessage_spec hm
      obtain ⟨all, rest⟩ := ih later
      refine ⟨fun m' mem => ?_, fun message net small => ?_⟩
      · rcases List.mem_cons.mp mem with rfl | mem
        · exact wellLaid
        · exact all m' mem
      · unfold parseLoop
        simp only [hverb, Option.bind_some, if_pos isMessage, same net small]
        rw [rest _ _ (ushort_lt _)]
        simp [remoteMsgs]
    · rename_i other
      obtain rfl := Option.some.inj h
      refine ⟨fun m mem => absurd mem List.not_mem_nil, fun message net _ => ?_⟩
      unfold parseLoop
      simp only [hverb, Option.bind_some, if_neg other]
      rfl

/-- The remote layer finds the engine's messages. -/
theorem parMessages_spec (h : parMessages wide blr = some ms) :
    (∀ m ∈ ms, WellLaid m.format) ∧ parseMessages wide blr = some (remoteMsgs 0 ms).reverse := by
  unfold parMessages at h
  obtain ⟨⟨version, blr₁⟩, hversion, h⟩ := Option.bind_eq_some_iff.mp h
  dsimp only at h
  split at h
  · rename_i known
    obtain ⟨⟨verb, blr₂⟩, hverb, h⟩ := Option.bind_eq_some_iff.mp h
    dsimp only at h
    split at h
    · rename_i begins
      obtain ⟨all, same⟩ := parLoop_spec h
      refine ⟨all, ?_⟩
      unfold parseMessages
      simp only [hversion, Option.bind_some, if_pos known, hverb, if_pos begins]
      rw [same [] 0 (by omega), List.append_nil]
    · exact absurd h (by simp)
  · exact absurd h (by simp)

end

end InterBase.Blr
