import InterBase.OptPathFits

namespace InterBase.AccessPath

open Cvt

/-- The bytes lie inside the buffer, all of them are reported, and where the function succeeds they
are read back as what they describe. -/
structure Path.Describes (path : Path) (bufferLength : Nat) (ds : List Desc) : Prop where
  inside : path.dump.written.length ≤ bufferLength
  reported : path.returnLength = path.dump.written.length
  decodes : path.dump.ok = true → decodePath path.dump.written = some ds

/-- The rsbs that come first fit, and what is left of the buffer does not hold the frame of the next
one, so that no byte of it is written. -/
def FullAt (reqProcedure : Bool) (bufferLength : Nat) : Fors → Prop
  | .nil => False
  | .cons entry rest =>
    FullAt reqProcedure bufferLength rest ∨
      (∃ rsb, entry = .some rsb) ∧ needFors reqProcedure rest ≤ bufferLength ∧
        (encodeAll (describeFors reqProcedure rest)).length ≤ bufferLength ∧
        bufferLength < usedFors reqProcedure rest + 4

/-- The buffer is as long as all checks ask for and as what is written, and the names and numbers fit
into their bytes; or the buffer is full where an rsb is to begin. -/
def Fits (reqProcedure : Bool) (reqFors : Option Fors) (bufferLength returnLength : Nat) : Prop :=
  match reqFors with
  | none => returnLength = 0
  | some fors =>
    needFors reqProcedure fors ≤ bufferLength ∧
        (encodeAll (describeFors reqProcedure fors)).length ≤ bufferLength ∧
        AllValid (describeFors reqProcedure fors) ∨
      FullAt reqProcedure bufferLength fors

section

variable {reqProcedure : Bool} {left bufferLength : Nat}

theorem need_least (reqProcedure : Bool) (rsb : Rsb) : 4 ≤ need reqProcedure rsb := by
  cases rsb
  rw [need]
  omega

/-- Without room for its frame an rsb writes nothing. -/
theorem dumpRsb_none (rsb : Rsb) (less : left < 4) :
    dumpRsb reqProcedure rsb left = ⟨false, [], (left : Int) - 4⟩ := by
  have fails : take 4 left = ⟨false, [], (left : Int) - 4⟩ := by
    unfold take
    simp only
    rw [toSshort_of_mem (by omega) (by omega), decide_eq_false (by omega)]
  cases rsb
  rw [dumpRsb, fails]
  rfl

/-- Else it writes its begin at least. -/
theorem dumpRsb_begins (reqProcedure : Bool) {left : Nat} (rsb : Rsb) (enough : 4 ≤ left) (high : left ≤ 32767) :
    0 < (dumpRsb reqProcedure rsb left).written.length := by
  have goes : take 4 left = ⟨true, [], (left : Int) - 4⟩ := by
    unfold take
    simp only
    rw [toSshort_of_mem (by omega) (by omega), decide_eq_true (by omega)]
  cases rsb with
  | mk rsbAlias rsbRelation arg rsbNext =>
    rw [dumpRsb, goes, andThen_ok]
    simp only [put, List.nil_append]
    have first : 0 < (Dump.mk true [rsbBegin] ((left : Int) - 4)).written.length := Nat.one_pos
    refine first.trans_le ?_
    exact (andThen_written _ _).trans ((andThen_written _ _).trans ((andThen_written _ _).trans
      ((andThen_written _ _).trans (andThen_written _ _))))

theorem fullAt_lt_need : (fors : Fors) → FullAt reqProcedure bufferLength fors →
    bufferLength < needFors reqProcedure fors
  | .nil, full => full.elim
  | .cons entry rest, full => by
    rw [needFors]
    obtain earlier | ⟨⟨rsb, rfl⟩, -, -, less⟩ := full
    · have := fullAt_lt_need rest earlier
      omega
    · have := need_least reqProcedure rsb
      rw [needNext]
      omega

theorem returned_le (reqProcedure : Bool) : (fors : Fors) → (left : Int) →
    (accessPath reqProcedure fors left).returnLength ≤
      (accessPath reqProcedure fors left).dump.written.length
  | .nil, left => by
    rw [accessPath]
    exact Nat.zero_le _
  | .cons entry rest, left => by
    have earlier := returned_le reqProcedure rest left
    rw [accessPath]
    simp only
    split
    next goes =>
      rw [andThen_goes goes]
      simp only [List.length_append]
      split <;> omega
    next => exact earlier

/-- A path that does not fit is reported as it was written only where the buffer is full at the begin
of an rsb. -/
theorem accessPath_short (high : bufferLength ≤ 32767) : (fors : Fors) →
    bufferLength < needFors reqProcedure fors →
    ((accessPath reqProcedure fors bufferLength).dump.written.length ≤ bufferLength ∧
      (accessPath reqProcedure fors bufferLength).returnLength =
        (accessPath reqProcedure fors bufferLength).dump.written.length ↔
      FullAt reqProcedure bufferLength fors)
  | .nil, less => by
    rw [needFors] at less
    exact absurd less (Nat.not_lt_zero _)
  | .cons entry rest, less => by
    obtain ⟨earlier, length⟩ := asks_fors reqProcedure rest
    by_cases first : needFors reqProcedure rest ≤ bufferLength
    · -- The rsbs before are written; the entry is the one that does not fit.
      have notBefore : ¬ FullAt reqProcedure bufferLength rest := fun full =>
        absurd (fullAt_lt_need rest full) (by omega)
      have done := earlier.enough bufferLength high first
      have least := earlier.used_le
      have left : (bufferLength : Int) - usedFors reqProcedure rest =
          (bufferLength - usedFors reqProcedure rest : Nat) := by omega
      rw [needFors] at less
      cases entry with
      | none =>
        rw [needNext] at less
        omega
      | some rsb =>
        rw [needNext] at less
        have whole : FullAt reqProcedure bufferLength (.cons (.some rsb) rest) ↔
            (encodeAll (describeFors reqProcedure rest)).length ≤ bufferLength ∧
              bufferLength < usedFors reqProcedure rest + 4 := by
          rw [FullAt]
          constructor
          · rintro (full | ⟨-, -, inside, full⟩)
            · exact absurd full notBefore
            · exact ⟨inside, full⟩
          · rintro ⟨inside, full⟩
            exact .inr ⟨⟨rsb, rfl⟩, first, inside, full⟩
        rw [whole, accessPath]
        simp only
        rw [done, if_pos rfl, length bufferLength high first, dumpNext, left, andThen_ok]
        by_cases full : bufferLength < usedFors reqProcedure rest + 4
        · rw [dumpRsb_none rsb (by omega)]
          simp only [Bool.false_eq_true, if_false, List.append_nil, and_true]
          exact (and_iff_left full).symm
        · have begins := dumpRsb_begins reqProcedure rsb
            (show 4 ≤ bufferLength - usedFors reqProcedure rest by omega) (by omega)
          refine iff_of_false ?_ (fun both => full both.2)
          rintro ⟨inside, reported⟩
          simp only [List.length_append] at inside reported
          obtain fails | long := (asks_rsb reqProcedure rsb).short
            (bufferLength - usedFors reqProcedure rest) (by omega) (by omega)
          · rw [if_neg (by rw [fails]; exact Bool.false_ne_true)] at reported
            omega
          · unfold Long at long
            omega
    · -- The rsbs before do not fit themselves.
      have ih := accessPath_short high rest (by omega)
      have other : FullAt reqProcedure bufferLength (.cons entry rest) ↔
          FullAt reqProcedure bufferLength rest := by
        rw [FullAt]
        exact or_iff_left fun last => first last.2.1
      rw [other, ← ih, accessPath]
      simp only
      split
      next goes =>
        have long := earlier.short bufferLength high (by omega)
        rw [goes] at long
        obtain impossible | long := long
        · exact Bool.noConfusion impossible
        · unfold Long at long
          refine iff_of_false (fun both => ?_) (fun both => ?_)
          · have inside := both.1
            have grows := andThen_written (accessPath reqProcedure rest bufferLength).dump
              fun _ => dumpNext reqProcedure entry (accessPath reqProcedure rest bufferLength).dump.left
            simp only at inside
            omega
          · omega
      next => rfl

theorem accessPath_short_fails (high : bufferLength ≤ 32767) (fors : Fors)
    (less : bufferLength < needFors reqProcedure fors)
    (inside : (accessPath reqProcedure fors bufferLength).dump.written.length ≤ bufferLength) :
    (accessPath reqProcedure fors bufferLength).dump.ok = false := by
  obtain fails | long := (asks_fors reqProcedure fors).1.short bufferLength high less
  · exact fails
  · unfold Long at long
    omega

end

/-- A relation A that is read from its first record to its last. -/
def sequentialA : Rsb :=
  .mk none (some ⟨[65], by decide⟩) (.plain .sequential) .none

/-- Two relations that are joined in a loop. -/
def crossOfTwo : Fors :=
  .cons (.some (.mk none none (.join .cross (.cons sequentialA (.cons sequentialA .nil))) .none)) .nil

end InterBase.AccessPath
