import InterBase.Library.Memory
import InterBase.Machine

namespace InterBase

open Memory

/-- The most a difference string may take: the size of the buffers on either side. -/
def maxDifferences : Nat := 1024

/-- The pointers of `SQZ_differences`: `rec1` and `rec2` advance together as `pos`. -/
structure Differences where
  buf : Nat → UInt8
  out : Nat
  pos : Nat

/-- `*out++ = val`; `STUFF` first checks that `out` is below the limit. -/
def Differences.stuff (s : Differences) (val : UInt8) : Differences :=
  { s with buf := write s.buf s.out [val], out := s.out + 1 }

def Differences.step (s : Differences) : Differences := { s with pos := s.pos + 1 }

section

variable (rec1 rec2 : Nat → UInt8) (limit : Nat)

/-- Literal bytes while the records differ; one agreeing byte is passed over when the byte
after it differs again. An error is the early return with the buffer as it stands. -/
def mismatchLoop (yellow : Nat) (s : Differences) : Except (Nat → UInt8) Differences :=
  if s.pos ≤ yellow ∧ (rec1 s.pos ≠ rec2 s.pos ∨
      rec1 (s.pos + 1) ≠ rec2 (s.pos + 1) ∧ s.pos < yellow) then
    if s.out < limit then mismatchLoop yellow (s.stuff (rec2 s.pos)).step else .error s.buf
  else .ok s
termination_by yellow + 1 - s.pos
decreasing_by
  simp only [Differences.stuff, Differences.step]
  omega

/-- `p = out++`, the literal bytes, and `*p = out - p - 1`. -/
def mismatchRun (end1 : Nat) (s : Differences) : Except (Nat → UInt8) Differences :=
  match mismatchLoop rec1 rec2 limit (min end1 (s.pos + 127) - 1) { s with out := s.out + 1 } with
  | .error buf => .error buf
  | .ok t => .ok { t with buf := write t.buf s.out [toSchar (t.out - s.out - 1 : Nat)] }

/-- Where the records first differ at or after `pos`. -/
def equalRun (end1 pos : Nat) : Nat :=
  if pos < end1 ∧ rec1 pos = rec2 pos then equalRun end1 (pos + 1) else pos
termination_by end1 - pos

/-- The controls that skip `l` equal bytes, 127 at a time. -/
def stuffKeep (l : Nat) (s : Differences) : Except (Nat → UInt8) Differences :=
  if 127 < l then
    if s.out < limit then stuffKeep (l - 127) (s.stuff (toSchar (-127))) else .error s.buf
  else if l ≠ 0 then
    if s.out < limit then .ok (s.stuff (toSchar (-l))) else .error s.buf
  else .ok s
termination_by l
decreasing_by omega

theorem mismatchLoop_pos_le {yellow : Nat} {s t : Differences}
    (h : mismatchLoop rec1 rec2 limit yellow s = .ok t) : s.pos ≤ t.pos := by
  fun_induction mismatchLoop rec1 rec2 limit yellow s with
  | case1 s hc hl ih =>
    have := ih h
    simp only [Differences.stuff, Differences.step] at this
    omega
  | case2 s hc hl => cases h
  | case3 s hc => cases h; omega

theorem mismatchRun_pos_lt {end1 : Nat} {s t : Differences} (room : 2 < end1 - s.pos)
    (differ : rec1 s.pos ≠ rec2 s.pos ∨ rec1 (s.pos + 1) ≠ rec2 (s.pos + 1))
    (h : mismatchRun rec1 rec2 limit end1 s = .ok t) : s.pos < t.pos := by
  unfold mismatchRun at h
  split at h
  next => cases h
  next u hu =>
    cases h
    have hfirst : s.pos ≤ min end1 (s.pos + 127) - 1 ∧ (rec1 s.pos ≠ rec2 s.pos ∨
        rec1 (s.pos + 1) ≠ rec2 (s.pos + 1) ∧ s.pos < min end1 (s.pos + 127) - 1) := by
      refine ⟨by omega, differ.imp_right (fun hd => ⟨hd, by omega⟩)⟩
    rw [mismatchLoop, if_pos hfirst] at hu
    split at hu
    next => exact mismatchLoop_pos_le rec1 rec2 limit hu
    next => cases hu

theorem equalRun_ge (end1 pos : Nat) : pos ≤ equalRun rec1 rec2 end1 pos := by
  fun_induction equalRun rec1 rec2 end1 pos with
  | case1 pos h ih => omega
  | case2 pos h => omega

theorem equalRun_gt {pos : Nat} (end1 : Nat) (room : pos < end1) (same : rec1 pos = rec2 pos) :
    pos < equalRun rec1 rec2 end1 pos := by
  rw [equalRun, if_pos ⟨room, same⟩]
  exact equalRun_ge rec1 rec2 end1 (pos + 1)

theorem stuffKeep_pos {l : Nat} {s t : Differences} (h : stuffKeep limit l s = .ok t) :
    t.pos = s.pos := by
  fun_induction stuffKeep limit l s with
  | case1 l s hl ho ih => exact ih h
  | case2 l s hl ho => cases h
  | case3 l s hl hz ho => cases h; rfl
  | case4 l s hl hz ho => cases h
  | case5 l s hl hz => cases h; rfl

/-- The main loop, `while (end1 - rec1 > 2)`. -/
def differencesLoop (end1 : Nat) (s : Differences) : Except (Nat → UInt8) Differences :=
  if _room : 2 < end1 - s.pos then
    if _differ : rec1 s.pos ≠ rec2 s.pos ∨ rec1 (s.pos + 1) ≠ rec2 (s.pos + 1) then
      match _run : mismatchRun rec1 rec2 limit end1 s with
      | .error buf => .error buf
      | .ok t => differencesLoop end1 t
    else
      let pos := equalRun rec1 rec2 end1 s.pos
      match _keep : stuffKeep limit (pos - s.pos) { s with pos := pos } with
      | .error buf => .error buf
      | .ok t => differencesLoop end1 t
  else .ok s
termination_by end1 - s.pos
decreasing_by
  · have := mismatchRun_pos_lt rec1 rec2 limit _room _differ _run
    omega
  · have hpos : t.pos = equalRun rec1 rec2 end1 s.pos := stuffKeep_pos limit _keep
    have same : rec1 s.pos = rec2 s.pos := by
      by_contra hne
      exact _differ (Or.inl hne)
    have := equalRun_gt rec1 rec2 end1 (by omega) same
    omega

/-- `while (rec2 < yellow) STUFF (*rec2++)`. -/
def tailLoop (yellow : Nat) (s : Differences) : Except (Nat → UInt8) Differences :=
  if s.pos < yellow then
    if s.out < limit then tailLoop yellow (s.stuff (rec2 s.pos)).step else .error s.buf
  else .ok s
termination_by yellow - s.pos
decreasing_by
  simp only [Differences.stuff, Differences.step]
  omega

def tailRun (end2 : Nat) (s : Differences) : Except (Nat → UInt8) Differences :=
  match tailLoop rec2 limit (min end2 (s.pos + 127)) { s with out := s.out + 1 } with
  | .error buf => .error buf
  | .ok t => .ok { t with buf := write t.buf s.out [toSchar (t.out - s.out - 1 : Nat)] }

theorem tailLoop_pos {yellow : Nat} {s t : Differences} (h : tailLoop rec2 limit yellow s = .ok t) :
    t.pos = max s.pos yellow := by
  fun_induction tailLoop rec2 limit yellow s with
  | case1 s hc hl ih =>
    have := ih h
    simp only [Differences.stuff, Differences.step] at this
    omega
  | case2 s hc hl => cases h
  | case3 s hc => cases h; omega

theorem tailRun_pos {end2 : Nat} {s t : Differences} (h : tailRun rec2 limit end2 s = .ok t) :
    t.pos = max s.pos (min end2 (s.pos + 127)) := by
  unfold tailRun at h
  split at h
  next => cases h
  next u hu =>
    cases h
    have := tailLoop_pos rec2 limit hu
    exact this

/-- The tail of the new record, `while (rec2 < end2)`. -/
def tailRuns (end2 : Nat) (s : Differences) : Except (Nat → UInt8) Differences :=
  if _room : s.pos < end2 then
    match _run : tailRun rec2 limit end2 s with
    | .error buf => .error buf
    | .ok t => tailRuns end2 t
  else .ok s
termination_by end2 - s.pos
decreasing_by
  have := tailRun_pos rec2 limit _run
  omega

/-- `SQZ_differences`: the returned length and the output buffer, which starts at address 0. -/
def sqzDifferences (length1 length2 : Nat) (buf : Nat → UInt8) : Nat × (Nat → UInt8) :=
  match differencesLoop rec1 rec2 limit (min length1 length2) ⟨buf, 0, 0⟩ with
  | .error buf => (32000, buf)
  | .ok s =>
    match tailRuns rec2 limit length2 s with
    | .error buf => (32000, buf)
    | .ok t => (ushort t.out, t.buf)

end

/-- The loop of `SQZ_apply_differences`: the difference string lies in `[d, e)`. -/
def applyDifferencesLoop (diff : Nat → UInt8) (e pEnd d p : Nat) (data : Nat → UInt8) :
    Except Nat (Nat × Nat × (Nat → UInt8)) :=
  if d < e ∧ p < pEnd then
    let l := schar (diff d)
    if 0 < l then
      if pEnd < p + l.toNat then .error 177
      else applyDifferencesLoop diff e pEnd (d + 1 + l.toNat) (p + l.toNat)
        (write data p (slice diff (d + 1) l.toNat))
    else applyDifferencesLoop diff e pEnd (d + 1) (p + (-l).toNat) data
  else .ok (d, p, data)
termination_by e - d

/-- `SQZ_apply_differences` on a record of `recLength` bytes at `recData`. -/
def sqzApplyDifferences (recData : Nat → UInt8) (recLength : Nat) (diff : Nat → UInt8) (d e : Nat) :
    Except Nat (Nat × (Nat → UInt8)) :=
  if maxDifferences < e - d then .error 176
  else
    match applyDifferencesLoop diff e recLength d 0 recData with
    | .error code => .error code
    | .ok (d, p, data) =>
      let length := ushort p
      if recLength < length ∨ d < e then .error 177 else .ok (length, data)

end InterBase
