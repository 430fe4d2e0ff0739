import InterBase.Library.EditScript
import InterBase.SqzDifferences

namespace InterBase

open Memory EditScript

/-- The bytes of one edit: a count with its literals, or a negative skip. -/
def editBytes : Edit UInt8 → List UInt8
  | .replace xs => toSchar xs.length :: xs
  | .keep n => [toSchar (-n)]

def scriptBytes (es : List (Edit UInt8)) : List UInt8 := es.flatMap editBytes

def Edit.Coded (e : Edit UInt8) : Prop := 0 < e.span ∧ e.span ≤ 127

theorem scriptBytes_concat (es : List (Edit UInt8)) (e : Edit UInt8) :
    scriptBytes (es ++ [e]) = scriptBytes es ++ editBytes e := by
  simp [scriptBytes]

variable {rec1 rec2 : Nat → UInt8} {limit : Nat}

/-- The difference string so far is a script from the old record to the new one. -/
structure Differences.Built (rec1 rec2 : Nat → UInt8) (s : Differences)
    (es : List (Edit UInt8)) : Prop where
  held : Holds s.buf 0 (scriptBytes es)
  out : s.out = (scriptBytes es).length
  covers : Covers rec1 rec2 0 es s.pos
  coded : ∀ e ∈ es, Edit.Coded e

/-- Every edit is one control byte and what it carries. -/
theorem Differences.Built.extend {s t : Differences} {es : List (Edit UInt8)} {e : Edit UInt8}
    (h : s.Built rec1 rec2 es) (coded : Edit.Coded e) (buf : t.buf = write s.buf s.out (editBytes e))
    (out : t.out = s.out + (editBytes e).length) (covers : Covers rec1 rec2 0 (es ++ [e]) t.pos) :
    t.Built rec1 rec2 (es ++ [e]) := by
  refine ⟨?_, ?_, covers, ?_⟩
  · rw [scriptBytes_concat, buf, holds_append]
    refine ⟨h.held.write _ (Or.inl (by have := h.out; omega)), ?_⟩
    rw [Nat.zero_add, ← h.out]
    exact holds_write s.buf s.out (editBytes e)
  · rw [scriptBytes_concat, List.length_append, ← h.out, out]
  · intro f hf
    rcases List.mem_append.mp hf with hf | hf
    · exact h.coded f hf
    · rw [List.mem_singleton.mp hf]
      exact coded

/-- The bytes from the output limit on are the ones that were there before. -/
def Untouched (limit : Nat) (before after : Nat → UInt8) : Prop := ∀ i, limit ≤ i → after i = before i

theorem Untouched.trans {a b c : Nat → UInt8} (h : Untouched limit a b) (h' : Untouched limit b c) :
    Untouched limit a c :=
  fun i hi => (h' i hi).trans (h i hi)

theorem Untouched.write_below {m : Nat → UInt8} {p : Nat} (x : UInt8) (h : p < limit) :
    Untouched limit m (write m p [x]) :=
  fun _ hi => write_above m [x] (by simp; omega)

theorem mismatchLoop_spec {yellow : Nat} {s t : Differences} (low : s.pos ≤ yellow + 1)
    (h : mismatchLoop rec1 rec2 limit yellow s = .ok t) :
    t.pos ≤ yellow + 1 ∧ t.out = s.out + (t.pos - s.pos) ∧ (s.pos < t.pos → t.out ≤ limit) ∧
      t.buf = write s.buf s.out (slice rec2 s.pos (t.pos - s.pos)) := by
  fun_induction mismatchLoop rec1 rec2 limit yellow s with
  | case1 s hc hl ih =>
    have hle := mismatchLoop_pos_le rec1 rec2 limit h
    simp only [Differences.stuff, Differences.step] at ih hle
    obtain ⟨hp, ho, hlim, hb⟩ := ih (by omega) h
    refine ⟨hp, by omega, fun _ => ?_, ?_⟩
    · by_cases hq : s.pos + 1 < t.pos
      · exact hlim hq
      · omega
    · rw [hb, show t.pos - s.pos = t.pos - (s.pos + 1) + 1 by omega, slice]
      exact (write_append s.buf s.out [rec2 s.pos] _).symm
  | case2 s hc hl => cases h
  | case3 s hc =>
    cases h
    simp [slice]
    omega

theorem mismatchLoop_untouched {yellow : Nat} {s : Differences} {buf : Nat → UInt8}
    (h : mismatchLoop rec1 rec2 limit yellow s = .error buf) : Untouched limit s.buf buf := by
  fun_induction mismatchLoop rec1 rec2 limit yellow s with
  | case1 s hc hl ih => exact (Untouched.write_below _ hl).trans (ih h)
  | case2 s hc hl => cases h; exact fun _ _ => rfl
  | case3 s hc => cases h

theorem tailLoop_spec {yellow : Nat} {s t : Differences} (low : s.pos ≤ yellow)
    (h : tailLoop rec2 limit yellow s = .ok t) :
    t.pos = yellow ∧ t.out = s.out + (t.pos - s.pos) ∧ (s.pos < t.pos → t.out ≤ limit) ∧
      t.buf = write s.buf s.out (slice rec2 s.pos (t.pos - s.pos)) := by
  fun_induction tailLoop rec2 limit yellow s with
  | case1 s hc hl ih =>
    simp only [Differences.stuff, Differences.step] at ih
    obtain ⟨hp, ho, hlim, hb⟩ := ih (by omega) h
    refine ⟨hp, by omega, fun _ => ?_, ?_⟩
    · by_cases hq : s.pos + 1 < t.pos
      · exact hlim hq
      · omega
    · rw [hb, show t.pos - s.pos = t.pos - (s.pos + 1) + 1 by omega, slice]
      exact (write_append s.buf s.out [rec2 s.pos] _).symm
  | case2 s hc hl => cases h
  | case3 s hc =>
    cases h
    simp [slice]
    omega

theorem tailLoop_untouched {yellow : Nat} {s : Differences} {buf : Nat → UInt8}
    (h : tailLoop rec2 limit yellow s = .error buf) : Untouched limit s.buf buf := by
  fun_induction tailLoop rec2 limit yellow s with
  | case1 s hc hl ih => exact (Untouched.write_below _ hl).trans (ih h)
  | case2 s hc hl => cases h; exact fun _ _ => rfl
  | case3 s hc => cases h

/-- The control byte is stored last, in the place left for it before the literals. -/
theorem write_control (m : Nat → UInt8) (p : Nat) (c : UInt8) (xs : List UInt8) :
    write (write m (p + 1) xs) p [c] = write m p (c :: xs) :=
  (write_comm m (show p + [c].length ≤ p + 1 by simp)).symm.trans (write_append m p [c] xs).symm

/-- One run of literals, in the main loop or in the tail, adds one edit to the script. -/
theorem literalRun_spec {s u : Differences} (more : s.pos < u.pos) (span : u.pos ≤ s.pos + 127)
    (out : u.out = s.out + 1 + (u.pos - s.pos)) (fits : s.pos < u.pos → u.out ≤ limit)
    (buf : u.buf = write s.buf (s.out + 1) (slice rec2 s.pos (u.pos - s.pos))) :
    Untouched limit s.buf (write u.buf s.out [toSchar (u.out - s.out - 1 : Nat)]) ∧
      (s.out ≤ limit → u.out ≤ limit) ∧ ∀ es, s.Built rec1 rec2 es → ∃ fs, Differences.Built rec1 rec2
        { u with buf := write u.buf s.out [toSchar (u.out - s.out - 1 : Nat)] } fs := by
  have hxs : (slice rec2 s.pos (u.pos - s.pos)).length = u.pos - s.pos := length_slice ..
  have hcount : u.out - s.out - 1 = (slice rec2 s.pos (u.pos - s.pos)).length := by omega
  have hlimit := fits more
  rw [buf, write_control, hcount]
  refine ⟨?_, fun _ => hlimit, fun es built => ⟨_,
    built.extend (e := .replace (slice rec2 s.pos (u.pos - s.pos))) ?_ rfl ?_ ?_⟩⟩
  · exact fun i hi => write_above s.buf _ (by simp only [List.length_cons]; omega)
  · simp only [Edit.Coded, Edit.span]
    omega
  · simp only [editBytes, List.length_cons]
    omega
  · have hcover := built.covers.concat_replace (holds_slice rec2 s.pos (u.pos - s.pos))
    rwa [hxs, Nat.add_sub_cancel' (by omega)] at hcover

/-- What one piece of the encoder owes: nothing past the limit and a longer script. -/
def Extends (rec1 rec2 : Nat → UInt8) (limit : Nat) (s : Differences) :
    Except (Nat → UInt8) Differences → Prop
  | .error buf => Untouched limit s.buf buf
  | .ok t => Untouched limit s.buf t.buf ∧ (s.out ≤ limit → t.out ≤ limit) ∧
      ∀ es, s.Built rec1 rec2 es → ∃ fs, t.Built rec1 rec2 fs

theorem Extends.refl (s : Differences) : Extends rec1 rec2 limit s (.ok s) :=
  ⟨fun _ _ => rfl, fun h => h, fun es built => ⟨es, built⟩⟩

theorem mismatchRun_extends (limit : Nat) {end1 : Nat} {s : Differences} (room : 2 < end1 - s.pos)
    (differ : rec1 s.pos ≠ rec2 s.pos ∨ rec1 (s.pos + 1) ≠ rec2 (s.pos + 1)) :
    Extends rec1 rec2 limit s (mismatchRun rec1 rec2 limit end1 s) := by
  unfold mismatchRun
  split
  next buf hu => exact mismatchLoop_untouched (s := { s with out := s.out + 1 }) hu
  next u hu =>
    have hmore := mismatchRun_pos_lt rec1 rec2 limit room differ
      (t := { u with buf := write u.buf s.out [toSchar (u.out - s.out - 1 : Nat)] })
      (by simp only [mismatchRun, hu])
    have low : s.pos ≤ min end1 (s.pos + 127) - 1 + 1 := by omega
    obtain ⟨hp, ho, hlim, hb⟩ := mismatchLoop_spec (s := { s with out := s.out + 1 }) low hu
    exact literalRun_spec hmore (by omega) ho hlim hb

theorem tailRun_extends (rec1 rec2 : Nat → UInt8) (limit : Nat) {end2 : Nat} {s : Differences} (room : s.pos < end2) :
    Extends rec1 rec2 limit s (tailRun rec2 limit end2 s) := by
  unfold tailRun
  split
  next buf hu => exact tailLoop_untouched (s := { s with out := s.out + 1 }) hu
  next u hu =>
    have low : s.pos ≤ min end2 (s.pos + 127) := by omega
    obtain ⟨hp, ho, hlim, hb⟩ := tailLoop_spec (s := { s with out := s.out + 1 }) low hu
    exact literalRun_spec (by omega) (by omega) ho hlim hb

theorem equalRun_spec (rec1 rec2 : Nat → UInt8) {end1 pos : Nat} (low : pos ≤ end1) :
    equalRun rec1 rec2 end1 pos ≤ end1 ∧
      ∀ i, pos ≤ i → i < equalRun rec1 rec2 end1 pos → rec1 i = rec2 i := by
  fun_induction equalRun rec1 rec2 end1 pos with
  | case1 pos h ih =>
    obtain ⟨hle, hsame⟩ := ih (by omega)
    refine ⟨hle, fun i hi hlt => ?_⟩
    by_cases he : i = pos
    · rw [he]; exact h.2
    · exact hsame i (by omega) hlt
  | case2 pos h => exact ⟨low, fun i hi hlt => by omega⟩

/-- Skips are put out for a stretch that `pos` has already passed. -/
theorem stuffKeep_extends (limit l q : Nat) {s : Differences} (at_end : s.pos = q + l)
    (same : ∀ i, q ≤ i → i < q + l → rec1 i = rec2 i) :
    Extends rec1 rec2 limit { s with pos := q } (stuffKeep limit l s) := by
  fun_induction stuffKeep limit l s generalizing q with
  | case1 l s hl ho ih =>
    have hext := ih (q + 127) (by simp only [Differences.stuff]; omega)
      (fun i hi hlt => same i (by omega) (by omega))
    have hkeep : ∀ es, Differences.Built rec1 rec2 { s with pos := q } es →
        Differences.Built rec1 rec2 { s.stuff (toSchar (-127)) with pos := q + 127 }
          (es ++ [.keep 127]) := by
      intro es built
      refine built.extend (by simp [Edit.Coded, Edit.span]) rfl rfl ?_
      exact built.covers.concat_keep (fun i hi hlt => same i hi (by simp only at hlt; omega))
    unfold Extends at hext ⊢
    split
    next buf hb =>
      rw [hb] at hext
      exact (Untouched.write_below _ ho).trans hext
    next t ht =>
      rw [ht] at hext
      exact ⟨(Untouched.write_below _ ho).trans hext.1, fun _ => hext.2.1 ho,
        fun es built => hext.2.2 _ (hkeep es built)⟩
  | case2 l s hl ho => exact fun _ _ => rfl
  | case3 l s hl hz ho =>
    refine ⟨Untouched.write_below _ ho, fun _ => ho, fun es built => ⟨es ++ [.keep l], ?_⟩⟩
    refine built.extend (by simp only [Edit.Coded, Edit.span]; omega) rfl rfl ?_
    simpa only [Differences.stuff, at_end] using built.covers.concat_keep same
  | case4 l s hl hz ho => exact fun _ _ => rfl
  | case5 l s hl hz =>
    have hq : q = s.pos := by omega
    subst hq
    exact Extends.refl s

theorem Extends.trans {s t : Differences} {r : Except (Nat → UInt8) Differences}
    (h : Extends rec1 rec2 limit s (.ok t)) (h' : Extends rec1 rec2 limit t r) :
    Extends rec1 rec2 limit s r := by
  cases r with
  | error buf => exact Untouched.trans h.1 h'
  | ok u =>
    refine ⟨h.1.trans h'.1, fun low => h'.2.1 (h.2.1 low), fun es built => ?_⟩
    obtain ⟨fs, grown⟩ := h.2.2 es built
    exact h'.2.2 fs grown

theorem mismatchRun_pos_le {end1 : Nat} {s t : Differences} (room : s.pos < end1)
    (h : mismatchRun rec1 rec2 limit end1 s = .ok t) : t.pos ≤ end1 := by
  unfold mismatchRun at h
  split at h
  next => cases h
  next u hu =>
    cases h
    have low : s.pos ≤ min end1 (s.pos + 127) - 1 + 1 := by omega
    have := (mismatchLoop_spec (s := { s with out := s.out + 1 }) low hu).1
    change u.pos ≤ end1
    omega

theorem differencesLoop_spec (rec1 rec2 : Nat → UInt8) (limit : Nat) {end1 : Nat}
    {s : Differences} (low : s.pos ≤ end1) :
    Extends rec1 rec2 limit s (differencesLoop rec1 rec2 limit end1 s) ∧
      ∀ t, differencesLoop rec1 rec2 limit end1 s = .ok t → t.pos ≤ end1 := by
  fun_induction differencesLoop rec1 rec2 limit end1 s with
  | case1 s room differ buf run =>
    have := mismatchRun_extends limit room differ
    rw [run] at this
    exact ⟨this, fun t ht => by cases ht⟩
  | case2 s room differ t run ih =>
    have hrun := mismatchRun_extends limit room differ
    rw [run] at hrun
    obtain ⟨hext, hpos⟩ := ih (mismatchRun_pos_le (by omega) run)
    exact ⟨hrun.trans hext, hpos⟩
  | case3 s room differ pos buf keep =>
    have hle := equalRun_ge rec1 rec2 end1 s.pos
    have hkeep := stuffKeep_extends limit (pos - s.pos) s.pos
      (s := { s with pos := pos }) (by simp only; omega)
      (fun i hi hlt => (equalRun_spec rec1 rec2 low).2 i hi (by omega))
    rw [keep] at hkeep
    exact ⟨hkeep, fun t ht => by cases ht⟩
  | case4 s room differ pos t keep ih =>
    have hle := equalRun_ge rec1 rec2 end1 s.pos
    have hkeep := stuffKeep_extends limit (pos - s.pos) s.pos
      (s := { s with pos := pos }) (by simp only; omega)
      (fun i hi hlt => (equalRun_spec rec1 rec2 low).2 i hi (by omega))
    rw [keep] at hkeep
    have hpos : t.pos = pos := stuffKeep_pos limit keep
    obtain ⟨hext, hend⟩ := ih (by rw [hpos]; exact (equalRun_spec rec1 rec2 low).1)
    exact ⟨hkeep.trans hext, hend⟩
  | case5 s room =>
    exact ⟨Extends.refl s, fun t ht => by cases ht; exact low⟩

theorem tailRuns_spec (rec1 rec2 : Nat → UInt8) (limit : Nat) {end2 : Nat}
    {s : Differences} (low : s.pos ≤ end2) :
    Extends rec1 rec2 limit s (tailRuns rec2 limit end2 s) ∧
      ∀ t, tailRuns rec2 limit end2 s = .ok t → t.pos = end2 := by
  fun_induction tailRuns rec2 limit end2 s with
  | case1 s room buf run =>
    have := tailRun_extends rec1 rec2 limit room
    rw [run] at this
    exact ⟨this, fun t ht => by cases ht⟩
  | case2 s room t run ih =>
    have hrun := tailRun_extends rec1 rec2 limit room
    rw [run] at hrun
    have hpos := tailRun_pos rec2 limit run
    obtain ⟨hext, hend⟩ := ih (by omega)
    exact ⟨hrun.trans hext, hend⟩
  | case3 s room =>
    exact ⟨Extends.refl s, fun t ht => by cases ht; omega⟩

/-- The decoder replays a script and stops where the script does. -/
theorem applyDifferencesLoop_script {diff : Nat → UInt8} (recLength : Nat) {a b d : Nat}
    {es : List (Edit UInt8)} (covers : Covers rec1 rec2 a es b)
    (coded : ∀ e ∈ es, Edit.Coded e) (held : Holds diff d (scriptBytes es)) (fits : b ≤ recLength)
    (data : Nat → UInt8) :
    applyDifferencesLoop diff (d + (scriptBytes es).length) recLength d a data =
      .ok (d + (scriptBytes es).length, b, patch es a data) := by
  induction covers generalizing d data with
  | done =>
    rw [applyDifferencesLoop]
    simp [scriptBytes, patch]
  | @replace a b xs es same rest ih =>
    obtain ⟨hpos, hspan⟩ := coded (.replace xs) (by simp)
    simp only [Edit.span] at hpos hspan
    have hbytes : scriptBytes (.replace xs :: es) = (toSchar xs.length :: xs) ++ scriptBytes es := rfl
    rw [hbytes] at held ⊢
    obtain ⟨hedit, htail⟩ := holds_append.mp held
    obtain ⟨hcontrol, hxs⟩ := holds_cons.mp hedit
    have hl : schar (diff d) = xs.length := by
      rw [hcontrol]
      exact schar_toSchar (by omega) (by omega)
    have hend := rest.le
    have hnext := ih (fun e he => coded e (by simp [he])) htail fits (write data a xs)
    rw [applyDifferencesLoop]
    rw [if_pos ⟨by simp only [List.length_append, List.length_cons]; omega, by omega⟩]
    simp only [hl, Int.toNat_natCast, if_pos (show (0 : Int) < xs.length by omega),
      if_neg (show ¬recLength < a + xs.length by omega)]
    rw [show slice diff (d + 1) xs.length = xs from hxs]
    simp only [List.length_append, List.length_cons, patch] at hnext ⊢
    rw [show d + 1 + xs.length = d + (xs.length + 1) by omega, ← Nat.add_assoc d]
    exact hnext
  | @keep a b n es same rest ih =>
    obtain ⟨hpos, hspan⟩ := coded (.keep n) (by simp)
    simp only [Edit.span] at hpos hspan
    have hbytes : scriptBytes (.keep n :: es) = [toSchar (-n)] ++ scriptBytes es := rfl
    rw [hbytes] at held ⊢
    obtain ⟨hedit, htail⟩ := holds_append.mp held
    have hl : schar (diff d) = -n := by
      rw [(holds_cons.mp hedit).1]
      exact schar_toSchar (by omega) (by omega)
    have hend := rest.le
    have hnext := ih (fun e he => coded e (by simp [he])) htail fits data
    rw [applyDifferencesLoop]
    rw [if_pos ⟨by simp only [List.length_append, List.length_cons]; omega, by omega⟩]
    simp only [hl, if_neg (show ¬(0 : Int) < -n by omega), Int.neg_neg, Int.toNat_natCast]
    simp only [List.length_append, List.length_singleton, patch] at hnext ⊢
    rw [← Nat.add_assoc d]
    exact hnext

/-- A difference string that fits its buffer turns the new record back into the old one, and
the encoder leaves every byte from the limit on as it was. -/
theorem sqzDifferences_roundTrip (rec1 rec2 buf : Nat → UInt8) (length1 length2 limit : Nat)
    (record : length1 ≤ 65535) (shorter : length2 ≤ length1) (small : limit ≤ maxDifferences) :
    ((sqzDifferences rec1 rec2 limit length1 length2 buf).1 ≤ limit →
      ∃ data, sqzApplyDifferences rec1 length1
          (sqzDifferences rec1 rec2 limit length1 length2 buf).2 0
          (sqzDifferences rec1 rec2 limit length1 length2 buf).1 = .ok (length2, data) ∧
        slice data 0 length2 = slice rec2 0 length2) ∧
      ∀ i, limit ≤ i → (sqzDifferences rec1 rec2 limit length1 length2 buf).2 i = buf i := by
  have hmax : maxDifferences = 1024 := rfl
  have hloop := differencesLoop_spec rec1 rec2 limit (s := ⟨buf, 0, 0⟩)
    (Nat.zero_le (min length1 length2))
  unfold sqzDifferences
  split
  next b hb =>
    rw [hb] at hloop
    exact ⟨fun h => by omega, hloop.1⟩
  next s hs =>
    have hpos := hloop.2 s hs
    rw [hs] at hloop
    have htail := tailRuns_spec rec1 rec2 limit (s := s) (show s.pos ≤ length2 by omega)
    split
    next b hb =>
      rw [hb] at htail
      exact ⟨fun h => by omega, hloop.1.trans htail.1⟩
    next t ht =>
      have hend := htail.2 t ht
      rw [ht] at htail
      obtain ⟨untouched, bounded, grows⟩ := hloop.1.trans htail.1
      refine ⟨fun fits => ?_, untouched⟩
      have hstart : Differences.Built rec1 rec2 ⟨buf, 0, 0⟩ [] :=
        ⟨rfl, rfl, .done, fun e he => by simp at he⟩
      obtain ⟨es, built⟩ := grows [] hstart
      have hout : t.out ≤ limit := bounded (Nat.zero_le limit)
      have hreplay := applyDifferencesLoop_script length1 built.covers built.coded built.held
        (by omega) rec1
      rw [Nat.zero_add, ← built.out] at hreplay
      refine ⟨patch es 0 rec1, ?_, ?_⟩
      · simp only [sqzApplyDifferences, ushort_of_lt (show t.out < 65536 by omega), Nat.sub_zero]
        rw [if_neg (by omega), hreplay]
        simp only [ushort_of_lt (show t.pos < 65536 by omega)]
        rw [if_neg (by omega), hend]
      · apply slice_congr
        intro i _ hi
        exact built.covers.patch rec1 (fun _ _ => rfl) (Nat.zero_le i) (by omega)

/-- Equal bytes, a run with one byte that agrees, equal bytes again and the rest of the record. -/
theorem sqzDifferences_runs :
    let rec1 := write (fun _ => 0) 0 [1, 2, 3, 4, 5, 6, 7, 8, 9, 10, 11, 12, 13, 14]
    let rec2 := write (fun _ => 0) 0 [1, 2, 3, 4, 20, 6, 21, 22, 9, 10, 11, 23, 13]
    let differences := sqzDifferences rec1 rec2 maxDifferences 14 13 (fun _ => 0)
    slice differences.2 0 differences.1 = [252, 4, 20, 6, 21, 22, 253, 2, 23, 13] ∧
      ∃ data, sqzApplyDifferences rec1 14 differences.2 0 differences.1 = .ok (13, data) ∧
        slice data 0 13 = slice rec2 0 13 :=
  ⟨by decide +kernel,
    (sqzDifferences_roundTrip _ _ _ 14 13 maxDifferences (by decide) (by decide) (by decide)).1
      (by decide +kernel)⟩

end InterBase
