import InterBase.Cch

namespace InterBase

open Edges Relation

section

variable {β : Type} {b low high : β} {s s' : Bcb β}

/-- The higher buffer must be written before the lower one. -/
def Above (pres : List (Pre β)) (low high : β) : Prop := ⟨low, high, false⟩ ∈ pres

/-- A call has taken away precedence blocks, written pages, and nothing else. -/
structure Wrote (s s' : Bcb β) : Prop where
  pres : s'.pres.Sublist s.pres
  marked : s'.marked = s.marked
  faked : s'.faked = s.faked

theorem Wrote.refl (s : Bcb β) : Wrote s s := ⟨List.Sublist.refl _, rfl, rfl⟩

theorem Wrote.trans {t : Bcb β} (first : Wrote s s') (second : Wrote s' t) : Wrote s t :=
  ⟨second.pres.trans first.pres, second.marked.trans first.marked, second.faked.trans first.faked⟩

/-- What holds of the buffers between two calls. -/
structure Kept (s : Bcb β) : Prop where
  acyclic : Acyclic (Above s.pres)
  owes : ∀ low high, Owes Formatting s.log low high →
    s.dirty high = true ∧ Above s.pres low high
  formatting : ∀ b, Formatting s.log b ↔ s.faked b = true
  ordered : WrittenInOrder Formatting s.log

theorem Above.mono {pres pres' : List (Pre β)} (sub : pres'.Sublist pres)
    (h : Above pres' low high) : Above pres low high :=
  sub.mem h

theorem above_of_mem {pres : List (Pre β)} {p : Pre β} (mem : p ∈ pres) (low : p.preLow = b)
    (uncleared : ¬p.cleared = true) : Above pres b p.preHi := by
  obtain ⟨l, h, c⟩ := p
  cases low
  cases Bool.eq_false_iff.mpr uncleared
  exact mem

/-- A page that is passed has not been written, and its blocks are still there. -/
theorem Kept.passes (h : Kept s) : Kept { s with log := .passed b :: s.log } :=
  ⟨h.acyclic, fun low high owes => h.owes low high owes.2, h.formatting, h.ordered⟩

/-- A new block: no way leads from the higher buffer to the lower one, and the higher one is
dirty. -/
theorem Kept.relates (h : Kept s) (dirty : s.dirty high = true)
    (back : ¬ReflTransGen (Above s.pres) high low) : Kept (relate low high s) := by
  refine ⟨(h.acyclic.insert back).mono ?_, ?_, h.formatting, h.ordered⟩
  · intro x y above
    rcases List.mem_cons.mp above with eq | above
    · cases eq
      exact .inr ⟨rfl, rfl⟩
    · exact .inl above
  · rintro x y (⟨rfl, rfl⟩ | owes)
    · exact ⟨dirty, List.mem_cons_self⟩
    · obtain ⟨dirty, above⟩ := h.owes x y owes
      exact ⟨dirty, List.mem_cons_of_mem _ above⟩

variable [DecidableEq β]

theorem mem_bdbHigher {pres : List (Pre β)} {p : Pre β} :
    p ∈ bdbHigher pres b ↔ p ∈ pres ∧ p.preLow = b := by
  unfold bdbHigher
  rw [List.mem_filter, decide_eq_true_eq]

theorem mem_bdbLower {pres : List (Pre β)} {p : Pre β} :
    p ∈ bdbLower pres b ↔ p ∈ pres ∧ p.preHi = b := by
  unfold bdbLower
  rw [List.mem_filter, decide_eq_true_eq]

theorem clearPrecedence_wrote (b : β) (s : Bcb β) : Wrote s (clearPrecedence b s) :=
  ⟨List.filter_sublist, rfl, rfl⟩

theorem writePage_wrote (b : β) (s : Bcb β) : Wrote s (writePage b s) :=
  ⟨List.Sublist.refl _, rfl, rfl⟩

/-- Blocks may be cleared where nothing waits for the page any more. -/
theorem Kept.clear (h : Kept s) (free : ∀ low, ¬Owes Formatting s.log low b) :
    Kept (clearPrecedence b s) := by
  refine ⟨h.acyclic.mono fun x y => Above.mono List.filter_sublist, ?_, h.formatting, h.ordered⟩
  intro low high owes
  obtain ⟨dirty, above⟩ := h.owes low high owes
  refine ⟨dirty, List.mem_filter.mpr ⟨above, ?_⟩⟩
  refine decide_eq_true ?_
  rintro rfl
  exact free low owes

/-- A page may be written where no other one must precede it. -/
theorem Kept.writes (h : Kept s) (first : ∀ high, ¬(s.dirty high = true ∧ Above s.pres b high)) :
    Kept (writePage b s) := by
  refine ⟨h.acyclic, ?_, h.formatting, ?_⟩
  · rintro low high ⟨other, owes⟩
    obtain ⟨dirty, above⟩ := h.owes low high owes
    refine ⟨?_, above⟩
    unfold writePage
    simp only
    rw [Function.update_of_ne (Ne.symm other), dirty]
  · exact ⟨fun high owes => first high (h.owes b high owes), h.ordered⟩

theorem owes_writePage {low : β} : ¬Owes Formatting (writePage b s).log low b := by
  rintro ⟨other, -⟩
  exact other rfl

theorem writeThis_wrote (b : β) (s : Bcb β) : Wrote s (writeThis b s) := by
  unfold writeThis
  split
  · exact (writePage_wrote b s).trans (clearPrecedence_wrote b _)
  · exact ⟨List.filter_sublist, rfl, rfl⟩

theorem bdbLower_clearPrecedence (b : β) (s : Bcb β) :
    bdbLower (clearPrecedence b s).pres b = [] := by
  rw [List.eq_nil_iff_forall_not_mem]
  intro p mem
  obtain ⟨mem, rfl⟩ := mem_bdbLower.mp mem
  exact of_decide_eq_true (List.mem_filter.mp mem).2 rfl

theorem bdbLower_writeThis (b : β) (s : Bcb β) : bdbLower (writeThis b s).pres b = [] := by
  unfold writeThis
  split
  · exact bdbLower_clearPrecedence b _
  · exact bdbLower_clearPrecedence b _

/-- The end of `write_buffer`: no block makes another page precede this one. -/
theorem Kept.writesThis (h : Kept s) (last : bdbHigher s.pres b = [])
    (latched : s.marked b = true → s.faked b = true) : Kept (writeThis b s) := by
  have first : ∀ high, ¬Above s.pres b high := by
    intro high above
    have mem : (⟨b, high, false⟩ : Pre β) ∈ bdbHigher s.pres b := mem_bdbHigher.mpr ⟨above, rfl⟩
    rw [last] at mem
    cases mem
  unfold writeThis
  split
  next => exact (h.writes fun high above => first high above.2).clear fun low => owes_writePage
  next kept =>
    refine h.passes.clear ?_
    rintro low ⟨counts, owes⟩
    have dirty := (h.owes low b owes).1
    rw [dirty, Bool.true_and, Bool.not_eq_true', Bool.not_eq_false] at kept
    -- a faked page that is still marked is exempt
    exact counts ⟨rfl, (h.formatting b).mpr (latched kept)⟩

section

variable {superserver this : Bool} {write : β → Bcb β → Option (Option (Bcb β))}
  {finish : Bcb β → Bcb β}

/-- What the loop over the higher buffers does, if every write in it does the same. -/
theorem writeHigher_spec {P : Bcb β → Prop}
    (hwrite : ∀ hi t t', P t → Above t.pres b hi → Wrote s t → write hi t = some (some t') →
      P t' ∧ Wrote t t')
    (herase : ∀ t p, P t → p ∈ t.pres → p.cleared = true → P { t with pres := t.pres.erase p })
    (hfinish : ∀ t, P t → bdbHigher t.pres b = [] → Wrote s t → P (finish t) ∧ Wrote t (finish t))
    {fuel : Nat} {t : Bcb β} (h : P t) (wrote : Wrote s t)
    (result : writeHigher superserver write this b finish fuel t = some (some s')) :
    P s' ∧ Wrote s s' := by
  induction fuel generalizing t with
  | zero => cases result
  | succ fuel ih =>
    unfold writeHigher at result
    split at result
    next last =>
      cases result
      obtain ⟨hs, after⟩ := hfinish t h last wrote
      exact ⟨hs, wrote.trans after⟩
    next p que hque =>
      have ⟨mem, low⟩ := mem_bdbHigher.mp (hque ▸ List.mem_cons_self : p ∈ bdbHigher t.pres b)
      split at result
      next cleared =>
        exact ih (herase t p h mem cleared)
          (wrote.trans ⟨List.erase_sublist, rfl, rfl⟩) result
      next uncleared =>
        split at result
        next t' ht' =>
          obtain ⟨hs, after⟩ := hwrite _ _ _ h (above_of_mem mem low uncleared) wrote ht'
          split at result
          next =>
            cases result
            exact ⟨hs, wrote.trans after⟩
          next => exact ih hs (wrote.trans after) result
        next answer => exact absurd result (answer _)

/-- Taking away a cleared block changes nothing that counts. -/
theorem Kept.erase (h : Kept s) {p : Pre β} (cleared : p.cleared = true) :
    Kept { s with pres := s.pres.erase p } := by
  refine ⟨h.acyclic.mono fun x y => Above.mono List.erase_sublist, ?_, h.formatting, h.ordered⟩
  intro low high owes
  obtain ⟨dirty, above⟩ := h.owes low high owes
  refine ⟨dirty, ?_⟩
  unfold Above at above ⊢
  rw [List.mem_erase_of_ne]
  · exact above
  · rintro rfl
    cases cleared

theorem writeBuffer_kept (fuel : Nat) (h : Kept s)
    (result : writeBuffer superserver fuel this b s = some (some s')) : Kept s' ∧ Wrote s s' := by
  induction fuel generalizing this b s s' with
  | zero => cases result
  | succ fuel ih =>
    unfold writeBuffer at result
    split at result
    next => cases result
    next latched =>
      split at result
      next clean =>
        cases result
        refine ⟨h.clear ?_, clearPrecedence_wrote b s⟩
        intro low owes
        rw [(h.owes low b owes).1] at clean
        cases clean
      next =>
        refine writeHigher_spec (P := Kept) (fun hi t t' ht _ _ => ih ht) ?_ ?_ h (Wrote.refl s) result
        · exact fun t p ht _ cleared => ht.erase cleared
        · intro t ht last wrote
          refine ⟨ht.writesThis last ?_, writeThis_wrote b t⟩
          rw [wrote.marked, wrote.faked]
          intro marked
          rw [marked] at latched
          simpa using latched

theorem writeHigher_lower (hfinish : ∀ t, bdbLower (finish t).pres b = []) {fuel : Nat}
    (result : writeHigher superserver write true b finish fuel s = some (some s')) :
    bdbLower s'.pres b = [] := by
  induction fuel generalizing s with
  | zero => cases result
  | succ fuel ih =>
    unfold writeHigher at result
    split at result
    next =>
      cases result
      exact hfinish s
    next =>
      split at result
      next => exact ih result
      next =>
        split at result
        next =>
          rw [Bool.not_true, Bool.and_false, if_neg Bool.false_ne_true] at result
          exact ih result
        next answer => exact absurd result (answer _)

/-- After a whole call nothing must be written behind the page any more. -/
theorem writeBuffer_lower (fuel : Nat)
    (result : writeBuffer superserver fuel true b s = some (some s')) : bdbLower s'.pres b = [] := by
  cases fuel with
  | zero => cases result
  | succ fuel =>
    unfold writeBuffer at result
    split at result
    next => cases result
    next =>
      split at result
      next =>
        cases result
        exact bdbLower_clearPrecedence b s
      next => exact writeHigher_lower (bdbLower_writeThis b) result

theorem writeBuffer_wrote (fuel : Nat)
    (result : writeBuffer superserver fuel this b s = some (some s')) : Wrote s s' := by
  induction fuel generalizing this b s s' with
  | zero => cases result
  | succ fuel ih =>
    unfold writeBuffer at result
    split at result
    next => cases result
    next =>
      split at result
      next =>
        cases result
        exact clearPrecedence_wrote b s
      next =>
        exact (writeHigher_spec (P := fun _ => True) (fun hi t t' _ _ _ ht => ⟨trivial, ih ht⟩)
          (fun _ _ _ _ _ => trivial) (fun t _ _ _ => ⟨trivial, writeThis_wrote b t⟩) trivial
          (Wrote.refl s) result).2

theorem writeHigher_wrote {fuel turns : Nat}
    (result : writeHigher superserver (writeBuffer superserver fuel false) this b (writeThis b)
      turns s = some (some s')) : Wrote s s' :=
  (writeHigher_spec (P := fun _ => True) (fun _ _ _ _ _ _ ht => ⟨trivial, writeBuffer_wrote fuel ht⟩)
    (fun _ _ _ _ _ => trivial) (fun t _ _ _ => ⟨trivial, writeThis_wrote b t⟩) trivial
    (Wrote.refl s) result).2

theorem length_clearPrecedence (lower : bdbLower s.pres b ≠ []) :
    (clearPrecedence b s).pres.length < s.pres.length := by
  obtain ⟨p, mem⟩ := List.exists_mem_of_ne_nil _ lower
  obtain ⟨mem, hi⟩ := mem_bdbLower.mp mem
  refine List.length_filter_lt_length_iff_exists.mpr ⟨p, mem, ?_⟩
  rw [decide_eq_true_eq]
  exact not_not.mpr hi

theorem length_writeThis (lower : bdbLower s.pres b ≠ []) :
    (writeThis b s).pres.length < s.pres.length := by
  unfold writeThis
  split
  · exact length_clearPrecedence (s := writePage b s) lower
  · exact length_clearPrecedence (s := { s with log := .passed b :: s.log }) lower

/-- A call that has blocks of lower buffers to take away takes away one at least. -/
theorem writeBuffer_length (fuel : Nat) (lower : bdbLower s.pres b ≠ [])
    (result : writeBuffer superserver fuel this b s = some (some s')) :
    s'.pres.length < s.pres.length := by
  induction fuel generalizing this b s s' with
  | zero => cases result
  | succ fuel ih =>
    unfold writeBuffer at result
    split at result
    next => cases result
    next =>
      split at result
      next =>
        cases result
        exact length_clearPrecedence lower
      next =>
        unfold writeHigher at result
        split at result
        next =>
          cases result
          exact length_writeThis lower
        next p que hque =>
          have mem : p ∈ s.pres := (mem_bdbHigher.mp (hque ▸ List.mem_cons_self)).1
          split at result
          next =>
            have rest := (writeHigher_wrote result).pres.length_le
            have shorter : (s.pres.erase p).length < s.pres.length := by
              have := List.length_pos_of_mem mem
              rw [List.length_erase_of_mem mem]
              omega
            exact Nat.lt_of_le_of_lt rest shorter
          next =>
            split at result
            next t ht =>
              have shorter := ih (List.ne_nil_of_mem (mem_bdbLower.mpr ⟨mem, rfl⟩)) ht
              split at result
              next =>
                cases result
                exact shorter
              next => exact Nat.lt_of_le_of_lt (writeHigher_wrote result).pres.length_le shorter
            next answer => exact absurd result (answer _)

/-- The loop over the higher buffers comes to an end where every write in it does. -/
theorem writeHigher_terminates {fuel : Nat}
    (ends : ∀ p ∈ s.pres, p.preLow = b → p.cleared = false → ∀ t : Bcb β, t.pres.Sublist s.pres →
      writeBuffer superserver fuel false p.preHi t ≠ none)
    {turns : Nat} {t : Bcb β} (sub : t.pres.Sublist s.pres) (enough : t.pres.length < turns) :
    writeHigher superserver (writeBuffer superserver fuel false) this b finish turns t ≠ none := by
  induction turns generalizing t with
  | zero => omega
  | succ turns ih =>
    unfold writeHigher
    split
    next => simp
    next p que hque =>
      obtain ⟨mem, low⟩ := mem_bdbHigher.mp (hque ▸ List.mem_cons_self : p ∈ bdbHigher t.pres b)
      split
      next =>
        apply ih (List.erase_sublist.trans sub)
        have := List.length_pos_of_mem mem
        simp only
        rw [List.length_erase_of_mem mem]
        omega
      next uncleared =>
        split
        next t' ht' =>
          split
          next => simp
          next =>
            apply ih ((writeBuffer_wrote fuel ht').pres.trans sub)
            have shorter :=
              writeBuffer_length fuel (List.ne_nil_of_mem (mem_bdbLower.mpr ⟨mem, rfl⟩)) ht'
            omega
        next answer =>
          exact ends p (sub.mem mem) low (Bool.eq_false_iff.mpr uncleared) t sub

/-- `write_buffer` comes to an end where the precedence blocks have no cycle. -/
theorem writeBuffer_terminates {rank : β → Nat} (superserver : Bool) (fuel : Nat)
    (ranked : ∀ x y, Above s.pres x y → rank y < rank x) (enough : rank b < fuel) (this : Bool) :
    writeBuffer superserver fuel this b s ≠ none := by
  induction fuel generalizing this b s with
  | zero => omega
  | succ fuel ih =>
    unfold writeBuffer
    split
    next => simp
    next =>
      split
      next => simp
      next =>
        refine writeHigher_terminates ?_ (List.Sublist.refl _) (Nat.lt_succ_self _)
        intro p mem low uncleared t sub
        have := ranked _ _ (above_of_mem mem low (by simp [uncleared]))
        exact ih (fun x y h => ranked x y (h.mono sub)) (by omega) false

/-- Only pages that must precede the page are written with it. -/
theorem writeBuffer_dirty (fuel : Nat)
    (result : writeBuffer superserver fuel this b s = some (some s')) (x : β)
    (apart : ¬ReflTransGen (Above s.pres) b x) : s'.dirty x = s.dirty x := by
  induction fuel generalizing this b s s' with
  | zero => cases result
  | succ fuel ih =>
    have other : x ≠ b := by
      rintro rfl
      exact apart .refl
    unfold writeBuffer at result
    split at result
    next => cases result
    next =>
      split at result
      next =>
        cases result
        rfl
      next =>
        refine (writeHigher_spec (P := fun t => t.dirty x = s.dirty x) ?_ ?_ ?_ rfl (Wrote.refl s)
          result).1
        · intro hi t t' same above wrote ht
          refine ⟨?_, writeBuffer_wrote fuel ht⟩
          rw [ih ht, same]
          intro path
          apply apart
          exact ReflTransGen.head (above.mono wrote.pres)
            (ReflTransGen.mono (fun _ _ h => h.mono wrote.pres) _ _ path)
        · exact fun t p same _ _ => same
        · intro t same _ _
          refine ⟨?_, writeThis_wrote b t⟩
          rw [← same]
          unfold writeThis
          split
          · exact Function.update_of_ne other _ _
          · rfl

end

/-- Where a search has come to its end with some limit left, there is no way to the buffer. -/
theorem relatedLoop_limit {pres : List (Pre β)} {fuel limit left : Nat} {que : List (Pre β)}
    (result : relatedLoop pres high fuel que limit = .limit left) {p : Pre β} (mem : p ∈ que)
    (uncleared : ¬p.cleared = true) : ¬ReflTransGen (Above pres) p.preHi high := by
  induction fuel generalizing que limit left p with
  | zero =>
    cases que with
    | nil => cases mem
    | cons => cases result
  | succ fuel ih =>
    cases que with
    | nil => cases mem
    | cons q que =>
      unfold relatedLoop at result
      split at result
      next => cases result
      next =>
        split at result
        next cleared =>
          rcases List.mem_cons.mp mem with rfl | mem
          · exact absurd cleared uncleared
          · exact ih result mem uncleared
        next =>
          split at result
          next => cases result
          next other =>
            split at result
            next rest hrest =>
              rcases List.mem_cons.mp mem with rfl | mem
              · intro path
                rcases ReflTransGen.cases_head path with eq | ⟨y, above, path⟩
                · exact other eq
                · exact ih hrest (mem_bdbHigher.mpr ⟨above, rfl⟩) Bool.false_ne_true path
              · exact ih result mem uncleared
            next answer => exact absurd result (answer _)

theorem related_limit {pres : List (Pre β)} {left : Nat} (result : related pres low high = .limit left) :
    ¬TransGen (Above pres) low high := by
  intro path
  obtain ⟨y, above, path⟩ := TransGen.head'_iff.mp path
  exact relatedLoop_limit result (mem_bdbHigher.mpr ⟨above, rfl⟩) Bool.false_ne_true path

/-- Nothing must be written behind a page without blocks of lower buffers. -/
theorem not_transGen_of_lower {pres : List (Pre β)} (lower : bdbLower pres high = []) :
    ¬TransGen (Above pres) low high := by
  intro path
  obtain ⟨y, -, above⟩ := TransGen.tail'_iff.mp path
  have mem : (⟨y, high, false⟩ : Pre β) ∈ bdbLower pres high := mem_bdbLower.mpr ⟨above, rfl⟩
  rw [lower] at mem
  cases mem

theorem not_transGen_of_search {pres : List (Pre β)} {left : Nat}
    (result : (if bdbLower pres high = [] then Related.limit 0 else related pres low high) =
      .limit left) : ¬TransGen (Above pres) low high := by
  split at result
  next lower => exact not_transGen_of_lower lower
  next => exact related_limit result

theorem checkPrecedence_kept {superserver : Bool} {fuel : Nat} (h : Kept s)
    (result : checkPrecedence superserver fuel low high s = some (some s')) : Kept s' := by
  unfold checkPrecedence at result
  split at result
  next =>
    cases result
    exact h
  next serious =>
    rw [Bool.or_eq_true, decide_eq_true_eq, Bool.not_eq_true', not_or, Bool.not_eq_false] at serious
    obtain ⟨dirty, other⟩ := serious
    split at result
    next => cases result
    next =>
      simp only at result
      split at result
      next =>
        cases result
        exact h
      next => exact (writeBuffer_kept fuel h result).1
      next left hleft =>
        have unrelated : ¬TransGen (Above s.pres) low high := not_transGen_of_search hleft
        split at result
        next left' hleft' =>
          cases result
          refine h.relates dirty ?_
          intro path
          rcases reflTransGen_iff_eq_or_transGen.mp path with eq | path
          · exact other eq.symm
          · exact not_transGen_of_search hleft' path
        next =>
          split at result
          next t ht =>
            cases result
            refine (writeBuffer_kept fuel h ht).1.relates ?_ ?_
            · rw [writeBuffer_dirty fuel ht high, dirty]
              intro path
              rcases reflTransGen_iff_eq_or_transGen.mp path with eq | path
              · exact other eq
              · exact unrelated path
            · intro path
              rcases reflTransGen_iff_eq_or_transGen.mp path with eq | path
              · exact other eq.symm
              · exact not_transGen_of_lower (writeBuffer_lower fuel ht) path
          next answer => exact absurd result (answer _)

theorem Kept.marks (h : Kept s) (b : β) : Kept (cchMark b s) := by
  refine ⟨h.acyclic, ?_, h.formatting, h.ordered⟩
  intro low high owes
  obtain ⟨dirty, above⟩ := h.owes low high owes
  refine ⟨?_, above⟩
  unfold cchMark
  simp only
  by_cases same : high = b
  · rw [same, Function.update_self]
  · rw [Function.update_of_ne same, dirty]

theorem Kept.releases (h : Kept s) (b : β) : Kept (cchRelease b s) := by
  refine ⟨h.acyclic, h.owes, ?_, h.ordered⟩
  intro x
  change b ≠ x ∧ Formatting s.log x ↔ Function.update s.faked b false x = true
  rw [h.formatting]
  by_cases same : x = b
  · rw [same, Function.update_self]
    simp
  · rw [Function.update_of_ne same]
    exact and_iff_right (Ne.symm same)

theorem Kept.fakes (h : Kept s) (b : β) :
    Kept (cchMark b { s with faked := Function.update s.faked b true, log := .faked b :: s.log }) := by
  apply Kept.marks
  refine ⟨h.acyclic, h.owes, ?_, h.ordered⟩
  intro x
  change b = x ∨ Formatting s.log x ↔ Function.update s.faked b true x = true
  rw [h.formatting]
  by_cases same : x = b
  · rw [same, Function.update_self]
    simp
  · rw [Function.update_of_ne same]
    exact or_iff_right (Ne.symm same)

theorem cchFake_kept {superserver : Bool} {fuel : Nat} (h : Kept s)
    (result : cchFake superserver fuel b s = some (some s')) : Kept s' := by
  unfold cchFake at result
  simp only at result
  split at result
  next t ht =>
    cases result
    apply Kept.fakes
    split at ht
    next => exact (writeBuffer_kept fuel h ht).1
    next clean =>
      cases ht
      refine h.clear ?_
      intro low owes
      exact clean (h.owes low b owes).1
  next answer => exact absurd result (answer _)

/-- The blocks that a write at AST level marks are those of the page written. -/
theorem Kept.downGrades (h : Kept s)
    (first : ∀ p ∈ bdbHigher s.pres b, p.cleared = false → s.dirty p.preHi = false) :
    Kept (downGrade b s) := by
  have written : Kept (writePage b s) := by
    refine h.writes ?_
    rintro high ⟨dirty, above⟩
    rw [first _ (mem_bdbHigher.mpr ⟨above, rfl⟩) rfl] at dirty
    cases dirty
  refine ⟨written.acyclic.mono ?_, ?_, written.formatting, written.ordered⟩
  · intro x y above
    obtain ⟨p, mem, eq⟩ := List.mem_map.mp above
    split at eq
    · cases eq
    · cases eq
      exact mem
  · intro low high owes
    obtain ⟨dirty, above⟩ := written.owes low high owes
    refine ⟨dirty, List.mem_map.mpr ⟨_, above, if_neg ?_⟩⟩
    rintro rfl
    exact owes_writePage owes

theorem Kept.reassigns (h : Kept s) (clean : s.dirty b = false) : Kept (reassign b s) := by
  refine ⟨h.acyclic.mono fun x y => Above.mono List.filter_sublist, ?_, h.formatting, h.ordered⟩
  rintro low high ⟨other, owes⟩
  obtain ⟨dirty, above⟩ := h.owes low high owes
  refine ⟨dirty, List.mem_filter.mpr ⟨above, decide_eq_true ⟨Ne.symm other, ?_⟩⟩⟩
  rintro rfl
  rw [clean] at dirty
  cases dirty

theorem CchRun.kept {superserver : Bool} (run : CchRun superserver s) : Kept s := by
  induction run with
  | start =>
    refine ⟨?_, ?_, ?_, trivial⟩
    · intro a cycle
      obtain ⟨x, above, -⟩ := TransGen.head'_iff.mp cycle
      cases above
    · intro low high owes
      cases owes
    · intro x
      exact ⟨False.elim, fun h => by cases h⟩
  | mark b _ ih => exact ih.marks b
  | release b _ ih => exact ih.releases b
  | fake _ _ result ih => exact cchFake_kept ih result
  | precedence _ result ih => exact checkPrecedence_kept ih result
  | write _ result ih => exact (writeBuffer_kept _ ih result).1
  | downGrade _ _ _ first ih => exact ih.downGrades first
  | reassign _ clean ih => exact ih.reassigns clean

/-- What holds of the buffers between two calls. -/
structure CarefulWrite (superserver : Bool) (s : Bcb β) : Prop where
  acyclic : Acyclic (Above s.pres)
  writes : ∀ b this, ∃ enough, ∀ fuel, enough < fuel → writeBuffer superserver fuel this b s ≠ none
  checks : ∀ low high, ∃ enough, ∀ fuel, enough < fuel →
    checkPrecedence superserver fuel low high s ≠ none
  inOrder : WrittenInOrder Formatting s.log

theorem cchRun_carefulWrite {superserver : Bool} (run : CchRun superserver s) :
    CarefulWrite superserver s := by
  have kept := run.kept
  have finite : {y | ∃ x, Above s.pres x y}.Finite := by
    refine (List.finite_toSet (s.pres.map Pre.preHi)).subset ?_
    rintro y ⟨x, above⟩
    exact List.mem_map.mpr ⟨_, above, rfl⟩
  obtain ⟨rank, ranked⟩ := kept.acyclic.exists_rank finite
  refine ⟨kept.acyclic, ?_, ?_, kept.ordered⟩
  · intro b this
    exact ⟨rank b, fun fuel enough => writeBuffer_terminates superserver fuel ranked enough this⟩
  · intro low high
    refine ⟨max (rank low) (rank high), ?_⟩
    intro fuel enough
    have wlow := writeBuffer_terminates superserver fuel ranked
      (Nat.lt_of_le_of_lt (Nat.le_max_left _ _) enough) true
    have whigh := writeBuffer_terminates superserver fuel ranked
      (Nat.lt_of_le_of_lt (Nat.le_max_right _ _) enough) true
    unfold checkPrecedence
    split
    next => simp
    next =>
      split
      next => simp
      next =>
        simp only
        split
        next => simp
        next => exact whigh
        next =>
          split
          next => simp
          next =>
            split
            next => simp
            next => exact wlow

end

/-- An empty cache. -/
def emptyBcb : Bcb Nat := ⟨[], fun _ => false, fun _ => false, fun _ => false, []⟩

/-- A page is related to another one that is still being made. That one is written first, once it has
been released. -/
theorem cchRun_carefulWrite_two_pages : ∃ s : Bcb Nat, s.log =
    [.wrote 2, .wrote 1, .released 1, .released 2, .related 2 1, .faked 1] ∧
      CarefulWrite false s := by
  have faked : CchRun false (cchMark 1
      { emptyBcb with faked := Function.update emptyBcb.faked 1 true, log := [.faked 1] }) :=
    .fake .start rfl (show cchFake false 1 1 emptyBcb = some (some _) from rfl)
  have released := CchRun.release 1 (.release 2 (.mark 2 (.precedence faked
    (show checkPrecedence false 1 2 1 _ = some (some _) from rfl))))
  exact ⟨_, rfl, cchRun_carefulWrite (.write released
    (show writeBuffer false 3 true 2 _ = some (some _) from rfl))⟩

/-- A page is written although the page that must precede it is dirty and unwritten: a new one that
is still being made. -/
theorem writeBuffer_passes_faked : ∃ s : Bcb Nat, CchRun false s ∧
    s.log = [.wrote 2, .passed 1, .released 2, .related 2 1, .faked 1] ∧ s.dirty 1 = true ∧
      ¬WrittenInOrder (fun _ _ => False) s.log := by
  have faked : CchRun false (cchMark 1
      { emptyBcb with faked := Function.update emptyBcb.faked 1 true, log := [.faked 1] }) :=
    .fake .start rfl (show cchFake false 1 1 emptyBcb = some (some _) from rfl)
  have related : CchRun false (cchRelease 2 (cchMark 2 (relate 2 1 (cchMark 1
      { emptyBcb with faked := Function.update emptyBcb.faked 1 true, log := [.faked 1] })))) :=
    .release 2 (.mark 2 (.precedence faked
      (show checkPrecedence false 1 2 1 _ = some (some _) from rfl)))
  refine ⟨_, .write related (show writeBuffer false 3 true 2 _ = some (some _) from rfl), rfl, rfl, ?_⟩
  rintro ⟨none, -⟩
  exact none 1 ⟨fun exempt => exempt.2, .inl ⟨rfl, rfl⟩⟩

end InterBase
