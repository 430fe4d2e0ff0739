import InterBase.Dpm

namespace InterBase

open Function

namespace DataSpace

variable {σ : Type} {dbb : DpmDbb} {sess : σ} {s : DataSpace σ} {pp slot : Nat}

/-- A slot that holds a data page and whose full bit is clear. -/
def Clear (s : DataSpace σ) (pp slot : Nat) : Prop :=
  s.Holds pp slot ∧ (s.pages pp).fullBit slot = false

instance (s : DataSpace σ) (pp slot : Nat) : Decidable (s.Clear pp slot) :=
  inferInstanceAs (Decidable (_ ∧ _))

/-- No page with a clear full bit is forgotten: the scan of its pointer page does not start above it,
and the session that cleared the bit starts at no later pointer page. -/
def Known (s : DataSpace σ) : Prop :=
  ∀ pp slot, s.Clear pp slot → (s.pages pp).ppgMinSpace ≤ slot ∧
    ∃ owner, s.cleared pp slot = some owner ∧ (s.rels owner).relDataSpace ≤ pp

/-- The same, with nothing left that `sess` has cleared. -/
def KnownBut (sess : σ) (s : DataSpace σ) : Prop :=
  ∀ pp slot, s.Clear pp slot → (s.pages pp).ppgMinSpace ≤ slot ∧
    ∃ owner ≠ sess, s.cleared pp slot = some owner ∧ (s.rels owner).relDataSpace ≤ pp

/-- The full bits say what the data pages say. -/
def Marked (s : DataSpace σ) : Prop :=
  ∀ pp slot page, s.Holds pp slot → (s.pages pp).ppgPage slot = some page →
    page.dpgFull = (s.pages pp).fullBit slot

theorem KnownBut.known (h : s.KnownBut sess) : s.Known := by
  intro pp slot clear
  obtain ⟨low, owner, -, cleared, reached⟩ := h pp slot clear
  exact ⟨low, owner, cleared, reached⟩

/-- A page that is replaced in its slot. -/
theorem holds_setPage {page : Dpg} (there : ((s.pages pp).ppgPage slot).isSome) (p t : Nat) :
    (s.setPage pp slot page).Holds p t ↔ s.Holds p t := by
  unfold Holds setPage
  by_cases hp : p = pp
  · subst hp
    by_cases ht : t = slot
    · subst ht
      simp [there]
    · simp [ht]
  · simp [hp]

@[simp] theorem fullBit_setPage (page : Dpg) (p : Nat) :
    ((s.setPage pp slot page).pages p).fullBit = (s.pages p).fullBit := by
  unfold setPage
  by_cases hp : p = pp
  · subst hp
    simp
  · simp [hp]

@[simp] theorem ppgMinSpace_setPage (page : Dpg) (p : Nat) :
    ((s.setPage pp slot page).pages p).ppgMinSpace = (s.pages p).ppgMinSpace := by
  unfold setPage
  by_cases hp : p = pp
  · subst hp
    simp
  · simp [hp]

@[simp] theorem ppgCount_setPage (page : Dpg) (p : Nat) :
    ((s.setPage pp slot page).pages p).ppgCount = (s.pages p).ppgCount := by
  unfold setPage
  by_cases hp : p = pp
  · subst hp
    simp
  · simp [hp]

theorem ppgPage_setPage (page : Dpg) (p t : Nat) :
    ((s.setPage pp slot page).pages p).ppgPage t =
      if p = pp ∧ t = slot then some page else (s.pages p).ppgPage t := by
  unfold setPage
  by_cases hp : p = pp
  · subst hp
    by_cases ht : t = slot
    · subst ht
      simp
    · simp [ht]
  · simp [hp]

@[simp] theorem rels_setPage (page : Dpg) : (s.setPage pp slot page).rels = s.rels := rfl

@[simp] theorem relPages_setPage (page : Dpg) : (s.setPage pp slot page).relPages = s.relPages := rfl

theorem clear_setPage {page : Dpg} (there : ((s.pages pp).ppgPage slot).isSome) (p t : Nat) :
    (s.setPage pp slot page).Clear p t ↔ s.Clear p t := by
  unfold Clear
  rw [holds_setPage there, fullBit_setPage]

theorem known_setPage {page : Dpg} (there : ((s.pages pp).ppgPage slot).isSome) (h : s.Known) :
    (s.setPage pp slot page).Known := by
  intro p t clear
  rw [clear_setPage there] at clear
  rw [ppgMinSpace_setPage]
  exact h p t clear

theorem marked_setPage {page old : Dpg} (there : (s.pages pp).ppgPage slot = some old)
    (same : page.dpgFull = old.dpgFull) (h : s.Marked) : (s.setPage pp slot page).Marked := by
  intro p t d holds hd
  rw [holds_setPage (by rw [there]; rfl)] at holds
  rw [ppgPage_setPage] at hd
  rw [fullBit_setPage]
  split at hd
  next hat =>
    obtain ⟨rfl, rfl⟩ := hat
    rw [← Option.some.inj hd, same]
    exact h p t old holds there
  next => exact h p t d holds hd

variable [DecidableEq σ]

/-- A page that is marked full leaves nothing behind, if no page with a clear bit stands below it. -/
theorem known_markFull_full {page : Dpg} (there : (s.pages pp).ppgPage slot = some page)
    (full : page.dpgFull = true) (none : ∀ t < slot, ¬s.Clear pp t) (h : s.Known) :
    (s.markFull sess pp slot).Known := by
  intro p t clear
  unfold markFull at clear ⊢
  simp only [there, full, if_true] at clear ⊢
  unfold Clear Holds at clear
  by_cases hp : p = pp
  · subst hp
    simp only [update_self] at clear ⊢
    by_cases ht : t = slot
    · subst ht
      simp at clear
    · rw [update_of_ne ht] at clear
      have was : s.Clear p t := clear
      have hle : ¬t < slot := fun hlt => none t hlt was
      obtain ⟨low, owned⟩ := h p t was
      exact ⟨by omega, owned⟩
  · simp only [update_of_ne hp] at clear ⊢
    exact h p t clear

theorem clear_markFull_full {page : Dpg} (there : (s.pages pp).ppgPage slot = some page)
    (full : page.dpgFull = true) (p t : Nat) :
    (s.markFull sess pp slot).Clear p t ↔ s.Clear p t ∧ ¬(p = pp ∧ t = slot) := by
  unfold markFull
  simp only [there, full, if_true]
  unfold Clear Holds
  by_cases hp : p = pp
  · subst hp
    by_cases ht : t = slot
    · subst ht
      simp
    · simp [ht]
  · simp [hp]

/-- Where the full bit is not the one that the page asks for, `mark_full` makes it so. -/
theorem marked_markFull {page : Dpg} (there : (s.pages pp).ppgPage slot = some page)
    (h : ∀ p t d, ¬(p = pp ∧ t = slot) → s.Holds p t → (s.pages p).ppgPage t = some d →
      d.dpgFull = (s.pages p).fullBit t) : (s.markFull sess pp slot).Marked := by
  intro p t d holds hd
  unfold markFull at holds hd ⊢
  simp only [there] at holds hd ⊢
  unfold Holds at holds
  by_cases hp : p = pp
  · subst hp
    by_cases ht : t = slot
    · subst ht
      split at hd
      next full =>
        simp only [if_pos full] at hd ⊢
        simp only [update_self, there, Option.some.injEq] at hd ⊢
        rw [← hd, full]
      next full =>
        simp only [if_neg full]
        simp only [setCleared, setDataSpace, update_self, there, Option.some.injEq] at hd ⊢
        rw [← hd]
        simpa using full
    · have was := h p t d (fun hat => ht hat.2)
      split at hd
      next full =>
        simp only [if_pos full, update_self, update_of_ne ht] at hd holds ⊢
        exact was holds hd
      next full =>
        simp only [if_neg full, setCleared, setDataSpace, update_self, update_of_ne ht] at hd holds ⊢
        exact was holds hd
  · have was := h p t d (fun hat => hp hat.1)
    split at hd
    next full =>
      simp only [if_pos full, update_of_ne hp] at hd holds ⊢
      exact was holds hd
    next full =>
      simp only [if_neg full, setCleared, setDataSpace, update_of_ne hp] at hd holds ⊢
      exact was holds hd

/-- A page that is marked as not full is known to the session that marks it. -/
theorem known_markFull_clear {page : Dpg} (there : (s.pages pp).ppgPage slot = some page)
    (full : page.dpgFull = false) (h : s.Known) : (s.markFull sess pp slot).Known := by
  intro p t clear
  unfold markFull at clear ⊢
  simp only [there, full, Bool.false_eq_true, if_false] at clear ⊢
  unfold Clear Holds at clear
  unfold setCleared setDataSpace at clear ⊢
  dsimp only at clear ⊢
  -- no session starts later than before, and this one not after `pp`
  have earlier : ∀ owner, (update s.rels sess { s.rels sess with
      relDataSpace := min pp (s.rels sess).relDataSpace } owner).relDataSpace ≤
        (s.rels owner).relDataSpace := by
    intro owner
    by_cases ho : owner = sess
    · subst ho
      rw [update_self]
      exact Nat.min_le_right _ _
    · exact Nat.le_of_eq (by rw [update_of_ne ho])
  by_cases hp : p = pp
  · subst hp
    simp only [update_self] at clear ⊢
    by_cases ht : t = slot
    · subst ht
      refine ⟨Nat.min_le_left _ _, sess, by rw [update_self], ?_⟩
      rw [update_self]
      exact Nat.min_le_left _ _
    · rw [update_of_ne ht] at clear
      obtain ⟨low, owner, cleared, reached⟩ := h p t clear
      refine ⟨Nat.le_trans (Nat.min_le_right _ _) low, owner, ?_,
        Nat.le_trans (earlier owner) reached⟩
      rw [update_of_ne ht, cleared]
  · simp only [update_of_ne hp] at clear ⊢
    obtain ⟨low, owner, cleared, reached⟩ := h p t clear
    exact ⟨low, owner, cleared, Nat.le_trans (earlier owner) reached⟩

theorem rels_markFull_full {page : Dpg} (there : (s.pages pp).ppgPage slot = some page)
    (full : page.dpgFull = true) : (s.markFull sess pp slot).rels = s.rels := by
  unfold markFull
  simp only [there, full, if_true]

theorem relPages_markFull_full {page : Dpg} (there : (s.pages pp).ppgPage slot = some page)
    (full : page.dpgFull = true) : (s.markFull sess pp slot).relPages = s.relPages := by
  unfold markFull
  simp only [there, full, if_true]

theorem place_dpgFull {type : DpmType} {segment : DpmSegment dbb} {page placed : Dpg}
    (h : page.place type segment = some placed) : placed.dpgFull = page.dpgFull := by
  unfold Dpg.place at h
  split at h
  · cases h
  · rw [← Option.some.inj h]

/-- What `find_space` leaves alone, and what it does to the page that it looks at. -/
structure Tried (s s' : DataSpace σ) (pp slot : Nat) (found : Bool) : Prop where
  known : s'.Known
  marked : s'.Marked
  rels : s'.rels = s.rels
  relPages : s'.relPages = s.relPages
  clear : ∀ p t, s'.Clear p t ↔ s.Clear p t ∧ (found = true ∨ ¬(p = pp ∧ t = slot))

/-- The page either takes the segment or is marked full. In the second case there must be no page
with a clear bit below it. -/
theorem findSpace_tried (type : DpmType) (segment : DpmSegment dbb) (sess : σ)
    {page : Dpg}
    (there : (s.pages pp).ppgPage slot = some page) (known : s.Known) (marked : s.Marked)
    (below : page.place type segment = none → ∀ t < slot, ¬s.Clear pp t) :
    Tried s (s.findSpace type segment sess pp slot).1 pp slot
      (s.findSpace type segment sess pp slot).2 := by
  have some : ((s.pages pp).ppgPage slot).isSome := by rw [there]; rfl
  unfold findSpace
  simp only [there]
  cases placing : page.place type segment with
  | some placed =>
    dsimp only
    refine ⟨known_setPage some known, marked_setPage there (place_dpgFull placing) marked, rfl, rfl, ?_⟩
    intro p t
    rw [clear_setPage some]
    simp
  | none =>
    dsimp only
    have there' : ((s.setPage pp slot { page with dpgFull := true }).pages pp).ppgPage slot =
        Option.some { page with dpgFull := true } := by
      rw [ppgPage_setPage, if_pos ⟨rfl, rfl⟩]
    refine ⟨?_, ?_, ?_, ?_, ?_⟩
    · apply known_markFull_full there' rfl _ (known_setPage some known)
      intro t hlt
      rw [clear_setPage some]
      exact below placing t hlt
    · apply marked_markFull there'
      intro p t d hat holds hd
      rw [holds_setPage some] at holds
      rw [ppgPage_setPage, if_neg hat] at hd
      rw [fullBit_setPage]
      exact marked p t d holds hd
    · rw [rels_markFull_full there' rfl, rels_setPage]
    · rw [relPages_markFull_full there' rfl, relPages_setPage]
    · intro p t
      rw [clear_markFull_full there' rfl, clear_setPage some]
      simp

/-- The scan of a pointer page, with nothing of it left behind at the end. -/
structure Scanned (s s' : DataSpace σ) (pp : Nat) (found : Option Nat) : Prop where
  known : s'.Known
  marked : s'.Marked
  rels : s'.rels = s.rels
  relPages : s'.relPages = s.relPages
  clear : ∀ slot, found = some slot → s'.Clear pp slot
  nothing : found = none → ∀ t, ¬s'.Clear pp t

theorem ppgCount_findSpace (type : DpmType) (segment : DpmSegment dbb) (sess : σ)
    (s : DataSpace σ) (pp slot : Nat) :
    (((s.findSpace type segment sess pp slot).1).pages pp).ppgCount = (s.pages pp).ppgCount := by
  unfold findSpace
  cases there : (s.pages pp).ppgPage slot with
  | none => rfl
  | some page =>
    dsimp only
    cases page.place type segment with
    | some placed => exact ppgCount_setPage placed pp
    | none =>
      have there' : ((s.setPage pp slot { page with dpgFull := true }).pages pp).ppgPage slot =
          some { page with dpgFull := true } := by
        rw [ppgPage_setPage, if_pos ⟨rfl, rfl⟩]
      unfold markFull
      simp only [there', if_true, update_self]
      exact ppgCount_setPage _ pp

theorem scanSlots_scanned (type : DpmType) (segment : DpmSegment dbb) (sess : σ)
    {n : Nat} (known : s.Known)
    (marked : s.Marked) (inside : pp < s.relPages) (rest : n = (s.pages pp).ppgCount - slot)
    (below : ∀ t < slot, ¬s.Clear pp t) :
    Scanned s (scanSlots type segment sess pp n slot s).1 pp
      (scanSlots type segment sess pp n slot s).2 := by
  induction n generalizing slot s with
  | zero =>
    refine ⟨known, marked, rfl, rfl, ?_, ?_⟩
    · intro _ h
      cases h
    intro _ t clear
    have hlt : t < (s.pages pp).ppgCount := clear.1.2.1
    exact below t (by omega) clear
  | succ n ih =>
    unfold scanSlots
    split
    next clear =>
      obtain ⟨page, there⟩ := Option.isSome_iff_exists.mp clear.1
      have tried := findSpace_tried type segment sess there known marked fun _ => below
      have count := ppgCount_findSpace type segment sess s pp slot
      generalize s.findSpace type segment sess pp slot = result at tried count ⊢
      obtain ⟨s', found⟩ := result
      dsimp only at tried count
      cases found with
      | true =>
        refine ⟨tried.known, tried.marked, tried.rels, tried.relPages, ?_, fun h => by cases h⟩
        intro slot' h
        rw [← Option.some.inj h, tried.clear]
        exact ⟨⟨⟨inside, by omega, clear.1⟩, clear.2⟩, Or.inl rfl⟩
      | false =>
        dsimp only
        have later := ih (s := s') tried.known tried.marked
          (by rw [tried.relPages]; exact inside)
          (show n = (s'.pages pp).ppgCount - (slot + 1) by rw [count]; omega) ?_
        · exact ⟨later.known, later.marked, later.rels.trans tried.rels,
            later.relPages.trans tried.relPages, later.clear, later.nothing⟩
        · intro t hlt clear'
          rw [tried.clear] at clear'
          obtain ⟨was, hne⟩ := clear'
          have hne : t ≠ slot := by simpa using hne
          exact below t (by omega) was
    next full =>
      have hnot : ¬s.Clear pp slot := fun clear => full ⟨clear.1.2.2, clear.2⟩
      apply ih known marked inside (by omega)
      intro t hlt clear
      rcases Nat.lt_succ_iff_lt_or_eq.mp hlt with hlt | rfl
      · exact below t hlt clear
      · exact hnot clear

/-- Moving on to a pointer page, when all that the session has cleared stands there or later. -/
theorem known_setDataSpace (h : ∀ p t, s.Clear p t → (s.pages p).ppgMinSpace ≤ t ∧
      ∃ owner, s.cleared p t = some owner ∧ (s.rels owner).relDataSpace ≤ p ∧
        (owner = sess → pp ≤ p)) : (s.setDataSpace sess pp).Known := by
  intro p t clear
  obtain ⟨low, owner, cleared, reached, later⟩ := h p t clear
  refine ⟨low, owner, cleared, ?_⟩
  unfold setDataSpace
  dsimp only
  by_cases ho : owner = sess
  · subst ho
    rw [update_self]
    exact later rfl
  · rw [update_of_ne ho]
    exact reached

/-- The scan of the pointer pages. When it comes to the end, the session has left no page with a
clear bit anywhere. -/
structure Searched (sess : σ) (s : DataSpace σ) (found : Option (Nat × Nat)) : Prop where
  known : s.Known
  marked : s.Marked
  clear : ∀ p t, found = some (p, t) → s.Clear p t
  nothing : found = none → s.KnownBut sess

/-- One pointer page of the scan. -/
theorem scanPage_scanned (type : DpmType) (segment : DpmSegment dbb) (sess : σ)
    (known : s.Known)
    (marked : s.Marked) (inside : pp < s.relPages) :
    Scanned s (scanSlots type segment sess pp
        ((s.pages pp).ppgCount - (s.pages pp).ppgMinSpace) (s.pages pp).ppgMinSpace s).1 pp
      (scanSlots type segment sess pp
        ((s.pages pp).ppgCount - (s.pages pp).ppgMinSpace) (s.pages pp).ppgMinSpace s).2 := by
  apply scanSlots_scanned type segment sess known marked inside rfl
  intro t hlt clear
  have low := (known pp t clear).1
  omega

/-- A session that has left nothing on its pointer page owns only slots of later ones. -/
theorem Scanned.later {s' : DataSpace σ} (h : Scanned (s.setDataSpace sess pp) s' pp none) {p t : Nat}
    (clear : s'.Clear p t) (reached : (s'.rels sess).relDataSpace ≤ p) : pp + 1 ≤ p := by
  rw [h.rels] at reached
  have here : ((s.setDataSpace sess pp).rels sess).relDataSpace = pp := by
    unfold setDataSpace
    dsimp only
    rw [update_self]
  have hne : p ≠ pp := by
    rintro rfl
    exact h.nothing rfl t clear
  omega

theorem scanPages_searched (type : DpmType) (segment : DpmSegment dbb) (sess : σ)
    {n : Nat}
    (known : (s.setDataSpace sess pp).Known) (marked : s.Marked) (last : pp + (n + 1) = s.relPages) :
    Searched sess (scanPages type segment sess (n + 1) pp s).1
      (scanPages type segment sess (n + 1) pp s).2 := by
  induction n generalizing pp s with
  | zero =>
    have inside : pp < (s.setDataSpace sess pp).relPages := by
      change pp < s.relPages
      omega
    have scanned := scanPage_scanned type segment sess known marked inside
    unfold scanPages
    dsimp only
    generalize scanSlots type segment sess pp _ _ _ = result at scanned ⊢
    obtain ⟨s', found⟩ := result
    cases found with
    | some slot =>
      refine ⟨scanned.known, scanned.marked, ?_, fun h => (by cases h)⟩
      intro p t h
      cases h
      exact scanned.clear slot rfl
    | none =>
      unfold scanPages
      refine ⟨scanned.known, scanned.marked, fun p t h => (by cases h), ?_⟩
      intro _ p t clear
      obtain ⟨low, owner, cleared, reached⟩ := scanned.known p t clear
      refine ⟨low, owner, ?_, cleared, reached⟩
      rintro rfl
      have later := scanned.later clear reached
      have inside : p < s'.relPages := clear.1.1
      have same : s'.relPages = s.relPages := scanned.relPages
      omega
  | succ n ih =>
    have inside : pp < (s.setDataSpace sess pp).relPages := by
      change pp < s.relPages
      omega
    have scanned := scanPage_scanned type segment sess known marked inside
    unfold scanPages
    dsimp only
    generalize scanSlots type segment sess pp _ _ _ = result at scanned ⊢
    obtain ⟨s', found⟩ := result
    cases found with
    | some slot =>
      refine ⟨scanned.known, scanned.marked, ?_, fun h => (by cases h)⟩
      intro p t h
      cases h
      exact scanned.clear slot rfl
    | none =>
      have same : s'.relPages = s.relPages := scanned.relPages
      apply ih (s := s') _ scanned.marked (by omega)
      apply known_setDataSpace
      intro p t clear
      obtain ⟨low, owner, cleared, reached⟩ := scanned.known p t clear
      refine ⟨low, owner, cleared, reached, ?_⟩
      rintro rfl
      exact scanned.later clear reached

/-- A page that has just been put into a slot. -/
structure Inserted (s : DataSpace σ) (pp slot : Nat) : Prop where
  known : s.Known
  marked : s.Marked
  clear : s.Clear pp slot
  page : (s.pages pp).ppgPage slot = some ⟨[], false, false⟩

theorem holds_insertPage (hslot : slot ≤ (s.pages pp).ppgCount) {p t : Nat}
    (hne : ¬(p = pp ∧ t = slot)) (h : (s.insertPage sess pp slot).Holds p t) :
    s.Holds p t := by
  unfold insertPage setCleared setDataSpace Holds at h
  dsimp only at h
  by_cases hp : p = pp
  · subst hp
    have ht : t ≠ slot := fun ht => hne ⟨rfl, ht⟩
    simp only [update_self, update_of_ne ht] at h
    exact ⟨h.1, by omega, h.2.2⟩
  · rw [update_of_ne hp] at h
    exact h

theorem insertPage_inserted (known : s.KnownBut sess) (marked : s.Marked) (inside : pp < s.relPages)
    (hslot : slot ≤ (s.pages pp).ppgCount) : Inserted (s.insertPage sess pp slot) pp slot := by
  refine ⟨?_, ?_, ?_, ?_⟩
  · intro p t clear
    by_cases hat : p = pp ∧ t = slot
    · obtain ⟨rfl, rfl⟩ := hat
      unfold insertPage setCleared setDataSpace
      dsimp only
      simp only [update_self]
      exact ⟨Nat.min_le_right _ _, sess, rfl, Nat.le_of_eq (by rw [update_self])⟩
    · have holds := holds_insertPage hslot hat clear.1
      have bit := clear.2
      unfold insertPage setCleared setDataSpace at bit ⊢
      dsimp only at bit ⊢
      by_cases hp : p = pp
      · subst hp
        have ht : t ≠ slot := fun ht => hat ⟨rfl, ht⟩
        simp only [update_self, update_of_ne ht] at bit ⊢
        obtain ⟨low, owner, other, cleared, reached⟩ := known p t ⟨holds, bit⟩
        refine ⟨Nat.le_trans (Nat.min_le_left _ _) low, owner, cleared, ?_⟩
        rw [update_of_ne other]
        exact reached
      · simp only [update_of_ne hp] at bit ⊢
        obtain ⟨low, owner, other, cleared, reached⟩ := known p t ⟨holds, bit⟩
        refine ⟨low, owner, cleared, ?_⟩
        rw [update_of_ne other]
        exact reached
  · intro p t d holds hd
    by_cases hat : p = pp ∧ t = slot
    · obtain ⟨rfl, rfl⟩ := hat
      unfold insertPage setCleared setDataSpace at hd ⊢
      simp only [update_self, Option.some.injEq] at hd ⊢
      rw [← hd]
    · have was := marked p t d (holds_insertPage hslot hat holds)
      unfold insertPage setCleared setDataSpace at hd ⊢
      dsimp only at hd ⊢
      by_cases hp : p = pp
      · subst hp
        have ht : t ≠ slot := fun ht => hat ⟨rfl, ht⟩
        simp only [update_self, update_of_ne ht] at hd ⊢
        exact was hd
      · simp only [update_of_ne hp] at hd ⊢
        exact was hd
  · unfold insertPage setCleared setDataSpace Clear Holds
    dsimp only
    simp only [update_self]
    exact ⟨⟨inside, by omega, rfl⟩, trivial⟩
  · unfold insertPage setCleared setDataSpace
    dsimp only
    simp only [update_self]

/-- A new pointer page has no slots yet. -/
theorem holds_addPpg {p t : Nat} (h : (s.addPpg sess).Holds p t) :
    p ≠ s.relPages ∧ s.Holds p t := by
  unfold addPpg Holds at h
  dsimp only at h
  by_cases hp : p = s.relPages
  · subst hp
    rw [update_self] at h
    exact absurd h.2.1 (Nat.not_lt_zero t)
  · rw [update_of_ne hp] at h
    exact ⟨hp, by omega, h.2⟩

theorem knownBut_addPpg (known : s.KnownBut sess) : (s.addPpg sess).KnownBut sess := by
  intro p t clear
  obtain ⟨hp, holds⟩ := holds_addPpg clear.1
  have bit := clear.2
  unfold addPpg at bit ⊢
  dsimp only at bit ⊢
  rw [update_of_ne hp] at bit ⊢
  obtain ⟨low, owner, other, cleared, reached⟩ := known p t ⟨holds, bit⟩
  refine ⟨low, owner, other, cleared, ?_⟩
  rw [update_of_ne other]
  exact reached

theorem marked_addPpg (marked : s.Marked) : (s.addPpg sess).Marked := by
  intro p t d h hd
  obtain ⟨hp, holds⟩ := holds_addPpg h
  unfold addPpg at hd ⊢
  dsimp only at hd ⊢
  rw [update_of_ne hp] at hd ⊢
  exact marked p t d holds hd

theorem freeSlot_le {ppage : Ppg} (h : freeSlot dbb pp ppage = some slot) : slot ≤ ppage.ppgCount := by
  unfold freeSlot at h
  split at h
  next free hfree =>
    have hmem := List.mem_range.mp (List.mem_of_find?_eq_some hfree)
    have heq := Option.some.inj h
    omega
  next =>
    split at h
    · exact Nat.le_of_eq (Option.some.inj h).symm
    · cases h

omit [DecidableEq σ] in
theorem searchSlot_inside {n first : Nat} (h : searchSlot dbb s n first = some (pp, slot)) :
    pp < first + n ∧ slot ≤ (s.pages pp).ppgCount := by
  induction n generalizing first with
  | zero => cases h
  | succ n ih =>
    unfold searchSlot at h
    split at h
    next free hfree =>
      cases h
      exact ⟨by omega, freeSlot_le hfree⟩
    next =>
      have hin := ih h
      exact ⟨by omega, hin.2⟩

theorem extendRelation_inserted {s' : DataSpace σ} (known : s.KnownBut sess) (marked : s.Marked)
    (h : s.extendRelation dbb sess = some (s', pp, slot)) : Inserted s' pp slot := by
  unfold extendRelation at h
  dsimp only at h
  split at h
  next => cases h
  next first =>
    split at h
    next p t found =>
      cases h
      obtain ⟨inside, hslot⟩ := searchSlot_inside found
      exact insertPage_inserted known marked (by omega) hslot
    next =>
      cases h
      apply insertPage_inserted (knownBut_addPpg known) (marked_addPpg marked)
      · exact Nat.lt_succ_self _
      · exact Nat.zero_le _

/-- An empty page has room for any segment that is asked for. -/
theorem place_empty (type : DpmType) (segment : DpmSegment dbb) :
    (Dpg.place type segment ⟨[], false, false⟩).isSome := by
  have fits := segment.fits
  have used : (⟨[], false, false⟩ : Dpg).used dbb type = dpgHighWater 1 := rfl
  unfold Dpg.place
  rw [used, if_neg (by omega)]
  rfl

/-- What `locate_space` comes back with: the page that it has found has a clear full bit, if it was
not the preferred one. -/
structure Located (s : DataSpace σ) (found : Option (Nat × Nat)) : Prop where
  known : s.Known
  marked : s.Marked
  clear : ∀ p t, found = some (p, t) → s.Clear p t

theorem extendLoop_located (type : DpmType) (segment : DpmSegment dbb) (sess : σ)
    {n : Nat}
    (known : s.KnownBut sess) (marked : s.Marked) :
    Located (extendLoop type segment sess (n + 1) s).1 (extendLoop type segment sess (n + 1) s).2 := by
  unfold extendLoop
  cases extended : s.extendRelation dbb sess with
  | none => exact ⟨known.known, marked, fun p t h => (by cases h)⟩
  | some result =>
    obtain ⟨s', pp, slot⟩ := result
    have inserted := extendRelation_inserted known marked extended
    obtain ⟨placed, placing⟩ := Option.isSome_iff_exists.mp (place_empty type segment)
    have tried := findSpace_tried type segment sess inserted.page inserted.known
      inserted.marked (fun h => (by rw [placing] at h; cases h))
    have space : (s'.findSpace type segment sess pp slot).2 = true := by
      unfold findSpace
      simp only [inserted.page, placing]
    dsimp only
    generalize s'.findSpace type segment sess pp slot = result at tried space ⊢
    obtain ⟨s'', found⟩ := result
    dsimp only at tried space
    subst space
    refine ⟨tried.known, tried.marked, ?_⟩
    intro p t h
    cases h
    exact (tried.clear pp slot).mpr ⟨inserted.clear, Or.inl rfl⟩

theorem lookAnywhere_located (type : DpmType) (segment : DpmSegment dbb) (sess : σ)
    (known : s.Known)
    (marked : s.Marked) : Located (s.lookAnywhere type segment sess).1
      (s.lookAnywhere type segment sess).2 := by
  unfold lookAnywhere
  dsimp only
  split
  next => exact ⟨known, marked, fun p t h => (by cases h)⟩
  next inside =>
    have same : s.setDataSpace sess (s.rels sess).relDataSpace = s := by
      unfold setDataSpace
      rw [update_eq_self]
    obtain ⟨n, hn⟩ : ∃ n, s.relPages - (s.rels sess).relDataSpace = n + 1 :=
      ⟨s.relPages - (s.rels sess).relDataSpace - 1, by omega⟩
    have searched := scanPages_searched type segment sess (n := n)
      (by rw [same]; exact known) marked (by omega)
    rw [hn]
    generalize scanPages type segment sess (n + 1) _ s = result at searched ⊢
    obtain ⟨s', found⟩ := result
    cases found with
    | some at_ => exact ⟨searched.known, searched.marked, searched.clear⟩
    | none => exact extendLoop_located type segment sess (searched.nothing rfl) searched.marked

/-- A store that leaves no page behind: if the preferred page has no room, then no page with a clear
full bit stands below it on its pointer page. -/
def Orderly (s : DataSpace σ) : DpmCall dbb → Prop
  | .store .secondary number segment =>
    ∀ page, s.Holds (preferred dbb number).1 (preferred dbb number).2 →
      (s.pages (preferred dbb number).1).ppgPage (preferred dbb number).2 = some page →
        page.place .secondary segment = none →
          ∀ t < (preferred dbb number).2, ¬s.Clear (preferred dbb number).1 t
  | _ => True

theorem locateSpace_other {number : Nat} {segment : DpmSegment dbb} {type : DpmType}
    (other : type ≠ .secondary) :
    s.locateSpace type number segment sess = s.lookAnywhere type segment sess := by
  unfold locateSpace
  dsimp only
  rw [if_neg (fun h => other h.1)]

theorem locateSpace_known {type : DpmType} {number : Nat} {segment : DpmSegment dbb}
    (known : s.Known) (marked : s.Marked) (orderly : s.Orderly (.store type number segment)) :
    (s.locateSpace type number segment sess).1.Known ∧
      (s.locateSpace type number segment sess).1.Marked := by
  unfold locateSpace
  dsimp only
  split
  next preferring =>
    obtain ⟨rfl, holds⟩ := preferring
    obtain ⟨page, there⟩ := Option.isSome_iff_exists.mp holds.2.2
    have tried := findSpace_tried .secondary segment sess there known marked
      (orderly page holds there)
    generalize s.findSpace .secondary segment sess _ _ = result at tried ⊢
    obtain ⟨s', found⟩ := result
    cases found with
    | true => exact ⟨tried.known, tried.marked⟩
    | false =>
      have located := lookAnywhere_located .secondary segment sess tried.known tried.marked
      exact ⟨located.known, located.marked⟩
  next =>
    have located := lookAnywhere_located type segment sess known marked
    exact ⟨located.known, located.marked⟩

/-- A page that changes in its slot, is not full, and tells the pointer page so. -/
theorem markFull_changed {page old : Dpg} (there : (s.pages pp).ppgPage slot = some old)
    (full : page.dpgFull = false) (known : s.Known) (marked : s.Marked) :
    ((s.setPage pp slot page).markFull sess pp slot).Known ∧
      ((s.setPage pp slot page).markFull sess pp slot).Marked := by
  have some : ((s.pages pp).ppgPage slot).isSome := by rw [there]; rfl
  have there' : ((s.setPage pp slot page).pages pp).ppgPage slot = Option.some page := by
    rw [ppgPage_setPage, if_pos ⟨rfl, rfl⟩]
  constructor
  · exact known_markFull_clear there' full (known_setPage some known)
  · apply marked_markFull there'
    intro p t d hat holds hd
    rw [holds_setPage some] at holds
    rw [ppgPage_setPage, if_neg hat] at hd
    rw [fullBit_setPage]
    exact marked p t d holds hd

theorem markLarge_known (clear : s.Clear pp slot) (known : s.Known) (marked : s.Marked) :
    (s.markLarge sess pp slot).Known ∧ (s.markLarge sess pp slot).Marked := by
  unfold markLarge
  cases there : (s.pages pp).ppgPage slot with
  | none => exact ⟨known, marked⟩
  | some page =>
    dsimp only
    split
    next => exact ⟨known, marked⟩
    next =>
      have full : page.dpgFull = false := (marked pp slot page clear.1 there).trans clear.2
      exact markFull_changed there full known marked

theorem lastUsed_le (page : Nat → Option Dpg) (n : Nat) : lastUsed page n ≤ n := by
  induction n with
  | zero => exact Nat.le_refl _
  | succ n ih =>
    unfold lastUsed
    split <;> omega

theorem holds_releasePage {p t : Nat} (h : (s.releasePage sess pp slot).Holds p t) :
    s.Holds p t ∧ ¬(p = pp ∧ t = slot) := by
  unfold releasePage Holds at h
  dsimp only at h
  by_cases hp : p = pp
  · subst hp
    simp only [update_self] at h
    obtain ⟨inside, count, some⟩ := h
    have hle := lastUsed_le (update (s.pages p).ppgPage slot none) (s.pages p).ppgCount
    by_cases ht : t = slot
    · subst ht
      rw [update_self] at some
      cases some
    · rw [update_of_ne ht] at some
      exact ⟨⟨inside, by omega, some⟩, fun hat => ht hat.2⟩
  · rw [update_of_ne hp] at h
    exact ⟨h, fun hat => hp hat.1⟩

theorem releasePage_known (known : s.Known) (marked : s.Marked) :
    (s.releasePage sess pp slot).Known ∧ (s.releasePage sess pp slot).Marked := by
  have relData : ∀ owner, ((s.releasePage sess pp slot).rels owner).relDataSpace =
      (s.rels owner).relDataSpace := by
    intro owner
    unfold releasePage
    dsimp only
    by_cases ho : owner = sess
    · subst ho
      rw [update_self]
    · rw [update_of_ne ho]
  constructor
  · intro p t clear
    obtain ⟨holds, -⟩ := holds_releasePage clear.1
    have bit := clear.2
    have was : s.Clear p t := by
      refine ⟨holds, ?_⟩
      unfold releasePage at bit
      dsimp only at bit
      by_cases hp : p = pp
      · subst hp
        rw [update_self] at bit
        exact bit
      · rw [update_of_ne hp] at bit
        exact bit
    obtain ⟨low, owner, cleared, reached⟩ := known p t was
    refine ⟨?_, owner, cleared, (relData owner).symm ▸ reached⟩
    unfold releasePage
    dsimp only
    by_cases hp : p = pp
    · subst hp
      rw [update_self]
      exact Nat.le_trans (Nat.min_le_left _ _) low
    · rw [update_of_ne hp]
      exact low
  · intro p t d h hd
    obtain ⟨holds, hat⟩ := holds_releasePage h
    unfold releasePage at hd ⊢
    dsimp only at hd ⊢
    by_cases hp : p = pp
    · subst hp
      have ht : t ≠ slot := fun ht => hat ⟨rfl, ht⟩
      simp only [update_self, update_of_ne ht] at hd ⊢
      exact marked p t d holds hd
    · simp only [update_of_ne hp] at hd ⊢
      exact marked p t d holds hd

theorem dpmDelete_known {line : Nat} (known : s.Known) (marked : s.Marked) :
    (s.dpmDelete sess pp slot line).Known ∧ (s.dpmDelete sess pp slot line).Marked := by
  unfold dpmDelete
  split
  next holds =>
    obtain ⟨page, there⟩ := Option.isSome_iff_exists.mp holds.2.2
    simp only [there]
    split
    next =>
      split
      next => exact releasePage_known known marked
      next =>
        split
        next => exact markFull_changed there rfl known marked
        next =>
          exact ⟨known_setPage holds.2.2 known, marked_setPage there rfl marked⟩
    next => exact ⟨known, marked⟩
  next => exact ⟨known, marked⟩

/-- Every call that leaves no page behind keeps all pages with a clear bit known. -/
theorem call_known {c : DpmCall dbb} (known : s.Known) (marked : s.Marked) (orderly : s.Orderly c) :
    (s.call sess c).Known ∧ (s.call sess c).Marked := by
  unfold call
  cases c with
  | store type number segment => exact locateSpace_known known marked orderly
  | storeLarge segment =>
    dsimp only
    have located := lookAnywhere_located .other segment sess known marked
    rw [locateSpace_other (fun h => (by cases h))]
    generalize s.lookAnywhere .other segment sess = result at located ⊢
    obtain ⟨s', found⟩ := result
    cases found with
    | none => exact ⟨located.known, located.marked⟩
    | some at_ => exact markLarge_known (located.clear _ _ rfl) located.known located.marked
  | delete pp slot line => exact dpmDelete_known known marked

/-- The states of a relation after calls of its sessions, each of them `good` in its state. -/
inductive Reach (good : DataSpace σ → DpmCall dbb → Prop) : DataSpace σ → Prop where
  | created : Reach good created
  | call {s : DataSpace σ} (sess : σ) {c : DpmCall dbb} (reach : Reach good s) (well : good s c) :
      Reach good (s.call sess c)

omit [DecidableEq σ] in
theorem created_known : (created : DataSpace σ).Known ∧ (created : DataSpace σ).Marked := by
  have empty : ∀ p t, ¬(created : DataSpace σ).Holds p t := fun p t h => Nat.not_lt_zero t h.2.1
  exact ⟨fun p t h => absurd h.1 (empty p t), fun p t d h => absurd h (empty p t)⟩

/-- No page with a clear full bit is forgotten in a run whose stores leave none behind. -/
theorem reach_known (h : Reach (Orderly : DataSpace σ → DpmCall dbb → Prop) s) : s.Known := by
  have both : s.Known ∧ s.Marked := by
    induction h with
    | created => exact created_known
    | call sess _ well ih => exact call_known ih.1 ih.2 well
  exact both.1

/-- A database with pages of 1024 bytes. -/
def smallPages : DpmDbb := ⟨1024, 233, 58, true⟩

def record400 : DpmSegment smallPages := ⟨400, true, by decide⟩

def storeRecord400 : DpmCall smallPages := .store .primary 0 record400

def deleteFirst : DpmCall smallPages := .delete 0 0 1

/-- Two pages with two records each. -/
def twoPages : DataSpace Unit :=
  (((created.call () storeRecord400).call () storeRecord400).call () storeRecord400).call ()
    storeRecord400

/-- A back version for a record on the second page finds no room there and takes a third one; another
takes the place of a record that was deleted on the first. -/
def threePages : DataSpace Unit :=
  ((twoPages.call () (.store .secondary 58 record400)).call () deleteFirst).call ()
    (.store .secondary 0 record400)

theorem reach_known_stores : threePages.Known ∧ (threePages.pages 0).ppgCount = 3 := by
  have stores : Reach Orderly twoPages :=
    .call () (.call () (.call () (.call () .created trivial) trivial) trivial) trivial
  have crowded : Orderly twoPages (.store .secondary 58 record400) := by
    intro page _ _ _ t below
    obtain rfl : t = 0 := Nat.lt_one_iff.mp below
    decide
  have room : Orderly ((twoPages.call () (.store .secondary 58 record400)).call () deleteFirst)
      (.store .secondary 0 record400) := fun _ _ _ _ t below => absurd below (Nat.not_lt_zero t)
  have third : Reach Orderly (twoPages.call () (.store .secondary 58 record400)) :=
    .call () stores crowded
  have deleted : Reach Orderly
      ((twoPages.call () (.store .secondary 58 record400)).call () deleteFirst) :=
    .call () third trivial
  have reach : Reach Orderly threePages := .call () deleted room
  exact ⟨reach_known reach, by decide⟩

/-- Two pages are filled with two records each and one record of the first page is deleted. Then a
back version for a record on the second page finds no room there. -/
def crowding : List (DpmCall smallPages) :=
  [.store .primary 0 record400, .store .primary 0 record400, .store .primary 0 record400,
    .store .primary 0 record400, .delete 0 0 1, .store .secondary 58 record400]

theorem reach_calls {good : DataSpace σ → DpmCall dbb → Prop} (any : ∀ s c, good s c)
    (reach : Reach good s) (calls : List (DpmCall dbb)) :
    Reach good (calls.foldl (call sess) s) := by
  induction calls generalizing s with
  | nil => exact reach
  | cons c calls ih => exact ih (.call sess reach (any s c))

/-- The first page has room again, but its pointer page is scanned from slot 2 on. -/
theorem reach_forgotten :
    ∃ s : DataSpace Unit, Reach (fun _ (_ : DpmCall smallPages) => True) s ∧ ¬s.Known := by
  refine ⟨crowding.foldl (call ()) created, reach_calls (fun _ _ => trivial) .created crowding, ?_⟩
  intro known
  have low := (known 0 0 (by decide)).1
  revert low
  decide

end DataSpace

end InterBase
