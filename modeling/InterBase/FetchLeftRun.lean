import InterBase.FetchLeftExact

namespace InterBase

namespace LeftCross

variable {ρ : Type} {j : LeftCross ρ} {rpbs rpbs' : Rpbs ρ}

/-- The states between the calls of a run from `RSE_open` on. -/
inductive Reached (j : LeftCross ρ) (rpbs : Rpbs ρ) : LeftState ρ → Prop
  | opened : Reached j rpbs (j.rseOpen rpbs)
  | fetched {st st' : LeftState ρ} (before : Reached j rpbs st) (call : j.fetchLeft st = .true st') :
      Reached j rpbs st'

theorem vioRecord_frame {blank : ρ} {t format s : Nat} (h : s ≠ t) :
    vioRecord blank t format rpbs s = rpbs s := Function.update_of_ne h _ _

theorem vioRecords_frame {blank : ρ} {s : Nat} (rsbs : List (Nat × Nat))
    (h : ∀ rsb ∈ rsbs, rsb.1 ≠ s) :
    rsbs.foldl (fun rpbs rsb => vioRecord blank rsb.1 rsb.2 rpbs) rpbs s = rpbs s := by
  induction rsbs generalizing rpbs with
  | nil => rfl
  | cons rsb rsbs ih =>
    rw [List.foldl_cons, ih (fun r hr => h r (List.mem_cons_of_mem rsb hr))]
    exact vioRecord_frame (h rsb List.mem_cons_self).symm

theorem leftRsbs_inner (j : LeftCross ρ) {rsb : Nat × Nat} (mem : rsb ∈ j.leftRsbs) :
    rsb.1 ∈ j.leftStreams := j.inner.rsb.found_within.2 rsb mem

/-- `RSE_open` leaves the blocks of the streams that are not found on the inner side alone. -/
theorem rseOpen_rpbs (j : LeftCross ρ) (rpbs : Rpbs ρ) {s : Nat} (h : s ∉ j.leftStreams) :
    (j.rseOpen rpbs).rpbs s = j.outer.onOpen rpbs s :=
  vioRecords_frame j.leftRsbs fun _ hrsb heq => h (heq ▸ j.leftRsbs_inner hrsb)

theorem rseOpen_owes (j : LeftCross ρ) (rpbs : Rpbs ρ) :
    Owes j (shown rpbs) (j.rseOpen rpbs) (j.returned rpbs) := by
  have same : ∀ s ∈ j.outer.streams, (j.rseOpen rpbs).rpbs s = j.outer.onOpen rpbs s :=
    fun s hs => j.rseOpen_rpbs rpbs (j.outer_not_left hs)
  have lingers : j.outer.Lingers rpbs (shown rpbs) := fun s _ _ => rfl
  refine Owes.reading ⟨rfl, rfl, ?_, List.Subset.refl _, fun _ => ?_, (fun h => absurd h Bool.false_ne_true), ?_, ?_⟩
  · exact j.outer.ready_congr _ _ (fun s hs => (same s hs).symm) (j.outer.ready_open rpbs)
  · exact ⟨[], rfl, fun o ho => absurd ho List.not_mem_nil⟩
  · intro s hs unfound
    rw [shown, j.rseOpen_rpbs rpbs unfound, j.outer.open_frame rpbs s (j.inner_not_outer hs), shown]
  · exact lingers.open.congr fun s hs _ => same s hs

/-- A run whose calls find the record blocks returns what is owed, and then `FALSE`. -/
theorem fetchAll_owes {st : LeftState ρ} {first : Row ρ} (n : Nat)
    {rows : List (List (Option ρ) × List (Option ρ))} (owes : Owes j first st rows)
    (reached : Reached j rpbs st) (found : ∀ st, Reached j rpbs st → j.fetchLeft st ≠ .missing) :
    j.fetchAll n st = if rows.length < n then some rows else none := by
  induction n generalizing st rows with
  | zero => rw [if_neg (Nat.not_lt_zero _), fetchAll]
  | succ n ih =>
    rcases fetchLeft_pays owes (found st reached) with
      ⟨hrows, st', hcall⟩ | ⟨st', rest, hcall, hrows, owes'⟩
    · rw [hrows, if_pos (show ([] : List _).length < n + 1 from Nat.succ_pos n), fetchAll, hcall]
    · rw [hrows, fetchAll, hcall]
      dsimp only
      rw [ih owes' (Reached.fetched reached hcall), List.length_cons]
      by_cases hn : rest.length < n
      · rw [if_pos hn, if_pos (Nat.succ_lt_succ hn)]
        rfl
      · rw [if_neg hn, if_neg (fun h => hn (Nat.lt_of_succ_lt_succ h))]
        rfl

/-- `join_to_nulls` gets along with what it finds of a stream. -/
def Found (j : LeftCross ρ) (rpbs : Rpbs ρ) (s : Nat) : Prop := j.rpbRelation s ≠ none ∨ rpbs s ≠ none

theorem outer_found (j : LeftCross ρ) (row : Option (Row ρ)) (rpbs : Rpbs ρ) :
    ∀ s ∈ j.leftInnerStreams, j.Found (j.outer.onGet row rpbs) s :=
  fun s hs => j.outer_block row rpbs s (j.leftInnerStreams_outer hs)

theorem inner_found (j : LeftCross ρ) (row : Option (Row ρ)) (rpbs : Rpbs ρ) :
    ∀ s ∈ j.leftStreams, j.Found (j.inner.onGet row rpbs) s :=
  fun s hs => j.inner_block row rpbs s (j.leftStreams_inner hs)

theorem left_not_outer (j : LeftCross ρ) {s : Nat} (mem : s ∈ j.leftStreams) :
    s ∉ j.outer.streams := j.inner_not_outer (j.leftStreams_inner mem)

theorem leftInner_not_inner (j : LeftCross ρ) {s : Nat} (mem : s ∈ j.leftInnerStreams) :
    s ∉ j.inner.streams := j.outer_not_inner (j.leftInnerStreams_outer mem)

theorem joinToNulls_found {streams : List Nat} (h : ∀ s ∈ streams, j.Found rpbs s) :
    ∃ rpbs', j.joinToNulls streams rpbs = some rpbs' ∧
      ∀ s, s ∈ streams ∨ j.Found rpbs s → j.Found rpbs' s := by
  induction streams generalizing rpbs with
  | nil => exact ⟨rpbs, rfl, fun s hs => hs.resolve_left List.not_mem_nil⟩
  | cons t stack ih =>
    have step (record : Rec ρ) : ∃ rpbs',
        j.joinToNulls stack (Function.update rpbs t (some record)) = some rpbs' ∧
          ∀ s, s ∈ t :: stack ∨ j.Found rpbs s → j.Found rpbs' s := by
      have hupdate : ∀ s, s = t ∨ j.Found rpbs s →
          j.Found (Function.update rpbs t (some record)) s := by
        intro s hs
        by_cases hst : s = t
        · refine Or.inr ?_
          rw [hst, Function.update_self]
          exact Option.some_ne_none record
        · rw [Found, Function.update_of_ne hst]
          exact hs.resolve_left hst
      obtain ⟨rpbs', hnull, hfound⟩ := ih (fun s hs =>
        hupdate s (Or.inr (h s (List.mem_cons_of_mem t hs))))
      refine ⟨rpbs', hnull, fun s hs => hfound s ?_⟩
      rcases hs with hmem | hs
      · rcases List.mem_cons.mp hmem with heq | hmem
        · exact Or.inr (hupdate s (Or.inl heq))
        · exact Or.inl hmem
      · exact Or.inr (hupdate s (Or.inr hs))
    unfold joinToNulls
    cases hrecord : rpbs t with
    | some record => exact step _
    | none =>
      cases hrelation : j.rpbRelation t with
      | none =>
        rcases h t List.mem_cons_self with hrel | hrec
        · exact absurd hrelation hrel
        · exact absurd hrecord hrec
      | some format => exact step _

theorem joinToNulls_missing {streams : List Nat} {s : Nat} (mem : s ∈ streams)
    (relation : j.rpbRelation s = none) (record : rpbs s = none) :
    j.joinToNulls streams rpbs = none := by
  induction streams generalizing rpbs with
  | nil => cases mem
  | cons t stack ih =>
    unfold joinToNulls
    by_cases hst : s = t
    · rw [← hst, record]
      dsimp only
      rw [relation]
    · have later (block : Rec ρ) : j.joinToNulls stack (Function.update rpbs t (some block)) = none :=
        ih (List.mem_of_ne_of_mem hst mem) (by rw [Function.update_of_ne hst]; exact record)
      cases hrecord : rpbs t with
      | some block => exact later _
      | none =>
        cases j.rpbRelation t with
        | none => rfl
        | some format => exact later _

/-- A call that does not miss a record block, nor does the next one. -/
def Secure (j : LeftCross ρ) (fetched : Fetched ρ) : Prop :=
  fetched ≠ .missing ∧ ∀ st, fetched = .true st →
    (∀ s ∈ j.leftStreams, j.Found st.rpbs s) ∧
      (st.irsbJoinFull = true → ∀ s ∈ j.leftInnerStreams, j.Found st.rpbs s)

theorem secure_true {st : LeftState ρ} (inner : ∀ s ∈ j.leftStreams, j.Found st.rpbs s)
    (outer : st.irsbJoinFull = true → ∀ s ∈ j.leftInnerStreams, j.Found st.rpbs s) :
    j.Secure (.true st) := by
  refine ⟨fun h => (nomatch h), fun st' h => ?_⟩
  cases h
  exact ⟨inner, outer⟩

theorem secure_false (st : LeftState ρ) : j.Secure (.false st) :=
  ⟨fun h => (nomatch h), fun _ h => (nomatch h)⟩

theorem secure_returnNulls {streams : List Nat} {st : LeftState ρ}
    (found : ∀ s ∈ streams, j.Found st.rpbs s)
    (inner : ∀ s ∈ j.leftStreams, s ∈ streams ∨ j.Found st.rpbs s)
    (outer : st.irsbJoinFull = true → ∀ s ∈ j.leftInnerStreams, s ∈ streams ∨ j.Found st.rpbs s) :
    j.Secure (j.returnNulls streams st) := by
  obtain ⟨rpbs', hnull, hfound⟩ := joinToNulls_found found
  rw [returnNulls, hnull]
  exact secure_true (fun s hs => hfound s (inner s hs)) (fun h s hs => hfound s (outer h s hs))

theorem found_of_frame {s : Nat} (same : rpbs' s = rpbs s) (h : j.Found rpbs s) :
    j.Found rpbs' s := by
  rw [Found, same]
  exact h

theorem matchInner_found (rows : List (Row ρ)) (rpbs : Rpbs ρ) :
    ∀ s ∈ j.leftStreams, j.Found (j.matchInner rows rpbs).2 s := by
  induction rows generalizing rpbs with
  | nil => exact j.inner_found none rpbs
  | cons i rows ih =>
    unfold matchInner
    dsimp only
    split
    · exact j.inner_found (some i) rpbs
    · exact ih _

theorem findOuter_found (rows : List (Row ρ)) (rpbs : Rpbs ρ) :
    (∀ s ∈ j.leftInnerStreams, j.Found (j.findOuter rows rpbs).2 s) ∧
      ∀ s ∉ j.outer.streams, (j.findOuter rows rpbs).2 s = rpbs s := by
  induction rows generalizing rpbs with
  | nil => exact ⟨j.outer_found none rpbs, fun s hs => j.outer.get_frame none rpbs s hs⟩
  | cons o rows ih =>
    unfold findOuter
    dsimp only
    split
    · exact ⟨j.outer_found (some o) rpbs, fun s hs => j.outer.get_frame (some o) rpbs s hs⟩
    · obtain ⟨hfound, hframe⟩ := ih (j.outer.onGet (some o) rpbs)
      exact ⟨hfound, fun s hs => (hframe s hs).trans (j.outer.get_frame (some o) rpbs s hs)⟩

theorem fullLoop_secure (rows : List (Row ρ)) (st : LeftState ρ) : j.Secure (j.fullLoop rows st) := by
  induction rows generalizing st with
  | nil => exact secure_false _
  | cons i rows ih =>
    obtain ⟨hfound, hframe⟩ := findOuter_found j.outer.rows
      (j.outer.onOpen (j.inner.onGet (some i) st.rpbs))
    unfold fullLoop
    dsimp only
    split
    · exact ih _
    · apply secure_returnNulls hfound
      · intro s hs
        refine Or.inr (found_of_frame (hframe s (j.left_not_outer hs)) ?_)
        exact found_of_frame (j.outer.open_frame _ s (j.left_not_outer hs)) (j.inner_found _ _ s hs)
      · exact fun _ s hs => Or.inl hs

theorem fetchFull_secure {st : LeftState ρ} (outer : ∀ s ∈ j.leftInnerStreams, j.Found st.rpbs s) :
    j.Secure (j.fetchFull st) := by
  unfold fetchFull
  split
  · exact fullLoop_secure _ _
  · split
    · exact secure_false _
    · apply secure_returnNulls
      · intro s hs
        exact found_of_frame (j.inner.get_frame _ _ s (j.leftInner_not_inner hs)) (outer s hs)
      · exact fun s hs => Or.inr (j.inner_found _ _ s hs)
      · exact fun _ s hs => Or.inl hs

theorem readInner_secure {again : LeftState ρ → Fetched ρ}
    {st : LeftState ρ} (joinFull : st.irsbJoinFull = false)
    (later : ∀ st' : LeftState ρ, st'.irsbJoinFull = false → st'.irsbMustread = true →
      (∀ s ∈ j.leftStreams, j.Found st'.rpbs s) → j.Secure (again st')) :
    j.Secure (j.readInner again st) := by
  have hfound := matchInner_found (j := j) st.innerLeft st.rpbs
  unfold readInner
  generalize j.matchInner st.innerLeft st.rpbs = result at hfound ⊢
  obtain ⟨rest?, rpbs⟩ := result
  cases rest? with
  | some rest => exact secure_true hfound (fun h => absurd (joinFull.symm.trans h) (by decide))
  | none =>
    dsimp only
    split
    · exact later _ joinFull rfl hfound
    · apply secure_returnNulls hfound
      · exact fun s hs => Or.inl hs
      · exact fun h => absurd (joinFull.symm.trans h) (by decide)

/-- The loop is secure when the streams that it puts to null are found, or will be read before that. -/
theorem leftLoop_secure (fuel : Nat) {st : LeftState ρ} (joinFull : st.irsbJoinFull = false)
    (inner : st.irsbMustread = true →
      (∀ s ∈ j.leftStreams, j.Found st.rpbs s) ∨
        ∀ o, st.outerLeft.head? = some o → j.evlLeft (j.outer.onGet (some o) st.rpbs) = true) :
    j.Secure (j.leftLoop fuel st) := by
  induction fuel generalizing st with
  | zero => exact ⟨fun h => (nomatch h), fun _ h => (nomatch h)⟩
  | succ fuel ih =>
    have later : ∀ st' : LeftState ρ, st'.irsbJoinFull = false → st'.irsbMustread = true →
        (∀ s ∈ j.leftStreams, j.Found st'.rpbs s) → j.Secure (j.leftLoop fuel st') :=
      fun st' joinFull' _ found' => ih joinFull' (fun _ => Or.inl found')
    unfold leftLoop
    split
    · rename_i mustread
      cases hrows : st.outerLeft with
      | nil =>
        dsimp only
        split
        · apply fetchFull_secure
          intro s hs
          exact found_of_frame (j.inner.open_frame _ s (j.leftInner_not_inner hs)) (j.outer_found _ _ s hs)
        · exact secure_false _
      | cons o rows =>
        dsimp only
        split
        · exact readInner_secure joinFull later
        · rename_i hpass
          have found : ∀ s ∈ j.leftStreams, j.Found (j.outer.onGet (some o) st.rpbs) s := by
            intro s hs
            rcases inner mustread with hfound | hfirst
            · exact found_of_frame (j.outer.get_frame _ _ s (j.left_not_outer hs)) (hfound s hs)
            · exact absurd (hfirst o (by rw [hrows]; rfl)) hpass
          apply secure_returnNulls found
          · exact fun s hs => Or.inl hs
          · exact fun h => absurd (joinFull.symm.trans h) (by decide)
    · exact readInner_secure joinFull later

theorem fetchLeft_secure {st : LeftState ρ} (inner : ∀ s ∈ j.leftStreams, j.Found st.rpbs s)
    (outer : st.irsbJoinFull = true → ∀ s ∈ j.leftInnerStreams, j.Found st.rpbs s) :
    j.Secure (j.fetchLeft st) := by
  unfold fetchLeft
  split
  · rename_i joinFull
    exact fetchFull_secure (outer joinFull)
  · rename_i joinFull
    exact leftLoop_secure _ (Bool.eq_false_iff.mpr joinFull) (fun _ => Or.inl inner)

/-- The first outer row is to be joined to nulls, and a stream that is put to null then has neither a
relation nor a record block yet. -/
def NullsFirst (j : LeftCross ρ) (rpbs : Rpbs ρ) : Prop :=
  (∃ o, j.outer.rows.head? = some o ∧ j.passes o = false) ∧
    ∃ s ∈ j.leftStreams, j.rpbRelation s = none ∧ (∀ rsb ∈ j.leftRsbs, rsb.1 ≠ s) ∧ rpbs s = none

theorem vioRecords_found {s : Nat} (rsbs : List (Nat × Nat)) (h : ∃ rsb ∈ rsbs, rsb.1 = s) :
    rsbs.foldl (fun rpbs rsb => vioRecord j.blank rsb.1 rsb.2 rpbs) rpbs s ≠ none := by
  induction rsbs generalizing rpbs with
  | nil =>
    obtain ⟨rsb, mem, -⟩ := h
    cases mem
  | cons rsb rsbs ih =>
    rw [List.foldl_cons]
    by_cases hlater : ∃ rsb ∈ rsbs, rsb.1 = s
    · exact ih hlater
    · obtain ⟨r, mem, rfl⟩ := h
      have hfirst : r = rsb := by
        rcases List.mem_cons.mp mem with heq | mem
        · exact heq
        · exact absurd ⟨r, mem, rfl⟩ hlater
      subst hfirst
      rw [vioRecords_frame rsbs fun other hother heq => hlater ⟨other, hother, heq⟩, vioRecord,
        Function.update_self]
      exact Option.some_ne_none _

theorem rseOpen_ready (j : LeftCross ρ) (rpbs : Rpbs ρ) : j.outer.ready (j.rseOpen rpbs).rpbs :=
  j.outer.ready_congr _ _ (fun _ hs => (j.rseOpen_rpbs rpbs (j.outer_not_left hs)).symm)
    (j.outer.ready_open rpbs)

theorem rseOpen_unformatted (j : LeftCross ρ) (rpbs : Rpbs ρ) {s : Nat} (mem : s ∈ j.leftStreams)
    (h : ∀ rsb ∈ j.leftRsbs, rsb.1 ≠ s) : (j.rseOpen rpbs).rpbs s = rpbs s :=
  (vioRecords_frame j.leftRsbs h).trans (j.outer.open_frame rpbs s (j.left_not_outer mem))

theorem reached_secure (fine : ¬ j.NullsFirst rpbs) {st : LeftState ρ} (reached : Reached j rpbs st) :
    j.Secure (j.fetchLeft st) := by
  induction reached with
  | opened =>
    unfold fetchLeft
    rw [if_neg (show ¬ (j.rseOpen rpbs).irsbJoinFull = true from Bool.false_ne_true)]
    apply leftLoop_secure _ rfl
    intro _
    by_cases hfound : ∀ s ∈ j.leftStreams, j.Found (j.rseOpen rpbs).rpbs s
    · exact Or.inl hfound
    · refine Or.inr fun o ho => ?_
      rw [evlLeft_eq (j.outer.get_shown o (List.mem_of_mem_head? ho) _ (j.rseOpen_ready rpbs))]
      by_contra hpass
      refine fine ⟨⟨o, ho, Bool.eq_false_iff.mpr hpass⟩, ?_⟩
      by_contra hnone
      refine hfound fun s hs => ?_
      by_contra hmissing
      have hrelation : j.rpbRelation s = none := by
        by_contra h
        exact hmissing (Or.inl h)
      have hrecord : (j.rseOpen rpbs).rpbs s = none := by
        by_contra h
        exact hmissing (Or.inr h)
      have hrsbs : ∀ rsb ∈ j.leftRsbs, rsb.1 ≠ s :=
        fun rsb hrsb heq => vioRecords_found j.leftRsbs ⟨rsb, hrsb, heq⟩ hrecord
      exact hnone ⟨s, hs, hrelation, hrsbs, (j.rseOpen_unformatted rpbs hs hrsbs).symm.trans hrecord⟩
  | fetched before call ih =>
    obtain ⟨hinner, houter⟩ := ih.2 _ call
    exact fetchLeft_secure hinner houter

theorem fetchLeft_missing (nulls : j.NullsFirst rpbs) :
    j.fetchLeft (j.rseOpen rpbs) = .missing := by
  obtain ⟨⟨o, ho, hpass⟩, s, hs, hrelation, hrsbs, hrecord⟩ := nulls
  obtain ⟨rest, hrows⟩ : ∃ rest, j.outer.rows = o :: rest := by
    cases hr : j.outer.rows with
    | nil =>
      rw [hr] at ho
      cases ho
    | cons o' rest =>
      rw [hr] at ho
      exact ⟨rest, by rw [Option.some.inj ho]⟩
  have hblock : j.outer.onGet (some o) (j.rseOpen rpbs).rpbs s = none := by
    rw [j.outer.get_frame _ _ s (j.left_not_outer hs), j.rseOpen_unformatted rpbs hs hrsbs, hrecord]
  have hleft : (j.rseOpen rpbs).outerLeft = o :: rest := hrows
  have hevl : ¬ j.evlLeft (j.outer.onGet (some o) (j.rseOpen rpbs).rpbs) = true := by
    have mem : o ∈ j.outer.rows := List.mem_of_mem_head? ho
    rw [evlLeft_eq (j.outer.get_shown o mem _ (j.rseOpen_ready rpbs)), hpass]
    exact Bool.false_ne_true
  unfold fetchLeft
  rw [if_neg (show ¬ (j.rseOpen rpbs).irsbJoinFull = true from Bool.false_ne_true), leftLoop,
    if_pos (show (j.rseOpen rpbs).irsbMustread = true from rfl), hleft]
  dsimp only
  rw [if_neg hevl, returnNulls, joinToNulls_missing hs hrelation hblock]

/-- What the code leaves of a null row on the inner side is null. -/
theorem nullInner_eq_iff (w : Row ρ) : j.nullInner w = shownRow j.inner none ↔
    ∀ s ∈ j.inner.streams, s ∉ j.leftStreams → w s = none := by
  rw [nullInner, shownRow, List.map_inj_left]
  refine forall₂_congr fun s _ => ?_
  by_cases mem : s ∈ j.leftStreams
  · rw [if_pos mem]
    exact iff_of_true rfl fun h => absurd mem h
  · rw [if_neg mem]
    exact ⟨fun h _ => h, fun h => h mem⟩

theorem nullOuter_eq_iff (v : Row ρ) : j.nullOuter v = shownRow j.outer none ↔
    ∀ s ∈ j.outer.streams, s ∉ j.leftInnerStreams → v s = none := by
  rw [nullOuter, shownRow, List.map_inj_left]
  refine forall₂_congr fun s _ => ?_
  by_cases mem : s ∈ j.leftInnerStreams
  · rw [if_pos mem]
    exact iff_of_true rfl fun h => absurd mem h
  · rw [if_neg mem]
    exact ⟨fun h _ => h, fun h => h mem⟩

theorem length_rowsFor (o : Row ρ) (null : List (Option ρ)) :
    (j.rowsFor o null).length = (OuterJoin.matching (j.on o) j.inner.rows).length :=
  List.length_map _

/-- What stands for a null is seen where no inner row matches, and nowhere else. -/
theorem rowsFor_eq_iff (o : Row ρ) (null null' : List (Option ρ)) :
    j.rowsFor o null = j.rowsFor o null' ↔
      ((∀ i ∈ j.inner.rows, j.on o i = false) → null = null') := by
  by_cases hnone : ∀ i ∈ j.inner.rows, j.on o i = false
  · rw [rowsFor_null hnone, rowsFor_null hnone]
    constructor
    · intro h _
      exact (Prod.mk.inj (List.singleton_inj.mp h)).2
    · intro h
      rw [h hnone]
  · refine iff_of_true ?_ fun h => absurd h hnone
    have hmatch : j.inner.rows.filter (j.on o) ≠ [] := by
      intro h
      exact hnone fun i hi => Bool.eq_false_iff.mpr (List.filter_eq_nil_iff.mp h i hi)
    rw [rowsFor, rowsFor, OuterJoin.matching, if_neg hmatch, List.map_map, List.map_map]
    rfl

theorem joinRows_eq (j : LeftCross ρ) : j.joinRows =
    (j.outer.rows.flatMap fun o => j.rowsFor o (shownRow j.inner none)) ++
      if j.isFull then j.alone (shownRow j.outer none) j.inner.rows else [] := by
  have hrow (i : Option (Row ρ)) :
      (i.elim (shownRow j.inner none) fun i => shownRow j.inner (some i)) = shownRow j.inner i := by
    cases i <;> rfl
  have hleft : (OuterJoin.leftJoin j.on j.outer.rows j.inner.rows).map (fun row =>
      (shownRow j.outer (some row.1), shownRow j.inner row.2)) =
        j.outer.rows.flatMap fun o => j.rowsFor o (shownRow j.inner none) := by
    unfold OuterJoin.leftJoin rowsFor
    rw [List.map_flatMap]
    simp only [List.map_map, hrow]
    rfl
  unfold joinRows
  split
  · rw [OuterJoin.fullJoin, List.map_append, List.map_map, List.map_map, ← hleft]
    rfl
  · rw [hleft, List.append_nil]

theorem length_leftRows (w : Row ρ) (rows : List (Row ρ)) :
    (j.leftRows w rows).length =
      (rows.flatMap fun o => j.rowsFor o (shownRow j.inner none)).length := by
  induction rows generalizing w with
  | nil => rfl
  | cons o rows ih =>
    rw [leftRows, List.flatMap_cons, List.length_append, List.length_append, ih, length_rowsFor,
      length_rowsFor]

/-- Wherever an outer row is joined to nulls, nothing lingers of the inner streams that are not found. -/
def InnerNull (j : LeftCross ρ) (w : Row ρ) (rows : List (Row ρ)) : Prop :=
  ∀ before o after, rows = before ++ o :: after → (∀ i ∈ j.inner.rows, j.on o i = false) →
    ∀ s ∈ j.inner.streams, s ∉ j.leftStreams → j.lingering w (before ++ [o]) s = none

theorem innerNull_cons (w o : Row ρ) (rows : List (Row ρ)) :
    j.InnerNull w (o :: rows) ↔
      ((∀ i ∈ j.inner.rows, j.on o i = false) →
        ∀ s ∈ j.inner.streams, s ∉ j.leftStreams → j.lingersAfter w o s = none) ∧
      j.InnerNull (j.lingersAfter w o) rows := by
  constructor
  · intro h
    refine ⟨h [] o rows rfl, fun before o' after hrows => ?_⟩
    exact h (o :: before) o' after (by rw [hrows, List.cons_append])
  · rintro ⟨hfirst, hrest⟩ before o' after hrows
    cases before with
    | nil =>
      obtain ⟨rfl, rfl⟩ := List.cons.inj hrows
      exact hfirst
    | cons b before =>
      obtain ⟨rfl, rfl⟩ := List.cons.inj hrows
      exact hrest before o' after rfl

theorem leftRows_eq_iff (w : Row ρ) (rows : List (Row ρ)) :
    (j.leftRows w rows = rows.flatMap fun o => j.rowsFor o (shownRow j.inner none)) ↔
      j.InnerNull w rows := by
  induction rows generalizing w with
  | nil => exact iff_of_true rfl fun before o after h => by cases before <;> cases h
  | cons o rows ih =>
    have hlength : (j.rowsFor o (j.nullInner (j.lingersAfter w o))).length =
        (j.rowsFor o (shownRow j.inner none)).length := by rw [length_rowsFor, length_rowsFor]
    rw [innerNull_cons, leftRows, List.flatMap_cons, List.append_eq_append_iff_of_size_eq_left hlength,
      rowsFor_eq_iff, nullInner_eq_iff, ih]

/-- An inner row that no outer row matches is returned, and what stands beside it is null. -/
def OuterNull (j : LeftCross ρ) (v : Row ρ) : Prop :=
  j.isFull = true → (∃ i ∈ j.inner.rows, ∀ o ∈ j.outer.rows, j.on o i = false) →
    j.leftInnerStreams ≠ [] ∧ ∀ s ∈ j.outer.streams, s ∉ j.leftInnerStreams → v s = none

theorem alone_eq_iff (null null' : List (Option ρ)) :
    j.alone null j.inner.rows = j.alone null' j.inner.rows ↔
      ((∃ i ∈ j.inner.rows, ∀ o ∈ j.outer.rows, j.on o i = false) → null = null') := by
  rw [alone, alone, List.map_inj_left]
  constructor
  · rintro h ⟨i, hi, hnone⟩
    exact (Prod.mk.inj (h i (OuterJoin.mem_unmatched.mpr ⟨hi, hnone⟩))).1
  · intro h i hi
    rw [h ⟨i, OuterJoin.mem_unmatched.mp hi⟩]

theorem alone_eq_nil_iff (null : List (Option ρ)) :
    j.alone null j.inner.rows = [] ↔ ¬ ∃ i ∈ j.inner.rows, ∀ o ∈ j.outer.rows, j.on o i = false := by
  rw [alone, List.map_eq_nil_iff, List.eq_nil_iff_forall_not_mem]
  simp only [OuterJoin.mem_unmatched, not_exists]

theorem fullRows_eq_iff (v : Row ρ) :
    (j.fullRows v = if j.isFull then j.alone (shownRow j.outer none) j.inner.rows else []) ↔
      j.OuterNull v := by
  unfold fullRows OuterNull
  by_cases full : j.isFull = true
  · rw [if_pos full]
    by_cases streams : j.leftInnerStreams = []
    · rw [if_pos streams, eq_comm, alone_eq_nil_iff]
      exact ⟨fun h _ hi => absurd hi h, fun h hi => (h full hi).1 streams⟩
    · rw [if_neg streams, alone_eq_iff, nullOuter_eq_iff]
      exact ⟨fun h _ hi => ⟨streams, h hi⟩, fun h hi => (h full hi).2⟩
  · have streams : j.leftInnerStreams = [] := if_neg full
    rw [if_neg full, if_pos streams]
    exact iff_of_true rfl fun h => absurd h full

theorem returned_eq_iff (rpbs : Rpbs ρ) : j.returned rpbs = j.joinRows ↔
    j.InnerNull (shown rpbs) j.outer.rows ∧ j.OuterNull (j.outer.readThrough (shown rpbs)) := by
  rw [joinRows_eq, returned, List.append_eq_append_iff_of_size_eq_left (length_leftRows _ _),
    leftRows_eq_iff, fullRows_eq_iff]

end LeftCross

section

variable {ρ : Type}

/-- `VIO_record` and the data of a record that was fetched. -/
def relationGet (s format : Nat) : Option (Row ρ) → Rpbs ρ → Rpbs ρ
  | none, rpbs => rpbs
  | some row, rpbs =>
    match row s with
    | none => rpbs
    | some data => Function.update rpbs s (some ⟨some format, (rpbs s).bind (·.recFmtBk), data⟩)

theorem relationGet_shown (s format : Nat) (records : List ρ) :
    ∀ row ∈ records.map (fun data (_ : Nat) => some data), ∀ rpbs : Rpbs ρ, True →
      ∀ t ∈ [s], shown (relationGet s format (some row) rpbs) t = row t := by
  intro row mem rpbs _ t ht
  obtain ⟨data, -, rfl⟩ := List.mem_map.mp mem
  rw [List.mem_singleton.mp ht]
  unfold relationGet shown
  dsimp only
  rw [Function.update_self]
  rfl

theorem relationGet_frame (s format : Nat) (row : Option (Row ρ)) (rpbs : Rpbs ρ) :
    ∀ t ∉ [s], relationGet s format row rpbs t = rpbs t := by
  intro t ht
  have hne : t ≠ s := fun h => ht (by rw [h]; exact List.mem_singleton.mpr rfl)
  unfold relationGet
  cases row with
  | none => rfl
  | some row =>
    dsimp only
    cases row s with
    | none => rfl
    | some data => exact Function.update_of_ne hne _ _

/-- A scan of a relation. -/
def relationScan (s format : Nat) (records : List ρ) : RecordStream ρ where
  rsb := .sequential s
  rows := records.map fun data _ => some data
  onOpen := id
  onGet := relationGet s format
  ready := fun _ => True
  ready_open := fun _ => trivial
  ready_end := fun _ _ => trivial
  ready_get := fun _ _ _ _ => trivial
  ready_congr := fun _ _ _ _ => trivial
  get_shown := relationGet_shown s format records
  open_frame := fun _ _ _ => rfl
  get_frame := relationGet_frame s format
  openLeaves := fun _ w => w
  endLeaves := fun _ w => w
  open_shown := fun _ _ _ _ => rfl
  end_shown := fun _ _ _ _ _ => rfl

/-- `get_procedure`: only a new record block gets the format. -/
def procedureGet (s format : Nat) (blank : ρ) (row : Option (Row ρ)) (rpbs : Rpbs ρ) : Rpbs ρ :=
  let record := (rpbs s).getD ⟨some format, none, blank⟩
  Function.update rpbs s
    (some { record with recData := (row.bind fun row => row s).getD record.recData })

/-- The record block of the procedure is gone, or it has a format. -/
def ProcedureReady (s : Nat) (rpbs : Rpbs ρ) : Prop := ∀ record, rpbs s = some record → record.recFormat ≠ none

theorem procedureReady_open (s : Nat) (rpbs : Rpbs ρ) : ProcedureReady s (Function.update rpbs s none) := by
  intro record h
  rw [Function.update_self] at h
  cases h

theorem procedureReady_format {s : Nat} (format : Nat) (blank : ρ) {rpbs : Rpbs ρ}
    (ready : ProcedureReady s rpbs) : ((rpbs s).getD ⟨some format, none, blank⟩).recFormat ≠ none := by
  cases h : rpbs s with
  | none => exact Option.some_ne_none format
  | some record => exact ready record h

theorem procedureReady_get {s : Nat} (format : Nat) (blank : ρ) (row : Option (Row ρ)) {rpbs : Rpbs ρ}
    (ready : ProcedureReady s rpbs) : ProcedureReady s (procedureGet s format blank row rpbs) := by
  intro record h
  rw [procedureGet, Function.update_self] at h
  obtain rfl := Option.some.inj h
  exact procedureReady_format format blank ready

theorem procedureReady_congr (s : Nat) (rpbs rpbs' : Rpbs ρ) (same : ∀ t ∈ [s], rpbs t = rpbs' t)
    (ready : ProcedureReady s rpbs) : ProcedureReady s rpbs' := by
  intro record h
  exact ready record ((same s (List.mem_singleton.mpr rfl)).trans h)

theorem procedureGet_shown (s format : Nat) (blank : ρ) (records : List ρ) :
    ∀ row ∈ records.map (fun data (_ : Nat) => some data), ∀ rpbs, ProcedureReady s rpbs →
      ∀ t ∈ [s], shown (procedureGet s format blank (some row) rpbs) t = row t := by
  intro row mem rpbs ready t ht
  obtain ⟨data, -, rfl⟩ := List.mem_map.mp mem
  obtain ⟨format', hformat⟩ := Option.ne_none_iff_exists'.mp (procedureReady_format format blank ready)
  rw [List.mem_singleton.mp ht, procedureGet, shown, Function.update_self]
  simp [hformat]

theorem procedureGet_frame (s format : Nat) (blank : ρ) (row : Option (Row ρ)) (rpbs : Rpbs ρ) :
    ∀ t ∉ [s], procedureGet s format blank row rpbs t = rpbs t := by
  intro t ht
  exact Function.update_of_ne (fun h => ht (by rw [h]; exact List.mem_singleton.mpr rfl)) _ _

theorem procedureOpen_frame (s : Nat) (rpbs : Rpbs ρ) :
    ∀ t ∉ [s], Function.update rpbs s none t = rpbs t := by
  intro t ht
  exact Function.update_of_ne (fun h => ht (by rw [h]; exact List.mem_singleton.mpr rfl)) _ _

/-- A procedure: `open_procedure` gets rid of any lingering record. -/
def procedureScan (s format : Nat) (blank : ρ) (records : List ρ) : RecordStream ρ where
  rsb := .procedure s
  rows := records.map fun data _ => some data
  onOpen := fun rpbs => Function.update rpbs s none
  onGet := procedureGet s format blank
  ready := ProcedureReady s
  ready_open := procedureReady_open s
  ready_end := fun _ => procedureReady_get format blank none
  ready_get := fun row _ _ => procedureReady_get format blank (some row)
  ready_congr := procedureReady_congr s
  get_shown := procedureGet_shown s format blank records
  open_frame := procedureOpen_frame s
  get_frame := procedureGet_frame s format blank
  openLeaves := fun _ w => w
  endLeaves := fun _ w => w
  open_shown := fun _ _ mem unfound => absurd mem unfound
  end_shown := fun _ _ _ mem unfound => absurd mem unfound

/-- A relation in the order of an index. -/
def navigateScan (s format : Nat) (records : List ρ) : RecordStream ρ :=
  { relationScan s format records with
    rsb := .navigate s
    open_shown := fun _ _ _ _ => rfl
    end_shown := fun _ _ _ _ _ => rfl }

theorem procedureGet_block (s format : Nat) (blank : ρ) (row : Option (Row ρ)) (rpbs : Rpbs ρ) :
    ∀ t ∈ [s], procedureGet s format blank row rpbs t ≠ none := by
  intro t ht
  rw [List.mem_singleton.mp ht, procedureGet, Function.update_self]
  exact Option.some_ne_none _

end

theorem zero_not_one : ∀ s ∈ [0], s ∉ [1] := by decide

/-- Relations with the records 1, 2 and 2, 3, joined where they are equal. -/
def fullExample : LeftCross Nat where
  outer := relationScan 0 0 [1, 2]
  inner := relationScan 1 0 [2, 3]
  disjoint := zero_not_one
  leftBoolean := none
  innerBoolean := some fun o i => some (o == i)
  streamBoolean := none
  isFull := true
  rpbRelation := fun _ => some 0
  blank := 0
  outer_block := fun _ _ _ _ => Or.inl (Option.some_ne_none 0)
  inner_block := fun _ _ _ _ => Or.inl (Option.some_ne_none 0)

example : fullExample.joinRows =
    [([some 1], [none]), ([some 2], [some 2]), ([none], [some 3])] := by decide

example : fullExample.fetchAll 4 (fullExample.rseOpen fun _ => none) = some fullExample.joinRows := by
  decide

/-- The same in the order of an index of the inner relation: the null row shows the last record. -/
def navigateExample : LeftCross Nat :=
  { fullExample with
    inner := navigateScan 1 0 [2, 3]
    isFull := false
    disjoint := zero_not_one
    inner_block := fun _ _ _ _ => Or.inl (Option.some_ne_none 0) }

example : navigateExample.fetchAll 3 (navigateExample.rseOpen fun _ => none) =
    some [([some 1], [some 3]), ([some 2], [some 2])] := by decide

/-- `A LEFT JOIN P` with a procedure `P` and a condition on the record of `A` that is false. -/
def procedureExample : LeftCross Nat where
  outer := relationScan 0 0 [1]
  inner := procedureScan 1 0 0 [2]
  disjoint := zero_not_one
  leftBoolean := some fun _ => some false
  innerBoolean := none
  streamBoolean := none
  isFull := false
  rpbRelation := fun s => if s = 0 then some 0 else none
  blank := 0
  outer_block := fun _ _ s hs => Or.inl (by rw [List.mem_singleton.mp hs]; decide)
  inner_block := fun row rpbs s hs => Or.inr (procedureGet_block 1 0 0 row rpbs s hs)

end InterBase
