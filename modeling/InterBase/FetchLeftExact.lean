import InterBase.FetchLeft

namespace InterBase

variable {ρ : Type}

/-- The streams of a source show this row. -/
def Shows (source : RecordStream ρ) (rpbs : Rpbs ρ) (row : Row ρ) : Prop :=
  ∀ s ∈ source.streams, shown rpbs s = row s

theorem Shows.map {source : RecordStream ρ} {rpbs : Rpbs ρ} {row : Row ρ}
    (h : Shows source rpbs row) :
    source.streams.map (shown rpbs) = LeftCross.shownRow source (some row) :=
  List.map_congr_left h

theorem Shows.congr {source : RecordStream ρ} {rpbs rpbs' : Rpbs ρ} {row : Row ρ}
    (h : Shows source rpbs row) (same : ∀ s ∈ source.streams, rpbs' s = rpbs s) :
    Shows source rpbs' row := by
  intro s mem
  rw [shown, same s mem]
  exact h s mem

namespace LeftCross

variable {j : LeftCross ρ} {rpbs rpbs' : Rpbs ρ} {o i : Row ρ}

theorem outer_not_inner (j : LeftCross ρ) {s : Nat} (mem : s ∈ j.outer.streams) :
    s ∉ j.inner.streams := j.disjoint s mem

theorem inner_not_outer (j : LeftCross ρ) {s : Nat} (mem : s ∈ j.inner.streams) :
    s ∉ j.outer.streams := fun h => j.disjoint s h mem

/-- The booleans that compare two rows: the join boolean and the one of the inner stream. -/
def compares (j : LeftCross ρ) (o i : Row ρ) : Bool :=
  (j.innerBoolean.all fun p => p (shownRow j.outer (some o)) (shownRow j.inner (some i)) == some true) &&
    j.streamBoolean.all fun p => p (shownRow j.outer (some o)) (shownRow j.inner (some i)) == some true

def passes (j : LeftCross ρ) (o : Row ρ) : Bool :=
  j.leftBoolean.all fun p => p (shownRow j.outer (some o)) == some true

theorem on_eq (o i : Row ρ) : j.on o i = (j.passes o && j.compares o i) := by
  rw [on, passes, compares, Bool.and_assoc]

theorem evlLeft_eq (h : Shows j.outer rpbs o) : j.evlLeft rpbs = j.passes o := by
  rw [evlLeft, h.map, passes]

theorem evlBoth_eq (ho : Shows j.outer rpbs o) (hi : Shows j.inner rpbs i) :
    (j.evlBoth j.innerBoolean rpbs && j.evlBoth j.streamBoolean rpbs) = j.compares o i := by
  rw [evlBoth, evlBoth, ho.map, hi.map, compares]

theorem joinToNulls_some {streams : List Nat} (h : j.joinToNulls streams rpbs = some rpbs') :
    (∀ s, s ∈ streams ∨ shown rpbs s = none → shown rpbs' s = none) ∧
      ∀ s, s ∉ streams → rpbs' s = rpbs s := by
  induction streams generalizing rpbs with
  | nil =>
    obtain rfl := Option.some.inj h
    exact ⟨fun s hs => hs.resolve_left List.not_mem_nil, fun s _ => rfl⟩
  | cons t stack ih =>
    -- Either way the block of `t` is left without a format.
    have step (record : Rec ρ) (hformat : record.recFormat = none)
        (h : j.joinToNulls stack (Function.update rpbs t (some record)) = some rpbs') :
        (∀ s, s ∈ t :: stack ∨ shown rpbs s = none → shown rpbs' s = none) ∧
          ∀ s, s ∉ t :: stack → rpbs' s = rpbs s := by
      obtain ⟨nulls, frame⟩ := ih h
      have hupdate : ∀ s, s = t ∨ shown rpbs s = none →
          shown (Function.update rpbs t (some record)) s = none := by
        intro s hs
        by_cases hst : s = t
        · rw [hst, shown, Function.update_self]
          simp [hformat]
        · rw [shown, Function.update_of_ne hst]
          exact hs.resolve_left hst
      refine ⟨fun s hs => ?_, fun s hs => ?_⟩
      · rcases hs with hmem | hnone
        · rcases List.mem_cons.mp hmem with heq | hmem
          · exact nulls s (Or.inr (hupdate s (Or.inl heq)))
          · exact nulls s (Or.inl hmem)
        · exact nulls s (Or.inr (hupdate s (Or.inr hnone)))
      · rw [frame s (fun hmem => hs (List.mem_cons_of_mem t hmem)),
          Function.update_of_ne (fun heq => hs (by rw [heq]; exact List.mem_cons_self))]
    unfold joinToNulls at h
    cases hrecord : rpbs t with
    | some record =>
      rw [hrecord] at h
      exact step _ rfl h
    | none =>
      rw [hrecord] at h
      cases hrelation : j.rpbRelation t with
      | none =>
        rw [hrelation] at h
        cases h
      | some format =>
        rw [hrelation] at h
        exact step _ rfl h

theorem leftStreams_inner (j : LeftCross ρ) {s : Nat} (mem : s ∈ j.leftStreams) :
    s ∈ j.inner.streams := j.inner.rsb.found_streams mem

theorem leftInnerStreams_outer (j : LeftCross ρ) {s : Nat} (mem : s ∈ j.leftInnerStreams) :
    s ∈ j.outer.streams := by
  unfold leftInnerStreams at mem
  split at mem
  · exact j.outer.rsb.found_streams mem
  · cases mem

theorem leftInnerStreams_found (h : j.leftInnerStreams ≠ []) :
    j.leftInnerStreams = j.outer.rsb.found := by
  unfold leftInnerStreams at h ⊢
  split
  · rfl
  · rename_i full
    rw [if_neg full] at h
    exact absurd rfl h

theorem outer_not_left (j : LeftCross ρ) {s : Nat} (mem : s ∈ j.outer.streams) :
    s ∉ j.leftStreams := fun h => j.outer_not_inner mem (j.leftStreams_inner h)

theorem inner_not_leftInner (j : LeftCross ρ) {s : Nat} (mem : s ∈ j.inner.streams) :
    s ∉ j.leftInnerStreams := fun h => j.inner_not_outer mem (j.leftInnerStreams_outer h)

/-- What a search of the inner stream leaves: the first row that the outer one matches. -/
theorem matchInner_spec {w : Row ρ} (ready : j.inner.ready rpbs) (ho : Shows j.outer rpbs o)
    {rows : List (Row ρ)} (sub : rows ⊆ j.inner.rows) (ends : j.inner.Ends rows rpbs w) :
    j.inner.ready (j.matchInner rows rpbs).2 ∧
      (∀ s ∉ j.inner.streams, (j.matchInner rows rpbs).2 s = rpbs s) ∧
      (((j.matchInner rows rpbs).1 = none ∧ (∀ i ∈ rows, j.compares o i = false) ∧
          j.inner.Lingers (j.matchInner rows rpbs).2 w) ∨
        ∃ skipped i rest, rows = skipped ++ i :: rest ∧ (∀ k ∈ skipped, j.compares o k = false) ∧
          j.compares o i = true ∧ (j.matchInner rows rpbs).1 = some rest ∧
          Shows j.inner (j.matchInner rows rpbs).2 i ∧
          j.inner.Ends rest (j.matchInner rows rpbs).2 w) := by
  induction rows generalizing rpbs with
  | nil =>
    exact ⟨j.inner.ready_end rpbs ready, fun s hs => j.inner.get_frame none rpbs s hs,
      Or.inl ⟨rfl, fun i hi => absurd hi List.not_mem_nil, ends.finish ready⟩⟩
  | cons i rows ih =>
    obtain ⟨mem, sub'⟩ := List.cons_subset.mp sub
    have ready' := j.inner.ready_get i mem rpbs ready
    have ends' := ends.get mem ready
    have hi : Shows j.inner (j.inner.onGet (some i) rpbs) i := j.inner.get_shown i mem rpbs ready
    have ho' : Shows j.outer (j.inner.onGet (some i) rpbs) o :=
      ho.congr fun s hs => j.inner.get_frame _ rpbs s (j.outer_not_inner hs)
    have hboth := evlBoth_eq ho' hi
    unfold matchInner
    dsimp only
    by_cases hmatch : j.compares o i = true
    · rw [hmatch, Bool.and_eq_true] at hboth
      rw [if_pos ⟨hboth.2, hboth.1⟩]
      refine ⟨ready', fun s hs => j.inner.get_frame _ rpbs s hs,
        Or.inr ⟨[], i, rows, rfl, ?_, hmatch, rfl, hi, ends'⟩⟩
      intro k hk
      exact absurd hk List.not_mem_nil
    · have hfalse := Bool.eq_false_iff.mpr hmatch
      rw [if_neg (fun h => hmatch (by rw [← hboth, h.1, h.2]; rfl))]
      obtain ⟨hready, hframe, hrest⟩ := ih ready' ho' sub' ends'
      refine ⟨hready, fun s hs => (hframe s hs).trans (j.inner.get_frame _ rpbs s hs), ?_⟩
      rcases hrest with ⟨hnone, hall, hlingers⟩ | ⟨skipped, k, rest, rfl, hskip, hk, hsome, hshow, hends⟩
      · exact Or.inl ⟨hnone, List.forall_mem_cons.mpr ⟨hfalse, hall⟩, hlingers⟩
      · exact Or.inr ⟨i :: skipped, k, rest, rfl, List.forall_mem_cons.mpr ⟨hfalse, hskip⟩, hk, hsome,
          hshow, hends⟩

/-- The search of the outer stream for an inner row. -/
theorem findOuter_spec {v : Row ρ} (ready : j.outer.ready rpbs) (hi : Shows j.inner rpbs i)
    {rows : List (Row ρ)} (sub : rows ⊆ j.outer.rows) (ends : j.outer.Ends rows rpbs v) :
    (j.findOuter rows rpbs).1 = (rows.any fun o => j.on o i) ∧
      (∀ s ∉ j.outer.streams, (j.findOuter rows rpbs).2 s = rpbs s) ∧
      ((j.findOuter rows rpbs).1 = false → j.outer.Lingers (j.findOuter rows rpbs).2 v) := by
  induction rows generalizing rpbs with
  | nil =>
    exact ⟨rfl, fun s hs => j.outer.get_frame none rpbs s hs, fun _ => ends.finish ready⟩
  | cons o rows ih =>
    obtain ⟨mem, sub'⟩ := List.cons_subset.mp sub
    have ho : Shows j.outer (j.outer.onGet (some o) rpbs) o := j.outer.get_shown o mem rpbs ready
    have hi' : Shows j.inner (j.outer.onGet (some o) rpbs) i :=
      hi.congr fun s hs => j.outer.get_frame _ rpbs s (j.inner_not_outer hs)
    have hon : j.on o i = true ↔
        j.evlLeft (j.outer.onGet (some o) rpbs) = true ∧
          j.evlBoth j.innerBoolean (j.outer.onGet (some o) rpbs) = true ∧
          j.evlBoth j.streamBoolean (j.outer.onGet (some o) rpbs) = true := by
      rw [on_eq, ← evlLeft_eq ho, ← evlBoth_eq ho hi', Bool.and_eq_true, Bool.and_eq_true]
    unfold findOuter
    dsimp only
    rw [List.any_cons]
    by_cases hmatch : j.on o i = true
    · rw [if_pos (hon.mp hmatch), hmatch]
      exact ⟨rfl, fun s hs => j.outer.get_frame _ rpbs s hs, fun h => nomatch h⟩
    · obtain ⟨hfound, hframe, hlingers⟩ := ih (j.outer.ready_get o mem rpbs ready) hi' sub'
        (ends.get mem ready)
      rw [if_neg (fun h => hmatch (hon.mpr h)), Bool.eq_false_iff.mpr hmatch]
      exact ⟨hfound, fun s hs => (hframe s hs).trans (j.outer.get_frame _ rpbs s hs), hlingers⟩

/-- The inner side of a row that is joined to nulls: `join_to_nulls` passes the other streams over. -/
def nullInner (j : LeftCross ρ) (w : Row ρ) : List (Option ρ) :=
  j.inner.streams.map fun s => if s ∈ j.leftStreams then none else w s

def nullOuter (j : LeftCross ρ) (v : Row ρ) : List (Option ρ) :=
  j.outer.streams.map fun s => if s ∈ j.leftInnerStreams then none else v s

/-- What lingers of the inner source after an outer row, and after some. -/
def lingersAfter (j : LeftCross ρ) (w o : Row ρ) : Row ρ :=
  if j.passes o then j.inner.readThrough w else w

def lingering (j : LeftCross ρ) (w : Row ρ) (rows : List (Row ρ)) : Row ρ :=
  rows.foldl j.lingersAfter w

/-- The rows for one outer row, with what stands for a null inner row. -/
def rowsFor (j : LeftCross ρ) (o : Row ρ) (null : List (Option ρ)) :
    List (List (Option ρ) × List (Option ρ)) :=
  (OuterJoin.matching (j.on o) j.inner.rows).map fun i =>
    (shownRow j.outer (some o), i.elim null fun i => shownRow j.inner (some i))

def leftRows (j : LeftCross ρ) : Row ρ → List (Row ρ) → List (List (Option ρ) × List (Option ρ))
  | _, [] => []
  | w, o :: rows =>
    j.rowsFor o (j.nullInner (j.lingersAfter w o)) ++ leftRows j (j.lingersAfter w o) rows

/-- The rows for inner rows that no outer row matches. -/
def alone (j : LeftCross ρ) (null : List (Option ρ)) (rows : List (Row ρ)) :
    List (List (Option ρ) × List (Option ρ)) :=
  (OuterJoin.unmatched j.on j.outer.rows rows).map fun i => (null, shownRow j.inner (some i))

def fullRows (j : LeftCross ρ) (v : Row ρ) : List (List (Option ρ) × List (Option ρ)) :=
  if j.leftInnerStreams = [] then [] else j.alone (j.nullOuter v) j.inner.rows

/-- The rows that `fetch_left` returns after an open. -/
def returned (j : LeftCross ρ) (rpbs : Rpbs ρ) : List (List (Option ρ) × List (Option ρ)) :=
  j.leftRows (shown rpbs) j.outer.rows ++ j.fullRows (j.outer.readThrough (shown rpbs))

/-- What is left to match of the inner stream for the outer row in hand. -/
def matchRows (j : LeftCross ρ) (o : Row ρ) (joined : Bool) (rows : List (Row ρ)) (w : Row ρ) :
    List (List (Option ρ) × List (Option ρ)) :=
  (rows.filter (j.compares o)).map (fun i => (shownRow j.outer (some o), shownRow j.inner (some i))) ++
    if joined || rows.any (j.compares o) then [] else [(shownRow j.outer (some o), j.nullInner w)]

/-- A state that reads the outer stream next. `first` is what the outer streams showed before the
open, `w` what lingers of the inner ones. -/
structure Reading (j : LeftCross ρ) (first w : Row ρ) (st : LeftState ρ) : Prop where
  joinFull : st.irsbJoinFull = false
  mustread : st.irsbMustread = true
  ready : j.outer.ready st.rpbs
  sub : st.outerLeft ⊆ j.outer.rows
  notOpened : st.irsbInOpened = false →
    ∃ consumed, j.outer.rows = consumed ++ st.outerLeft ∧ ∀ o ∈ consumed, j.passes o = false
  opened : st.irsbInOpened = true → j.outer.rows ≠ []
  lingers : j.inner.Lingers st.rpbs w
  ends : j.outer.Ends st.outerLeft st.rpbs (j.outer.readThrough first)

/-- A state that reads the inner stream next, for the outer row `o`. -/
structure Matching (j : LeftCross ρ) (first w o : Row ρ) (st : LeftState ρ) : Prop where
  joinFull : st.irsbJoinFull = false
  mustread : st.irsbMustread = false
  opened : st.irsbInOpened = true
  outerReady : j.outer.ready st.rpbs
  innerReady : j.inner.ready st.rpbs
  outerRows : j.outer.rows ≠ []
  outerSub : st.outerLeft ⊆ j.outer.rows
  innerSub : st.innerLeft ⊆ j.inner.rows
  shows : Shows j.outer st.rpbs o
  innerEnds : j.inner.Ends st.innerLeft st.rpbs w
  outerEnds : j.outer.Ends st.outerLeft st.rpbs (j.outer.readThrough first)

/-- A state that looks for inner rows that no outer row matches. -/
structure Finishing (j : LeftCross ρ) (first : Row ρ) (st : LeftState ρ) : Prop where
  joinFull : st.irsbJoinFull = true
  streams : j.leftInnerStreams ≠ []
  ready : j.inner.ready st.rpbs
  sub : st.innerLeft ⊆ j.inner.rows
  notOpened : st.irsbInOpened = false →
    (∀ o ∈ j.outer.rows, j.passes o = false) ∧
      j.outer.Lingers st.rpbs (j.outer.readThrough first)
  opened : st.irsbInOpened = true → j.outer.rows ≠ []

/-- The rows that a state between two calls has still to return. -/
inductive Owes (j : LeftCross ρ) (first : Row ρ) :
    LeftState ρ → List (List (Option ρ) × List (Option ρ)) → Prop
  | reading {st : LeftState ρ} {w : Row ρ} (state : Reading j first w st) :
      Owes j first st (j.leftRows w st.outerLeft ++ j.fullRows (j.outer.readThrough first))
  | matching {st : LeftState ρ} {w o : Row ρ} (state : Matching j first w o st) :
      Owes j first st (j.matchRows o st.irsbJoined st.innerLeft w ++
        (j.leftRows w st.outerLeft ++ j.fullRows (j.outer.readThrough first)))
  | full {st : LeftState ρ} (state : Finishing j first st) :
      Owes j first st (j.alone (j.nullOuter (j.outer.readThrough first)) st.innerLeft)

/-- One call returns the first of the rows that are owed, or `FALSE` when there is none. -/
def Pays (j : LeftCross ρ) (first : Row ρ) (fetched : Fetched ρ)
    (rows : List (List (Option ρ) × List (Option ρ))) : Prop :=
  (rows = [] ∧ ∃ st, fetched = .false st) ∨
    ∃ st rest, fetched = .true st ∧ rows = j.output st :: rest ∧ Owes j first st rest

variable {first w v : Row ρ}

theorem rowsFor_matching (h : j.passes o = true) :
    j.rowsFor o (j.nullInner w) = j.matchRows o false j.inner.rows w := by
  have hon : j.on o = j.compares o := by
    funext i
    rw [on_eq, h, Bool.true_and]
  unfold rowsFor matchRows OuterJoin.matching
  rw [hon, Bool.false_or]
  by_cases hnone : j.inner.rows.filter (j.compares o) = []
  · have hany : j.inner.rows.any (j.compares o) = false := by
      rw [List.any_eq_false]
      exact List.filter_eq_nil_iff.mp hnone
    rw [if_pos hnone, hnone, if_neg (by rw [hany]; exact Bool.false_ne_true)]
    rfl
  · have hany : j.inner.rows.any (j.compares o) = true := by
      by_contra hcon
      exact hnone (List.filter_eq_nil_iff.mpr (List.any_eq_false.mp (Bool.eq_false_iff.mpr hcon)))
    rw [if_neg hnone, if_pos hany, List.append_nil, List.map_map]
    rfl

theorem rowsFor_null {null : List (Option ρ)} (h : ∀ i ∈ j.inner.rows, j.on o i = false) :
    j.rowsFor o null = [(shownRow j.outer (some o), null)] := by
  rw [rowsFor, OuterJoin.matching_of_forall h]
  rfl

theorem on_of_fails (h : j.passes o = false) : ∀ i ∈ j.inner.rows, j.on o i = false := by
  intro i _
  rw [on_eq, h, Bool.false_and]

theorem returnNulls_eq {streams : List Nat} {st : LeftState ρ}
    (found : j.returnNulls streams st ≠ .missing) :
    ∃ rpbs, j.joinToNulls streams st.rpbs = some rpbs ∧
      j.returnNulls streams st = .true { st with rpbs := rpbs } := by
  unfold returnNulls at found ⊢
  cases h : j.joinToNulls streams st.rpbs with
  | none =>
    rw [h] at found
    exact absurd rfl found
  | some rpbs => exact ⟨rpbs, rfl, rfl⟩

/-- The inner streams that are found become null and the outer row stays. -/
theorem innerNulls_pays {st : LeftState ρ} {rows : List (List (Option ρ) × List (Option ρ))}
    (found : j.returnNulls j.leftStreams st ≠ .missing) (ho : Shows j.outer st.rpbs o)
    (lingers : j.inner.Lingers st.rpbs w)
    (owes : ∀ rpbs, (∀ s ∉ j.leftStreams, rpbs s = st.rpbs s) →
      Owes j first { st with rpbs := rpbs } rows) :
    Pays j first (j.returnNulls j.leftStreams st)
      ((shownRow j.outer (some o), j.nullInner w) :: rows) := by
  obtain ⟨rpbs, hnull, hreturn⟩ := returnNulls_eq found
  obtain ⟨nulls, frame⟩ := joinToNulls_some hnull
  refine Or.inr ⟨_, rows, hreturn, ?_, owes rpbs frame⟩
  have hshown : Shows j.outer rpbs o := ho.congr fun s hs => frame s (j.outer_not_left hs)
  have hnulls : j.inner.streams.map (shown rpbs) = j.nullInner w := by
    refine List.map_congr_left fun s hs => ?_
    split
    · rename_i mem
      exact nulls s (Or.inl mem)
    · rename_i unfound
      rw [shown, frame s unfound]
      exact lingers s hs unfound
  rw [output, hshown.map, hnulls]

/-- The outer streams that are found become null and the inner row stays. -/
theorem outerNulls_pays {st : LeftState ρ} {rows : List (List (Option ρ) × List (Option ρ))}
    (streams : j.leftInnerStreams ≠ []) (found : j.returnNulls j.leftInnerStreams st ≠ .missing)
    (hi : Shows j.inner st.rpbs i) (lingers : j.outer.Lingers st.rpbs v)
    (owes : ∀ rpbs, (∀ s ∉ j.leftInnerStreams, rpbs s = st.rpbs s) →
      Owes j first { st with rpbs := rpbs } rows) :
    Pays j first (j.returnNulls j.leftInnerStreams st)
      ((j.nullOuter v, shownRow j.inner (some i)) :: rows) := by
  obtain ⟨rpbs, hnull, hreturn⟩ := returnNulls_eq found
  obtain ⟨nulls, frame⟩ := joinToNulls_some hnull
  refine Or.inr ⟨_, rows, hreturn, ?_, owes rpbs frame⟩
  have hshown : Shows j.inner rpbs i := hi.congr fun s hs => frame s (j.inner_not_leftInner hs)
  have hnulls : j.outer.streams.map (shown rpbs) = j.nullOuter v := by
    refine List.map_congr_left fun s hs => ?_
    split
    · rename_i mem
      exact nulls s (Or.inl mem)
    · rename_i unfound
      rw [shown, frame s unfound]
      exact lingers s hs (leftInnerStreams_found streams ▸ unfound)
  rw [output, hshown.map, hnulls]

theorem alone_cons (null : List (Option ρ)) (i : Row ρ) (rows : List (Row ρ)) :
    j.alone null (i :: rows) =
      if j.outer.rows.any (fun o => j.on o i) then j.alone null rows
      else (null, shownRow j.inner (some i)) :: j.alone null rows := by
  unfold alone OuterJoin.unmatched
  rw [List.filter_cons]
  cases j.outer.rows.any (fun o => j.on o i) <;> rfl

theorem fullLoop_pays {st : LeftState ρ} (state : Finishing j first st)
    (opened : st.irsbInOpened = true) {rows : List (Row ρ)} (sub : rows ⊆ j.inner.rows)
    (found : j.fullLoop rows st ≠ .missing) :
    Pays j first (j.fullLoop rows st) (j.alone (j.nullOuter (j.outer.readThrough first)) rows) := by
  induction rows generalizing st with
  | nil => exact Or.inl ⟨rfl, _, rfl⟩
  | cons i rows ih =>
    obtain ⟨mem, sub'⟩ := List.cons_subset.mp sub
    have hi : Shows j.inner (j.inner.onGet (some i) st.rpbs) i :=
      j.inner.get_shown i mem st.rpbs state.ready
    have ready' := j.inner.ready_get i mem st.rpbs state.ready
    have openFrame : ∀ s ∈ j.inner.streams, j.outer.onOpen (j.inner.onGet (some i) st.rpbs) s =
        j.inner.onGet (some i) st.rpbs s := fun s hs => j.outer.open_frame _ s (j.inner_not_outer hs)
    have ends : j.outer.Ends j.outer.rows (j.outer.onOpen (j.inner.onGet (some i) st.rpbs))
        (j.outer.readThrough first) := by
      rw [RecordStream.readThrough_congr (state.opened opened) first
        (shown (j.inner.onGet (some i) st.rpbs))]
      exact RecordStream.Lingers.open fun s _ _ => rfl
    obtain ⟨hfound, hframe, hlingers⟩ := findOuter_spec
      (j.outer.ready_open (j.inner.onGet (some i) st.rpbs)) (hi.congr openFrame)
      (List.Subset.refl j.outer.rows) ends
    have same : ∀ s ∈ j.inner.streams,
        (j.findOuter j.outer.rows (j.outer.onOpen (j.inner.onGet (some i) st.rpbs))).2 s =
          j.inner.onGet (some i) st.rpbs s :=
      fun s hs => (hframe s (j.inner_not_outer hs)).trans (openFrame s hs)
    have readyAfter := j.inner.ready_congr _ _ (fun s hs => (same s hs).symm) ready'
    rw [alone_cons, ← hfound]
    unfold fullLoop at found ⊢
    dsimp only at found ⊢
    by_cases hmatch : (j.findOuter j.outer.rows (j.outer.onOpen (j.inner.onGet (some i) st.rpbs))).1 = true
    · rw [if_pos hmatch] at found ⊢
      rw [if_pos hmatch]
      refine ih ⟨state.joinFull, state.streams, readyAfter, sub', fun h => ?_, state.opened⟩ opened sub' found
      exact absurd (opened.symm.trans h) (by decide)
    · rw [if_neg hmatch] at found ⊢
      rw [if_neg hmatch]
      apply outerNulls_pays state.streams found (hi.congr same) (hlingers (Bool.eq_false_iff.mpr hmatch))
      intro rpbs hsame
      refine Owes.full ⟨state.joinFull, state.streams, ?_, sub', fun h => ?_, state.opened⟩
      · exact j.inner.ready_congr _ _
          (fun s hs => (hsame s (j.inner_not_leftInner hs)).symm) readyAfter
      · exact absurd (opened.symm.trans h) (by decide)

theorem alone_of_forall (h : ∀ o ∈ j.outer.rows, j.passes o = false) (null : List (Option ρ))
    (rows : List (Row ρ)) :
    j.alone null rows = rows.map fun i => (null, shownRow j.inner (some i)) := by
  rw [alone, OuterJoin.unmatched_of_forall]
  intro o ho i
  rw [on_eq, h o ho, Bool.false_and]

theorem fetchFull_pays {st : LeftState ρ} (state : Finishing j first st)
    (found : j.fetchFull st ≠ .missing) :
    Pays j first (j.fetchFull st) (j.alone (j.nullOuter (j.outer.readThrough first)) st.innerLeft) := by
  unfold fetchFull at found ⊢
  by_cases opened : st.irsbInOpened = true
  · rw [if_pos opened] at found ⊢
    exact fullLoop_pays state opened state.sub found
  · obtain ⟨fails, lingers⟩ := state.notOpened (Bool.eq_false_iff.mpr opened)
    rw [if_neg opened] at found ⊢
    rw [alone_of_forall fails]
    cases hrows : st.innerLeft with
    | nil => exact Or.inl ⟨rfl, _, rfl⟩
    | cons i rows =>
      have sub := state.sub
      rw [hrows] at found sub
      obtain ⟨mem, sub'⟩ := List.cons_subset.mp sub
      have hi : Shows j.inner (j.inner.onGet (some i) st.rpbs) i :=
        j.inner.get_shown i mem st.rpbs state.ready
      have ready' := j.inner.ready_get i mem st.rpbs state.ready
      have lingers' : j.outer.Lingers (j.inner.onGet (some i) st.rpbs) (j.outer.readThrough first) :=
        lingers.congr fun s hs _ => j.inner.get_frame _ _ s (j.outer_not_inner hs)
      apply outerNulls_pays state.streams found hi lingers'
      intro rpbs same
      rw [← alone_of_forall fails]
      refine Owes.full ⟨state.joinFull, state.streams, ?_, sub', fun _ => ⟨fails, ?_⟩, state.opened⟩
      · exact j.inner.ready_congr _ _ (fun s hs => (same s (j.inner_not_leftInner hs)).symm) ready'
      · exact lingers'.congr fun s _ unfound =>
          same s (leftInnerStreams_found state.streams ▸ unfound)

theorem matchRows_found {skipped rest : List (Row ρ)} (joined : Bool)
    (hskip : ∀ k ∈ skipped, j.compares o k = false) (hi : j.compares o i = true) :
    j.matchRows o joined (skipped ++ i :: rest) w =
      (shownRow j.outer (some o), shownRow j.inner (some i)) :: j.matchRows o true rest w := by
  have hfilter : skipped.filter (j.compares o) = [] :=
    List.filter_eq_nil_iff.mpr fun k hk => by rw [hskip k hk]; exact Bool.false_ne_true
  unfold matchRows
  rw [List.filter_append, hfilter, List.nil_append, List.filter_cons_of_pos hi, List.any_append,
    List.any_cons, hi, Bool.true_or, Bool.or_true, Bool.or_true, if_pos rfl,
    List.append_nil, List.append_nil]
  rfl

theorem matchRows_none {rows : List (Row ρ)} (joined : Bool)
    (h : ∀ i ∈ rows, j.compares o i = false) :
    j.matchRows o joined rows w =
      if joined then [] else [(shownRow j.outer (some o), j.nullInner w)] := by
  have hfilter : rows.filter (j.compares o) = [] :=
    List.filter_eq_nil_iff.mpr fun i hi => by rw [h i hi]; exact Bool.false_ne_true
  have hany : rows.any (j.compares o) = false :=
    List.any_eq_false.mpr fun i hi => by rw [h i hi]; exact Bool.false_ne_true
  rw [matchRows, hfilter, hany, Bool.or_false]
  rfl

theorem readInner_pays {again : LeftState ρ → Fetched ρ} {st : LeftState ρ}
    (state : Matching j first w o st)
    (later : ∀ st' : LeftState ρ, Reading j first w st' → st'.outerLeft = st.outerLeft →
      again st' ≠ .missing →
      Pays j first (again st')
        (j.leftRows w st.outerLeft ++ j.fullRows (j.outer.readThrough first)))
    (found : j.readInner again st ≠ .missing) :
    Pays j first (j.readInner again st) (j.matchRows o st.irsbJoined st.innerLeft w ++
      (j.leftRows w st.outerLeft ++ j.fullRows (j.outer.readThrough first))) := by
  obtain ⟨ready, frame, searched⟩ :=
    matchInner_spec state.innerReady state.shows state.innerSub state.innerEnds
  unfold readInner at found ⊢
  generalize j.matchInner st.innerLeft st.rpbs = result at ready frame searched found ⊢
  obtain ⟨rest?, rpbs⟩ := result
  have same : ∀ s ∈ j.outer.streams, rpbs s = st.rpbs s :=
    fun s hs => frame s (j.outer_not_inner hs)
  have outerReady := j.outer.ready_congr _ _ (fun s hs => (same s hs).symm) state.outerReady
  have ho : Shows j.outer rpbs o := state.shows.congr same
  have outerEnds : j.outer.Ends st.outerLeft rpbs (j.outer.readThrough first) :=
    state.outerEnds.congr fun s hs _ => same s hs
  rcases searched with ⟨hnone, hall, hlingers⟩ |
    ⟨skipped, i, rest, hrows, hskip, hi, hsome, hshow, hends⟩
  · have hnone' : rest? = none := hnone
    subst hnone'
    dsimp only at found ⊢
    have opened : st.irsbInOpened = false → ∃ consumed, j.outer.rows = consumed ++ st.outerLeft ∧
        ∀ o ∈ consumed, j.passes o = false := fun h => absurd (state.opened.symm.trans h) (by decide)
    rw [matchRows_none st.irsbJoined hall]
    by_cases joined : st.irsbJoined = true
    · rw [if_pos joined] at found ⊢
      rw [if_pos joined, List.nil_append]
      exact later _ ⟨state.joinFull, rfl, outerReady, state.outerSub, opened,
        fun _ => state.outerRows, hlingers, outerEnds⟩ rfl found
    · rw [if_neg joined] at found ⊢
      rw [if_neg joined, List.singleton_append]
      apply innerNulls_pays found ho hlingers
      intro rpbs' same'
      refine Owes.reading ⟨state.joinFull, rfl, ?_, state.outerSub, opened, fun _ => state.outerRows,
        ?_, ?_⟩
      · exact j.outer.ready_congr _ _ (fun s hs => (same' s (j.outer_not_left hs)).symm) outerReady
      · exact hlingers.congr fun s _ unfound => same' s unfound
      · exact outerEnds.congr fun s hs _ => same' s (j.outer_not_left hs)
  · have hsome' : rest? = some rest := hsome
    subst hsome'
    have innerSub : rest ⊆ j.inner.rows := by
      have all := state.innerSub
      rw [hrows] at all
      exact (List.cons_subset.mp (List.append_subset.mp all).2).2
    rw [hrows, matchRows_found st.irsbJoined hskip hi, List.cons_append]
    refine Or.inr ⟨_, _, rfl, ?_, Owes.matching ⟨state.joinFull, state.mustread, state.opened,
      outerReady, ready, state.outerRows, state.outerSub, innerSub, ho, hends, outerEnds⟩⟩
    rw [output, ho.map, Shows.map hshow]

/-- At the end of the outer stream the full join begins. -/
theorem Reading.finishing {st : LeftState ρ} (state : Reading j first w st)
    (done : st.outerLeft = []) (streams : j.leftInnerStreams ≠ []) :
    Finishing j first { st with
      irsbJoinFull := true
      outerLeft := []
      innerLeft := j.inner.rows
      rpbs := j.inner.onOpen (j.outer.onGet none st.rpbs) } := by
  refine ⟨rfl, streams, j.inner.ready_open _, List.Subset.refl _, fun h => ⟨?_, ?_⟩, state.opened⟩
  · obtain ⟨consumed, hconsumed, fails⟩ := state.notOpened h
    rw [done, List.append_nil] at hconsumed
    rw [hconsumed]
    exact fails
  · have ends := state.ends
    rw [done] at ends
    exact (ends.finish state.ready).congr fun s hs _ =>
      j.inner.open_frame _ s (j.outer_not_inner hs)

theorem Reading.shows {st : LeftState ρ} {rows : List (Row ρ)} (state : Reading j first w st)
    (hrows : st.outerLeft = o :: rows) : Shows j.outer (j.outer.onGet (some o) st.rpbs) o := by
  have sub := state.sub
  rw [hrows] at sub
  exact j.outer.get_shown o (List.cons_subset.mp sub).1 st.rpbs state.ready

theorem Reading.lingers_get {st : LeftState ρ} (state : Reading j first w st) (row : Option (Row ρ)) :
    j.inner.Lingers (j.outer.onGet row st.rpbs) w :=
  state.lingers.congr fun s hs _ => j.outer.get_frame _ _ s (j.inner_not_outer hs)

/-- For an outer row that passes, the inner stream is opened. -/
theorem Reading.matching {st : LeftState ρ} {rows : List (Row ρ)} (state : Reading j first w st)
    (hrows : st.outerLeft = o :: rows) :
    Matching j first (j.inner.readThrough w) o { st with
      outerLeft := rows
      irsbMustread := false
      irsbJoined := false
      irsbInOpened := true
      innerLeft := j.inner.rows
      rpbs := j.inner.onOpen (j.outer.onGet (some o) st.rpbs) } := by
  have ends := state.ends
  have sub := state.sub
  rw [hrows] at ends sub
  obtain ⟨mem, sub'⟩ := List.cons_subset.mp sub
  have openFrame : ∀ s ∈ j.outer.streams,
      j.inner.onOpen (j.outer.onGet (some o) st.rpbs) s = j.outer.onGet (some o) st.rpbs s :=
    fun s hs => j.inner.open_frame _ s (j.outer_not_inner hs)
  have ready' := j.outer.ready_get o mem st.rpbs state.ready
  exact ⟨state.joinFull, rfl, rfl,
    j.outer.ready_congr _ _ (fun s hs => (openFrame s hs).symm) ready', j.inner.ready_open _,
    List.ne_nil_of_mem mem, sub', List.Subset.refl _, (state.shows hrows).congr openFrame,
    (state.lingers_get _).open, (ends.get mem state.ready).congr fun s hs _ => openFrame s hs⟩

/-- An outer row that does not pass is returned with nulls. -/
theorem Reading.rejected {st : LeftState ρ} {rows : List (Row ρ)} {rpbs : Rpbs ρ}
    (state : Reading j first w st) (hrows : st.outerLeft = o :: rows) (hfail : j.passes o = false)
    (same : ∀ s ∉ j.leftStreams, rpbs s = j.outer.onGet (some o) st.rpbs s) :
    Reading j first w { st with outerLeft := rows, rpbs := rpbs } := by
  have ends := state.ends
  have sub := state.sub
  rw [hrows] at ends sub
  obtain ⟨mem, sub'⟩ := List.cons_subset.mp sub
  refine ⟨state.joinFull, state.mustread, ?_, sub', fun h => ?_, fun _ => List.ne_nil_of_mem mem,
    ?_, ?_⟩
  · exact j.outer.ready_congr _ _ (fun s hs => (same s (j.outer_not_left hs)).symm)
      (j.outer.ready_get o mem st.rpbs state.ready)
  · obtain ⟨consumed, hconsumed, fails⟩ := state.notOpened h
    refine ⟨consumed ++ [o], ?_, ?_⟩
    · rw [hconsumed, hrows, List.append_assoc]
      rfl
    · intro k hk
      rcases List.mem_append.mp hk with hk | hk
      · exact fails k hk
      · rw [List.mem_singleton.mp hk]
        exact hfail
  · exact (state.lingers_get _).congr fun s _ unfound => same s unfound
  · exact (ends.get mem state.ready).congr fun s hs _ => same s (j.outer_not_left hs)

theorem leftLoop_reading_pays {fuel : Nat} {st : LeftState ρ} {w : Row ρ}
    (state : Reading j first w st) (enough : st.outerLeft.length < fuel)
    (found : j.leftLoop fuel st ≠ .missing) :
    Pays j first (j.leftLoop fuel st)
      (j.leftRows w st.outerLeft ++ j.fullRows (j.outer.readThrough first)) := by
  induction fuel generalizing st w with
  | zero => omega
  | succ fuel ih =>
    unfold leftLoop at found ⊢
    rw [if_pos state.mustread] at found ⊢
    cases hrows : st.outerLeft with
    | nil =>
      rw [hrows] at found
      dsimp only at found ⊢
      rw [leftRows, List.nil_append, fullRows]
      by_cases streams : j.leftInnerStreams = []
      · rw [if_neg (not_not_intro streams), if_pos streams]
        exact Or.inl ⟨rfl, _, rfl⟩
      · rw [if_pos streams] at found ⊢
        rw [if_neg streams]
        exact fetchFull_pays (state.finishing hrows streams) found
    | cons o rows =>
      rw [hrows] at found
      dsimp only at found ⊢
      have ho := state.shows hrows
      rw [leftRows, List.append_assoc, lingersAfter]
      by_cases hpass : j.evlLeft (j.outer.onGet (some o) st.rpbs) = true
      · have hpasses : j.passes o = true := (evlLeft_eq ho).symm.trans hpass
        rw [if_pos hpass] at found ⊢
        rw [if_pos hpasses, rowsFor_matching hpasses]
        refine readInner_pays (state.matching hrows) ?_ found
        intro st' state' left found'
        have left' : st'.outerLeft = rows := left
        rw [hrows, List.length_cons] at enough
        have hrest := ih state' (by rw [left']; omega) found'
        rw [left'] at hrest
        exact hrest
      · have hfail : j.passes o = false := by
          rw [← evlLeft_eq ho]
          exact Bool.eq_false_iff.mpr hpass
        rw [if_neg hpass] at found ⊢
        rw [if_neg (by rw [hfail]; exact Bool.false_ne_true), rowsFor_null (on_of_fails hfail),
          List.singleton_append]
        exact innerNulls_pays found ho (state.lingers_get _)
          fun rpbs same => Owes.reading (state.rejected hrows hfail same)

/-- One call of `fetch_left` pays the first row that is owed. -/
theorem fetchLeft_pays {st : LeftState ρ} {rows : List (List (Option ρ) × List (Option ρ))}
    (owes : Owes j first st rows) (found : j.fetchLeft st ≠ .missing) :
    Pays j first (j.fetchLeft st) rows := by
  unfold fetchLeft at found ⊢
  cases owes with
  | reading state =>
    rw [if_neg (by rw [state.joinFull]; exact Bool.false_ne_true)] at found ⊢
    exact leftLoop_reading_pays state (by omega) found
  | matching state =>
    rw [if_neg (by rw [state.joinFull]; exact Bool.false_ne_true)] at found ⊢
    unfold leftLoop at found ⊢
    rw [if_neg (by rw [state.mustread]; exact Bool.false_ne_true)] at found ⊢
    refine readInner_pays state ?_ found
    intro st' state' left found'
    have hrest := leftLoop_reading_pays state' (by rw [left]; omega) found'
    rw [left] at hrest
    exact hrest
  | full state =>
    rw [if_pos state.joinFull] at found ⊢
    exact fetchFull_pays state found

end LeftCross

end InterBase
