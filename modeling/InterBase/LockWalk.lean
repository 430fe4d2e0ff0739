import InterBase.LockTable
import InterBase.Library.DepthFirst

namespace InterBase

/-- The requests of a lock that `deadlock_walk` takes for blocking. -/
def examined (ordering : Bool) (request : Lrq) : List Lrq → List Lrq
  | [] => []
  | block :: rest =>
    if ordering = false ∨ lckNull < request.lrqState then
      if block.lrqOffset = request.lrqOffset ∨
          compatible request.lrqRequested block.lrqState = true then
        examined ordering request rest
      else block :: examined ordering request rest
    else if block.lrqOffset = request.lrqOffset then []
    else if compatible request.lrqRequested (max block.lrqState block.lrqRequested) = true then
      examined ordering request rest
    else block :: examined ordering request rest

namespace LockTable

variable {κ : Type}

/-- A request that its owner waits for. -/
def Waiting (t : LockTable κ) (request : κ × Nat) : Prop :=
  (t.lrq request).any Lrq.lrqPending = true

instance (t : LockTable κ) (request : κ × Nat) : Decidable (t.Waiting request) :=
  inferInstanceAs (Decidable (_ = true))

/-- The pending request of the owner of a request, if the walk goes there. -/
def target (busy : Nat → Bool) (t : LockTable κ) (block : Lrq) : Option (κ × Nat) :=
  if busy block.lrqOwner then none
  else (t.ownPendingRequest block.lrqOwner).filter fun target => t.Waiting target

def walkTargets (ordering : Bool) (busy : Nat → Bool) (t : LockTable κ) (offset : κ × Nat) :
    List (κ × Nat) :=
  (t.lrq offset).elim [] fun request =>
    (examined ordering request (lockRequests (t.locks offset.1))).filterMap (t.target busy)

end LockTable

section

variable {κ : Type} {ordering : Bool} {busy : Nat → Bool} {t : LockTable κ}

/-- A walk over the flags of the lock table beside a search with a path and black vertices. -/
def Matches (grey : List (κ × Nat)) (walked : Option (Option (κ × Nat) × Scan κ))
    (searched : Option (Option (κ × Nat) × List (κ × Nat))) : Prop :=
  walked.map (fun r => (r.1, r.2.scanned)) = searched ∧
    ∀ r, walked = some r → r.1 = none → r.2.deadlock = grey

variable {grey : List (κ × Nat)} {walk : κ × Nat → Scan κ → Option (Option (κ × Nat) × Scan κ)}
  {visit : κ × Nat → List (κ × Nat) → Option (Option (κ × Nat) × List (κ × Nat))}

theorem Matches.bind {walked : Option (Option (κ × Nat) × Scan κ)}
    {searched : Option (Option (κ × Nat) × List (κ × Nat))} (h : Matches grey walked searched)
    {next : Scan κ → Option (Option (κ × Nat) × Scan κ)}
    {next' : List (κ × Nat) → Option (Option (κ × Nat) × List (κ × Nat))}
    (hnext : ∀ scan, scan.deadlock = grey → Matches grey (next scan) (next' scan.scanned)) :
    Matches grey (walked.bind fun r => if r.1.isSome then some r else next r.2)
      (searched.bind fun r => if r.1.isSome then some r else next' r.2) := by
  cases walked with
  | none =>
    rw [← h.1]
    exact ⟨rfl, nofun⟩
  | some r =>
    rw [← h.1]
    by_cases found : r.1.isSome = true
    · refine ⟨?_, ?_⟩
      · simp only [Option.map_some, Option.bind_some, if_pos found]
      · intro r' hr' hnone
        simp only [Option.bind_some, if_pos found] at hr'
        cases hr'
        rw [hnone] at found
        cases found
    · have path := h.2 r rfl (by simpa using found)
      simp only [Option.map_some, Option.bind_some, if_neg found]
      exact hnext r.2 path

theorem deadlockPursue_matches
    (hwalk : ∀ target scan, scan.deadlock = grey →
      Matches grey (walk target scan) (visit target scan.scanned))
    {next : Scan κ → Option (Option (κ × Nat) × Scan κ)} {rest : List Lrq}
    (hnext : ∀ scan, scan.deadlock = grey →
      Matches grey (next scan)
        (DepthFirst.searchAll visit (rest.filterMap (t.target busy)) scan.scanned))
    (block : Lrq) {scan : Scan κ} (path : scan.deadlock = grey) :
    Matches grey (deadlockPursue busy t walk next block scan)
      (DepthFirst.searchAll visit ((block :: rest).filterMap (t.target busy)) scan.scanned) := by
  rw [List.filterMap_cons]
  unfold deadlockPursue
  by_cases hbusy : busy block.lrqOwner = true
  · have skip : t.target busy block = none := if_pos hbusy
    rw [if_pos hbusy, skip]
    exact hnext { scan with maybeDeadlock := true } path
  have ahead : t.target busy block =
      (t.ownPendingRequest block.lrqOwner).filter fun target => t.Waiting target := if_neg hbusy
  rw [if_neg hbusy, ahead]
  cases own : t.ownPendingRequest block.lrqOwner with
  | none => exact hnext scan path
  | some target =>
    by_cases hwaits : t.Waiting target
    · rw [Option.filter_some, if_pos (decide_eq_true hwaits)]
      unfold LockTable.Waiting at hwaits
      simp only
      rw [if_pos hwaits, DepthFirst.searchAll]
      exact (hwalk target scan path).bind hnext
    · rw [Option.filter_some, if_neg (by simpa using hwaits)]
      unfold LockTable.Waiting at hwaits
      simp only
      rw [if_neg hwaits]
      exact hnext scan path

theorem deadlockLoop_matches
    (hwalk : ∀ target scan, scan.deadlock = grey →
      Matches grey (walk target scan) (visit target scan.scanned)) (request : Lrq) {rs : List Lrq} :
    ∀ scan : Scan κ, scan.deadlock = grey →
      Matches grey (deadlockLoop ordering busy t walk request rs scan)
        (DepthFirst.searchAll visit ((examined ordering request rs).filterMap (t.target busy))
          scan.scanned) := by
  induction rs with
  | nil =>
    intro scan path
    refine ⟨rfl, ?_⟩
    intro r hr _
    cases hr
    exact path
  | cons block rest ih =>
    intro scan path
    rw [deadlockLoop, examined]
    split
    · by_cases same : block.lrqOffset = request.lrqOffset
      · rw [if_pos same, if_pos (.inl same)]
        exact ih scan path
      by_cases fits : compatible request.lrqRequested block.lrqState = true
      · rw [if_neg same, if_pos fits, if_pos (.inr fits)]
        exact ih scan path
      · rw [if_neg same, if_neg fits, if_neg (not_or.mpr ⟨same, fits⟩)]
        exact deadlockPursue_matches hwalk ih block path
    · split
      · refine ⟨rfl, ?_⟩
        intro r hr _
        cases hr
        exact path
      split
      · exact ih scan path
      · exact deadlockPursue_matches hwalk ih block path

theorem deadlockWalk_matches [DecidableEq κ] {depth : Nat} :
    ∀ {grey : List (κ × Nat)} (offset : κ × Nat) (scan : Scan κ), scan.deadlock = grey →
      Matches grey (deadlockWalk ordering busy t depth offset scan)
        (DepthFirst.search (t.walkTargets ordering busy) depth grey offset scan.scanned) := by
  induction depth with
  | zero =>
    intro grey offset scan _
    exact ⟨rfl, nofun⟩
  | succ depth ih =>
    intro grey offset scan path
    rw [deadlockWalk, DepthFirst.search, path]
    by_cases seen : offset ∈ scan.scanned
    · rw [if_pos seen, if_pos seen]
      refine ⟨rfl, ?_⟩
      intro r hr _
      cases hr
      exact path
    rw [if_neg seen, if_neg seen]
    by_cases back : offset ∈ grey
    · rw [if_pos back, if_pos back]
      refine ⟨rfl, ?_⟩
      intro r hr hnone
      cases hr
      cases hnone
    rw [if_neg back, if_neg back, LockTable.walkTargets]
    cases at_offset : t.lrq offset with
    | none =>
      refine ⟨rfl, ?_⟩
      intro r hr _
      cases hr
      rfl
    | some request =>
      have loop : Matches (offset :: grey) (deadlockLoop ordering busy t
          (deadlockWalk ordering busy t depth) request (lockRequests (t.locks offset.1))
          { scan with deadlock := offset :: grey }) _ :=
        deadlockLoop_matches ih request { scan with deadlock := offset :: grey } rfl
      refine ⟨?_, ?_⟩
      · rw [Option.elim_some, ← loop.1, Option.map_map, Option.map_map]
        apply Option.map_congr
        intro r _
        by_cases found : r.1.isSome = true
        · simp only [Function.comp_apply, if_pos found]
        · simp only [Function.comp_apply, if_neg found]
      · intro r hr hnone
        obtain ⟨r', hr', hr⟩ := Option.map_eq_some_iff.mp hr
        by_cases found : r'.1.isSome = true
        · rw [if_pos found] at hr
          rw [hr, hnone] at found
          cases found
        · rw [if_neg found] at hr
          have path' := loop.2 r' hr' (by simpa using found)
          rw [← hr, path', List.filter_cons_of_neg (by simp)]
          refine List.filter_eq_self.mpr ?_
          intro x hx
          exact decide_eq_true fun same => back (same ▸ hx)

/-- The walk over the flags is a search for a cycle, depth first. -/
theorem deadlockScan_eq [DecidableEq κ] {depth : Nat} (offset : κ × Nat) :
    deadlockScan ordering busy t depth offset =
      (DepthFirst.search (t.walkTargets ordering busy) depth [] offset []).map Prod.fst := by
  have matched : Matches [] (deadlockWalk ordering busy t depth offset ⟨[], [], false⟩) _ :=
    deadlockWalk_matches offset ⟨[], [], false⟩ rfl
  rw [← matched.1, Option.map_map]
  rfl

theorem waiting_of_mem_walkTargets {offset target : κ × Nat}
    (h : target ∈ t.walkTargets ordering busy offset) : t.Waiting target := by
  unfold LockTable.walkTargets at h
  cases at_offset : t.lrq offset with
  | none =>
    rw [at_offset] at h
    cases h
  | some request =>
    rw [at_offset] at h
    obtain ⟨block, _, hblock⟩ := List.mem_filterMap.mp h
    unfold LockTable.target at hblock
    split at hblock
    · cases hblock
    · exact of_decide_eq_true (Option.filter_eq_some_iff.mp hblock).2

/-- The walk rejects only requests that wait. -/
theorem deadlockScan_waiting [DecidableEq κ] {depth : Nat} {offset victim : κ × Nat}
    (h : deadlockScan ordering busy t depth offset = some (some victim)) : t.Waiting victim := by
  rw [deadlockScan_eq] at h
  obtain ⟨⟨found, black⟩, hr, h⟩ := Option.map_eq_some_iff.mp h
  cases h
  have cycle := (DepthFirst.search_found (List.forall_mem_nil _) hr).2
  obtain ⟨v, _, edge⟩ := Relation.TransGen.tail'_iff.mp cycle
  exact waiting_of_mem_walkTargets edge

end

end InterBase
