import InterBase.LockOwner

namespace InterBase

/-- The level that `LOCK_downgrade` returns. -/
def lockDowngradeLevel (request : Lrq) (lock : Lbl) : Level :=
  let state := downgradeState (pendingState request lckNone lock.lblRequests) request.lrqState.val
  if state = lckNone ∨ state = lckNull then lckNone else state

/-- What `convert` answers without a wait. -/
def convertGrants (type : Level) (request : Lrq) (lock : Lbl) : Bool :=
  compatible type (lockState (lock.countDown request.lrqState).lblCounts)

/-- The level of the request at a place, if it is still there. -/
def levelAt (offset : Nat) (lock : Option Lbl) : Option Level :=
  ((lockRequests lock).find? (·.lrqOffset = offset)).map Lrq.lrqState

/-- A request that somebody else waits for. -/
def Lbl.OtherPending (lock : Lbl) (request p : Lrq) : Prop :=
  p ∈ lock.lblRequests ∧ p.lrqPending = true ∧ p.lrqOffset ≠ request.lrqOffset

/-- What `LOCK_downgrade` is for: it comes down to the level that it reports, out of the way of the
requests that wait. -/
structure Downgrades (ordering : Bool) (request : Lrq) (lock : Lbl) : Prop where
  granted : lockDowngradeLevel request lock ≠ lckNone →
    convertGrants (lockDowngradeLevel request lock) request lock = true
  reports : levelAt request.lrqOffset (lockDowngrade ordering request lock) =
    if lockDowngradeLevel request lock = lckNone then none
    else some (lockDowngradeLevel request lock)
  lower : lockDowngradeLevel request lock ≤ request.lrqState
  unblocks : ∀ p, lock.OtherPending request p →
    compatible p.lrqRequested (lockDowngradeLevel request lock) = true

/-- Somebody waits for `LCK_PR` and nobody for more, and a request at `LCK_SW` is not the only one
there; or `LCK_SW` is the highest level that is waited for, besides `LCK_PR`. -/
def Lbl.MixedDemand (lock : Lbl) (request : Lrq) : Prop :=
  (∃ p, lock.OtherPending request p ∧ p.lrqRequested = lckPR) ∧
    ((∀ p, lock.OtherPending request p → p.lrqRequested ≤ lckPR) ∧ request.lrqState = lckSW ∧
        (∃ q ∈ lock.lblRequests, q.lrqOffset ≠ request.lrqOffset ∧ q.lrqState = lckSW) ∨
      (∃ p, lock.OtherPending request p ∧ p.lrqRequested = lckSW) ∧
        (∀ p, lock.OtherPending request p → p.lrqRequested ≤ lckSW) ∧ lckSW ≤ request.lrqState)

/-- The highest of the levels that are waited for. -/
theorem pendingState_max (request : Lrq) (state : Level) (requests : List Lrq) :
    state ≤ pendingState request state requests ∧
      (∀ p ∈ requests, p.lrqPending = true → p.lrqOffset ≠ request.lrqOffset →
        p.lrqRequested ≤ pendingState request state requests) ∧
      (pendingState request state requests = state ∨
        ∃ p ∈ requests, (p.lrqPending = true ∧ p.lrqOffset ≠ request.lrqOffset) ∧
          p.lrqRequested = pendingState request state requests) := by
  induction requests generalizing state with
  | nil => exact ⟨Fin.le_refl _, nofun, .inl rfl⟩
  | cons pending rest ih =>
    unfold pendingState
    simp only
    split
    next waits =>
      split
      next top =>
        -- nothing is above `LCK_EX`, so the rest need not be looked at
        rw [top]
        refine ⟨Fin.le_last _, fun p _ _ _ => Fin.le_last _, ?_⟩
        rcases max_choice pending.lrqRequested state with new | old
        · exact .inr ⟨pending, List.mem_cons_self, waits, new.symm.trans top⟩
        · exact .inl (top.symm.trans old)
      next =>
        obtain ⟨low, all, attained⟩ := ih (max pending.lrqRequested state)
        refine ⟨(le_max_right _ _).trans low, ?_, ?_⟩
        · intro p hp hpending hother
          obtain rfl | hp := List.mem_cons.mp hp
          · exact (le_max_left _ _).trans low
          · exact all p hp hpending hother
        · obtain same | ⟨p, hp, hwaits, same⟩ := attained
          · rcases max_choice pending.lrqRequested state with new | old
            · exact .inr ⟨pending, List.mem_cons_self, waits, new.symm.trans same.symm⟩
            · exact .inl (same.trans old)
          · exact .inr ⟨p, List.mem_cons_of_mem _ hp, hwaits, same⟩
    next idle =>
      obtain ⟨low, all, attained⟩ := ih state
      refine ⟨low, ?_, ?_⟩
      · intro p hp hpending hother
        obtain rfl | hp := List.mem_cons.mp hp
        · exact absurd ⟨hpending, hother⟩ idle
        · exact all p hp hpending hother
      · apply attained.imp_right
        intro found
        obtain ⟨p, hp, rest⟩ := found
        exact ⟨p, List.mem_cons_of_mem _ hp, rest⟩

theorem downgradeState_le (pending state : Level) : downgradeState pending state.val ≤ state := by
  revert pending state
  decide

/-- Only `LCK_PR` is not served by the level that serves the highest one. -/
theorem compatible_downgradeState {pending state p : Level} (le : p ≤ pending) :
    compatible p (downgradeState pending state.val) = true ↔
      ¬(p = lckPR ∧ pending = lckSW ∧ lckSW ≤ state) := by
  revert pending state p
  decide

/-- Only `LCK_SW` is compatible with a level and not with one below it. -/
theorem downgradeState_compatible {pending state q : Level} (beside : compatible state q = true) :
    compatible (downgradeState pending state.val) q = true ↔
      ¬(pending = lckPR ∧ state = lckSW ∧ q = lckSW) := by
  revert pending state q
  decide

section

variable {ordering : Bool} {lock : Lbl} {request : Lrq}

theorem otherPending_le {p : Lrq} (h : lock.OtherPending request p) :
    p.lrqRequested ≤ pendingState request lckNone lock.lblRequests :=
  (pendingState_max request lckNone lock.lblRequests).2.1 p h.1 h.2.1 h.2.2

theorem otherPending_attains
    (some : pendingState request lckNone lock.lblRequests ≠ lckNone) :
    ∃ p, lock.OtherPending request p ∧
      p.lrqRequested = pendingState request lckNone lock.lblRequests := by
  obtain none | ⟨p, hp, waits, same⟩ := (pendingState_max request lckNone lock.lblRequests).2.2
  · exact absurd none some
  · exact ⟨p, ⟨hp, waits⟩, same⟩

/-- When the highest level that is waited for is a given one. -/
theorem pendingState_eq_iff {level : Level} (some : level ≠ lckNone) :
    pendingState request lckNone lock.lblRequests = level ↔
      (∃ p, lock.OtherPending request p ∧ p.lrqRequested = level) ∧
        ∀ p, lock.OtherPending request p → p.lrqRequested ≤ level := by
  constructor
  · intro same
    subst same
    exact ⟨otherPending_attains some, fun p hp => otherPending_le hp⟩
  · intro h
    obtain ⟨⟨p, hp, same⟩, all⟩ := h
    have low : level ≤ pendingState request lckNone lock.lblRequests := same ▸ otherPending_le hp
    have positive : pendingState request lckNone lock.lblRequests ≠ lckNone := by
      intro none
      rw [none] at low
      exact some (le_antisymm low (Fin.zero_le _))
    obtain ⟨q, hq, attained⟩ := otherPending_attains positive
    exact le_antisymm (attained ▸ all q hq) low

/-- The conversion is refused only to a request that is not alone at `LCK_SW`. -/
theorem convertGrants_iff (h : lock.Consistent) (mem : request ∈ lock.lblRequests) :
    convertGrants
        (downgradeState (pendingState request lckNone lock.lblRequests) request.lrqState.val)
        request lock = true ↔
      ¬(pendingState request lckNone lock.lblRequests = lckPR ∧ request.lrqState = lckSW ∧
        ∃ q ∈ lock.lblRequests, q.lrqOffset ≠ request.lrqOffset ∧ q.lrqState = lckSW) := by
  obtain ⟨before, after, split⟩ := List.append_of_mem mem
  have granted := Granted.cons_iff.mp (split ▸ h.granted)
  have counted : Counted (lock.countDown request.lrqState).lblCounts (before ++ after) :=
    Lbl.counted_countDown (split ▸ h.counted) h.small
  have others : ∀ q, q ∈ before ++ after ↔ q ∈ lock.lblRequests ∧
      q.lrqOffset ≠ request.lrqOffset := by
    intro q
    constructor
    · intro hq
      exact ⟨split ▸ (Lbl.mem_middle q).mpr (.inr hq), Lbl.offset_ne h.distinct split hq⟩
    · intro hq
      obtain rfl | rest := (Lbl.mem_middle q).mp (split ▸ hq.1)
      · exact absurd rfl hq.2
      · exact rest
  unfold convertGrants
  rw [compatible_lockState_iff _ counted granted.1]
  constructor
  · intro all mixed
    obtain ⟨highest, state, q, hq, other, level⟩ := mixed
    have beside := (others q).mpr ⟨hq, other⟩
    exact (downgradeState_compatible (granted.2 q beside)).mp (all q beside) ⟨highest, state, level⟩
  · intro apart q hq
    rw [downgradeState_compatible (granted.2 q hq)]
    intro mixed
    obtain ⟨highest, state, level⟩ := mixed
    obtain ⟨there, other⟩ := (others q).mp hq
    exact apart ⟨highest, state, q, there, other, level⟩

theorem levelAt_of_does {after : Option Lbl} {level : Level}
    (does : ∀ r ∈ lockRequests after, r.lrqOffset = request.lrqOffset → r.lrqState = level)
    {r : Lrq} (mem : r ∈ lockRequests after) (offset : r.lrqOffset = request.lrqOffset) :
    levelAt request.lrqOffset after = some level := by
  unfold levelAt
  obtain ⟨q, found⟩ : ∃ q, (lockRequests after).find? (·.lrqOffset = request.lrqOffset) = some q := by
    apply Option.isSome_iff_exists.mp
    rw [List.find?_isSome]
    exact ⟨r, mem, decide_eq_true offset⟩
  rw [found, Option.map_some, does q (List.mem_of_find?_eq_some found)]
  simpa using List.find?_some found

theorem levelAt_of_gone {after : Option Lbl}
    (gone : ∀ r ∈ lockRequests after, r.lrqOffset ≠ request.lrqOffset) :
    levelAt request.lrqOffset after = none := by
  unfold levelAt
  rw [List.find?_eq_none.mpr fun r hr => by simpa using gone r hr, Option.map_none]

/-- The level of a request behind `convert` without a wait. -/
theorem levelAt_convert (h : lock.Consistent) (mem : request ∈ lock.lblRequests) (type : Level) :
    levelAt request.lrqOffset (some (convert ordering type false request lock).1) =
      some (if convertGrants type request lock then type else request.lrqState) := by
  let asked : Lrq := { request with lrqRequested := type }
  have same : asked.lrqOffset = request.lrqOffset := rfl
  have back : (lock.countDown request.lrqState).countUp request.lrqState = lock :=
    Lbl.countUp_countDown (h.small _)
  have found : request ∈ (grant asked (lock.countDown request.lrqState)).2.lblRequests := by
    rw [grant_requests]
    exact mem
  have distinct : ((grant asked (lock.countDown request.lrqState)).2.lblRequests.map
      Lrq.lrqOffset).Nodup := by
    rw [grant_requests]
    exact h.distinct
  unfold convert convertGrants
  simp only [back]
  split
  next can =>
    have granted : Does request.lrqOffset lock.lblRequests (postPending ordering
        ((grant asked (lock.countDown request.lrqState)).2.put asked.granted)).lblRequests
        (· = asked.granted) := grant_does _ _ _ h mem same rfl
    obtain ⟨before, after, split⟩ := List.append_of_mem found
    have put := Lbl.put_eq _ asked.granted distinct split same
    have there : asked.granted ∈ (postPending ordering
        ((grant asked (lock.countDown request.lrqState)).2.put asked.granted)).lblRequests := by
      apply mem_postPending _ rfl
      rw [put, Lbl.withRequests_requests]
      exact (Lbl.mem_middle _).mpr (.inl rfl)
    refine levelAt_of_does ?_ there rfl
    intro r hr offset
    rw [granted.after r hr offset]
    rfl
  next cannot =>
    obtain ⟨put, there⟩ := put_does h mem { request with lrqRequested := request.lrqState } rfl
    refine levelAt_of_does ?_ there rfl
    intro r hr offset
    rw [put.after r hr offset]

theorem mixedDemand_iff : lock.MixedDemand request ↔
    (pendingState request lckNone lock.lblRequests = lckPR ∧ request.lrqState = lckSW ∧
      ∃ q ∈ lock.lblRequests, q.lrqOffset ≠ request.lrqOffset ∧ q.lrqState = lckSW) ∨
    (pendingState request lckNone lock.lblRequests = lckSW ∧ lckSW ≤ request.lrqState ∧
      ∃ p, lock.OtherPending request p ∧ p.lrqRequested = lckPR) := by
  unfold Lbl.MixedDemand
  rw [pendingState_eq_iff (by decide), pendingState_eq_iff (by decide)]
  constructor
  · intro h
    obtain ⟨reader, ⟨all, rest⟩ | ⟨writer, all, rest⟩⟩ := h
    · exact .inl ⟨⟨reader, all⟩, rest⟩
    · exact .inr ⟨⟨writer, all⟩, rest, reader⟩
  · intro h
    obtain ⟨⟨reader, all⟩, rest⟩ | ⟨⟨writer, all⟩, rest, reader⟩ := h
    · exact ⟨reader, .inl ⟨all, rest⟩⟩
    · exact ⟨reader, .inr ⟨writer, all, rest⟩⟩

/-- The level that the request comes down to is worth keeping. -/
theorem Lbl.MixedDemand.stays (mixed : lock.MixedDemand request) :
    ¬(downgradeState (pendingState request lckNone lock.lblRequests) request.lrqState.val = lckNone ∨
      downgradeState (pendingState request lckNone lock.lblRequests) request.lrqState.val =
        lckNull) := by
  have shared : ∀ state : Level, lckSW ≤ state → downgradeState lckSW state.val = lckSW := by decide
  obtain ⟨highest, state, -⟩ | ⟨highest, state, -⟩ := mixedDemand_iff.mp mixed
  · rw [highest, state]
    decide
  · rw [highest, shared _ state]
    decide

theorem downgrades_of_gone (h : lock.Consistent) (mem : request ∈ lock.lblRequests)
    (low : downgradeState (pendingState request lckNone lock.lblRequests) request.lrqState.val = lckNone ∨
      downgradeState (pendingState request lckNone lock.lblRequests) request.lrqState.val =
        lckNull) : Downgrades ordering request lock := by
  have level : lockDowngradeLevel request lock = lckNone := by
    unfold lockDowngradeLevel
    simp only
    rw [if_pos low]
  have gone : lockDowngrade ordering request lock = releaseRequest ordering request lock := by
    unfold lockDowngrade
    simp only
    rw [if_pos low]
  refine ⟨?_, ?_, ?_, ?_⟩
  · intro some
    exact absurd level some
  · rw [level, if_pos rfl, gone]
    exact levelAt_of_gone fun r hr offset => (releaseRequest_does ordering h mem).after r hr offset
  · rw [level]
    exact Fin.zero_le _
  · intro p _
    rw [level]
    exact compatible_none _

theorem downgrades_iff_of_stays (h : lock.Consistent) (mem : request ∈ lock.lblRequests)
    (stays : ¬(downgradeState (pendingState request lckNone lock.lblRequests) request.lrqState.val =
        lckNone ∨
      downgradeState (pendingState request lckNone lock.lblRequests) request.lrqState.val =
        lckNull)) : Downgrades ordering request lock ↔ ¬lock.MixedDemand request := by
  have level : lockDowngradeLevel request lock =
      downgradeState (pendingState request lckNone lock.lblRequests) request.lrqState.val := by
    unfold lockDowngradeLevel
    simp only
    rw [if_neg stays]
  have converted : lockDowngrade ordering request lock =
      some (convert ordering (lockDowngradeLevel request lock) false request lock).1 := by
    rw [level]
    unfold lockDowngrade
    simp only
    rw [if_neg stays]
  have some : lockDowngradeLevel request lock ≠ lckNone := level ▸ fun none => stays (.inl none)
  have grants := convertGrants_iff h mem
  rw [← level] at grants
  rw [mixedDemand_iff]
  constructor
  · intro downgrades mixed
    obtain refused | ⟨highest, state, p, hp, protected_read⟩ := mixed
    · exact grants.mp (downgrades.granted some) refused
    · have blocked := downgrades.unblocks p hp
      rw [level, compatible_downgradeState (otherPending_le hp)] at blocked
      exact blocked ⟨protected_read, highest, state⟩
  · intro apart
    have granted : convertGrants (lockDowngradeLevel request lock) request lock = true :=
      grants.mpr fun refused => apart (.inl refused)
    refine ⟨fun _ => granted, ?_, ?_, ?_⟩
    · rw [converted, levelAt_convert h mem, if_pos granted, if_neg some]
    · rw [level]
      exact downgradeState_le _ _
    · intro p hp
      rw [level, compatible_downgradeState (otherPending_le hp)]
      intro blocked
      obtain ⟨protected_read, highest, state⟩ := blocked
      exact apart (.inr ⟨highest, state, p, hp, protected_read⟩)

end

/-- `LOCK_downgrade` does what it is for unless the levels that are waited for are not ordered. -/
theorem lockDowngrade_downgrades_iff {κ : Type} [DecidableEq κ] {ordering : Bool} {t : LockTable κ}
    (reachable : LockTable.Reachable ordering t) {key : κ} {lock : Lbl}
    (found : t.locks key = some lock) {request : Lrq} (mem : request ∈ lock.lblRequests) :
    Downgrades ordering request lock ↔ ¬lock.MixedDemand request := by
  have h := reachable.consistent key lock found
  by_cases low : downgradeState (pendingState request lckNone lock.lblRequests)
      request.lrqState.val = lckNone ∨
    downgradeState (pendingState request lckNone lock.lblRequests) request.lrqState.val = lckNull
  · exact iff_of_true (downgrades_of_gone h mem low) fun mixed => mixed.stays low
  · exact downgrades_iff_of_stays h mem low

/-- Two writers that share a lock, with a reader that waits. -/
def sharedWriters : LockTable Unit :=
  ((LockTable.unused.enq true () 1 1 lckSW true).enq true () 2 2 lckSW true).enq true () 3 3 lckPR true

theorem sharedWriters_reachable : LockTable.Reachable true sharedWriters := by
  apply LockTable.Reachable.next
  · apply LockTable.Reachable.next
    · apply LockTable.Reachable.next LockTable.Reachable.start
      exact .enq _ () 1 1 lckSW true (by decide) (by decide)
    · exact .enq _ () 2 2 lckSW true (by decide) (by decide)
  · exact .enq _ () 3 3 lckPR true (by decide) (by decide)

theorem sharedWriters_requests : (sharedWriters.locks ()).map Lbl.lblRequests =
    some [⟨1, 1, lckSW, lckSW, false, false, .none⟩, ⟨2, 2, lckSW, lckSW, false, false, .none⟩,
      ⟨3, 3, lckPR, lckNone, true, false, .waits false⟩] := rfl

/-- `LOCK_downgrade` of the first writer reports `LCK_PR`, and the writer stays at `LCK_SW`. -/
theorem lockDowngrade_fails : ¬(∀ lock, sharedWriters.locks () = some lock →
    ∀ request ∈ lock.lblRequests, request.lrqState ≠ lckNone → Downgrades true request lock) := by
  have reported : (sharedWriters.locks ()).map
      (lockDowngradeLevel ⟨1, 1, lckSW, lckSW, false, false, .none⟩) = some lckPR := by decide
  have actual : (sharedWriters.locks ()).map (fun lock => levelAt 1
      (lockDowngrade true ⟨1, 1, lckSW, lckSW, false, false, .none⟩ lock)) = some (some lckSW) := by
    decide
  obtain ⟨lock, found, requests⟩ := Option.map_eq_some_iff.mp sharedWriters_requests
  rw [found, Option.map_some, Option.some.injEq] at reported actual
  intro all
  have reports := (all lock found ⟨1, 1, lckSW, lckSW, false, false, .none⟩
    (requests ▸ List.mem_cons_self) (by decide)).reports
  rw [reported, actual] at reports
  exact absurd reports (by decide)

theorem lockDowngrade_downgrades_iff_writers : ∃ lock, sharedWriters.locks () = some lock ∧
    (Downgrades true ⟨2, 2, lckSW, lckSW, false, false, .none⟩ lock ↔
      ¬lock.MixedDemand ⟨2, 2, lckSW, lckSW, false, false, .none⟩) := by
  obtain ⟨lock, found, requests⟩ := Option.map_eq_some_iff.mp sharedWriters_requests
  refine ⟨lock, found, lockDowngrade_downgrades_iff sharedWriters_reachable found ?_⟩
  rw [requests]
  decide

end InterBase
