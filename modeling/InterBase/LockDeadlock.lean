import InterBase.LockOwner

namespace InterBase

/-- A request that a pass of `post_pending` keeps waiting. -/
def Lbl.KeepsWaiting (ordering : Bool) (lock : Lbl) (r : Lrq) : Prop :=
  r.lrqPending = true ∧ r ∈ (postPending ordering lock).lblRequests

/-- One request waits for another of the same lock: for its granted level, or, with `LOCK_ordering`,
because it is in front and keeps waiting. -/
def Lbl.WaitsFor (ordering : Bool) (lock : Lbl) (r block : Lrq) : Prop :=
  block.lrqOffset ≠ r.lrqOffset ∧
    (compatible r.lrqRequested block.lrqState = false ∨
      (ordering = true ∧ [block, r].Sublist lock.lblRequests ∧ lock.KeepsWaiting ordering block))

namespace LockTable

variable {κ : Type}

/-- A pending request, one that it waits for, and the pending request of the owner of that. -/
def WaitsBy (waits : Lbl → Lrq → Lrq → Prop) (t : LockTable κ) (p target : κ × Nat) : Prop :=
  ∃ lock r block, t.locks p.1 = some lock ∧ r ∈ lock.lblRequests ∧ r.lrqOffset = p.2 ∧
    r.lrqPending = true ∧ block ∈ lock.lblRequests ∧ waits lock r block ∧
    t.ownPendingRequest block.lrqOwner = some target ∧ t.Waiting target

def Waits (ordering : Bool) (t : LockTable κ) : κ × Nat → κ × Nat → Prop :=
  t.WaitsBy (Lbl.WaitsFor ordering)

/-- The waits that the tests of `deadlock_walk` let through. -/
def WaitsSeen (ordering : Bool) (t : LockTable κ) : κ × Nat → κ × Nat → Prop :=
  t.WaitsBy fun lock r block =>
    lock.WaitsFor ordering r block ∧ block ∈ examined ordering r lock.lblRequests

end LockTable

/-- A pass leaves waiting what waits for levels that stay, or for a request that it stops at. -/
theorem postPendingLoop_keeps {ordering : Bool} {P : Lrq → Prop}
    (pending : ∀ s, P s → s.lrqPending = true) {rest : List Lrq} :
    ∀ {lock : Lbl} (before : List Lrq), (lock.withRequests (before ++ rest)).Consistent →
      (∀ s ∈ rest, P s →
        (∃ x ∈ before ++ rest, x.lrqOffset ≠ s.lrqOffset ∧
          compatible s.lrqRequested x.lrqState = false ∧ (x.lrqPending = true → P x)) ∨
        (ordering = true ∧ ∃ x, P x ∧ [x, s].Sublist rest)) →
      ∀ s ∈ rest, P s → s ∈ (postPendingLoop ordering lock rest).2 := by
  induction rest with
  | nil =>
    intro lock before _ _ s hs
    cases hs
  | cons request rest ih =>
    intro lock before h waits s hs hP
    have move : ∀ r : Lrq, ∀ list : List Lrq, before ++ r :: list = (before ++ [r]) ++ list := by
      intro r list
      simp
    have nodup : (request :: rest).Nodup := by
      have distinct := h.distinct
      rw [Lbl.withRequests_requests, List.map_append] at distinct
      exact (List.Nodup.of_map _ distinct.of_append_right)
    have fresh := (List.nodup_cons.mp nodup).1
    -- a request in front of another one is not further on
    have front : ∀ {x s : Lrq}, x ≠ request → [x, s].Sublist (request :: rest) →
        [x, s].Sublist rest := by
      intro x s other sub
      rcases List.sublist_cons_iff.mp sub with sub | ⟨r, equal, -⟩
      · exact sub
      · exact absurd (List.cons.inj equal).1 other
    have skip : (ordering = true → ¬P request) → s ∈ request :: (postPendingLoop ordering lock rest).2 := by
      intro passed
      rcases List.mem_cons.mp hs with rfl | hs
      · exact List.mem_cons_self
      · refine List.mem_cons_of_mem _ (ih (before ++ [request]) (move _ _ ▸ h) ?_ s hs hP)
        intro s' hs' hP'
        rcases waits s' (List.mem_cons_of_mem _ hs') hP' with level | ⟨on, x, hx, sub⟩
        · exact .inl (move _ _ ▸ level)
        · exact .inr ⟨on, x, hx, front (fun same => passed on (same ▸ hx)) sub⟩
    rw [postPendingLoop_cons h]
    split
    next idle => exact skip fun _ hrequest => absurd (pending request hrequest) (by simp [idle])
    next hpending =>
    rw [Bool.not_eq_false] at hpending
    split
    next can =>
      have free : ¬P request := by
        intro hrequest
        rcases waits request List.mem_cons_self hrequest with ⟨x, hx, other, conflict, -⟩ | ⟨-, x, -, sub⟩
        · rcases (Lbl.mem_middle x).mp hx with rfl | hx
          · exact other rfl
          · rw [can x hx] at conflict
            cases conflict
        · rcases List.sublist_cons_iff.mp sub with sub | ⟨r, equal, sub⟩
          · exact fresh (sub.subset (List.mem_cons_of_mem _ List.mem_cons_self))
          · rw [← (List.cons.inj equal).2] at sub
            exact fresh (sub.subset List.mem_cons_self)
      have next := h.regrant can
      rcases List.mem_cons.mp hs with rfl | hs
      · exact absurd hP free
      refine List.mem_cons_of_mem _ (ih (before ++ [request.granted]) (move _ _ ▸ next) ?_ s hs hP)
      intro s' hs' hP'
      rw [← move]
      rcases waits s' (List.mem_cons_of_mem _ hs') hP' with ⟨x, hx, other, conflict, hx'⟩ | ⟨on, x, hx, sub⟩
      · rcases (Lbl.mem_middle x).mp hx with rfl | hx
        · exact absurd (hx' hpending) free
        · exact .inl ⟨x, (Lbl.mem_middle x).mpr (.inr hx), other, conflict, hx'⟩
      · exact .inr ⟨on, x, hx, front (fun same => free (same ▸ hx)) sub⟩
    next stuck =>
    split
    · exact hs
    next off => exact skip fun on => absurd on off

/-- The whole pass. -/
theorem keepsWaiting_of_waits {ordering : Bool} {lock : Lbl} (h : lock.Consistent) {P : Lrq → Prop}
    (pending : ∀ s, P s → s.lrqPending = true)
    (waits : ∀ s ∈ lock.lblRequests, P s →
      (∃ x ∈ lock.lblRequests, x.lrqOffset ≠ s.lrqOffset ∧
        compatible s.lrqRequested x.lrqState = false ∧ (x.lrqPending = true → P x)) ∨
      (ordering = true ∧ ∃ x, P x ∧ [x, s].Sublist lock.lblRequests)) {s : Lrq}
    (mem : s ∈ lock.lblRequests) (hP : P s) : lock.KeepsWaiting ordering s := by
  refine ⟨pending s hP, ?_⟩
  unfold postPending
  split
  · exact mem
  · exact postPendingLoop_keeps pending [] h waits s mem hP

/-- A conversion, or any request without `LOCK_ordering`, looks at the granted levels. -/
theorem examined_levels {ordering : Bool} {r block : Lrq}
    (mode : ordering = false ∨ lckNull < r.lrqState) {rs : List Lrq}
    (h : block ∈ examined ordering r rs) :
    block ∈ rs ∧ block.lrqOffset ≠ r.lrqOffset ∧
      compatible r.lrqRequested block.lrqState = false := by
  induction rs with
  | nil => cases h
  | cons x rest ih =>
    rw [examined, if_pos mode] at h
    split at h
    · obtain ⟨mem, holds⟩ := ih h
      exact ⟨List.mem_cons_of_mem x mem, holds⟩
    next pursued =>
      rcases List.mem_cons.mp h with rfl | h
      · rw [not_or, Bool.not_eq_true] at pursued
        exact ⟨List.mem_cons_self, pursued⟩
      · obtain ⟨mem, holds⟩ := ih h
        exact ⟨List.mem_cons_of_mem x mem, holds⟩

theorem mem_examined_levels {ordering : Bool} {r block : Lrq}
    (mode : ordering = false ∨ lckNull < r.lrqState) {rs : List Lrq} (mem : block ∈ rs)
    (other : block.lrqOffset ≠ r.lrqOffset)
    (conflict : compatible r.lrqRequested block.lrqState = false) :
    block ∈ examined ordering r rs := by
  induction rs with
  | nil => cases mem
  | cons x rest ih =>
    rw [examined, if_pos mode]
    rcases List.mem_cons.mp mem with rfl | mem
    · rw [if_neg (by simp [other, conflict])]
      exact List.mem_cons_self
    · split
      · exact ih mem
      · exact List.mem_cons_of_mem x (ih mem)

/-- A new request with `LOCK_ordering` looks at what is in front of it. -/
theorem examined_front {ordering : Bool} {r block : Lrq}
    (mode : ¬(ordering = false ∨ lckNull < r.lrqState)) {rs : List Lrq}
    (h : block ∈ examined ordering r rs) :
    block ∈ rs ∧ block.lrqOffset ≠ r.lrqOffset ∧ (r ∈ rs → [block, r].Sublist rs) ∧
      compatible r.lrqRequested (max block.lrqState block.lrqRequested) = false := by
  induction rs with
  | nil => cases h
  | cons x rest ih =>
    rw [examined, if_neg mode] at h
    split at h
    · cases h
    next other =>
    have further : ∀ q, q.lrqOffset = r.lrqOffset → q ∈ x :: rest → q ∈ rest := by
      intro q same hq
      rcases List.mem_cons.mp hq with rfl | hq
      · exact absurd same other
      · exact hq
    have behind : block ∈ examined ordering r rest → block ∈ x :: rest ∧
        block.lrqOffset ≠ r.lrqOffset ∧ (r ∈ x :: rest → [block, r].Sublist (x :: rest)) ∧
        compatible r.lrqRequested (max block.lrqState block.lrqRequested) = false := by
      intro hblock
      obtain ⟨mem, hoffset, front, conflict⟩ := ih hblock
      exact ⟨List.mem_cons_of_mem x mem, hoffset, fun hr => (front (further r rfl hr)).cons x, conflict⟩
    split at h
    · exact behind h
    next conflict =>
      rcases List.mem_cons.mp h with rfl | h
      · refine ⟨List.mem_cons_self, other, fun hr => ?_, (Bool.not_eq_true _).mp conflict⟩
        exact (List.singleton_sublist.mpr (further r rfl hr)).cons_cons block
      · exact behind h

namespace LockTable

variable {κ : Type} {ordering : Bool} {t : LockTable κ}

theorem lrq_eq_some (consistent : ∀ key lock, t.locks key = some lock → lock.Consistent)
    {p : κ × Nat} {r : Lrq} :
    t.lrq p = some r ↔ ∃ lock, t.locks p.1 = some lock ∧ r ∈ lock.lblRequests ∧ r.lrqOffset = p.2 := by
  unfold lrq lockRequests
  cases found : t.locks p.1 with
  | none => simp
  | some lock =>
    rw [Option.elim_some]
    constructor
    · intro h
      exact ⟨lock, rfl, List.mem_of_find?_eq_some h, by simpa using List.find?_some h⟩
    · rintro ⟨lock', hlock', mem, at_offset⟩
      cases hlock'
      rw [← at_offset]
      exact (consistent p.1 lock found).find_eq mem

/-- The walk goes from a request to another by a request that its tests let through. -/
theorem edge_walkTargets (consistent : ∀ key lock, t.locks key = some lock → lock.Consistent)
    {p target : κ × Nat} (waiting : t.Waiting p) :
    DepthFirst.Edge (t.walkTargets ordering fun _ => false) p target ↔
      t.WaitsBy (fun lock r block => block ∈ examined ordering r lock.lblRequests) p target := by
  obtain ⟨r, hr, hpending⟩ := (Option.any_eq_true _ _).mp waiting
  obtain ⟨lock, found, mem, at_offset⟩ := (lrq_eq_some consistent).mp hr
  unfold DepthFirst.Edge walkTargets
  rw [hr, Option.elim_some, found]
  have here : ∀ lock' r', t.locks p.1 = some lock' → r' ∈ lock'.lblRequests → r'.lrqOffset = p.2 →
      lock' = lock ∧ r' = r := by
    intro lock' r' found' mem' at_offset'
    have same := (lrq_eq_some consistent).mpr ⟨lock', found', mem', at_offset'⟩
    exact ⟨Option.some.inj (found'.symm.trans found), Option.some.inj (same.symm.trans hr)⟩
  rw [List.mem_filterMap]
  constructor
  · rintro ⟨block, hblock, htarget⟩
    have mem_block : block ∈ lock.lblRequests := by
      by_cases mode : ordering = false ∨ lckNull < r.lrqState
      · exact (examined_levels mode hblock).1
      · exact (examined_front mode hblock).1
    unfold LockTable.target at htarget
    rw [if_neg Bool.false_ne_true] at htarget
    obtain ⟨own, hwaits⟩ := Option.filter_eq_some_iff.mp htarget
    exact ⟨lock, r, block, found, mem, at_offset, hpending, mem_block, hblock, own,
      of_decide_eq_true hwaits⟩
  · rintro ⟨lock', r', block, found', mem', at_offset', -, -, hblock, own, hwaits⟩
    obtain ⟨rfl, rfl⟩ := here lock' r' found' mem' at_offset'
    refine ⟨block, hblock, ?_⟩
    unfold LockTable.target
    rw [if_neg Bool.false_ne_true]
    exact Option.filter_eq_some_iff.mpr ⟨own, decide_eq_true hwaits⟩

theorem WaitsBy.waiting {waits : Lbl → Lrq → Lrq → Prop} {p target : κ × Nat}
    (h : t.WaitsBy waits p target) : t.Waiting target := by
  obtain ⟨_, _, _, -, -, -, -, -, -, -, hwaits⟩ := h
  exact hwaits

theorem WaitsBy.imp {waits waits' : Lbl → Lrq → Lrq → Prop}
    (imp : ∀ lock r block, waits lock r block → waits' lock r block) {p target : κ × Nat}
    (h : t.WaitsBy waits p target) : t.WaitsBy waits' p target := by
  obtain ⟨lock, r, block, found, mem, at_offset, pending, mem_block, hwaits, rest⟩ := h
  exact ⟨lock, r, block, found, mem, at_offset, pending, mem_block, imp lock r block hwaits, rest⟩

/-- The requests from which the walk comes to a cycle. -/
def Stuck (ordering : Bool) (t : LockTable κ) (p : κ × Nat) : Prop :=
  ∃ w, DepthFirst.Reaches (DepthFirst.Edge (t.walkTargets ordering fun _ => false)) p w

/-- The requests of a lock that wait and from which the walk comes to a cycle. -/
def StuckIn (ordering : Bool) (t : LockTable κ) (key : κ) (lock : Lbl) (s : Lrq) : Prop :=
  s ∈ lock.lblRequests ∧ s.lrqPending = true ∧ t.Stuck ordering (key, s.lrqOffset)

theorem examined_waits [DecidableEq κ] (run : SerialRun ordering t) {key : κ} {lock : Lbl}
    (found : t.locks key = some lock) {r block : Lrq} (mem : r ∈ lock.lblRequests)
    (hblock : block ∈ examined ordering r lock.lblRequests) {target : κ × Nat}
    (own : t.ownPendingRequest block.lrqOwner = some target) (hwaits : t.Waiting target)
    (stuck : t.Stuck ordering target) :
    block.lrqOffset ≠ r.lrqOffset ∧
      ((compatible r.lrqRequested block.lrqState = false ∧
          (block.lrqPending = true → t.StuckIn ordering key lock block)) ∨
        (ordering = true ∧ t.StuckIn ordering key lock block ∧
          [block, r].Sublist lock.lblRequests)) := by
  have consistent := run.reachable.consistent
  have owned := run.owned
  have pending : block ∈ lock.lblRequests → block.lrqPending = true →
      t.StuckIn ordering key lock block := by
    intro mem_block hpending
    have own' := owned.pending key block (by rw [requests_of_found found]; exact mem_block) hpending
    rw [own] at own'
    cases own'
    exact ⟨mem_block, hpending, stuck⟩
  by_cases mode : ordering = false ∨ lckNull < r.lrqState
  · obtain ⟨mem_block, other, conflict⟩ := examined_levels mode hblock
    exact ⟨other, .inl ⟨conflict, pending mem_block⟩⟩
  obtain ⟨mem_block, other, front, conflict⟩ := examined_front mode hblock
  refine ⟨other, ?_⟩
  by_cases hpending : block.lrqPending = true
  · rw [not_or, Bool.not_eq_false] at mode
    exact .inr ⟨mode.1, pending mem_block hpending, front mem⟩
  have member : block ∈ t.requests key := by
    rw [requests_of_found found]
    exact mem_block
  have idle : block.lrqPending = false := by simpa using hpending
  have accepted : block.lrqRejected = false ∨ block.lrqCall = .none := by
    -- an owner that has to clean up does not wait
    by_contra busy
    rw [not_or] at busy
    obtain ⟨r', hr', at_offset, howner, c, call⟩ := owned.pointer _ target.1 target.2 own
    obtain ⟨same_key, same⟩ := run.oneCall key target.1 block member r' hr' howner.symm busy.2
      (by rw [call]; nofun)
    obtain ⟨q, hq, hqpending⟩ := (Option.any_eq_true _ _).mp hwaits
    have here : t.lrq target = some block := by
      refine (lrq_eq_some consistent).mpr ⟨lock, ?_, mem_block, same.trans at_offset⟩
      rw [← same_key]
      exact found
    rw [here] at hq
    cases hq
    exact hpending hqpending
  have asked : block.lrqRequested = block.lrqState := owned.asked key block member idle accepted
  rw [asked, max_self] at conflict
  exact .inl ⟨conflict, fun h => absurd h hpending⟩

/-- Where the walk comes to a cycle, it goes along waits. -/
theorem waitsSeen_of_edge [DecidableEq κ] (run : SerialRun ordering t) {p target : κ × Nat}
    (waiting : t.Waiting p)
    (edge : DepthFirst.Edge (t.walkTargets ordering fun _ => false) p target)
    (stuck : t.Stuck ordering target) : t.WaitsSeen ordering p target := by
  have consistent := run.reachable.consistent
  obtain ⟨lock, r, block, found, mem, at_offset, pending, mem_block, hblock, own, hwaits⟩ :=
    (edge_walkTargets consistent waiting).mp edge
  refine ⟨lock, r, block, found, mem, at_offset, pending, mem_block, ⟨?_, hblock⟩, own, hwaits⟩
  obtain ⟨other, waits⟩ := examined_waits run found mem hblock own hwaits stuck
  refine ⟨other, ?_⟩
  rcases waits with ⟨conflict, -⟩ | ⟨on, stuck_block, front⟩
  · exact .inl conflict
  refine .inr ⟨on, front, ?_⟩
  refine keepsWaiting_of_waits (consistent _ _ found) (P := t.StuckIn ordering p.1 lock)
    (fun s hs => hs.2.1) ?_ mem_block stuck_block
  rintro s hs ⟨-, hspending, w, reaches⟩
  obtain ⟨target', edge', reaches'⟩ := reaches.next
  have waiting' : t.Waiting (p.1, s.lrqOffset) :=
    (Option.any_eq_true _ _).mpr ⟨s, (lrq_eq_some consistent).mpr ⟨lock, found, hs, rfl⟩, hspending⟩
  obtain ⟨lock', s', x, found', mem', at_offset', -, mem_x, hx, own', hwaits'⟩ :=
    (edge_walkTargets consistent waiting').mp edge'
  cases found.symm.trans found'
  obtain rfl : s' = s := List.inj_on_of_nodup_map (consistent _ _ found).distinct mem' hs at_offset'
  obtain ⟨other', waits'⟩ := examined_waits run found hs hx own' hwaits' ⟨w, reaches'⟩
  rcases waits' with ⟨conflict, stuck_x⟩ | ⟨on', stuck_x, front'⟩
  · exact .inl ⟨x, mem_x, other', conflict, stuck_x⟩
  · exact .inr ⟨on', x, stuck_x, front'⟩

theorem reaches_waitsSeen [DecidableEq κ] (run : SerialRun ordering t) {p w : κ × Nat}
    (waiting : t.Waiting p)
    (reaches : DepthFirst.Reaches (DepthFirst.Edge (t.walkTargets ordering fun _ => false)) p w) :
    DepthFirst.Reaches (t.WaitsSeen ordering) p w := by
  refine DepthFirst.Reaches.mono (P := t.Waiting) ?_ waiting reaches
  intro v u w hv edge hu
  exact ⟨waiting_of_mem_walkTargets edge, waitsSeen_of_edge run hv edge ⟨w, hu⟩⟩

theorem mem_own_of_mem_walkTargets {busy : Nat → Bool} {p target : κ × Nat}
    (h : target ∈ t.walkTargets ordering busy p) : ∃ owner, t.ownPendingRequest owner = some target := by
  unfold walkTargets at h
  cases at_offset : t.lrq p with
  | none =>
    rw [at_offset] at h
    cases h
  | some r =>
    rw [at_offset] at h
    obtain ⟨block, _, hblock⟩ := List.mem_filterMap.mp h
    unfold LockTable.target at hblock
    split at hblock
    · cases hblock
    · exact ⟨block.lrqOwner, (Option.filter_eq_some_iff.mp hblock).1⟩

/-- The walk ends, as the requests that wait are finitely many. -/
theorem deadlockScan_exact [DecidableEq κ] (reachable : Reachable ordering t) (p : κ × Nat) :
    ∃ limit, ∀ depth, limit ≤ depth → ∃ victim,
      deadlockScan ordering (fun _ => false) t depth p = some victim ∧
        (∀ v, victim = some v →
          DepthFirst.Reaches (DepthFirst.Edge (t.walkTargets ordering fun _ => false)) p v) ∧
        (victim = none → ¬t.Stuck ordering p) := by
  obtain ⟨owners, finite⟩ := reachable.finite
  let vertices := p :: owners.filterMap t.ownPendingRequest
  have closed : ∀ v ∈ vertices, ∀ w ∈ t.walkTargets ordering (fun _ => false) v, w ∈ vertices := by
    intro v _ w hw
    obtain ⟨owner, own⟩ := mem_own_of_mem_walkTargets hw
    have mem : owner ∈ owners := finite owner (by rw [own]; nofun)
    exact List.mem_cons_of_mem p (List.mem_filterMap.mpr ⟨owner, mem, own⟩)
  refine ⟨vertices.length + 1, ?_⟩
  intro depth room
  obtain ⟨victim, black, hsearch, found, none⟩ :=
    DepthFirst.search_correct closed List.mem_cons_self (Nat.lt_of_succ_le room)
  refine ⟨victim, ?_, found, fun hnone => ?_⟩
  · rw [deadlockScan_eq, hsearch]
    rfl
  · rintro ⟨w, reaches⟩
    exact none hnone w reaches

theorem edge_of_waitsSeen (consistent : ∀ key lock, t.locks key = some lock → lock.Consistent)
    {p target : κ × Nat} (h : t.WaitsSeen ordering p target) :
    DepthFirst.Edge (t.walkTargets ordering fun _ => false) p target := by
  obtain ⟨lock, r, block, found, mem, at_offset, pending, mem_block, waits, rest⟩ := h
  have waiting : t.Waiting p :=
    (Option.any_eq_true _ _).mpr
      ⟨r, (lrq_eq_some consistent).mpr ⟨lock, found, mem, at_offset⟩, pending⟩
  exact (edge_walkTargets consistent waiting).mpr
    ⟨lock, r, block, found, mem, at_offset, pending, mem_block, waits.2, rest⟩

theorem waits_of_waitsSeen {p target : κ × Nat} (h : t.WaitsSeen ordering p target) :
    t.Waits ordering p target :=
  WaitsBy.imp (fun _ _ _ waits => waits.1) h

/-- The walk ends, and it finds a victim if and only if there is a cycle of waits to reach. The
victim is on such a cycle. -/
def DetectsDeadlock [DecidableEq κ] (ordering : Bool) (t : LockTable κ) (p : κ × Nat) : Prop :=
  ∃ limit, ∀ depth, limit ≤ depth → ∃ victim,
    deadlockScan ordering (fun _ => false) t depth p = some victim ∧
      (victim ≠ none ↔ ∃ w, DepthFirst.Reaches (t.Waits ordering) p w) ∧
      ∀ v, victim = some v → DepthFirst.Reaches (t.Waits ordering) p v

theorem detectsDeadlock_of_seen [DecidableEq κ] (run : SerialRun ordering t) {p : κ × Nat}
    (waiting : t.Waiting p)
    (seen : (∃ w, DepthFirst.Reaches (t.Waits ordering) p w) →
      ∃ w, DepthFirst.Reaches (t.WaitsSeen ordering) p w) : t.DetectsDeadlock ordering p := by
  obtain ⟨limit, exact⟩ := deadlockScan_exact run.reachable p
  refine ⟨limit, fun depth room => ?_⟩
  obtain ⟨victim, hscan, found, none⟩ := exact depth room
  have victim_waits : ∀ v, victim = some v → DepthFirst.Reaches (t.Waits ordering) p v :=
    fun v hv => (reaches_waitsSeen run waiting (found v hv)).imp fun _ _ => waits_of_waitsSeen
  refine ⟨victim, hscan, ⟨?_, ?_⟩, victim_waits⟩
  · intro some
    obtain ⟨v, hv⟩ := Option.ne_none_iff_exists'.mp some
    exact ⟨v, victim_waits v hv⟩
  · intro cycle hnone
    obtain ⟨w, reaches⟩ := seen cycle
    exact none hnone ⟨w, reaches.imp fun _ _ => edge_of_waitsSeen run.reachable.consistent⟩

theorem detectsDeadlock_iff [DecidableEq κ] (run : SerialRun ordering t) {p : κ × Nat}
    (waiting : t.Waiting p) :
    t.DetectsDeadlock ordering p ↔
      ((∃ w, DepthFirst.Reaches (t.Waits ordering) p w) →
        ∃ w, DepthFirst.Reaches (t.WaitsSeen ordering) p w) := by
  refine ⟨?_, detectsDeadlock_of_seen run waiting⟩
  rintro ⟨limit', detects⟩ cycle
  obtain ⟨limit, exact⟩ := deadlockScan_exact run.reachable p
  obtain ⟨victim, hscan, found, -⟩ := exact (max limit limit') (le_max_left _ _)
  obtain ⟨victim', hscan', iff, -⟩ := detects (max limit limit') (le_max_right _ _)
  rw [hscan] at hscan'
  cases hscan'
  obtain ⟨v, hv⟩ := Option.ne_none_iff_exists'.mp (iff.mpr cycle)
  exact ⟨v, reaches_waitsSeen run waiting (found v hv)⟩

/-- Without `LOCK_ordering` the walk looks at every wait. -/
theorem detectsDeadlock_unordered [DecidableEq κ] (run : SerialRun false t) {p : κ × Nat}
    (waiting : t.Waiting p) : t.DetectsDeadlock false p := by
  have seen : ∀ v w, t.Waits false v w → t.WaitsSeen false v w := by
    rintro v w ⟨lock, r, block, found, mem, at_offset, pending, mem_block, waits, rest⟩
    have conflict := waits.2.resolve_right fun on => absurd on.1 Bool.false_ne_true
    exact ⟨lock, r, block, found, mem, at_offset, pending, mem_block,
      ⟨waits, mem_examined_levels (.inl rfl) mem_block waits.1 conflict⟩, rest⟩
  exact detectsDeadlock_of_seen run waiting fun ⟨w, cycle⟩ => ⟨w, cycle.imp seen⟩

theorem SerialRun.lockConvert [DecidableEq κ] {key : κ} {offset : Nat} (h : SerialRun ordering t)
    (idle : (t.lrq (key, offset)).all (fun r => decide (r.lrqCall = .none)) = true) {type : Level}
    {wait : Bool} (one : (t.lockConvert ordering key offset type wait).OneCall) :
    SerialRun ordering (t.lockConvert ordering key offset type wait) := by
  revert one
  refine onRequest_cases (P := fun t' => t'.OneCall → SerialRun ordering t') (fun _ => h) ?_
  intro lock request found mem at_offset one
  rw [at_offset] at idle
  exact h.next (.convert t key lock request type wait found mem (of_decide_eq_true idle)) one

theorem SerialRun.lockDeq [DecidableEq κ] {key : κ} {offset : Nat} (h : SerialRun ordering t)
    (idle : (t.lrq (key, offset)).all (fun r => decide (r.lrqCall = .none)) = true)
    (one : (t.lockDeq ordering key offset).OneCall) :
    SerialRun ordering (t.lockDeq ordering key offset) := by
  revert one
  refine onRequest_cases (P := fun t' => t'.OneCall → SerialRun ordering t') (fun _ => h) ?_
  intro lock request found mem at_offset one
  rw [at_offset] at idle
  exact h.next (.deq t key lock request found mem (of_decide_eq_true idle)) one

end LockTable

instance (t : LockTable Bool) : Decidable t.OneCall :=
  inferInstanceAs (Decidable (∀ _ _, ∀ _ ∈ _, ∀ _ ∈ _, _))

/-- Owner 2 waits for owner 3 on one resource, where the level of owner 3 is granted behind the
request of owner 2, and owner 3 waits for owner 2 on the other. -/
def unseenDeadlock : LockTable Bool :=
  ((((((LockTable.unused.enq true true 1 2 lckEX true).enq true false 2 3 lckPR true).enq true false 3 2
    lckEX true).enq true false 4 3 lckNull true).lockConvert true false 4 lckSR true).lockDeq true
    false 2).enq true true 5 3 lckSR true

theorem unseenDeadlock_run : LockTable.SerialRun true unseenDeadlock := by
  refine .next (.lockDeq (.lockConvert (.next (.next (.next (.next .start
    (.enq _ true 1 2 lckEX true (by decide) (by decide)) (by decide))
    (.enq _ false 2 3 lckPR true (by decide) (by decide)) (by decide))
    (.enq _ false 3 2 lckEX true (by decide) (by decide)) (by decide))
    (.enq _ false 4 3 lckNull true (by decide) (by decide)) (by decide)) rfl (by decide)) rfl
    (by decide)) (.enq _ true 5 3 lckSR true (by decide) (by decide)) (by decide)

theorem unseenDeadlock_waits :
    unseenDeadlock.Waits true (false, 3) (true, 5) ∧ unseenDeadlock.Waits true (true, 5) (false, 3) := by
  refine ⟨?_, ?_⟩
  · refine ⟨_, ⟨3, 2, lckEX, lckNone, true, false, .waits false⟩,
      ⟨4, 3, lckSR, lckSR, false, false, .none⟩, rfl, by decide, rfl, rfl, by decide, ?_, rfl, rfl⟩
    exact ⟨by decide, .inl rfl⟩
  · refine ⟨_, ⟨5, 3, lckSR, lckNone, true, false, .waits false⟩,
      ⟨1, 2, lckEX, lckEX, false, false, .none⟩, rfl, by decide, rfl, rfl, by decide, ?_, rfl, rfl⟩
    exact ⟨by decide, .inl rfl⟩

theorem detectsDeadlock_fails :
    ¬∀ (t : LockTable Bool) (p : Bool × Nat), LockTable.SerialRun true t → t.Waiting p →
      t.DetectsDeadlock true p := by
  intro all
  obtain ⟨limit, detects⟩ := all unseenDeadlock (false, 3) unseenDeadlock_run rfl
  obtain ⟨victim, hscan, iff, -⟩ := detects (limit + 1) (Nat.le_succ _)
  have none : deadlockScan true (fun _ => false) unseenDeadlock (limit + 1) (false, 3) = some none := rfl
  rw [none] at hscan
  cases hscan
  obtain ⟨first, second⟩ := unseenDeadlock_waits
  have cycle : Relation.TransGen (unseenDeadlock.Waits true) (false, 3) (false, 3) :=
    .tail (.single first) second
  exact iff.mpr ⟨(false, 3), .refl, cycle⟩ rfl

/-- Two owners that write one resource each, and ask for that of the other. -/
def seenDeadlock : LockTable Bool :=
  (((LockTable.unused.enq true true 1 1 lckEX true).enq true false 2 2 lckEX true).enq true false 3 1
    lckEX true).enq true true 4 2 lckEX true

theorem seenDeadlock_run : LockTable.SerialRun true seenDeadlock := by
  refine .next (.next (.next (.next .start
    (.enq _ true 1 1 lckEX true (by decide) (by decide)) (by decide))
    (.enq _ false 2 2 lckEX true (by decide) (by decide)) (by decide))
    (.enq _ false 3 1 lckEX true (by decide) (by decide)) (by decide))
    (.enq _ true 4 2 lckEX true (by decide) (by decide)) (by decide)

theorem detectsDeadlock_iff_seen : seenDeadlock.DetectsDeadlock true (true, 4) := by
  have waiting : seenDeadlock.Waiting (true, 4) := rfl
  refine (LockTable.detectsDeadlock_iff seenDeadlock_run waiting).mpr fun _ => ⟨(true, 4), .refl, ?_⟩
  have first : seenDeadlock.WaitsSeen true (true, 4) (false, 3) := by
    refine ⟨_, ⟨4, 2, lckEX, lckNone, true, false, .waits false⟩,
      ⟨1, 1, lckEX, lckEX, false, false, .none⟩, rfl, by decide, rfl, rfl, by decide, ?_, rfl, rfl⟩
    exact ⟨⟨by decide, .inl rfl⟩, by decide⟩
  have second : seenDeadlock.WaitsSeen true (false, 3) (true, 4) := by
    refine ⟨_, ⟨3, 1, lckEX, lckNone, true, false, .waits false⟩,
      ⟨2, 2, lckEX, lckEX, false, false, .none⟩, rfl, by decide, rfl, rfl, by decide, ?_, rfl, rfl⟩
    exact ⟨⟨by decide, .inl rfl⟩, by decide⟩
  exact .tail (.single first) second

end InterBase
