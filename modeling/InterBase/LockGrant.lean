import InterBase.LockInvariant

namespace InterBase

/-- A request that was rejected while its owner is still in the call that waited for it. -/
def Lrq.AwaitsCleanUp (r : Lrq) : Prop := r.lrqRejected = true ∧ r.lrqCall ≠ .none

namespace Lbl

/-- The requests that wait, in the order of the queue. -/
def pendings (lock : Lbl) : List Lrq := lock.lblRequests.filter Lrq.lrqPending

/-- A request that is compatible with what is granted to the others. -/
def CanGrant (lock : Lbl) (r : Lrq) : Prop :=
  ∀ q ∈ lock.lblRequests, q.lrqOffset ≠ r.lrqOffset → compatible r.lrqRequested q.lrqState = true

/-- A pending request that a pass must not leave behind: with `LOCK_ordering` the first one, and
every conversion. -/
def Due (ordering : Bool) (lock : Lbl) (r : Lrq) : Prop :=
  r ∈ lock.pendings ∧
    (ordering = true → lock.pendings.head? = some r ∨ lckNull < r.lrqState)

def NoLostGrant (ordering : Bool) (lock : Lbl) : Prop := ∀ r, lock.Due ordering r → ¬lock.CanGrant r

/-- What the waiting requests are to each other when one pass is enough. Without `LOCK_ordering` a
conversion between `LCK_PR` and `LCK_SW` can let in a request that the pass has gone by. With
`LOCK_ordering` the pass does not come to a conversion behind a request that still has to wait, so
whatever keeps the conversion waiting must keep waiting the request as well. -/
def Orderly (ordering : Bool) (lock : Lbl) : Prop :=
  if ordering then
    lock.pendings.Pairwise fun q r =>
      lckNull < r.lrqState →
        compatible q.lrqRequested r.lrqState = true ∧
          ∀ l, compatible r.lrqRequested l = true → compatible q.lrqRequested l = true
  else
    ∀ r ∈ lock.pendings,
      ¬(r.lrqState = lckPR ∧ r.lrqRequested = lckSW) ∧
        ¬(r.lrqState = lckSW ∧ r.lrqRequested = lckPR)

end Lbl

/-- No owner still has to clean up after a rejection. -/
def LockTable.Settled {κ : Type} (t : LockTable κ) : Prop :=
  ∀ key lock, t.locks key = some lock → ∀ r ∈ lock.lblRequests, ¬r.AwaitsCleanUp

def LockTable.NoLostGrant {κ : Type} (ordering : Bool) (t : LockTable κ) : Prop :=
  ∀ key lock, t.locks key = some lock → lock.NoLostGrant ordering

/-- The runs in which every step finds the waiting requests in order. -/
inductive LockTable.OrderlyRun {κ : Type} [DecidableEq κ] (ordering : Bool) : LockTable κ → Prop where
  | start : OrderlyRun ordering unused
  | next {t t' : LockTable κ} (run : OrderlyRun ordering t)
      (orderly : ∀ key lock, t.locks key = some lock → lock.Orderly ordering)
      (step : t.Step ordering t') : OrderlyRun ordering t'

theorem LockTable.OrderlyRun.reachable {κ : Type} [DecidableEq κ] {ordering : Bool}
    {t : LockTable κ} (h : LockTable.OrderlyRun ordering t) : LockTable.Reachable ordering t := by
  induction h with
  | start => exact .start
  | next _ _ step ih => exact .next ih step

/-- A waiting request that asks for more than it has shuts out whatever was shut out before. -/
theorem compatible_of_raised {s t x : Level}
    (asks : ∃ l, compatible s l = true ∧ compatible t l = false)
    (up : ¬(s = lckPR ∧ t = lckSW)) (down : ¬(s = lckSW ∧ t = lckPR))
    (h : compatible x t = true) : compatible x s = true := by
  revert s t x
  decide

namespace Lbl

variable {ordering : Bool} {lock : Lbl}

/-- Without `LOCK_ordering` a request waits for a level that it does not conflict with yet. -/
def Asks (ordering : Bool) (lock : Lbl) : Prop :=
  ordering = false → ∀ r ∈ lock.pendings,
    ∃ l, compatible r.lrqState l = true ∧ compatible r.lrqRequested l = false

theorem Orderly.sublist {lock' : Lbl} (h : lock.Orderly ordering)
    (sub : lock'.pendings.Sublist lock.pendings) : lock'.Orderly ordering := by
  unfold Orderly at h ⊢
  split at h
  next on => exact (if_pos on).mpr (h.sublist sub)
  next off => exact (if_neg off).mpr fun r hr => h r (sub.subset hr)

theorem Orderly.congr {lock' : Lbl} (h : lock.Orderly ordering)
    (same : lock'.pendings = lock.pendings) : lock'.Orderly ordering :=
  h.sublist (by rw [same])

theorem Asks.sublist {lock' : Lbl} (h : lock.Asks ordering)
    (sub : lock'.pendings.Sublist lock.pendings) : lock'.Asks ordering :=
  fun off r hr => h off r (sub.subset hr)

theorem Asks.congr {lock' : Lbl} (h : lock.Asks ordering) (same : lock'.pendings = lock.pendings) :
    lock'.Asks ordering :=
  h.sublist (by rw [same])

theorem pendings_advances {rs rs' : List Lrq} (h : List.Forall₂ Lrq.Advances rs rs') :
    (rs'.filter Lrq.lrqPending).Sublist (rs.filter Lrq.lrqPending) := by
  induction h with
  | nil => exact List.Sublist.refl _
  | @cons r r' rest rest' first _ ih =>
    rcases first with rfl | ⟨pending, rfl⟩
    · rw [List.filter_cons, List.filter_cons]
      split
      · exact ih.cons_cons _
      · exact ih
    · rw [List.filter_cons_of_pos pending, List.filter_cons_of_neg (by simp [Lrq.granted])]
      exact ih.cons _

theorem pendings_postPending : (postPending ordering lock).pendings.Sublist lock.pendings :=
  pendings_advances postPending_advances

theorem Consistent.canGrant_iff (h : lock.Consistent) {before after : List Lrq} {r : Lrq}
    (split : lock.lblRequests = before ++ r :: after) :
    lock.CanGrant r ↔ r.Grantable (before ++ after) := by
  unfold CanGrant Lrq.Grantable
  rw [split]
  constructor
  · intro can q hq
    refine can q ?_ (offset_ne h.distinct split hq)
    rcases List.mem_append.mp hq with hq | hq
    · exact List.mem_append_left _ hq
    · exact List.mem_append_right _ (List.mem_cons_of_mem r hq)
  · intro can q hq other
    rcases List.mem_append.mp hq with hq | hq
    · exact can q (List.mem_append_left _ hq)
    rcases List.mem_cons.mp hq with rfl | hq
    · exact absurd rfl other
    · exact can q (List.mem_append_right _ hq)

theorem noLostGrant_of_idle (requests : List Lrq) (idle : ∀ r ∈ requests, r.lrqPending = false) :
    (lock.withRequests requests).NoLostGrant ordering := by
  intro r due
  obtain ⟨mem, pending⟩ := List.mem_filter.mp due.1
  rw [idle r mem] at pending
  cases pending

end Lbl

theorem pendings_grant (lock lock' : Lbl) {before rest : List Lrq} {request : Lrq}
    (pending : request.lrqPending = true) :
    (lock'.withRequests (before ++ request.granted :: rest)).pendings.Sublist
      (lock.withRequests (before ++ request :: rest)).pendings := by
  refine Lbl.pendings_advances (List.rel_append ?_ (.cons (.inr ⟨pending, rfl⟩) ?_))
  · exact List.forall₂_same.mpr fun _ _ => .inl rfl
  · exact List.forall₂_same.mpr fun _ _ => .inl rfl

/-- With `LOCK_ordering` a pass stops at the first request that has to wait. -/
theorem postPendingLoop_ordered {rest : List Lrq} :
    ∀ {lock : Lbl} (before : List Lrq), (lock.withRequests (before ++ rest)).Consistent →
      (lock.withRequests (before ++ rest)).Orderly true → (∀ r ∈ before, r.lrqPending = false) →
      ((postPendingLoop true lock rest).1.withRequests
        (before ++ (postPendingLoop true lock rest).2)).NoLostGrant true := by
  induction rest with
  | nil =>
    intro lock before _ _ idle
    exact Lbl.noLostGrant_of_idle _ (by simpa [postPendingLoop] using idle)
  | cons request rest ih =>
    intro lock before h orderly idle
    have move : ∀ r : Lrq, ∀ list : List Lrq, before ++ r :: list = (before ++ [r]) ++ list := by
      intro r list
      simp
    have idle' : ∀ r : Lrq, r.lrqPending = false → ∀ q ∈ before ++ [r], q.lrqPending = false := by
      intro r hr q hq
      rcases List.mem_append.mp hq with hq | hq
      · exact idle q hq
      · exact List.mem_singleton.mp hq ▸ hr
    rw [postPendingLoop_cons h]
    split
    next passed =>
      rw [move] at h orderly ⊢
      exact ih _ h orderly (idle' request passed)
    next pending =>
    rw [Bool.not_eq_false] at pending
    split
    next can =>
      have next := h.regrant can
      have orderly' := orderly.sublist (pendings_grant _ (lock.regrant request) pending)
      rw [move] at next orderly' ⊢
      exact ih _ next orderly' (idle' request.granted rfl)
    next stuck =>
      rw [if_pos rfl]
      have pendings : (lock.withRequests (before ++ request :: rest)).pendings =
          request :: rest.filter Lrq.lrqPending := by
        unfold Lbl.pendings
        rw [Lbl.withRequests_requests, List.filter_append, List.filter_cons_of_pos pending,
          List.filter_eq_nil_iff.mpr (fun q hq => by simp [idle q hq]), List.nil_append]
      intro r due can
      have first : (lock.withRequests (before ++ request :: rest)).CanGrant request := by
        unfold Lbl.Due at due
        rw [pendings] at due
        rcases List.mem_cons.mp due.1 with rfl | behind
        · exact can
        rcases due.2 rfl with head | conversion
        · cases head
          exact can
        unfold Lbl.Orderly at orderly
        rw [if_pos rfl, pendings, List.pairwise_cons] at orderly
        have before_r := orderly.1 r behind conversion
        intro q hq other
        by_cases same : q.lrqOffset = r.lrqOffset
        · have mem : r ∈ before ++ request :: rest :=
            List.mem_append_right _ (List.mem_cons_of_mem _ (List.mem_filter.mp behind).1)
          have q_eq : q = r := List.inj_on_of_nodup_map h.distinct hq mem same
          rw [q_eq]
          exact before_r.1
        · exact before_r.2 _ (can q hq same)
      exact stuck ((h.canGrant_iff rfl).mp first)

/-- What is shut out stays shut out when the level is granted. -/
def Lrq.Rises (r : Lrq) : Prop :=
  ∀ x, compatible x r.lrqRequested = true → compatible x r.lrqState = true

/-- Without `LOCK_ordering` a pass goes on behind a request that has to wait. -/
theorem postPendingLoop_unordered {rest : List Lrq} :
    ∀ {lock : Lbl} (before : List Lrq), (lock.withRequests (before ++ rest)).Consistent →
      (∀ r ∈ rest, r.lrqPending = true → r.Rises) →
      (∀ r ∈ before, r.lrqPending = true → ¬(lock.withRequests (before ++ rest)).CanGrant r) →
      ((postPendingLoop false lock rest).1.withRequests
        (before ++ (postPendingLoop false lock rest).2)).NoLostGrant false := by
  induction rest with
  | nil =>
    intro lock before _ _ passed r due
    obtain ⟨mem, pending⟩ := List.mem_filter.mp due.1
    exact passed r (by simpa [postPendingLoop] using mem) pending
  | cons request rest ih =>
    intro lock before h rises passed
    have move : ∀ r : Lrq, ∀ list : List Lrq, before ++ r :: list = (before ++ [r]) ++ list := by
      intro r list
      simp
    have rises' : ∀ r ∈ rest, r.lrqPending = true → r.Rises :=
      fun r hr => rises r (List.mem_cons_of_mem _ hr)
    -- a request that the pass leaves as it is
    have skip : (request.lrqPending = true →
          ¬(lock.withRequests (before ++ request :: rest)).CanGrant request) →
        ((postPendingLoop false lock rest).1.withRequests
          (before ++ request :: (postPendingLoop false lock rest).2)).NoLostGrant false := by
      intro waits
      rw [move] at h passed waits ⊢
      refine ih _ h rises' ?_
      intro r hr pending
      rcases List.mem_append.mp hr with hr | hr
      · exact passed r hr pending
      · rw [List.mem_singleton.mp hr] at pending ⊢
        exact waits pending
    rw [postPendingLoop_cons h]
    split
    next idle => exact skip fun pending => absurd pending (by simp [idle])
    next pending =>
    rw [Bool.not_eq_false] at pending
    split
    next can =>
      have next := h.regrant can
      have raised := rises request List.mem_cons_self pending
      have passed' : ∀ r ∈ before, r.lrqPending = true →
          ¬((lock.regrant request).withRequests (before ++ request.granted :: rest)).CanGrant r := by
        intro r hr pending' can'
        refine passed r hr pending' ?_
        intro q hq other
        rw [Lbl.withRequests_requests, List.mem_append, List.mem_cons] at hq
        rcases hq with hq | rfl | hq
        · exact can' q (List.mem_append_left _ hq) other
        · exact raised _ (can' q.granted
            (List.mem_append_right _ List.mem_cons_self) other)
        · exact can' q (List.mem_append_right _ (List.mem_cons_of_mem _ hq)) other
      rw [move] at next passed' ⊢
      refine ih _ next rises' ?_
      intro r hr pending'
      rcases List.mem_append.mp hr with hr | hr
      · exact passed' r hr pending'
      · rw [List.mem_singleton.mp hr] at pending'
        cases pending'
    next stuck =>
      rw [if_neg Bool.false_ne_true]
      exact skip fun _ can => stuck ((h.canGrant_iff rfl).mp can)

/-- One pass is enough when the waiting requests are in order. -/
theorem postPending_noLostGrant {ordering : Bool} {lock : Lbl} (h : lock.Consistent)
    (orderly : lock.Orderly ordering) (asks : lock.Asks ordering) :
    (postPending ordering lock).NoLostGrant ordering := by
  unfold postPending
  split
  next none =>
    rw [h.pending] at none
    refine Lbl.noLostGrant_of_idle lock.lblRequests ?_
    intro r hr
    rw [← Bool.not_eq_true]
    exact List.countP_eq_zero.mp none r hr
  cases ordering with
  | true => exact postPendingLoop_ordered [] h orderly (List.forall_mem_nil _)
  | false =>
    refine postPendingLoop_unordered [] h ?_ (List.forall_mem_nil _)
    intro r hr pending x hx
    have mem : r ∈ lock.pendings := List.mem_filter.mpr ⟨hr, pending⟩
    obtain ⟨up, down⟩ := orderly r mem
    exact compatible_of_raised (asks rfl r mem) up down hx

namespace Lbl

variable {ordering : Bool} {lock : Lbl}

/-- What the steps of an orderly run keep of a lock. -/
structure Kept (ordering : Bool) (lock : Lbl) : Prop where
  asks : lock.Asks ordering
  granted : (∃ r ∈ lock.lblRequests, r.AwaitsCleanUp) ∨ lock.NoLostGrant ordering

theorem pendings_replace {before after : List Lrq} {r r' : Lrq} (idle : r.lrqPending = false)
    (idle' : r'.lrqPending = false) :
    (before ++ r' :: after).filter Lrq.lrqPending = (before ++ r :: after).filter Lrq.lrqPending := by
  rw [List.filter_append, List.filter_append, List.filter_cons_of_neg (by simp [idle']),
    List.filter_cons_of_neg (by simp [idle])]

/-- Only the levels of the requests decide what can be granted beside them. -/
theorem canGrant_of_levels {lock' : Lbl} {q : Lrq}
    (levels : ∀ x ∈ lock.lblRequests, ∃ x' ∈ lock'.lblRequests,
      x'.lrqOffset = x.lrqOffset ∧ x'.lrqState = x.lrqState)
    (can : lock'.CanGrant q) : lock.CanGrant q := by
  intro x hx other
  obtain ⟨x', hx', offset, state⟩ := levels x hx
  rw [← state]
  exact can x' hx' (offset ▸ other)

theorem levels_replace {before after : List Lrq} {r r' : Lrq} (offset : r'.lrqOffset = r.lrqOffset)
    (state : r'.lrqState = r.lrqState) {requests : List Lrq}
    (mem : ∀ q, q = r' ∨ q ∈ before ++ after → q ∈ requests) :
    ∀ x ∈ before ++ r :: after, ∃ x' ∈ requests,
      x'.lrqOffset = x.lrqOffset ∧ x'.lrqState = x.lrqState := by
  intro x hx
  rw [List.mem_append, List.mem_cons] at hx
  rcases hx with hx | rfl | hx
  · exact ⟨x, mem x (.inr (List.mem_append_left _ hx)), rfl, rfl⟩
  · exact ⟨r', mem r' (.inl rfl), offset, state⟩
  · exact ⟨x, mem x (.inr (List.mem_append_right _ hx)), rfl, rfl⟩

theorem NoLostGrant.update {before after : List Lrq} {r r' : Lrq}
    (h : (lock.withRequests (before ++ r :: after)).NoLostGrant ordering)
    (offset : r'.lrqOffset = r.lrqOffset) (state : r'.lrqState = r.lrqState)
    (idle : r.lrqPending = false) (idle' : r'.lrqPending = false) :
    (lock.withRequests (before ++ r' :: after)).NoLostGrant ordering := by
  intro q due can
  have pendings : (lock.withRequests (before ++ r' :: after)).pendings =
      (lock.withRequests (before ++ r :: after)).pendings := pendings_replace idle idle'
  unfold Due at due
  rw [pendings] at due
  exact h q due (canGrant_of_levels (levels_replace offset state fun q => (mem_middle q).mpr) can)

theorem Kept.update {before after : List Lrq} {r r' : Lrq}
    (h : (lock.withRequests (before ++ r :: after)).Kept ordering)
    (offset : r'.lrqOffset = r.lrqOffset) (state : r'.lrqState = r.lrqState)
    (idle : r.lrqPending = false) (idle' : r'.lrqPending = false)
    (cleanUp : r.AwaitsCleanUp → r'.AwaitsCleanUp) :
    (lock.withRequests (before ++ r' :: after)).Kept ordering := by
  have pendings : (lock.withRequests (before ++ r' :: after)).pendings =
      (lock.withRequests (before ++ r :: after)).pendings := pendings_replace idle idle'
  refine ⟨h.asks.congr pendings, ?_⟩
  rcases h.granted with ⟨q, hq, awaits⟩ | noLost
  · left
    rw [withRequests_requests, List.mem_append, List.mem_cons] at hq
    rcases hq with hq | rfl | hq
    · exact ⟨q, List.mem_append_left _ hq, awaits⟩
    · exact ⟨r', List.mem_append_right _ List.mem_cons_self, cleanUp awaits⟩
    · exact ⟨q, List.mem_append_right _ (List.mem_cons_of_mem _ hq), awaits⟩
  · exact .inr (noLost.update offset state idle idle')

theorem Kept.put (h : lock.Kept ordering) (consistent : lock.Consistent) {r r' : Lrq}
    (mem : r ∈ lock.lblRequests) (offset : r'.lrqOffset = r.lrqOffset)
    (state : r'.lrqState = r.lrqState) (idle : r.lrqPending = false)
    (idle' : r'.lrqPending = false) (cleanUp : r.AwaitsCleanUp → r'.AwaitsCleanUp) :
    (lock.put r').Kept ordering := by
  obtain ⟨before, after, split⟩ := List.append_of_mem mem
  have h' : (lock.withRequests (before ++ r :: after)).Kept ordering := by
    rw [← split]
    exact h
  rw [put_eq lock r' consistent.distinct split offset]
  exact h'.update offset state idle idle' cleanUp

end Lbl

section

variable {ordering : Bool} {lock : Lbl}

theorem postPending_kept (h : lock.Consistent) (orderly : lock.Orderly ordering)
    (asks : lock.Asks ordering) : (postPending ordering lock).Kept ordering :=
  ⟨asks.sublist Lbl.pendings_postPending, .inr (postPending_noLostGrant h orderly asks)⟩

theorem pendings_released (request : Lrq) :
    (lock.released request).pendings.Sublist lock.pendings :=
  List.filter_sublist.filter _

theorem releaseRequest_kept (h : lock.Consistent) {request : Lrq} (mem : request ∈ lock.lblRequests)
    (orderly : lock.Orderly ordering) (asks : lock.Asks ordering) {lock' : Lbl}
    (result : releaseRequest ordering request lock = some lock') :
    lock'.Kept ordering ∧ lock'.Orderly ordering := by
  rw [releaseRequest_eq h mem] at result
  split at result
  · cases result
  · cases result
    have released := orderly.sublist (pendings_released request)
    exact ⟨postPending_kept (h.released mem) released (asks.sublist (pendings_released request)),
      released.sublist Lbl.pendings_postPending⟩

theorem releaseAll_kept {requests : List Nat} :
    ∀ {lock : Option Lbl},
      (∀ l, lock = some l → l.Consistent ∧ l.Kept ordering ∧ l.Orderly ordering) →
      ∀ l, releaseAll ordering requests lock = some l → l.Kept ordering := by
  induction requests with
  | nil =>
    intro lock h l hl
    exact (h l hl).2.1
  | cons offset rest ih =>
    intro lock h
    refine ih ?_
    refine releaseAt_cases (P := fun x => ∀ l, x = some l →
      l.Consistent ∧ l.Kept ordering ∧ l.Orderly ordering) ?_ ?_ ?_
    · intro _ l hl
      cases hl
    · intro l found _ l' hl'
      cases hl'
      exact h l found
    · intro l request found mem _ l' hl'
      obtain ⟨consistent, kept, orderly⟩ := h l found
      exact ⟨releaseRequest_consistent consistent mem hl',
        releaseRequest_kept consistent mem orderly kept.asks hl'⟩

theorem reject_kept (h : lock.Consistent) (asks : lock.Asks ordering) {request : Lrq}
    (mem : request ∈ lock.lblRequests) (pending : request.lrqPending = true) :
    (reject request lock).Kept ordering := by
  obtain ⟨before, after, split⟩ := List.append_of_mem mem
  obtain ⟨c, call⟩ := h.waiting request mem pending
  rw [reject_eq h.distinct split]
  refine ⟨asks.sublist ?_, .inl ⟨request.refused, ?_, rfl, ?_⟩⟩
  · unfold Lbl.pendings
    rw [split, Lbl.withRequests_requests, List.filter_append, List.filter_append,
      List.filter_cons_of_pos pending, List.filter_cons_of_neg (by simp [Lrq.refused])]
    exact (List.Sublist.refl _).append (List.sublist_cons_self _ _)
  · exact List.mem_append_right _ List.mem_cons_self
  · simp [Lrq.refused, call]

end

section

variable {ordering : Bool} {lock : Lbl}

/-- A request that starts to wait has a reason for it. -/
theorem waitForRequest_kept {conversion : Bool} (h : lock.Consistent) (kept : lock.Kept ordering)
    {r request : Lrq} (mem : r ∈ lock.lblRequests) (idle : r.lrqPending = false)
    (call : r.lrqCall = .none) (offset : request.lrqOffset = r.lrqOffset)
    (state : request.lrqState = r.lrqState)
    (stuck : ¬lock.CanGrant request ∨
      ordering = true ∧ request.lrqState = lckNone ∧ lock.pendings ≠ []) :
    (waitForRequest ordering conversion request lock).Kept ordering := by
  obtain ⟨before, after, split⟩ := List.append_of_mem mem
  let w := request.waiting conversion
  let new := if ordering = true ∧ request.lrqState = lckNone then before ++ after ++ [w]
    else before ++ w :: after
  have mem_new : ∀ q, q ∈ new ↔ q = w ∨ q ∈ before ++ after := by
    intro q
    unfold new
    split
    · rw [List.mem_append, List.mem_singleton, or_comm]
    · exact Lbl.mem_middle q
  have old : lock.pendings = before.filter Lrq.lrqPending ++ after.filter Lrq.lrqPending := by
    unfold Lbl.pendings
    rw [split, List.filter_append, List.filter_cons_of_neg (by simp [idle])]
  have levels := Lbl.levels_replace (show w.lrqOffset = r.lrqOffset from offset) state fun q => (mem_new q).mpr
  rw [← split] at levels
  -- the others are as far in front as before
  have head : ∀ q, q ≠ w → (new.filter Lrq.lrqPending).head? = some q →
      lock.pendings.head? = some q := by
    intro q other hq
    rw [old]
    have pending : w.lrqPending = true := rfl
    unfold new at hq
    split at hq
    · rw [List.filter_append, List.filter_append, List.filter_cons_of_pos pending, List.filter_nil,
        List.head?_append] at hq
      rcases Option.or_eq_some_iff.mp hq with hq | ⟨-, hq⟩
      · exact hq
      · exact absurd (Option.some.inj hq).symm other
    · rw [List.filter_append, List.filter_cons_of_pos pending, List.head?_append] at hq
      rw [List.head?_append]
      rcases Option.or_eq_some_iff.mp hq with hq | ⟨-, hq⟩
      · exact Option.or_eq_some_iff.mpr (.inl hq)
      · exact absurd (Option.some.inj hq).symm other
  have last : ordering = true → request.lrqState = lckNone → lock.pendings ≠ [] →
      (new.filter Lrq.lrqPending).head? ≠ some w := by
    intro on none waiting hw
    have fresh : w ∉ lock.pendings := by
      intro hmem
      rw [old, ← List.filter_append] at hmem
      exact Lbl.offset_ne h.distinct split (List.mem_filter.mp hmem).1 offset
    unfold new at hw
    rw [if_pos ⟨on, none⟩, List.filter_append, List.filter_append, ← old, List.head?_append] at hw
    rcases Option.or_eq_some_iff.mp hw with hw | ⟨hw, -⟩
    · exact fresh (List.mem_of_head? hw)
    · exact waiting (List.head?_eq_none_iff.mp hw)
  rw [waitForRequest_eq h.distinct split offset]
  have others : ∀ q, q ≠ w → q ∈ new.filter Lrq.lrqPending → q ∈ lock.pendings := by
    intro q other hq
    obtain ⟨hq, pending⟩ := List.mem_filter.mp hq
    refine List.mem_filter.mpr ⟨?_, pending⟩
    rw [split]
    exact (Lbl.mem_middle q).mpr (.inr (((mem_new q).mp hq).resolve_left other))
  refine ⟨?_, ?_⟩
  · intro off q hq
    by_cases same : q = w
    · have shut := stuck.resolve_right fun on => by simp [off] at on
      unfold Lbl.CanGrant at shut
      push Not at shut
      obtain ⟨x, hx, other, conflict⟩ := shut
      refine ⟨x.lrqState, ?_, ?_⟩
      · have mem_x : x ∈ before ++ after := by
          rw [split, List.mem_append, List.mem_cons] at hx
          rcases hx with hx | rfl | hx
          · exact List.mem_append_left _ hx
          · exact absurd offset.symm other
          · exact List.mem_append_right _ hx
        have both : r.Compatible x := (Granted.cons_iff.mp (split ▸ h.granted)).2 x mem_x
        rw [same]
        exact (congrArg (compatible · x.lrqState) state).trans both
      · rw [same]
        exact (Bool.not_eq_true _).mp conflict
    · exact kept.asks off q (others q same hq)
  · rcases kept.granted with ⟨q, hq, awaits⟩ | noLost
    · left
      refine ⟨q, (mem_new q).mpr (.inr ?_), awaits⟩
      rw [split, List.mem_append, List.mem_cons] at hq
      rcases hq with hq | rfl | hq
      · exact List.mem_append_left _ hq
      · exact absurd call awaits.2
      · exact List.mem_append_right _ hq
    · right
      intro q due can
      have can' := Lbl.canGrant_of_levels levels can
      by_cases same : q = w
      · rw [same] at due can'
        rcases stuck with shut | ⟨on, none, waiting⟩
        · exact shut can'
        · rcases due.2 on with first | conversion
          · exact last on none waiting first
          · have zero : w.lrqState = lckNone := none
            rw [zero] at conversion
            cases conversion
      · exact noLost q ⟨others q same due.1, fun on => (due.2 on).imp_left (head q same)⟩ can'

theorem convert_kept {type : Level} {wait : Bool} (h : lock.Consistent) (kept : lock.Kept ordering)
    (orderly : lock.Orderly ordering) {request : Lrq} (mem : request ∈ lock.lblRequests)
    (idle : request.lrqPending = false) (call : request.lrqCall = .none) :
    (InterBase.convert ordering type wait request lock).1.Kept ordering := by
  obtain ⟨before, after, split⟩ := List.append_of_mem mem
  let asked : Lrq := { request with lrqRequested := type }
  have h' : (lock.withRequests (before ++ asked :: after)).Consistent :=
    (h.of_split split).update rfl rfl rfl fun hp => absurd hp (by rw [idle]; exact Bool.false_ne_true)
  have small : ∀ s, lock.lblCounts s < 65536 := h.small
  have counted : Counted (lock.countDown request.lrqState).lblCounts (before ++ after) :=
    Lbl.counted_countDown (split ▸ h.counted) small
  have back : (lock.countDown request.lrqState).countUp request.lrqState = lock :=
    Lbl.countUp_countDown (small _)
  have compatible_iff := compatible_lockState_iff type counted (Granted.cons_iff.mp h'.granted).1
  unfold convert
  simp only [back]
  split
  next can =>
    have granted := h'.grant counted (Lbl.small_countDown small) rfl (compatible_iff.mp can)
    have put := grant_put asked (lock.countDown request.lrqState) h.distinct split rfl
    have sub : ((grant asked (lock.countDown request.lrqState)).2.withRequests
        (before ++ asked.granted :: after)).pendings = lock.pendings := by
      unfold Lbl.pendings
      rw [Lbl.withRequests_requests, split]
      exact Lbl.pendings_replace idle rfl
    exact put ▸ postPending_kept granted (orderly.congr sub) (kept.asks.congr sub)
  split
  next cannot _ =>
    refine waitForRequest_kept h kept mem idle call rfl rfl (.inl ?_)
    intro can
    refine cannot (compatible_iff.mpr ?_)
    intro q hq
    refine can q ?_ (Lbl.offset_ne h.distinct split hq)
    rw [split]
    rcases List.mem_append.mp hq with hq | hq
    · exact List.mem_append_left _ hq
    · exact List.mem_append_right _ (List.mem_cons_of_mem _ hq)
  · exact kept.put h mem rfl rfl idle idle fun awaits => awaits

theorem grantOrQue_kept {wait : Bool} (h : lock.Consistent) (kept : lock.Kept ordering)
    (orderly : lock.Orderly ordering) {request : Lrq} (mem : request ∈ lock.lblRequests)
    (idle : request.lrqPending = false) (new : request.lrqState = lckNone)
    (call : request.lrqCall = .none) {lock' : Lbl}
    (result : (grantOrQue ordering wait request lock).1 = some lock') : lock'.Kept ordering := by
  obtain ⟨before, after, split⟩ := List.append_of_mem mem
  have h' := h.of_split split
  have counted : Counted lock.lblCounts (before ++ after) := by
    have counted := Lbl.counted_without h'.counted h.small
    unfold Lbl.without at counted
    rw [if_pos new] at counted
    exact counted
  have compatible_iff : compatible request.lrqRequested lock.lblState = true ↔
      request.Grantable (before ++ after) := by
    rw [h.state]
    exact compatible_lockState_iff _ counted (Granted.cons_iff.mp h'.granted).1
  unfold grantOrQue at result
  split at result
  next can =>
    cases result
    have granted := h'.grant counted h.small rfl (compatible_iff.mp can.1)
    have put := grant_put request lock h.distinct split rfl
    have sub : ((grant request lock).2.withRequests (before ++ request.granted :: after)).pendings =
        lock.pendings := by
      unfold Lbl.pendings
      rw [Lbl.withRequests_requests, split]
      exact Lbl.pendings_replace idle rfl
    exact put ▸ postPending_kept granted (orderly.congr sub) (kept.asks.congr sub)
  next cannot =>
  split at result
  · cases result
    refine waitForRequest_kept h kept mem idle call rfl rfl ?_
    by_cases can : lock.CanGrant request
    · right
      have compatible := compatible_iff.mpr ((h.canGrant_iff split).mp can)
      have queue : ¬(ordering = false ∨ request.lrqRequested = lckNull ∨ lock.lblPendingLrqCount = 0) :=
        fun queue => cannot ⟨compatible, queue⟩
      push Not at queue
      refine ⟨by simpa using queue.1, new, ?_⟩
      intro empty
      apply queue.2.2
      rw [h.pending, List.countP_eq_length_filter]
      exact List.length_eq_zero_iff.mpr empty
    · exact .inl can
  · exact (releaseRequest_kept h mem orderly kept.asks result).1

theorem lockEnq_kept {wait : Bool} {lock : Option Lbl} {lock' : Lbl}
    (h : ∀ l, lock = some l → l.Consistent ∧ l.Kept ordering ∧ l.Orderly ordering)
    {offset owner : Nat} {type : Level} (fresh : ∀ r ∈ lockRequests lock, r.lrqOffset ≠ offset)
    (room : (lockRequests lock).length + 1 < 65536)
    (result : (lockEnq ordering wait (newLrq offset owner type) lock).1 = some lock') :
    lock'.Kept ordering := by
  cases lock with
  | none =>
    have alone : lock'.lblRequests = [(newLrq offset owner type).granted] := by
      have split : (Lbl.mk type (fun _ => 0) 0 [newLrq offset owner type]).lblRequests =
          [] ++ newLrq offset owner type :: [] := rfl
      have distinct : ((Lbl.mk type (fun _ => 0) 0 [newLrq offset owner type]).lblRequests.map
          Lrq.lrqOffset).Nodup := List.nodup_singleton offset
      have put := grant_put (newLrq offset owner type) _ distinct split rfl
      cases result
      exact congrArg Lbl.lblRequests put
    have none : lock'.pendings = [] := by
      unfold Lbl.pendings
      rw [alone]
      rfl
    refine ⟨fun _ r hr => ?_, .inr fun r due => ?_⟩
    · rw [none] at hr
      cases hr
    · have mem := due.1
      rw [none] at mem
      cases mem
  | some l =>
    obtain ⟨consistent, kept, orderly⟩ := h l rfl
    let new := newLrq offset owner type
    let grown := l.withRequests (l.lblRequests ++ [new])
    have consistent' : grown.Consistent := consistent.append fresh room rfl rfl
    have same : grown.pendings = l.pendings := by
      unfold Lbl.pendings
      rw [Lbl.withRequests_requests, List.filter_append, List.filter_cons_of_neg Bool.false_ne_true,
        List.filter_nil, List.append_nil]
    have kept' : grown.Kept ordering := by
      refine ⟨kept.asks.congr same, ?_⟩
      rcases kept.granted with ⟨q, hq, awaits⟩ | noLost
      · exact .inl ⟨q, List.mem_append_left _ hq, awaits⟩
      · right
        intro q due can
        unfold Lbl.Due at due
        rw [same] at due
        refine noLost q due (Lbl.canGrant_of_levels ?_ can)
        exact fun x hx => ⟨x, List.mem_append_left _ hx, rfl, rfl⟩
    exact grantOrQue_kept consistent' kept' (orderly.congr same)
      (List.mem_append_right _ (List.mem_singleton_self _)) rfl rfl rfl result

theorem lockDowngrade_kept (h : lock.Consistent) (kept : lock.Kept ordering)
    (orderly : lock.Orderly ordering) {request : Lrq} (mem : request ∈ lock.lblRequests)
    (idle : request.lrqPending = false) (call : request.lrqCall = .none) {lock' : Lbl}
    (result : lockDowngrade ordering request lock = some lock') : lock'.Kept ordering := by
  unfold lockDowngrade at result
  simp only at result
  split at result
  · exact (releaseRequest_kept h mem orderly kept.asks result).1
  · cases result
    exact convert_kept h kept orderly mem idle call

theorem convertRejected_kept (h : lock.Consistent) (kept : lock.Kept ordering)
    (orderly : lock.Orderly ordering) {request : Lrq} (mem : request ∈ lock.lblRequests)
    (idle : request.lrqPending = false) : (convertRejected ordering request lock).Kept ordering := by
  let passed := postPending ordering lock
  have consistent : passed.Consistent := postPending_consistent h
  have noLost : passed.NoLostGrant ordering := postPending_noLostGrant h orderly kept.asks
  have mem' : request ∈ passed.lblRequests := mem_postPending mem idle
  obtain ⟨before, after, split⟩ := List.append_of_mem mem'
  have result : convertRejected ordering request lock = passed.withRequests
      (before ++ { request with lrqRequested := request.lrqState, lrqCall := .none } :: after) :=
    Lbl.put_eq passed _ consistent.distinct split rfl
  have noLost' : (passed.withRequests (before ++ request :: after)).NoLostGrant ordering := by
    rw [← split]
    exact noLost
  rw [result]
  have asks : passed.Asks ordering := kept.asks.sublist Lbl.pendings_postPending
  refine ⟨asks.congr ?_, .inr (noLost'.update rfl rfl idle idle)⟩
  unfold Lbl.pendings
  rw [Lbl.withRequests_requests, split]
  exact Lbl.pendings_replace idle idle

end

theorem LockTable.Step.kept {κ : Type} [DecidableEq κ] {ordering : Bool} {t t' : LockTable κ}
    (step : t.Step ordering t')
    (h : ∀ key lock, t.locks key = some lock →
      lock.Consistent ∧ lock.Kept ordering ∧ lock.Orderly ordering) :
    ∀ key lock, t'.locks key = some lock → lock.Kept ordering := by
  have kept := fun key lock found => (h key lock found).2.1
  have one := fun key new good => t.forall_update (P := Lbl.Kept ordering) key new good kept
  cases step with
  | enq key offset owner type wait fresh room =>
    have good : ∀ l, (lockEnq ordering wait (newLrq offset owner type) (t.locks key)).1 = some l →
        l.Kept ordering := fun _ hl => lockEnq_kept (h key) fresh room hl
    unfold LockTable.enq
    simp only
    split
    · exact one key _ good
    · exact one key _ good
  | convert key lock request type wait found mem idle =>
    obtain ⟨consistent, kept, orderly⟩ := h key lock found
    have good : (InterBase.convert ordering type wait request lock).1.Kept ordering :=
      convert_kept consistent kept orderly mem (consistent.idle mem (by simp [idle])) idle
    unfold LockTable.convert
    simp only
    split
    · exact one key _ fun l hl => Option.some.inj hl ▸ good
    · exact one key _ fun l hl => Option.some.inj hl ▸ good
  | downgrade key lock request found mem idle =>
    obtain ⟨consistent, kept, orderly⟩ := h key lock found
    exact one key _ fun l hl => lockDowngrade_kept consistent kept orderly mem
      (consistent.idle mem (by simp [idle])) idle hl
  | deq key lock request found mem idle =>
    obtain ⟨consistent, kept, orderly⟩ := h key lock found
    exact one key _ fun l hl => (releaseRequest_kept consistent mem orderly kept.asks hl).1
  | timeout key lock request found mem pending =>
    obtain ⟨consistent, kept, -⟩ := h key lock found
    exact one key _ fun l hl => Option.some.inj hl ▸ reject_kept consistent kept.asks mem pending
  | deadlock busy depth waiting key lock request victim waits pending scan found mem =>
    obtain ⟨consistent, kept, -⟩ := h key lock found
    have waiting := deadlockScan_waiting scan
    unfold LockTable.Waiting LockTable.lrq lockRequests at waiting
    rw [found, Option.elim_some, consistent.find_eq mem] at waiting
    exact one key _ fun l hl => Option.some.inj hl ▸ reject_kept consistent kept.asks mem waiting
  | wake key lock request conversion found mem call resolved =>
    obtain ⟨consistent, kept, -⟩ := h key lock found
    exact one key _ fun l hl => Option.some.inj hl ▸
      kept.put consistent mem rfl rfl resolved resolved fun awaits => ⟨awaits.1, nofun⟩
  | granted key lock request conversion found mem call accepted =>
    obtain ⟨consistent, kept, -⟩ := h key lock found
    have idle := consistent.idle mem (by simp [call])
    exact one key _ fun l hl => Option.some.inj hl ▸
      kept.put consistent mem rfl rfl idle idle fun awaits => absurd awaits.1 (by simp [accepted])
  | denyEnq key lock request found mem call rejected =>
    obtain ⟨consistent, kept, orderly⟩ := h key lock found
    exact one key _ fun l hl => (releaseRequest_kept consistent mem orderly kept.asks hl).1
  | denyConvert key lock request found mem call rejected =>
    obtain ⟨consistent, kept, orderly⟩ := h key lock found
    exact one key _ fun l hl => Option.some.inj hl ▸
      convertRejected_kept consistent kept orderly mem (consistent.idle mem (by simp [call]))
  | purge owner requests own =>
    intro key lock hl
    exact releaseAll_kept (h key) lock hl

theorem orderlyRun_noLostGrant {κ : Type} [DecidableEq κ] {ordering : Bool} {t : LockTable κ}
    (run : LockTable.OrderlyRun ordering t) (settled : t.Settled) : t.NoLostGrant ordering := by
  have kept : ∀ key lock, t.locks key = some lock → lock.Kept ordering := by
    clear settled
    induction run with
    | start =>
      intro key lock found
      cases found
    | next run orderly step ih =>
      refine step.kept ?_
      intro key lock found
      exact ⟨run.reachable.consistent key lock found, ih key lock found, orderly key lock found⟩
  intro key lock found
  rcases (kept key lock found).granted with ⟨r, hr, awaits⟩ | noLost
  · exact absurd awaits (settled key lock found r hr)
  · exact noLost

theorem orderly_of_idle {ordering : Bool} {t : LockTable Unit}
    (idle : ∀ lock, t.locks () = some lock → lock.pendings = []) :
    ∀ key lock, t.locks key = some lock → lock.Orderly ordering := by
  intro key lock found
  have none : lock.pendings = [] := idle lock found
  unfold Lbl.Orderly
  rw [none]
  split
  · exact List.Pairwise.nil
  · exact List.forall_mem_nil _

/-- A lock table with one lock whose requests can be read off. -/
theorem settled_of_requests {t : LockTable Unit} {requests : List Lrq}
    (found : (t.locks ()).map Lbl.lblRequests = some requests)
    (settled : ∀ r ∈ requests, r.lrqRejected = false) : t.Settled := by
  obtain ⟨lock, hlock, hrequests⟩ := Option.map_eq_some_iff.mp found
  intro key lock' found' q hq awaits
  have same : lock' = lock := Option.some.inj (found'.symm.trans hlock)
  rw [same, hrequests] at hq
  rw [Lrq.AwaitsCleanUp, settled q hq] at awaits
  cases awaits.1

theorem orderly_of_requests {t : LockTable Unit} {requests : List Lrq}
    (found : (t.locks ()).map Lbl.lblRequests = some requests)
    (waiting : (requests.filter Lrq.lrqPending).Pairwise fun q r =>
      lckNull < r.lrqState →
        compatible q.lrqRequested r.lrqState = true ∧
          ∀ l, compatible r.lrqRequested l = true → compatible q.lrqRequested l = true) :
    ∀ key lock, t.locks key = some lock → lock.Orderly true := by
  obtain ⟨lock, hlock, hrequests⟩ := Option.map_eq_some_iff.mp found
  intro key lock' found'
  obtain rfl : lock' = lock := Option.some.inj (found'.symm.trans hlock)
  rw [← hrequests] at waiting
  exact (if_pos rfl).mpr waiting

theorem LockTable.OrderlyRun.lockConvert {t : LockTable Unit} (run : LockTable.OrderlyRun true t)
    (orderly : ∀ key lock, t.locks key = some lock → lock.Orderly true) {offset : Nat}
    (idle : (t.lrq ((), offset)).all (fun r => decide (r.lrqCall = .none)) = true) (type : Level)
    (wait : Bool) : LockTable.OrderlyRun true (t.lockConvert true () offset type wait) := by
  refine onRequest_cases run ?_
  intro lock request found mem at_offset
  rw [at_offset] at idle
  exact run.next orderly (.convert t () lock request type wait found mem (of_decide_eq_true idle))

theorem LockTable.OrderlyRun.lockDeq {t : LockTable Unit} (run : LockTable.OrderlyRun true t)
    (orderly : ∀ key lock, t.locks key = some lock → lock.Orderly true) {offset : Nat}
    (idle : (t.lrq ((), offset)).all (fun r => decide (r.lrqCall = .none)) = true) :
    LockTable.OrderlyRun true (t.lockDeq true () offset) := by
  refine onRequest_cases run ?_
  intro lock request found mem at_offset
  rw [at_offset] at idle
  exact run.next orderly (.deq t () lock request found mem (of_decide_eq_true idle))

/-- One of the two readers has to wait to become a writer, in front of the third; then the other one
leaves. -/
def upgraded : LockTable Unit := (readers.lockConvert true () 1 lckEX true).lockDeq true () 2

/-- The conversion is granted, and the request behind it goes on waiting. -/
theorem orderlyRun_noLostGrant_upgraded : upgraded.NoLostGrant true ∧
    (upgraded.locks ()).map (fun lock => lock.lblRequests.map Lrq.lrqState) =
      some [lckEX, lckNone] := by
  have readersRun : LockTable.OrderlyRun true readers := by
    refine .next (.next (.next .start (orderly_of_idle nofun)
      (.enq _ () 1 1 lckSR true (by decide) (by decide)))
      (orderly_of_idle ?_) (.enq _ () 2 2 lckPR true (by decide) (by decide)))
      (orderly_of_idle ?_) (.enq _ () 3 3 lckEX true (by decide) (by decide))
    · intro lock found
      cases found
      rfl
    · intro lock found
      cases found
      rfl
  have waiting : (readers.locks ()).map Lbl.lblRequests =
      some [⟨1, 1, lckSR, lckSR, false, false, .none⟩, ⟨2, 2, lckPR, lckPR, false, false, .none⟩,
        ⟨3, 3, lckEX, lckNone, true, false, .waits false⟩] := rfl
  have converting : ((readers.lockConvert true () 1 lckEX true).locks ()).map Lbl.lblRequests =
      some [⟨1, 1, lckEX, lckSR, true, false, .waits true⟩, ⟨2, 2, lckPR, lckPR, false, false, .none⟩,
        ⟨3, 3, lckEX, lckNone, true, false, .waits false⟩] := rfl
  have convertRun : LockTable.OrderlyRun true (readers.lockConvert true () 1 lckEX true) :=
    readersRun.lockConvert (orderly_of_requests waiting (by decide)) rfl lckEX true
  have run : LockTable.OrderlyRun true upgraded :=
    convertRun.lockDeq (orderly_of_requests converting (by decide)) rfl
  have granted : (upgraded.locks ()).map Lbl.lblRequests =
      some [⟨1, 1, lckEX, lckEX, false, false, .waits true⟩,
        ⟨3, 3, lckEX, lckNone, true, false, .waits false⟩] := rfl
  exact ⟨orderlyRun_noLostGrant run (settled_of_requests granted (by decide)), rfl⟩

/-- With `LOCK_ordering`: the conversion of request 1 to `LCK_EX` keeps waiting for request 2 when
request 3 is gone, and the conversion of request 2 behind it is not looked at. -/
def forgottenConversion : LockTable Unit :=
  ((((((LockTable.unused.enq true () 1 1 lckSR true).enq true () 2 2 lckSR true).enq true () 3 3 lckPR
    true).lockConvert true () 1 lckEX true).lockConvert true () 2 lckSW true).lockDeq true () 3)

/-- Without `LOCK_ordering`: the conversion of request 1 from `LCK_PR` to `LCK_SW` lets in request 2,
which the pass has gone by. -/
def forgottenRequest : LockTable Unit :=
  ((((((LockTable.unused.enq false () 2 2 lckSR true).enq false () 1 1 lckPR true).enq false () 3 3
    lckPR true).lockConvert false () 2 lckSW true).lockConvert false () 1 lckSW true).lockDeq false () 3)

theorem forgottenConversion_reachable : LockTable.Reachable true forgottenConversion := by
  refine .lockDeq (.lockConvert (.lockConvert ?_ rfl) rfl) rfl
  apply LockTable.Reachable.next
  · apply LockTable.Reachable.next
    · apply LockTable.Reachable.next LockTable.Reachable.start
      exact .enq _ () 1 1 lckSR true (by decide) (by decide)
    · exact .enq _ () 2 2 lckSR true (by decide) (by decide)
  · exact .enq _ () 3 3 lckPR true (by decide) (by decide)

theorem forgottenRequest_reachable : LockTable.Reachable false forgottenRequest := by
  refine .lockDeq (.lockConvert (.lockConvert ?_ rfl) rfl) rfl
  apply LockTable.Reachable.next
  · apply LockTable.Reachable.next
    · apply LockTable.Reachable.next LockTable.Reachable.start
      exact .enq _ () 2 2 lckSR true (by decide) (by decide)
    · exact .enq _ () 1 1 lckPR true (by decide) (by decide)
  · exact .enq _ () 3 3 lckPR true (by decide) (by decide)

theorem lost_of_requests {ordering : Bool} {t : LockTable Unit} {requests : List Lrq}
    (found : (t.locks ()).map Lbl.lblRequests = some requests) (r : Lrq) (mem : r ∈ requests)
    (pending : r.lrqPending = true) (conversion : lckNull < r.lrqState)
    (can : ∀ q ∈ requests, q.lrqOffset ≠ r.lrqOffset →
      compatible r.lrqRequested q.lrqState = true) : ¬t.NoLostGrant ordering := by
  obtain ⟨lock, hlock, hrequests⟩ := Option.map_eq_some_iff.mp found
  rw [← hrequests] at mem can
  intro noLost
  exact noLost () lock hlock r ⟨List.mem_filter.mpr ⟨mem, pending⟩, fun _ => .inr conversion⟩ can

theorem noLostGrant_fails :
    ¬(∀ t : LockTable Unit, LockTable.Reachable true t → t.Settled → t.NoLostGrant true) ∧
      ¬(∀ t : LockTable Unit, LockTable.Reachable false t → t.Settled → t.NoLostGrant false) := by
  refine ⟨?_, ?_⟩
  · intro all
    have requests : (forgottenConversion.locks ()).map Lbl.lblRequests =
        some [⟨1, 1, lckEX, lckSR, true, false, .waits true⟩,
          ⟨2, 2, lckSW, lckSR, true, false, .waits true⟩] := rfl
    exact lost_of_requests requests ⟨2, 2, lckSW, lckSR, true, false, .waits true⟩ (by decide) rfl
      (by decide) (by decide) (all forgottenConversion forgottenConversion_reachable
        (settled_of_requests requests (by decide)))
  · intro all
    have requests : (forgottenRequest.locks ()).map Lbl.lblRequests =
        some [⟨2, 2, lckSW, lckSR, true, false, .waits true⟩,
          ⟨1, 1, lckSW, lckSW, false, false, .waits true⟩] := rfl
    exact lost_of_requests requests ⟨2, 2, lckSW, lckSR, true, false, .waits true⟩ (by decide) rfl
      (by decide) (by decide) (all forgottenRequest forgottenRequest_reachable
        (settled_of_requests requests (by decide)))

end InterBase
