import InterBase.LockWalk

namespace InterBase

theorem compatible_comm (s t : Level) : compatible s t = compatible t s := by
  revert s t
  decide

theorem compatible_none (s : Level) : compatible s lckNone = true := by
  revert s
  decide

/-- A level that is compatible with the highest of some compatible levels is compatible with all. -/
theorem compatible_of_le {s t x : Level} (le : s ≤ t) (st : compatible s t = true)
    (xt : compatible x t = true) : compatible x s = true := by
  revert s t x
  decide

theorem le_lockState {counts : Level → Nat} {s : Level} (h : counts s ≠ 0) :
    s ≤ lockState counts := by
  unfold lockState
  have hs : s = lckNone ∨ s = lckNull ∨ s = lckSR ∨ s = lckPR ∨ s = lckSW ∨ s = lckPW ∨
      s = lckEX := by
    clear h
    revert s
    decide
  rcases hs with rfl | rfl | rfl | rfl | rfl | rfl | rfl
  · exact Fin.zero_le _
  all_goals
    repeat' split
    all_goals decide

theorem lockState_counts {counts : Level → Nat} (h : lockState counts ≠ lckNone) :
    counts (lockState counts) ≠ 0 := by
  unfold lockState at h ⊢
  repeat' split
  all_goals simp_all

theorem lockState_congr {counts counts' : Level → Nat}
    (h : ∀ s, lckNone < s → (counts s = 0 ↔ counts' s = 0)) : lockState counts = lockState counts' := by
  unfold lockState
  simp only [ne_eq, h lckEX (by decide), h lckPW (by decide), h lckSW (by decide),
    h lckPR (by decide), h lckSR (by decide), h lckNull (by decide)]

/-- The counts of the granted levels, but for the count of `LCK_none` that nothing reads. -/
def Counted (counts : Level → Nat) (requests : List Lrq) : Prop :=
  ∀ s, lckNone < s → counts s = requests.countP (·.lrqState = s)

def Lrq.Compatible (r q : Lrq) : Prop := compatible r.lrqState q.lrqState = true

instance : Std.Symm Lrq.Compatible where
  symm _ _ h := (compatible_comm _ _).trans h

/-- The granted levels of distinct requests are compatible. -/
def Granted (requests : List Lrq) : Prop := requests.Pairwise Lrq.Compatible

/-- A request that can be granted beside others. -/
def Lrq.Grantable (request : Lrq) (others : List Lrq) : Prop :=
  ∀ q ∈ others, compatible request.lrqRequested q.lrqState = true

instance (request : Lrq) (others : List Lrq) : Decidable (request.Grantable others) :=
  inferInstanceAs (Decidable (∀ q ∈ others, _))

def Lrq.granted (request : Lrq) : Lrq :=
  { request with lrqState := request.lrqRequested, lrqPending := false }

/-- One level stands for all the granted ones, although `LCK_PR` and `LCK_SW` are not comparable. -/
theorem compatible_lockState_iff {counts : Level → Nat} {requests : List Lrq} (x : Level)
    (counted : Counted counts requests) (granted : Granted requests) :
    compatible x (lockState counts) = true ↔ ∀ r ∈ requests, compatible x r.lrqState = true := by
  have le : ∀ r ∈ requests, r.lrqState ≤ lockState counts := by
    intro r hr
    by_cases zero : lckNone < r.lrqState
    · apply le_lockState
      rw [counted _ zero]
      exact (List.countP_pos_iff.mpr ⟨r, hr, decide_eq_true rfl⟩).ne'
    · exact (not_lt.mp zero).trans (Fin.zero_le _)
  by_cases none : lockState counts = lckNone
  · refine iff_of_true (by rw [none]; exact compatible_none x) ?_
    intro r hr
    have zero : r.lrqState = lckNone := 
      le_antisymm ((le r hr).trans_eq none) (Fin.zero_le _)
    rw [zero]
    exact compatible_none x
  have positive : lckNone < lockState counts := Fin.pos_iff_ne_zero.mpr none
  obtain ⟨w, hw, holds⟩ : ∃ w ∈ requests, w.lrqState = lockState counts := by
    have h := lockState_counts none
    rw [counted _ positive] at h
    obtain ⟨w, hw, holds⟩ := List.countP_pos_iff.mp (Nat.pos_of_ne_zero h)
    exact ⟨w, hw, of_decide_eq_true holds⟩
  constructor
  · intro h r hr
    by_cases same : r = w
    · rw [same, holds]
      exact h
    · apply compatible_of_le (le r hr) ?_ h
      rw [← holds]
      exact granted.forall hr hw same
  · intro h
    rw [← holds]
    exact h w hw

theorem Granted.cons_iff {before after : List Lrq} {r : Lrq} :
    Granted (before ++ r :: after) ↔
      Granted (before ++ after) ∧ ∀ q ∈ before ++ after, r.Compatible q := by
  unfold Granted
  rw [List.pairwise_middle fun h => Std.Symm.symm _ _ h, List.pairwise_cons, and_comm]

theorem counted_cons_iff {counts : Level → Nat} {before after : List Lrq} {r : Lrq} :
    Counted counts (before ++ r :: after) ↔
      ∀ s, lckNone < s →
        counts s = (before ++ after).countP (·.lrqState = s) + if r.lrqState = s then 1 else 0 := by
  unfold Counted
  simp only [List.perm_middle.countP_eq, List.countP_cons, decide_eq_true_eq]

theorem increment_eq {n : Nat} (h : n + 1 < 65536) : increment n = n + 1 :=
  ushort_of_lt h

theorem decrement_eq {n : Nat} (pos : 0 < n) (h : n < 65536) : decrement n = n - 1 := by
  unfold decrement ushort
  omega

theorem increment_decrement {n : Nat} (h : n < 65536) : increment (decrement n) = n := by
  unfold increment decrement ushort
  omega

namespace Lbl

theorem countUp_countDown {lock : Lbl} {s : Level} (h : lock.lblCounts s < 65536) :
    (lock.countDown s).countUp s = lock := by
  unfold countUp countDown
  simp only [Function.update_self, Function.update_idem, increment_decrement h,
    Function.update_eq_self]

theorem counted_countDown {lock : Lbl} {before after : List Lrq} {r : Lrq}
    (counted : Counted lock.lblCounts (before ++ r :: after))
    (small : ∀ s, lock.lblCounts s < 65536) :
    Counted (lock.countDown r.lrqState).lblCounts (before ++ after) := by
  intro s hs
  have h := counted_cons_iff.mp counted s hs
  unfold countDown
  by_cases same : s = r.lrqState
  · rw [if_pos same.symm] at h
    simp only [same, Function.update_self]
    rw [same] at h
    rw [decrement_eq (by omega) (small _)]
    omega
  · rw [if_neg (Ne.symm same)] at h
    simp only [Function.update_of_ne same]
    omega

theorem counted_countUp {lock : Lbl} {before after : List Lrq} {r : Lrq}
    (counted : Counted lock.lblCounts (before ++ after))
    (bounded : (before ++ r :: after).length < 65536) :
    Counted (lock.countUp r.lrqState).lblCounts (before ++ r :: after) := by
  rw [counted_cons_iff]
  intro s hs
  have le := List.countP_le_length (p := fun q : Lrq => decide (q.lrqState = s)) (l := before ++ after)
  rw [List.length_append, List.length_cons] at bounded
  rw [List.length_append] at le
  unfold countUp
  by_cases same : s = r.lrqState
  · simp only [same, Function.update_self, if_true]
    rw [same] at hs le
    rw [increment_eq (by rw [counted _ hs]; omega), counted _ hs]
  · simp only [Function.update_of_ne same, if_neg (Ne.symm same)]
    exact counted s hs

theorem small_countUp {lock : Lbl} {s : Level} (small : ∀ s, lock.lblCounts s < 65536) (x : Level) :
    (lock.countUp s).lblCounts x < 65536 := by
  unfold countUp increment ushort
  by_cases same : x = s
  · simp only [same, Function.update_self]
    omega
  · simp only [Function.update_of_ne same, small x]

theorem small_countDown {lock : Lbl} {s : Level} (small : ∀ s, lock.lblCounts s < 65536)
    (x : Level) : (lock.countDown s).lblCounts x < 65536 := by
  unfold countDown decrement ushort
  by_cases same : x = s
  · simp only [same, Function.update_self]
    omega
  · simp only [Function.update_of_ne same, small x]

/-- What holds of a lock whenever nobody has the mutex of the lock table. -/
structure Consistent (lock : Lbl) : Prop where
  distinct : (lock.lblRequests.map Lrq.lrqOffset).Nodup
  bounded : lock.lblRequests.length < 65536
  small : ∀ s, lock.lblCounts s < 65536
  granted : Granted lock.lblRequests
  counted : Counted lock.lblCounts lock.lblRequests
  state : lock.lblState = lockState lock.lblCounts
  pending : lock.lblPendingLrqCount = lock.lblRequests.countP Lrq.lrqPending
  waiting : ∀ r ∈ lock.lblRequests, r.lrqPending = true → ∃ c, r.lrqCall = .waits c

def withRequests (lock : Lbl) (requests : List Lrq) : Lbl := { lock with lblRequests := requests }

@[simp] theorem withRequests_requests (lock : Lbl) (requests : List Lrq) :
    (lock.withRequests requests).lblRequests = requests := rfl

@[simp] theorem withRequests_counts (lock : Lbl) (requests : List Lrq) :
    (lock.withRequests requests).lblCounts = lock.lblCounts := rfl

@[simp] theorem withRequests_state (lock : Lbl) (requests : List Lrq) :
    (lock.withRequests requests).lblState = lock.lblState := rfl

@[simp] theorem withRequests_pending (lock : Lbl) (requests : List Lrq) :
    (lock.withRequests requests).lblPendingLrqCount = lock.lblPendingLrqCount := rfl

theorem Consistent.perm {lock : Lbl} (h : lock.Consistent) {requests : List Lrq}
    (perm : requests.Perm lock.lblRequests) : (lock.withRequests requests).Consistent where
  distinct := (perm.map _).nodup_iff.mpr h.distinct
  bounded := perm.length_eq ▸ h.bounded
  small := h.small
  granted := (perm.pairwise_iff fun h => Std.Symm.symm _ _ h).mpr h.granted
  counted s hs := by
    simp only [withRequests_counts, withRequests_requests, perm.countP_eq]
    exact h.counted s hs
  state := h.state
  pending := by
    simp only [withRequests_pending, withRequests_requests, perm.countP_eq]
    exact h.pending
  waiting r hr := h.waiting r (perm.mem_iff.mp hr)

/-- A request that stays at its level can change in all else, when it is counted as pending or not. -/
theorem Consistent.replace {lock : Lbl} {before after : List Lrq} {r : Lrq}
    (h : (lock.withRequests (before ++ r :: after)).Consistent) (r' : Lrq)
    (offset : r'.lrqOffset = r.lrqOffset) (state : r'.lrqState = r.lrqState)
    (waiting : r'.lrqPending = true → ∃ c, r'.lrqCall = .waits c) {count : Nat}
    (pending : count = (before ++ r' :: after).countP Lrq.lrqPending) :
    (Lbl.withRequests { lock with lblPendingLrqCount := count } (before ++ r' :: after)).Consistent where
  distinct := by simpa only [withRequests_requests, List.map_append, List.map_cons, offset]
    using h.distinct
  bounded := by simpa only [withRequests_requests, List.length_append, List.length_cons]
    using h.bounded
  small := h.small
  granted := by
    have old := Granted.cons_iff.mp h.granted
    refine Granted.cons_iff.mpr ⟨old.1, ?_⟩
    intro q hq
    unfold Lrq.Compatible
    rw [state]
    exact old.2 q hq
  counted := by
    have old := counted_cons_iff.mp h.counted
    refine counted_cons_iff.mpr ?_
    rw [state]
    exact old
  state := h.state
  pending := pending
  waiting q hq := by
    intro hp
    simp only [withRequests_requests, List.mem_append, List.mem_cons] at hq
    rcases hq with hq | rfl | hq
    · exact h.waiting q (by simp [hq]) hp
    · exact waiting hp
    · exact h.waiting q (by simp [hq]) hp

theorem countP_replace {before after : List Lrq} {r r' : Lrq} (same : r'.lrqPending = r.lrqPending) :
    (before ++ r' :: after).countP Lrq.lrqPending = (before ++ r :: after).countP Lrq.lrqPending := by
  simp only [List.countP_append, List.countP_cons, same]

theorem Consistent.update {lock : Lbl} {before after : List Lrq} {r : Lrq}
    (h : (lock.withRequests (before ++ r :: after)).Consistent) {r' : Lrq}
    (offset : r'.lrqOffset = r.lrqOffset) (state : r'.lrqState = r.lrqState)
    (pending : r'.lrqPending = r.lrqPending)
    (waiting : r'.lrqPending = true → ∃ c, r'.lrqCall = .waits c) :
    (lock.withRequests (before ++ r' :: after)).Consistent :=
  h.replace r' offset state waiting (h.pending.trans (countP_replace pending).symm)

theorem mem_middle {before after : List Lrq} {r : Lrq} (q : Lrq) :
    q ∈ before ++ r :: after ↔ q = r ∨ q ∈ before ++ after := by
  rw [List.mem_append, List.mem_append, List.mem_cons]
  tauto

theorem offset_ne {requests : List Lrq} (distinct : (requests.map Lrq.lrqOffset).Nodup)
    {before after : List Lrq} {r : Lrq} (split : requests = before ++ r :: after) {q : Lrq}
    (hq : q ∈ before ++ after) : q.lrqOffset ≠ r.lrqOffset := by
  rw [split, List.perm_middle.map _ |>.nodup_iff, List.map_cons, List.nodup_cons] at distinct
  intro same
  exact distinct.1 (same ▸ List.mem_map_of_mem hq)

theorem put_eq (lock : Lbl) (r' : Lrq) (distinct : (lock.lblRequests.map Lrq.lrqOffset).Nodup)
    {before after : List Lrq} {r : Lrq} (split : lock.lblRequests = before ++ r :: after) (offset : r'.lrqOffset = r.lrqOffset) :
    lock.put r' = lock.withRequests (before ++ r' :: after) := by
  have others : ∀ q ∈ before ++ after,
      (if q.lrqOffset = r'.lrqOffset then r' else q) = q := by
    intro q hq
    rw [offset]
    exact if_neg (offset_ne distinct split hq)
  unfold put withRequests
  rw [split, List.map_append, List.map_cons, if_pos offset.symm,
    List.map_congr_left fun q hq => others q (List.mem_append_left _ hq),
    List.map_congr_left fun q hq => others q (List.mem_append_right _ hq), List.map_id', List.map_id']

theorem remove_eq (lock : Lbl) (r' : Lrq) (distinct : (lock.lblRequests.map Lrq.lrqOffset).Nodup)
    {before after : List Lrq} {r : Lrq} (split : lock.lblRequests = before ++ r :: after) (offset : r'.lrqOffset = r.lrqOffset) :
    lock.remove r' = lock.withRequests (before ++ after) := by
  have others : ∀ q ∈ before ++ after, (q.lrqOffset != r'.lrqOffset) = true := by
    intro q hq
    rw [offset]
    exact bne_iff_ne.mpr (offset_ne distinct split hq)
  unfold remove withRequests
  rw [split, List.filter_append, List.filter_cons_of_neg (by simp [offset]),
    List.filter_eq_self.mpr fun q hq => others q (List.mem_append_left _ hq),
    List.filter_eq_self.mpr fun q hq => others q (List.mem_append_right _ hq)]

theorem endPending_eq (lock : Lbl) (request : Lrq) :
    lock.endPending request =
      { lock with
        lblPendingLrqCount :=
          if request.lrqPending then decrement lock.lblPendingLrqCount
          else lock.lblPendingLrqCount } := by
  unfold endPending
  split
  · rfl
  · rfl

/-- The lock as it counts without a request. -/
def without (lock : Lbl) (request : Lrq) : Lbl :=
  if request.lrqState = lckNone then lock else lock.countDown request.lrqState

theorem without_pending (lock : Lbl) (request : Lrq) :
    (lock.without request).lblPendingLrqCount = lock.lblPendingLrqCount := by
  unfold without
  split
  · rfl
  · rfl

theorem small_without {lock : Lbl} (small : ∀ s, lock.lblCounts s < 65536) (request : Lrq)
    (s : Level) : (lock.without request).lblCounts s < 65536 := by
  unfold without
  split
  · exact small s
  · exact small_countDown small s

theorem counted_without {lock : Lbl} {before after : List Lrq} {r : Lrq}
    (counted : Counted lock.lblCounts (before ++ r :: after))
    (small : ∀ s, lock.lblCounts s < 65536) :
    Counted (lock.without r).lblCounts (before ++ after) := by
  unfold without
  split
  next none =>
    intro s hs
    rw [counted_cons_iff.mp counted s hs, none, if_neg hs.ne, Nat.add_zero]
  next => exact counted_countDown counted small

/-- `grant` beside requests whose levels it does not conflict with. -/
theorem Consistent.grant {lock : Lbl} {before after : List Lrq} {r : Lrq}
    (h : (lock.withRequests (before ++ r :: after)).Consistent) {lock' : Lbl}
    (counted : Counted lock'.lblCounts (before ++ after)) (small : ∀ s, lock'.lblCounts s < 65536)
    (pending : lock'.lblPendingLrqCount = lock.lblPendingLrqCount)
    (can : r.Grantable (before ++ after)) :
    ((InterBase.grant r lock').2.withRequests (before ++ r.granted :: after)).Consistent where
  distinct := by
    have old := h.distinct
    simp only [withRequests_requests, List.map_append, List.map_cons] at old ⊢
    exact old
  bounded := by simpa only [withRequests_requests, List.length_append, List.length_cons]
    using h.bounded
  small s := by
    simp only [withRequests_counts, InterBase.grant, endPending_eq]
    exact small_countUp small s
  granted := by
    refine Granted.cons_iff.mpr ⟨(Granted.cons_iff.mp h.granted).1, ?_⟩
    exact can
  counted := by
    have counts : (InterBase.grant r lock').2.lblCounts = (lock'.countUp r.lrqRequested).lblCounts := by
      simp only [InterBase.grant, endPending_eq]
    rw [withRequests_counts, counts]
    refine counted_countUp (r := r.granted) counted ?_
    simpa only [withRequests_requests, List.length_append, List.length_cons] using h.bounded
  state := by
    simp only [withRequests_state, withRequests_counts, InterBase.grant, endPending_eq]
  pending := by
    have old := h.pending
    have count : (InterBase.grant r lock').2.lblPendingLrqCount =
        if r.lrqPending then decrement lock.lblPendingLrqCount else lock.lblPendingLrqCount := by
      rw [← pending]
      simp only [InterBase.grant, endPending_eq]
      rfl
    have bounded := h.bounded
    have le := List.countP_le_length (p := Lrq.lrqPending) (l := before ++ r :: after)
    simp only [withRequests_requests] at bounded
    simp only [withRequests_pending, withRequests_requests] at old ⊢
    rw [count]
    rw [List.perm_middle.countP_eq, List.countP_cons] at old le ⊢
    by_cases hp : r.lrqPending = true
    · rw [if_pos hp] at old le ⊢
      rw [old, decrement_eq (by omega) (by omega)]
      rfl
    · rw [if_neg hp] at old ⊢
      rw [old]
      rfl
  waiting q hq := by
    intro hp
    simp only [withRequests_requests, List.mem_append, List.mem_cons] at hq
    rcases hq with hq | rfl | hq
    · exact h.waiting q (by simp [hq]) hp
    · cases hp
    · exact h.waiting q (by simp [hq]) hp

/-- The lock when a request of it is granted its level in `post_pending`. -/
def regrant (lock : Lbl) (request : Lrq) : Lbl := (InterBase.grant request (lock.without request)).2

theorem Consistent.regrant {lock : Lbl} {before after : List Lrq} {r : Lrq}
    (h : (lock.withRequests (before ++ r :: after)).Consistent) (can : r.Grantable (before ++ after)) :
    ((lock.regrant r).withRequests (before ++ r.granted :: after)).Consistent := by
  have small : ∀ s, lock.lblCounts s < 65536 := h.small
  exact h.grant (counted_without h.counted small) (small_without small r) (without_pending lock r) can

theorem Consistent.grantable_iff {lock : Lbl} {before after : List Lrq} {r : Lrq}
    (h : (lock.withRequests (before ++ r :: after)).Consistent) :
    compatible r.lrqRequested (lockState (lock.without r).lblCounts) = true ↔
      r.Grantable (before ++ after) :=
  compatible_lockState_iff _ (counted_without h.counted h.small) (Granted.cons_iff.mp h.granted).1

end Lbl

/-- What `post_pending` does with one request: it looks at the levels of all the others. -/
theorem postPendingLoop_cons {ordering : Bool} {lock : Lbl} {before rest : List Lrq} {request : Lrq}
    (h : (lock.withRequests (before ++ request :: rest)).Consistent) :
    postPendingLoop ordering lock (request :: rest) =
      if request.lrqPending = false then
        ((postPendingLoop ordering lock rest).1, request :: (postPendingLoop ordering lock rest).2)
      else if request.Grantable (before ++ rest) then
        ((postPendingLoop ordering (lock.regrant request) rest).1,
          request.granted :: (postPendingLoop ordering (lock.regrant request) rest).2)
      else if ordering then (lock, request :: rest)
      else
        ((postPendingLoop ordering lock rest).1, request :: (postPendingLoop ordering lock rest).2) := by
  have can := h.grantable_iff
  have state : lock.lblState = lockState lock.lblCounts := h.state
  have back : (lock.countDown request.lrqState).countUp request.lrqState = lock :=
    Lbl.countUp_countDown (h.small _)
  rw [postPendingLoop]
  unfold Lbl.regrant
  unfold Lbl.without at can ⊢
  by_cases none : request.lrqState = lckNone
  · rw [if_pos none] at can ⊢
    simp only [← can, ← state, none, ne_eq, not_true_eq_false, if_false]
    rfl
  · rw [if_neg none] at can ⊢
    simp only [← can, ne_eq, none, not_false_eq_true, if_true, back]
    rfl

theorem postPendingLoop_consistent {ordering : Bool} {rest : List Lrq} :
    ∀ {lock : Lbl} (before : List Lrq), (lock.withRequests (before ++ rest)).Consistent →
      ((postPendingLoop ordering lock rest).1.withRequests
        (before ++ (postPendingLoop ordering lock rest).2)).Consistent := by
  induction rest with
  | nil =>
    intro lock before h
    exact h
  | cons request rest ih =>
    intro lock before h
    rw [postPendingLoop_cons h]
    have move : ∀ r : Lrq, ∀ list : List Lrq, before ++ r :: list = (before ++ [r]) ++ list := by
      intro r list
      simp
    split
    · rw [move] at h ⊢
      exact ih _ h
    split
    next can =>
      have next := h.regrant can
      rw [move] at next ⊢
      exact ih _ next
    split
    · exact h
    · rw [move] at h ⊢
      exact ih _ h

/-- What a pass of `post_pending` can do to a request. -/
def Lrq.Advances (r r' : Lrq) : Prop := r' = r ∨ (r.lrqPending = true ∧ r' = r.granted)

theorem postPendingLoop_advances {ordering : Bool} {rest : List Lrq} :
    ∀ {lock : Lbl}, List.Forall₂ Lrq.Advances rest (postPendingLoop ordering lock rest).2 := by
  induction rest with
  | nil =>
    intro lock
    exact .nil
  | cons request rest ih =>
    intro lock
    have same : ∀ rs : List Lrq, List.Forall₂ Lrq.Advances rs rs := fun rs =>
      List.forall₂_same.mpr fun _ _ => .inl rfl
    rw [postPendingLoop]
    dsimp only
    split
    · exact .cons (.inl rfl) ih
    next pending =>
      have granted : request.Advances request.granted := .inr ⟨by simpa using pending, rfl⟩
      split
      · split
        · exact .cons granted ih
        · split
          · exact same _
          · exact .cons (.inl rfl) ih
      · split
        · exact .cons granted ih
        · split
          · exact same _
          · exact .cons (.inl rfl) ih

theorem postPending_advances {ordering : Bool} {lock : Lbl} :
    List.Forall₂ Lrq.Advances lock.lblRequests (postPending ordering lock).lblRequests := by
  unfold postPending
  split
  · exact List.forall₂_same.mpr fun _ _ => .inl rfl
  · exact postPendingLoop_advances

/-- A pass leaves the requests that are not pending. -/
theorem mem_postPending {ordering : Bool} {lock : Lbl} {request : Lrq}
    (mem : request ∈ lock.lblRequests) (idle : request.lrqPending = false) :
    request ∈ (postPending ordering lock).lblRequests := by
  obtain ⟨n, hn, at_n⟩ := List.mem_iff_getElem.mp mem
  have all := List.forall₂_iff_get.mp
    (postPending_advances : List.Forall₂ Lrq.Advances _ (postPending ordering lock).lblRequests)
  have hn' : n < (postPending ordering lock).lblRequests.length := all.1 ▸ hn
  have advances := all.2 n hn hn'
  simp only [List.get_eq_getElem, at_n] at advances
  rcases advances with same | ⟨pending, -⟩
  · rw [← same]
    exact List.getElem_mem hn'
  · rw [idle] at pending
    cases pending

theorem postPending_consistent {ordering : Bool} {lock : Lbl} (h : lock.Consistent) :
    (postPending ordering lock).Consistent := by
  unfold postPending
  split
  · exact h
  · exact postPendingLoop_consistent [] h

namespace Lbl

/-- The lock that `release_request` leaves to `post_pending`. -/
def released (lock : Lbl) (request : Lrq) : Lbl :=
  { lblState := lockState (lock.without request).lblCounts
    lblCounts := (lock.without request).lblCounts
    lblPendingLrqCount := (lock.endPending request).lblPendingLrqCount
    lblRequests := (lock.remove request).lblRequests }

theorem Consistent.endPending_count {lock : Lbl} (h : lock.Consistent) {before after : List Lrq}
    {r : Lrq} (split : lock.lblRequests = before ++ r :: after) :
    (lock.endPending r).lblPendingLrqCount = (before ++ after).countP Lrq.lrqPending := by
  have old := h.pending
  have bounded := h.bounded
  have le := List.countP_le_length (p := Lrq.lrqPending) (l := lock.lblRequests)
  rw [split, List.perm_middle.countP_eq, List.countP_cons] at old
  unfold endPending
  by_cases hp : r.lrqPending = true
  · rw [if_pos hp] at old ⊢
    rw [← h.pending] at le
    have count := decrement_eq (n := lock.lblPendingLrqCount) (by omega) (by omega)
    simp only [count]
    omega
  · rw [if_neg hp] at old ⊢
    exact old

theorem Consistent.released {lock : Lbl} (h : lock.Consistent) {r : Lrq}
    (mem : r ∈ lock.lblRequests) : (lock.released r).Consistent := by
  obtain ⟨before, after, split⟩ := List.append_of_mem mem
  have rest : (lock.released r).lblRequests = before ++ after := by
    unfold Lbl.released
    rw [remove_eq lock r h.distinct split rfl]
    rfl
  have sub : (before ++ after).Sublist lock.lblRequests := by
    rw [split]
    exact (List.Sublist.refl _).append (List.sublist_cons_self _ _)
  refine ⟨?_, ?_, ?_, ?_, ?_, rfl, ?_, ?_⟩
  · rw [rest]
    exact h.distinct.sublist (sub.map _)
  · rw [rest]
    exact sub.length_le.trans_lt h.bounded
  · exact small_without h.small r
  · rw [rest]
    exact h.granted.sublist sub
  · rw [rest]
    exact counted_without (split ▸ h.counted) h.small
  · rw [rest]
    exact h.endPending_count split
  · intro q hq
    rw [rest] at hq
    exact h.waiting q (sub.subset hq)

end Lbl

theorem releaseRequest_eq {ordering : Bool} {lock : Lbl} (h : lock.Consistent) {request : Lrq}
    (mem : request ∈ lock.lblRequests) :
    releaseRequest ordering request lock =
      if (lock.remove request).lblRequests.isEmpty then none
      else some (postPending ordering (lock.released request)) := by
  obtain ⟨before, after, split⟩ := List.append_of_mem mem
  have state : (lock.without request).lblCounts request.lrqState ≠ 0 ∨
      request.lrqState = lckNone → lock.lblState = lockState (lock.without request).lblCounts := by
    intro left
    rw [h.state]
    apply lockState_congr
    intro s hs
    unfold Lbl.without at left ⊢
    by_cases none : request.lrqState = lckNone
    · rw [if_pos none]
    · rw [if_neg none] at left ⊢
      simp only [none, or_false] at left
      by_cases same : s = request.lrqState
      · subst same
        have counted := counted_cons_iff.mp (split ▸ h.counted) _ hs
        rw [if_pos rfl] at counted
        exact iff_of_false (by omega) left
      · unfold Lbl.countDown
        simp only [Function.update_of_ne same]
  unfold releaseRequest Lbl.released
  unfold Lbl.without at state ⊢
  simp only [Lbl.endPending_eq]
  split
  · rfl
  by_cases none : request.lrqState = lckNone
  · simp only [if_pos none] at state ⊢
    have same := state (.inr none)
    rw [if_neg (not_not.mpr none), ← same]
    rfl
  · simp only [if_neg none] at state ⊢
    rw [if_pos none]
    by_cases zero : (lock.countDown request.lrqState).lblCounts request.lrqState = 0
    · exact if_pos zero
    · have same := state (.inl zero)
      rw [← same]
      exact if_neg zero

theorem releaseRequest_consistent {ordering : Bool} {lock lock' : Lbl} (h : lock.Consistent)
    {request : Lrq} (mem : request ∈ lock.lblRequests)
    (result : releaseRequest ordering request lock = some lock') : lock'.Consistent := by
  rw [releaseRequest_eq h mem] at result
  split at result
  · cases result
  · cases result
    exact postPending_consistent (h.released mem)

theorem releaseAt_cases {ordering : Bool} {offset : Nat} {lock : Option Lbl} {P : Option Lbl → Prop}
    (none : lock = none → P none)
    (absent : ∀ l, lock = some l → l.lblRequests.find? (·.lrqOffset = offset) = .none → P (some l))
    (found : ∀ l request, lock = some l → request ∈ l.lblRequests → request.lrqOffset = offset →
      P (releaseRequest ordering request l)) : P (releaseAt ordering offset lock) := by
  unfold releaseAt
  cases lock with
  | none => exact none rfl
  | some l =>
    rw [Option.bind_some]
    cases at_offset : l.lblRequests.find? (·.lrqOffset = offset) with
    | none => exact absent l rfl at_offset
    | some request =>
      refine found l request rfl (List.mem_of_find?_eq_some at_offset) ?_
      simpa using List.find?_some at_offset

theorem releaseAt_consistent {ordering : Bool} {offset : Nat} {lock : Option Lbl}
    (h : ∀ l, lock = some l → l.Consistent) :
    ∀ l, releaseAt ordering offset lock = some l → l.Consistent := by
  refine releaseAt_cases (P := fun x => ∀ l, x = some l → l.Consistent) ?_ ?_ ?_
  · intro _ l hl
    cases hl
  · intro l found _ l' hl'
    cases hl'
    exact h l found
  · intro l request found mem _ l' hl'
    exact releaseRequest_consistent (h l found) mem hl'

theorem releaseAll_consistent {ordering : Bool} {requests : List Nat} :
    ∀ {lock : Option Lbl}, (∀ l, lock = some l → l.Consistent) →
      ∀ l, releaseAll ordering requests lock = some l → l.Consistent := by
  induction requests with
  | nil =>
    intro lock h
    exact h
  | cons offset rest ih =>
    intro lock h
    exact ih (releaseAt_consistent h)

namespace Lbl

variable {lock : Lbl} {before after : List Lrq} {r : Lrq}

theorem Consistent.of_split (h : lock.Consistent) (split : lock.lblRequests = before ++ r :: after) :
    (lock.withRequests (before ++ r :: after)).Consistent := by
  rw [← split]
  exact h

theorem Consistent.put (h : lock.Consistent) (mem : r ∈ lock.lblRequests) {r' : Lrq}
    (offset : r'.lrqOffset = r.lrqOffset) (state : r'.lrqState = r.lrqState)
    (pending : r'.lrqPending = r.lrqPending)
    (waiting : r'.lrqPending = true → ∃ c, r'.lrqCall = .waits c) : (lock.put r').Consistent := by
  obtain ⟨before, after, split⟩ := List.append_of_mem mem
  rw [put_eq lock r' h.distinct split offset]
  exact (h.of_split split).update offset state pending waiting

theorem Consistent.countP_pending (h : lock.Consistent)
    (split : lock.lblRequests = before ++ r :: after) :
    (before ++ after).countP Lrq.lrqPending + (if r.lrqPending then 1 else 0) =
      lock.lblPendingLrqCount ∧ (before ++ after).countP Lrq.lrqPending < 65535 := by
  have bounded := h.bounded
  have count := h.pending
  have le := List.countP_le_length (p := Lrq.lrqPending) (l := before ++ after)
  rw [split, List.perm_middle.length_eq, List.length_cons] at bounded
  rw [split, List.perm_middle.countP_eq, List.countP_cons] at count
  exact ⟨count.symm, by omega⟩

end Lbl

/-- The request of an owner that goes to sleep. -/
def Lrq.waiting (request : Lrq) (conversion : Bool) : Lrq :=
  { request with lrqRejected := false, lrqPending := true, lrqCall := .waits conversion }

theorem waitForRequest_eq {ordering conversion : Bool} {lock : Lbl}
    (distinct : (lock.lblRequests.map Lrq.lrqOffset).Nodup) {before after : List Lrq} {r request : Lrq}
    (split : lock.lblRequests = before ++ r :: after) (offset : request.lrqOffset = r.lrqOffset) :
    waitForRequest ordering conversion request lock =
      Lbl.withRequests { lock with lblPendingLrqCount := increment lock.lblPendingLrqCount }
        (if ordering = true ∧ request.lrqState = lckNone then
          before ++ after ++ [request.waiting conversion]
        else before ++ request.waiting conversion :: after) := by
  let waits : Lbl := { lock with lblPendingLrqCount := increment lock.lblPendingLrqCount }
  have put := waits.put_eq (request.waiting conversion) distinct split offset
  have remove := waits.remove_eq (request.waiting conversion) distinct split offset
  change (if ordering = true ∧ request.lrqState = lckNone then
      { waits.remove (request.waiting conversion) with
        lblRequests := (waits.remove (request.waiting conversion)).lblRequests ++
          [request.waiting conversion] }
    else waits.put (request.waiting conversion)) = _
  rw [put, remove]
  split
  · rfl
  · rfl

theorem waitForRequest_consistent {ordering conversion : Bool} {lock : Lbl} (h : lock.Consistent)
    {r request : Lrq} (mem : r ∈ lock.lblRequests) (idle : r.lrqPending = false)
    (offset : request.lrqOffset = r.lrqOffset) (state : request.lrqState = r.lrqState) :
    (waitForRequest ordering conversion request lock).Consistent := by
  obtain ⟨before, after, split⟩ := List.append_of_mem mem
  obtain ⟨count, small⟩ := h.countP_pending split
  rw [idle, if_neg Bool.false_ne_true, Nat.add_zero] at count
  have pending : increment lock.lblPendingLrqCount =
      (before ++ request.waiting conversion :: after).countP Lrq.lrqPending := by
    rw [List.perm_middle.countP_eq, List.countP_cons, ← count, increment_eq (by omega)]
    rfl
  have waits := (h.of_split split).replace (request.waiting conversion) offset state (fun _ => ⟨conversion, rfl⟩) pending
  rw [waitForRequest_eq h.distinct split offset]
  split
  · refine waits.perm ?_
    rw [List.append_assoc]
    exact (List.perm_append_singleton _ _).append_left _
  · exact waits

def Lrq.refused (request : Lrq) : Lrq := { request with lrqRejected := true, lrqPending := false }

theorem reject_eq {lock : Lbl} (distinct : (lock.lblRequests.map Lrq.lrqOffset).Nodup)
    {before after : List Lrq} {request : Lrq} (split : lock.lblRequests = before ++ request :: after) :
    reject request lock =
      Lbl.withRequests { lock with lblPendingLrqCount := decrement lock.lblPendingLrqCount }
        (before ++ request.refused :: after) :=
  Lbl.put_eq { lock with lblPendingLrqCount := decrement lock.lblPendingLrqCount } request.refused
    distinct split rfl

theorem reject_consistent {lock : Lbl} (h : lock.Consistent) {request : Lrq}
    (mem : request ∈ lock.lblRequests) (pending : request.lrqPending = true) :
    (reject request lock).Consistent := by
  obtain ⟨before, after, split⟩ := List.append_of_mem mem
  obtain ⟨count, small⟩ := h.countP_pending split
  rw [pending, if_pos rfl] at count
  rw [reject_eq h.distinct split]
  refine (h.of_split split).replace request.refused rfl rfl nofun ?_
  rw [List.perm_middle.countP_eq, List.countP_cons, ← count, decrement_eq (by omega) (by omega)]
  rfl

theorem grant_requests (request : Lrq) (lock : Lbl) :
    (grant request lock).2.lblRequests = lock.lblRequests := by
  simp only [grant, Lbl.endPending_eq]
  rfl

theorem grant_put (request : Lrq) (lock : Lbl)
    (distinct : (lock.lblRequests.map Lrq.lrqOffset).Nodup)
    {before after : List Lrq} {r : Lrq} (split : lock.lblRequests = before ++ r :: after)
    (offset : request.lrqOffset = r.lrqOffset) :
    (grant request lock).2.put request.granted =
      (grant request lock).2.withRequests (before ++ request.granted :: after) := by
  have requests := grant_requests request lock
  refine Lbl.put_eq _ _ ?_ (requests.trans split) offset
  rw [requests]
  exact distinct

theorem convert_consistent {ordering wait : Bool} {type : Level} {lock : Lbl} (h : lock.Consistent)
    {request : Lrq} (mem : request ∈ lock.lblRequests) (idle : request.lrqPending = false) :
    (convert ordering type wait request lock).1.Consistent := by
  obtain ⟨before, after, split⟩ := List.append_of_mem mem
  let asked : Lrq := { request with lrqRequested := type }
  have h' : (lock.withRequests (before ++ asked :: after)).Consistent :=
    (h.of_split split).update rfl rfl rfl fun hp => absurd hp (by rw [idle]; exact Bool.false_ne_true)
  have small : ∀ s, lock.lblCounts s < 65536 := h.small
  have counted : Counted (lock.countDown request.lrqState).lblCounts (before ++ after) :=
    Lbl.counted_countDown (split ▸ h.counted) small
  have back : (lock.countDown request.lrqState).countUp request.lrqState = lock :=
    Lbl.countUp_countDown (small _)
  unfold convert
  simp only [back]
  split
  next can =>
    have others := (compatible_lockState_iff _ counted (Granted.cons_iff.mp h'.granted).1).mp can
    have granted := h'.grant counted (Lbl.small_countDown small) rfl others
    have put := grant_put asked (lock.countDown request.lrqState) h.distinct split rfl
    exact postPending_consistent (put ▸ granted)
  split
  · exact waitForRequest_consistent h mem idle rfl rfl
  · exact h.put mem rfl rfl rfl fun hp => absurd hp (by rw [idle]; exact Bool.false_ne_true)

theorem grantOrQue_consistent {ordering wait : Bool} {lock lock' : Lbl} (h : lock.Consistent)
    {request : Lrq} (mem : request ∈ lock.lblRequests) (idle : request.lrqPending = false)
    (new : request.lrqState = lckNone)
    (result : (grantOrQue ordering wait request lock).1 = some lock') : lock'.Consistent := by
  obtain ⟨before, after, split⟩ := List.append_of_mem mem
  have h' := h.of_split split
  have counted : Counted lock.lblCounts (before ++ after) := by
    have counted := Lbl.counted_without h'.counted h.small
    unfold Lbl.without at counted
    rw [if_pos new] at counted
    exact counted
  unfold grantOrQue at result
  split at result
  next can =>
    cases result
    rw [h.state] at can
    have others :=
      (compatible_lockState_iff _ counted (Granted.cons_iff.mp h'.granted).1).mp can.1
    have granted := h'.grant counted h.small rfl others
    have put := grant_put request lock h.distinct split rfl
    exact postPending_consistent (put ▸ granted)
  split at result
  · cases result
    exact waitForRequest_consistent h mem idle rfl rfl
  · exact releaseRequest_consistent h mem result

theorem Lbl.Consistent.append {lock : Lbl} (h : lock.Consistent) {request : Lrq}
    (fresh : ∀ r ∈ lock.lblRequests, r.lrqOffset ≠ request.lrqOffset)
    (room : lock.lblRequests.length + 1 < 65536) (idle : request.lrqPending = false)
    (new : request.lrqState = lckNone) :
    (lock.withRequests (lock.lblRequests ++ [request])).Consistent where
  distinct := by
    rw [withRequests_requests, List.map_append, List.nodup_append_comm]
    refine List.nodup_cons.mpr ⟨?_, h.distinct⟩
    intro mem
    obtain ⟨r, hr, same⟩ := List.mem_map.mp mem
    exact fresh r hr same
  bounded := by
    rw [withRequests_requests, List.length_append]
    exact room
  small := h.small
  granted := by
    refine Granted.cons_iff.mpr ⟨by rw [List.append_nil]; exact h.granted, ?_⟩
    intro q _
    unfold Lrq.Compatible
    rw [new, compatible_comm]
    exact compatible_none _
  counted := by
    refine counted_cons_iff.mpr ?_
    intro s hs
    rw [List.append_nil, new, if_neg hs.ne]
    exact h.counted s hs
  state := h.state
  pending := by
    rw [withRequests_pending, withRequests_requests, List.countP_append, h.pending]
    simp only [List.countP_cons, List.countP_nil, idle, Bool.false_eq_true, if_false, Nat.add_zero]
  waiting q hq := by
    intro hp
    rcases List.mem_append.mp hq with hq | hq
    · exact h.waiting q hq hp
    · rw [List.mem_singleton.mp hq, idle] at hp
      cases hp

theorem unused_consistent : (Lbl.mk lckNone (fun _ => 0) 0 []).Consistent where
  distinct := List.nodup_nil
  bounded := Nat.zero_lt_succ _
  small _ := Nat.zero_lt_succ _
  granted := List.Pairwise.nil
  counted _ _ := rfl
  state := rfl
  pending := rfl
  waiting _ hr := by cases hr

theorem lockEnq_consistent {ordering wait : Bool} {lock : Option Lbl} {lock' : Lbl}
    (h : ∀ l, lock = some l → l.Consistent) {offset owner : Nat} {type : Level}
    (fresh : ∀ r ∈ lockRequests lock, r.lrqOffset ≠ offset)
    (room : (lockRequests lock).length + 1 < 65536)
    (result : (lockEnq ordering wait (newLrq offset owner type) lock).1 = some lock') :
    lock'.Consistent := by
  cases lock with
  | none =>
    let request := newLrq offset owner type
    let new : Lbl := ⟨type, fun _ => 0, 0, [request]⟩
    have alone : (Lbl.withRequests ⟨lckNone, fun _ => 0, 0, []⟩ ([] ++ request :: [])).Consistent :=
      unused_consistent.append nofun (Nat.succ_lt_succ (Nat.zero_lt_succ _)) rfl rfl
    have granted : ((grant request new).2.withRequests ([] ++ request.granted :: [])).Consistent :=
      alone.grant (fun _ _ => rfl) (fun _ => Nat.zero_lt_succ _) rfl nofun
    have put : (grant request new).2.put request.granted =
        (grant request new).2.withRequests ([] ++ request.granted :: []) :=
      grant_put request new (List.nodup_singleton _) rfl rfl
    cases result
    exact put ▸ granted
  | some l =>
    have grown : (l.withRequests (l.lblRequests ++ [newLrq offset owner type])).Consistent :=
      (h l rfl).append fresh room rfl rfl
    exact grantOrQue_consistent grown (List.mem_append_right _ (List.mem_singleton_self _)) rfl rfl
      result

theorem lockDowngrade_consistent {ordering : Bool} {lock lock' : Lbl} (h : lock.Consistent)
    {request : Lrq} (mem : request ∈ lock.lblRequests) (idle : request.lrqPending = false)
    (result : lockDowngrade ordering request lock = some lock') : lock'.Consistent := by
  unfold lockDowngrade at result
  simp only at result
  split at result
  · exact releaseRequest_consistent h mem result
  · cases result
    exact convert_consistent h mem idle

theorem convertRejected_consistent {ordering : Bool} {lock : Lbl} (h : lock.Consistent)
    {request : Lrq} (mem : request ∈ lock.lblRequests) (idle : request.lrqPending = false) :
    (convertRejected ordering request lock).Consistent :=
  (postPending_consistent h).put (mem_postPending mem idle) rfl rfl rfl
    fun hp => absurd hp (by simp [idle])

theorem Lbl.Consistent.find_eq {lock : Lbl} (h : lock.Consistent) {request : Lrq}
    (mem : request ∈ lock.lblRequests) :
    lock.lblRequests.find? (·.lrqOffset = request.lrqOffset) = some request := by
  obtain ⟨before, after, split⟩ := List.append_of_mem mem
  have none : before.find? (·.lrqOffset = request.lrqOffset) = none := by
    refine List.find?_eq_none.mpr ?_
    intro q hq
    simpa using offset_ne h.distinct split (List.mem_append_left _ hq)
  rw [split, List.find?_append, none, Option.none_or, List.find?_cons_of_pos (by simp)]

theorem Lbl.Consistent.idle {lock : Lbl} (h : lock.Consistent) {request : Lrq}
    (mem : request ∈ lock.lblRequests) (call : ∀ c, request.lrqCall ≠ .waits c) :
    request.lrqPending = false := by
  rw [← Bool.not_eq_true]
  intro hp
  obtain ⟨c, waits⟩ := h.waiting request mem hp
  exact call c waits

/-- Every step but a purge changes one lock. -/
theorem LockTable.forall_update {κ : Type} [DecidableEq κ] (t : LockTable κ) {P : Lbl → Prop}
    (key : κ) (new : Option Lbl) (good : ∀ l, new = some l → P l)
    (h : ∀ key lock, t.locks key = some lock → P lock) :
    ∀ key' lock, Function.update t.locks key new key' = some lock → P lock := by
  intro key' lock hl
  by_cases same : key' = key
  · rw [same, Function.update_self] at hl
    exact good lock hl
  · rw [Function.update_of_ne same] at hl
    exact h key' lock hl

theorem LockTable.Step.consistent {κ : Type} [DecidableEq κ] {ordering : Bool} {t t' : LockTable κ}
    (step : t.Step ordering t') (h : ∀ key lock, t.locks key = some lock → lock.Consistent) :
    ∀ key lock, t'.locks key = some lock → lock.Consistent := by
  have one := fun key new good => t.forall_update (P := Lbl.Consistent) key new good h
  cases step with
  | enq key offset owner type wait fresh room =>
    have good : ∀ l, (lockEnq ordering wait (newLrq offset owner type) (t.locks key)).1 = some l →
        l.Consistent := fun _ hl => lockEnq_consistent (h key) fresh room hl
    unfold LockTable.enq
    simp only
    split
    · exact one key _ good
    · exact one key _ good
  | convert key lock request type wait found mem idle =>
    have good : (InterBase.convert ordering type wait request lock).1.Consistent :=
      convert_consistent (h key lock found) mem ((h key lock found).idle mem (by simp [idle]))
    unfold LockTable.convert
    simp only
    split
    · exact one key _ fun l hl => Option.some.inj hl ▸ good
    · exact one key _ fun l hl => Option.some.inj hl ▸ good
  | downgrade key lock request found mem idle =>
    exact one key _ fun l hl =>
      lockDowngrade_consistent (h key lock found) mem ((h key lock found).idle mem (by simp [idle])) hl
  | deq key lock request found mem idle =>
    exact one key _ fun l hl => releaseRequest_consistent (h key lock found) mem hl
  | timeout key lock request found mem pending =>
    exact one key _ fun l hl => Option.some.inj hl ▸ reject_consistent (h key lock found) mem pending
  | deadlock busy depth waiting key lock request victim waits pending scan found mem =>
    have waiting := deadlockScan_waiting scan
    unfold LockTable.Waiting LockTable.lrq lockRequests at waiting
    rw [found, Option.elim_some, (h key lock found).find_eq mem] at waiting
    exact one key _ fun l hl => Option.some.inj hl ▸ reject_consistent (h key lock found) mem waiting
  | wake key lock request conversion found mem call resolved =>
    exact one key _ fun l hl => Option.some.inj hl ▸
      (h key lock found).put mem rfl rfl rfl fun hp => absurd hp (by simp [resolved])
  | granted key lock request conversion found mem call accepted =>
    exact one key _ fun l hl => Option.some.inj hl ▸
      (h key lock found).put mem rfl rfl rfl fun hp =>
        absurd hp (by simp [(h key lock found).idle mem (by simp [call])])
  | denyEnq key lock request found mem call rejected =>
    exact one key _ fun l hl => releaseRequest_consistent (h key lock found) mem hl
  | denyConvert key lock request found mem call rejected =>
    exact one key _ fun l hl => Option.some.inj hl ▸
      convertRejected_consistent (h key lock found) mem
        ((h key lock found).idle mem (by simp [call]))
  | purge owner requests own =>
    intro key lock hl
    exact releaseAll_consistent (h key) lock hl

theorem LockTable.Reachable.consistent {κ : Type} [DecidableEq κ] {ordering : Bool}
    {t : LockTable κ} (h : LockTable.Reachable ordering t) :
    ∀ key lock, t.locks key = some lock → lock.Consistent := by
  induction h with
  | start =>
    intro key lock found
    cases found
  | next _ step ih => exact step.consistent ih

theorem reachable_lock_counts {κ : Type} [DecidableEq κ] {ordering : Bool} {t : LockTable κ}
    (h : LockTable.Reachable ordering t) {key : κ} {lock : Lbl} (found : t.locks key = some lock) :
    lock.lblRequests.Pairwise (fun r q => compatible r.lrqState q.lrqState = true) ∧
      (∀ s, lckNone < s → lock.lblCounts s = lock.lblRequests.countP (·.lrqState = s)) ∧
      lock.lblState = lockState lock.lblCounts ∧
      lock.lblPendingLrqCount = lock.lblRequests.countP Lrq.lrqPending := by
  have consistent := h.consistent key lock found
  exact ⟨consistent.granted, consistent.counted, consistent.state, consistent.pending⟩

/-- Two owners read a resource, and a third waits to write it. -/
def readers : LockTable Unit :=
  ((LockTable.unused.enq true () 1 1 lckSR true).enq true () 2 2 lckPR true).enq true () 3 3 lckEX
    true

theorem reachable_lock_counts_readers : ∃ lock, readers.locks () = some lock ∧
    (lock.lblRequests.Pairwise (fun r q => compatible r.lrqState q.lrqState = true) ∧
      (∀ s, lckNone < s → lock.lblCounts s = lock.lblRequests.countP (·.lrqState = s)) ∧
      lock.lblState = lockState lock.lblCounts ∧
      lock.lblPendingLrqCount = lock.lblRequests.countP Lrq.lrqPending) := by
  have reachable : LockTable.Reachable true readers := by
    apply LockTable.Reachable.next
    · apply LockTable.Reachable.next
      · apply LockTable.Reachable.next LockTable.Reachable.start
        exact .enq _ () 1 1 lckSR true (by decide) (by decide)
      · exact .enq _ () 2 2 lckPR true (by decide) (by decide)
    · exact .enq _ () 3 3 lckEX true (by decide) (by decide)
  obtain ⟨lock, found⟩ : ∃ lock, readers.locks () = some lock := ⟨_, rfl⟩
  exact ⟨lock, found, reachable_lock_counts reachable found⟩

end InterBase
