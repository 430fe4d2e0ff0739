import InterBase.LockInvariant

namespace InterBase

theorem Lrq.Advances.refl (r : Lrq) : r.Advances r := .inl rfl

theorem Lrq.Advances.trans {r r' r'' : Lrq} (h : r.Advances r') (h' : r'.Advances r'') :
    r.Advances r'' := by
  rcases h with rfl | ⟨pending, rfl⟩
  · exact h'
  · rcases h' with rfl | ⟨pending', -⟩
    · exact .inr ⟨pending, rfl⟩
    · cases pending'

theorem Lrq.Advances.offset_eq {r r' : Lrq} (h : r.Advances r') : r'.lrqOffset = r.lrqOffset := by
  rcases h with rfl | ⟨-, rfl⟩
  · rfl
  · rfl

theorem Lrq.Advances.owner_eq {r r' : Lrq} (h : r.Advances r') : r'.lrqOwner = r.lrqOwner := by
  rcases h with rfl | ⟨-, rfl⟩
  · rfl
  · rfl

theorem Lrq.Advances.call_eq {r r' : Lrq} (h : r.Advances r') : r'.lrqCall = r.lrqCall := by
  rcases h with rfl | ⟨-, rfl⟩
  · rfl
  · rfl

theorem Lrq.Advances.eq_of_pending {r r' : Lrq} (h : r.Advances r') (pending : r'.lrqPending = true) :
    r' = r := by
  rcases h with rfl | ⟨-, rfl⟩
  · rfl
  · cases pending

theorem Lrq.Advances.eq_of_idle {r r' : Lrq} (h : r.Advances r') (idle : r.lrqPending = false) :
    r' = r := by
  rcases h with rfl | ⟨pending, -⟩
  · rfl
  · rw [idle] at pending
    cases pending

/-- The requests of a lock before and after a call that is about one of them. -/
structure Frame (offset : Nat) (rs rs' : List Lrq) : Prop where
  back : ∀ r' ∈ rs', r'.lrqOffset ≠ offset → ∃ r ∈ rs, r.Advances r'
  forth : ∀ r ∈ rs, r.lrqOffset ≠ offset → ∃ r' ∈ rs', r.Advances r'

theorem Frame.refl (offset : Nat) (rs : List Lrq) : Frame offset rs rs :=
  ⟨fun r hr _ => ⟨r, hr, .refl r⟩, fun r hr _ => ⟨r, hr, .refl r⟩⟩

theorem Frame.trans {offset : Nat} {rs rs' rs'' : List Lrq} (h : Frame offset rs rs')
    (h' : Frame offset rs' rs'') : Frame offset rs rs'' := by
  refine ⟨?_, ?_⟩
  · intro r'' hr'' other
    obtain ⟨r', hr', advances'⟩ := h'.back r'' hr'' other
    obtain ⟨r, hr, advances⟩ := h.back r' hr' (advances'.offset_eq ▸ other)
    exact ⟨r, hr, advances.trans advances'⟩
  · intro r hr other
    obtain ⟨r', hr', advances⟩ := h.forth r hr other
    obtain ⟨r'', hr'', advances'⟩ := h'.forth r' hr' (advances.offset_eq ▸ other)
    exact ⟨r'', hr'', advances.trans advances'⟩

theorem mem_of_advances {rs rs' : List Lrq} (h : List.Forall₂ Lrq.Advances rs rs') :
    (∀ r' ∈ rs', ∃ r ∈ rs, r.Advances r') ∧ ∀ r ∈ rs, ∃ r' ∈ rs', r.Advances r' := by
  induction h with
  | nil => exact ⟨List.forall_mem_nil _, List.forall_mem_nil _⟩
  | @cons a b rs rs' first _ ih =>
    refine ⟨?_, ?_⟩
    · intro r' hr'
      rcases List.mem_cons.mp hr' with rfl | hr'
      · exact ⟨a, List.mem_cons_self, first⟩
      · obtain ⟨r, hr, advances⟩ := ih.1 r' hr'
        exact ⟨r, List.mem_cons_of_mem a hr, advances⟩
    · intro r hr
      rcases List.mem_cons.mp hr with rfl | hr
      · exact ⟨b, List.mem_cons_self, first⟩
      · obtain ⟨r', hr', advances⟩ := ih.2 r hr
        exact ⟨r', List.mem_cons_of_mem b hr', advances⟩

/-- A pass after a call does not go beyond what the call can do to the others. -/
theorem Frame.postPending {offset : Nat} {rs : List Lrq} {lock : Lbl} {ordering : Bool}
    (h : Frame offset rs lock.lblRequests) :
    Frame offset rs (postPending ordering lock).lblRequests := by
  have passed := mem_of_advances
    (postPending_advances : List.Forall₂ _ lock.lblRequests (InterBase.postPending ordering lock).lblRequests)
  exact h.trans ⟨fun r hr _ => passed.1 r hr, fun r hr _ => passed.2 r hr⟩

/-- The request that a call is about, when a pass follows. -/
theorem postPending_at {offset : Nat} {lock : Lbl} {ordering : Bool} {P : Lrq → Prop}
    (h : ∀ r ∈ lock.lblRequests, r.lrqOffset = offset → r.lrqPending = false ∧ P r) :
    ∀ r ∈ (postPending ordering lock).lblRequests, r.lrqOffset = offset →
      r.lrqPending = false ∧ P r := by
  intro r' hr' same
  obtain ⟨r, hr, advances⟩ := (mem_of_advances postPending_advances).1 r' hr'
  obtain ⟨idle, holds⟩ := h r hr (advances.offset_eq ▸ same)
  rw [advances.eq_of_idle idle]
  exact ⟨idle, holds⟩

namespace Lbl

variable {lock : Lbl} {before after : List Lrq} {r : Lrq}

theorem frame_replace {requests : List Lrq} (r' : Lrq)
    (offset : r'.lrqOffset = r.lrqOffset) (mem : ∀ q, q ∈ requests ↔ q = r' ∨ q ∈ before ++ after) :
    Frame r.lrqOffset (before ++ r :: after) requests := by
  refine ⟨?_, ?_⟩
  · intro q hq other
    rcases (mem q).mp hq with rfl | hq
    · exact absurd offset other
    · refine ⟨q, ?_, .refl q⟩
      rw [List.mem_append, List.mem_cons]
      rw [List.mem_append] at hq
      tauto
  · intro q hq other
    refine ⟨q, (mem q).mpr (.inr ?_), .refl q⟩
    rw [List.mem_append, List.mem_cons] at hq
    rw [List.mem_append]
    rcases hq with hq | rfl | hq
    · exact .inl hq
    · exact absurd rfl other
    · exact .inr hq

theorem at_replace {requests : List Lrq} {r' : Lrq}
    (distinct : ((before ++ r :: after).map Lrq.lrqOffset).Nodup)
    (mem : ∀ q, q ∈ requests ↔ q = r' ∨ q ∈ before ++ after) :
    ∀ q ∈ requests, q.lrqOffset = r.lrqOffset → q = r' := by
  intro q hq same
  rcases (mem q).mp hq with rfl | hq
  · rfl
  · exact absurd same (offset_ne distinct rfl hq)

end Lbl

/-- What a call leaves of the request that it is about. -/
structure Does (offset : Nat) (rs rs' : List Lrq) (Q : Lrq → Prop) : Prop where
  frame : Frame offset rs rs'
  after : ∀ r ∈ rs', r.lrqOffset = offset → Q r

/-- A request when no call waits for it. -/
structure Lrq.Rests (owner : Nat) (r : Lrq) : Prop where
  idle : r.lrqPending = false
  owner : r.lrqOwner = owner
  call : r.lrqCall = .none
  asked : r.lrqRequested = r.lrqState

theorem Does.imp {offset : Nat} {rs rs' : List Lrq} {Q Q' : Lrq → Prop} (h : Does offset rs rs' Q)
    (imp : ∀ r, Q r → Q' r) : Does offset rs rs' Q' :=
  ⟨h.frame, fun r hr same => imp r (h.after r hr same)⟩

theorem Does.postPending {offset : Nat} {rs : List Lrq} {lock : Lbl} {ordering : Bool}
    {Q : Lrq → Prop} (h : Does offset rs lock.lblRequests Q) (idle : ∀ r, Q r → r.lrqPending = false) :
    Does offset rs (InterBase.postPending ordering lock).lblRequests Q := by
  refine ⟨h.frame.postPending, ?_⟩
  intro r hr same
  exact (postPending_at (fun q hq hsame => ⟨idle q (h.after q hq hsame), h.after q hq hsame⟩) r hr
    same).2

section

variable {ordering : Bool} {lock : Lbl} {request : Lrq}

theorem put_does (h : lock.Consistent) (mem : request ∈ lock.lblRequests) (r' : Lrq)
    (offset : r'.lrqOffset = request.lrqOffset) :
    Does request.lrqOffset lock.lblRequests (lock.put r').lblRequests (· = r') ∧
      r' ∈ (lock.put r').lblRequests := by
  obtain ⟨before, after, split⟩ := List.append_of_mem mem
  rw [Lbl.put_eq lock r' h.distinct split offset, split, Lbl.withRequests_requests]
  exact ⟨⟨Lbl.frame_replace r' offset Lbl.mem_middle,
    Lbl.at_replace (split ▸ h.distinct) Lbl.mem_middle⟩, (Lbl.mem_middle r').mpr (.inl rfl)⟩

theorem releaseRequest_does (ordering : Bool) (h : lock.Consistent) (mem : request ∈ lock.lblRequests) :
    Does request.lrqOffset lock.lblRequests (lockRequests (releaseRequest ordering request lock))
      fun _ => False := by
  have released : Does request.lrqOffset lock.lblRequests (lock.released request).lblRequests
      fun _ => False := by
    have requests : (lock.released request).lblRequests =
        lock.lblRequests.filter fun r => r.lrqOffset != request.lrqOffset := rfl
    rw [requests]
    refine ⟨⟨?_, ?_⟩, ?_⟩
    · intro r hr _
      exact ⟨r, (List.mem_filter.mp hr).1, .refl r⟩
    · intro r hr other
      exact ⟨r, List.mem_filter.mpr ⟨hr, bne_iff_ne.mpr other⟩, .refl r⟩
    · intro r hr same
      exact bne_iff_ne.mp (List.mem_filter.mp hr).2 same
  rw [releaseRequest_eq h mem]
  split
  next empty =>
    have none : (lock.released request).lblRequests = [] := List.isEmpty_iff.mp empty
    rw [none] at released
    exact released
  next => exact released.postPending nofun

theorem waitForRequest_does (ordering conversion : Bool) (request : Lrq) (h : lock.Consistent)
    {r : Lrq} (mem : r ∈ lock.lblRequests) (offset : request.lrqOffset = r.lrqOffset) :
    Does r.lrqOffset lock.lblRequests
        (waitForRequest ordering conversion request lock).lblRequests (· = request.waiting conversion) ∧
      request.waiting conversion ∈ (waitForRequest ordering conversion request lock).lblRequests := by
  obtain ⟨before, after, split⟩ := List.append_of_mem mem
  rw [waitForRequest_eq h.distinct split offset, Lbl.withRequests_requests]
  have mem_new : ∀ q, (q ∈ if ordering = true ∧ request.lrqState = lckNone then
        before ++ after ++ [request.waiting conversion]
      else before ++ request.waiting conversion :: after) ↔
      q = request.waiting conversion ∨ q ∈ before ++ after := by
    intro q
    split
    · rw [List.mem_append, List.mem_singleton, or_comm]
    · exact Lbl.mem_middle q
  refine ⟨?_, (mem_new _).mpr (.inl rfl)⟩
  rw [split]
  exact ⟨Lbl.frame_replace (request.waiting conversion) offset mem_new,
    Lbl.at_replace (split ▸ h.distinct) mem_new⟩

theorem grant_does (ordering : Bool) (request : Lrq) (lock' : Lbl) (h : lock.Consistent) {r : Lrq}
    (mem : r ∈ lock.lblRequests) (offset : request.lrqOffset = r.lrqOffset)
    (requests : lock'.lblRequests = lock.lblRequests) :
    Does r.lrqOffset lock.lblRequests
      (InterBase.postPending ordering ((grant request lock').2.put request.granted)).lblRequests
      (· = request.granted) := by
  obtain ⟨before, after, split⟩ := List.append_of_mem mem
  have put := grant_put request lock' (requests ▸ h.distinct) (requests.trans split) offset
  have granted : Does r.lrqOffset lock.lblRequests
      ((grant request lock').2.put request.granted).lblRequests (· = request.granted) := by
    rw [put, Lbl.withRequests_requests, split]
    exact ⟨Lbl.frame_replace request.granted offset Lbl.mem_middle,
      Lbl.at_replace (split ▸ h.distinct) Lbl.mem_middle⟩
  exact granted.postPending fun r hr => hr ▸ rfl

theorem convert_does (ordering : Bool) (h : lock.Consistent) (mem : request ∈ lock.lblRequests)
    (idle : request.lrqPending = false) (call : request.lrqCall = .none) (type : Level) (wait : Bool) :
    Does request.lrqOffset lock.lblRequests
        (InterBase.convert ordering type wait request lock).1.lblRequests (fun r =>
          if (InterBase.convert ordering type wait request lock).2 then
            r = Lrq.waiting { request with lrqRequested := type } true
          else r.Rests request.lrqOwner) ∧
      ((InterBase.convert ordering type wait request lock).2 = true →
        Lrq.waiting { request with lrqRequested := type } true ∈
          (InterBase.convert ordering type wait request lock).1.lblRequests) := by
  let asked : Lrq := { request with lrqRequested := type }
  have same : asked.lrqOffset = request.lrqOffset := rfl
  have back : (lock.countDown request.lrqState).countUp request.lrqState = lock :=
    Lbl.countUp_countDown (h.small _)
  unfold InterBase.convert
  simp only [back]
  split
  next can =>
    have granted : Does request.lrqOffset lock.lblRequests (InterBase.postPending ordering
        ((grant asked (lock.countDown request.lrqState)).2.put asked.granted)).lblRequests
        (· = asked.granted) := grant_does _ _ _ h mem same rfl
    refine ⟨granted.imp ?_, nofun⟩
    rintro r rfl
    exact ⟨rfl, rfl, call, rfl⟩
  split
  next cannot _ =>
    have waits : Does request.lrqOffset lock.lblRequests
        (waitForRequest ordering true asked lock).lblRequests (· = asked.waiting true) ∧ _ :=
      waitForRequest_does _ _ _ h mem same
    exact ⟨waits.1, fun _ => waits.2⟩
  next cannot _ =>
    have put := put_does h mem { request with lrqRequested := request.lrqState } rfl
    refine ⟨put.1.imp ?_, nofun⟩
    rintro r rfl
    exact ⟨idle, rfl, call, rfl⟩

theorem reject_does (h : lock.Consistent) (mem : request ∈ lock.lblRequests) :
    Does request.lrqOffset lock.lblRequests (reject request lock).lblRequests (· = request.refused) ∧
      request.refused ∈ (reject request lock).lblRequests := by
  obtain ⟨before, after, split⟩ := List.append_of_mem mem
  rw [reject_eq h.distinct split, Lbl.withRequests_requests, split]
  exact ⟨⟨Lbl.frame_replace request.refused rfl Lbl.mem_middle,
    Lbl.at_replace (split ▸ h.distinct) Lbl.mem_middle⟩, (Lbl.mem_middle _).mpr (.inl rfl)⟩

theorem convertRejected_does (ordering : Bool) (h : lock.Consistent) (mem : request ∈ lock.lblRequests)
    (idle : request.lrqPending = false) :
    Does request.lrqOffset lock.lblRequests (convertRejected ordering request lock).lblRequests
      (Lrq.Rests request.lrqOwner) := by
  let rested : Lrq := { request with lrqRequested := request.lrqState, lrqCall := .none }
  have put := put_does (postPending_consistent h : (postPending ordering lock).Consistent)
    (mem_postPending mem idle) rested rfl
  refine ⟨(Frame.refl _ _).postPending.trans put.1.frame, ?_⟩
  intro r hr same
  rw [put.1.after r hr same]
  exact ⟨idle, rfl, rfl, rfl⟩

theorem convert_nowait (type : Level) :
    (InterBase.convert ordering type false request lock).2 = false := by
  unfold InterBase.convert
  simp only
  split
  · rfl
  · rfl

theorem lockDowngrade_does (ordering : Bool) (h : lock.Consistent) (mem : request ∈ lock.lblRequests)
    (idle : request.lrqPending = false) (call : request.lrqCall = .none) :
    Does request.lrqOffset lock.lblRequests (lockRequests (lockDowngrade ordering request lock))
      (Lrq.Rests request.lrqOwner) := by
  unfold lockDowngrade
  simp only
  split
  · exact (releaseRequest_does ordering h mem).imp nofun
  · let state := downgradeState (pendingState request lckNone lock.lblRequests) request.lrqState.val
    have converted : Does request.lrqOffset lock.lblRequests
        (InterBase.convert ordering state false request lock).1.lblRequests _ :=
      (convert_does ordering h mem idle call state false).1
    rw [convert_nowait] at converted
    exact converted

theorem lockEnq_does (ordering : Bool) {lock : Option Lbl} (h : ∀ l, lock = some l → l.Consistent) {offset : Nat}
    (owner : Nat) (type : Level) (wait : Bool)
    (fresh : ∀ r ∈ lockRequests lock, r.lrqOffset ≠ offset)
    (room : (lockRequests lock).length + 1 < 65536) :
    Does offset (lockRequests lock)
        (lockRequests (lockEnq ordering wait (newLrq offset owner type) lock).1) (fun r =>
          if (lockEnq ordering wait (newLrq offset owner type) lock).2 then
            r = (newLrq offset owner type).waiting false
          else r.Rests owner) ∧
      ((lockEnq ordering wait (newLrq offset owner type) lock).2 = true →
        (newLrq offset owner type).waiting false ∈
          lockRequests (lockEnq ordering wait (newLrq offset owner type) lock).1) := by
  let new := newLrq offset owner type
  cases lock with
  | none =>
    have split : (Lbl.mk type (fun _ => 0) 0 [new]).lblRequests = [] ++ new :: [] := rfl
    have distinct : ((Lbl.mk type (fun _ => 0) 0 [new]).lblRequests.map Lrq.lrqOffset).Nodup :=
      List.nodup_singleton offset
    have put := congrArg Lbl.lblRequests (grant_put new _ distinct split rfl)
    have alone : lockRequests (lockEnq ordering wait new none).1 = [new.granted] := put
    rw [alone]
    refine ⟨⟨⟨?_, List.forall_mem_nil _⟩, ?_⟩, nofun⟩
    · intro r hr other
      exact absurd (congrArg Lrq.lrqOffset (List.mem_singleton.mp hr)) other
    · intro r hr _
      rw [List.mem_singleton.mp hr]
      exact ⟨rfl, rfl, rfl, rfl⟩
  | some l =>
    let grown := l.withRequests (l.lblRequests ++ [new])
    have consistent : grown.Consistent := (h l rfl).append fresh room rfl rfl
    have mem : new ∈ grown.lblRequests := List.mem_append_right _ (List.mem_singleton_self _)
    have frame : Frame offset l.lblRequests grown.lblRequests := by
      refine ⟨?_, fun r hr _ => ⟨r, List.mem_append_left _ hr, .refl r⟩⟩
      intro r hr other
      rcases List.mem_append.mp hr with hr | hr
      · exact ⟨r, hr, .refl r⟩
      · exact absurd (congrArg Lrq.lrqOffset (List.mem_singleton.mp hr)) other
    change Does offset l.lblRequests (lockRequests (grantOrQue ordering wait new grown).1) (fun r =>
        if (grantOrQue ordering wait new grown).2 then r = new.waiting false else r.Rests owner) ∧
      ((grantOrQue ordering wait new grown).2 = true →
        new.waiting false ∈ lockRequests (grantOrQue ordering wait new grown).1)
    unfold grantOrQue
    split
    · have granted := grant_does ordering new grown consistent mem rfl rfl
      refine ⟨⟨frame.trans granted.frame, ?_⟩, nofun⟩
      intro r hr same
      rw [granted.after r hr same]
      exact ⟨rfl, rfl, rfl, rfl⟩
    split
    · have waits := waitForRequest_does ordering false new consistent mem rfl
      exact ⟨⟨frame.trans waits.1.frame, waits.1.after⟩, fun _ => waits.2⟩
    · have released := releaseRequest_does ordering consistent mem
      exact ⟨⟨frame.trans released.frame, fun r hr same => (released.after r hr same).elim⟩, nofun⟩

end

/-- A request that neither waits nor was refused has what it asked for. -/
def Lrq.Asked (r : Lrq) : Prop :=
  r.lrqPending = false → r.lrqRejected = false ∨ r.lrqCall = .none → r.lrqRequested = r.lrqState

namespace LockTable

variable {κ : Type} {ordering : Bool} {t t' : LockTable κ} {key : κ} {offset : Nat}

/-- The requests of a resource. -/
def requests (t : LockTable κ) (key : κ) : List Lrq := lockRequests (t.locks key)

/-- No owner is in two calls that wait. -/
def OneCall (t : LockTable κ) : Prop :=
  ∀ key key', ∀ r ∈ t.requests key, ∀ r' ∈ t.requests key', r.lrqOwner = r'.lrqOwner →
    r.lrqCall ≠ .none → r'.lrqCall ≠ .none → key = key' ∧ r.lrqOffset = r'.lrqOffset

/-- The runs in which an owner that waits makes no second call that waits: it has one
`own_pending_request`. -/
inductive SerialRun [DecidableEq κ] (ordering : Bool) : LockTable κ → Prop where
  | start : SerialRun ordering unused
  | next {t t' : LockTable κ} (run : SerialRun ordering t) (step : t.Step ordering t')
      (one : t'.OneCall) : SerialRun ordering t'

theorem SerialRun.reachable [DecidableEq κ] (h : SerialRun ordering t) : Reachable ordering t := by
  induction h with
  | start => exact .start
  | next _ step _ ih => exact .next ih step

theorem SerialRun.oneCall [DecidableEq κ] (h : SerialRun ordering t) : t.OneCall := by
  cases h with
  | start =>
    intro key key' r hr
    cases hr
  | next _ _ one => exact one

/-- What the owners' own fields say. -/
structure Owned (t : LockTable κ) : Prop where
  asked : ∀ key, ∀ r ∈ t.requests key, r.Asked
  pointer : ∀ owner key offset, t.ownPendingRequest owner = some (key, offset) →
    ∃ r ∈ t.requests key, r.lrqOffset = offset ∧ r.lrqOwner = owner ∧ ∃ c, r.lrqCall = .waits c
  pending : ∀ key, ∀ r ∈ t.requests key, r.lrqPending = true →
    t.ownPendingRequest r.lrqOwner = some (key, r.lrqOffset)

/-- A step that is about one request. -/
structure Moves (t t' : LockTable κ) (key : κ) (offset : Nat) : Prop where
  frame : Frame offset (t.requests key) (t'.requests key)
  other : ∀ key', key' ≠ key → t'.requests key' = t.requests key'

/-- What such a step does to the request, and to the field of its owner. -/
structure Acts (t t' : LockTable κ) (key : κ) (offset owner : Nat) : Prop where
  own : ∀ o, o ≠ owner → t'.ownPendingRequest o = t.ownPendingRequest o
  before : ∀ r ∈ t.requests key, r.lrqOffset = offset → r.lrqOwner = owner
  after : ∀ r ∈ t'.requests key, r.lrqOffset = offset → r.lrqOwner = owner ∧
    r.Asked ∧ (r.lrqPending = true → t'.ownPendingRequest owner = some (key, offset))
  pointer : ∀ key' offset', t'.ownPendingRequest owner = some (key', offset') →
    (key' = key ∧ offset' = offset ∧
      ∃ r ∈ t'.requests key, r.lrqOffset = offset ∧ ∃ c, r.lrqCall = .waits c) ∨
    ((key', offset') ≠ (key, offset) ∧ t.ownPendingRequest owner = some (key', offset'))
  others : ∀ key', ∀ r ∈ t.requests key', (key', r.lrqOffset) ≠ (key, offset) →
    r.lrqPending = true → r.lrqOwner = owner → t'.ownPendingRequest owner = t.ownPendingRequest owner

theorem Moves.back (h : t.Moves t' key offset) {key' : κ} {r' : Lrq}
    (hr' : r' ∈ t'.requests key') (other : (key', r'.lrqOffset) ≠ (key, offset)) :
    ∃ r ∈ t.requests key', r.Advances r' := by
  by_cases same : key' = key
  · subst same
    exact h.frame.back r' hr' fun hoffset => other (by rw [hoffset])
  · rw [h.other key' same] at hr'
    exact ⟨r', hr', .refl r'⟩

theorem Moves.forth (h : t.Moves t' key offset) {key' : κ} {r : Lrq}
    (hr : r ∈ t.requests key') (other : (key', r.lrqOffset) ≠ (key, offset)) :
    ∃ r' ∈ t'.requests key', r.Advances r' := by
  by_cases same : key' = key
  · subst same
    exact h.frame.forth r hr fun hoffset => other (by rw [hoffset])
  · refine ⟨r, ?_, .refl r⟩
    rw [h.other key' same]
    exact hr

theorem Owned.acts {owner : Nat} (h : t.Owned) (moves : t.Moves t' key offset)
    (acts : t.Acts t' key offset owner) : t'.Owned where
  asked key' r' hr' := by
    by_cases same : (key', r'.lrqOffset) = (key, offset)
    · cases same
      exact (acts.after r' hr' rfl).2.1
    · obtain ⟨r, hr, advances⟩ := moves.back hr' same
      rcases advances with rfl | ⟨pending, rfl⟩
      · exact h.asked key' _ hr
      · exact fun _ _ => rfl
  pointer o key' offset' hown := by
    by_cases same : o = owner
    · subst same
      rcases acts.pointer key' offset' hown with ⟨rfl, rfl, r, hr, at_offset, c, call⟩ | ⟨other, old⟩
      · exact ⟨r, hr, at_offset, (acts.after r hr at_offset).1, c, call⟩
      · obtain ⟨r, hr, at_offset, howner, c, call⟩ := h.pointer o key' offset' old
        obtain ⟨r', hr', advances⟩ := moves.forth hr (by rw [at_offset]; exact other)
        exact ⟨r', hr', advances.offset_eq.trans at_offset, advances.owner_eq.trans howner, c,
          advances.call_eq.trans call⟩
    · rw [acts.own o same] at hown
      obtain ⟨r, hr, at_offset, howner, c, call⟩ := h.pointer o key' offset' hown
      have other : (key', r.lrqOffset) ≠ (key, offset) := by
        intro equal
        cases equal
        exact same (howner.symm.trans (acts.before r hr rfl))
      obtain ⟨r', hr', advances⟩ := moves.forth hr other
      exact ⟨r', hr', advances.offset_eq.trans at_offset, advances.owner_eq.trans howner, c,
        advances.call_eq.trans call⟩
  pending key' r' hr' hpending := by
    by_cases same : (key', r'.lrqOffset) = (key, offset)
    · cases same
      obtain ⟨howner, -, own⟩ := acts.after r' hr' rfl
      rw [howner]
      exact own hpending
    · obtain ⟨r, hr, advances⟩ := moves.back hr' same
      obtain rfl := advances.eq_of_pending hpending
      have old := h.pending key' _ hr hpending
      by_cases howner : r'.lrqOwner = owner
      · rw [howner, acts.others key' _ hr same hpending howner, ← howner]
        exact old
      · rw [acts.own _ howner]
        exact old

section

variable [DecidableEq κ] {new : Option Lbl} {owner : Nat} {Q : Lrq → Prop}

theorem moves_of_does (locks : t'.locks = Function.update t.locks key new)
    (does : Does offset (t.requests key) (lockRequests new) Q) : t.Moves t' key offset := by
  refine ⟨?_, ?_⟩
  · unfold requests at does ⊢
    rw [locks, Function.update_self]
    exact does.frame
  · intro key' other
    unfold requests
    rw [locks, Function.update_of_ne other]

theorem requests_of_locks (locks : t'.locks = Function.update t.locks key new) :
    t'.requests key = lockRequests new := by
  unfold requests
  rw [locks, Function.update_self]

/-- A call after which its owner waits for the request. -/
theorem Owned.waits (h : t.Owned) (one : t'.OneCall)
    (waiting : ∀ key, ∀ r ∈ t.requests key, r.lrqPending = true → ∃ c, r.lrqCall = .waits c)
    (locks : t'.locks = Function.update t.locks key new) {asleep : Lrq} {c : Bool}
    (does : Does offset (t.requests key) (lockRequests new) (· = asleep))
    (mem : asleep ∈ lockRequests new) (at_offset : asleep.lrqOffset = offset)
    (call : asleep.lrqCall = .waits c) (pending : asleep.lrqPending = true) (own_owner : asleep.lrqOwner = owner)
    (own : t'.ownPendingRequest = Function.update t.ownPendingRequest owner (some (key, offset)))
    (before : ∀ r ∈ t.requests key, r.lrqOffset = offset → r.lrqOwner = owner) : t'.Owned := by
  have moves : t.Moves t' key offset := moves_of_does locks does
  have requests' := requests_of_locks locks
  have mem' : asleep ∈ t'.requests key := requests' ▸ mem
  have points : t'.ownPendingRequest owner = some (key, offset) := by
    rw [own, Function.update_self]
  refine h.acts moves ⟨?_, before, ?_, ?_, ?_⟩
  · intro o other
    rw [own, Function.update_of_ne other]
  · intro r hr same
    rw [requests'] at hr
    rw [does.after r hr same]
    exact ⟨own_owner, fun idle => absurd pending (by simp [idle]), fun _ => points⟩
  · intro key' offset' hown
    rw [points] at hown
    cases hown
    exact .inl ⟨rfl, rfl, asleep, mem', at_offset, c, call⟩
  · intro key' r hr other pending howner
    exfalso
    obtain ⟨c', hcall⟩ := waiting key' r hr pending
    obtain ⟨r', hr', advances⟩ := moves.forth hr other
    obtain ⟨rfl, same⟩ := one key' key r' hr' asleep mem'
      ((advances.owner_eq.trans howner).trans own_owner.symm) (by rw [advances.call_eq, hcall]; nofun)
      (by rw [call]; nofun)
    apply other
    rw [← advances.offset_eq, same, at_offset]

/-- A call that leaves the request without a wait. -/
theorem Owned.rests (h : t.Owned) (locks : t'.locks = Function.update t.locks key new)
    (does : Does offset (t.requests key) (lockRequests new) fun r =>
      r.lrqOwner = owner ∧ r.lrqPending = false ∧ r.Asked)
    (own : t'.ownPendingRequest = t.ownPendingRequest)
    (before : ∀ r ∈ t.requests key, r.lrqOffset = offset →
      r.lrqOwner = owner ∧ ((∃ c, r.lrqCall = .waits c) →
        ∃ r' ∈ lockRequests new, r'.lrqOffset = offset ∧ ∃ c, r'.lrqCall = .waits c)) :
    t'.Owned := by
  have moves : t.Moves t' key offset := moves_of_does locks does
  have requests' := requests_of_locks locks
  refine h.acts moves ⟨fun o _ => by rw [own], fun r hr same => (before r hr same).1, ?_, ?_,
    fun _ _ _ _ _ _ => by rw [own]⟩
  · intro r hr same
    rw [requests'] at hr
    obtain ⟨howner, idle, asked⟩ := does.after r hr same
    exact ⟨howner, asked, fun pending => absurd pending (by simp [idle])⟩
  · intro key' offset' hown
    rw [own] at hown
    by_cases same : (key', offset') = (key, offset)
    · cases same
      obtain ⟨r, hr, at_offset, -, call⟩ := h.pointer owner key offset hown
      obtain ⟨r', hr', at_offset', call'⟩ := (before r hr at_offset).2 call
      exact .inl ⟨rfl, rfl, r', requests' ▸ hr', at_offset', call'⟩
    · exact .inr ⟨same, hown⟩

/-- The end of a wait that clears the field of the owner. -/
theorem Owned.clears (h : t.Owned) (one : t.OneCall)
    (waiting : ∀ key, ∀ r ∈ t.requests key, r.lrqPending = true → ∃ c, r.lrqCall = .waits c)
    (locks : t'.locks = Function.update t.locks key new) {request : Lrq}
    (mem : request ∈ t.requests key) (call : request.lrqCall ≠ .none)
    (does : Does request.lrqOffset (t.requests key) (lockRequests new) fun r =>
      r.lrqOwner = request.lrqOwner ∧ r.lrqPending = false ∧ r.Asked)
    (own : t'.ownPendingRequest = Function.update t.ownPendingRequest request.lrqOwner none)
    (before : ∀ r ∈ t.requests key, r.lrqOffset = request.lrqOffset → r = request) : t'.Owned := by
  have moves : t.Moves t' key request.lrqOffset := moves_of_does locks does
  have requests' := requests_of_locks locks
  have cleared : t'.ownPendingRequest request.lrqOwner = none := by
    rw [own, Function.update_self]
  have acts : t.Acts t' key request.lrqOffset request.lrqOwner := by
    refine ⟨?_, fun r hr same => before r hr same ▸ rfl, ?_, ?_, ?_⟩
    · intro o other
      rw [own, Function.update_of_ne other]
    · intro r hr same
      rw [requests'] at hr
      obtain ⟨howner, idle, asked⟩ := does.after r hr same
      exact ⟨howner, asked, fun pending => absurd pending (by simp [idle])⟩
    · intro key' offset' hown
      rw [cleared] at hown
      cases hown
    · intro key' r hr other pending howner
      exfalso
      obtain ⟨c, hcall⟩ := waiting key' r hr pending
      obtain ⟨rfl, same⟩ := one key' key r hr request mem howner (by rw [hcall]; nofun) call
      exact other (by rw [same])
  exact h.acts moves acts

end

theorem releaseAt_does {lock : Option Lbl} (h : ∀ l, lock = some l → l.Consistent) :
    Does offset (lockRequests lock) (lockRequests (releaseAt ordering offset lock))
      fun _ => False := by
  refine releaseAt_cases (P := fun x => Does offset (lockRequests lock) (lockRequests x) fun _ => False)
    ?_ ?_ ?_
  · intro none
    rw [none]
    exact ⟨.refl _ _, List.forall_mem_nil _⟩
  · intro l found absent
    rw [found]
    refine ⟨.refl _ _, ?_⟩
    intro r hr same
    exact List.find?_eq_none.mp absent r hr (decide_eq_true same)
  · intro l request found mem at_offset
    rw [found, ← at_offset]
    exact releaseRequest_does ordering (h l found) mem

/-- The requests of an owner that is purged go, and the others advance. -/
theorem releaseAll_requests {offsets : List Nat} :
    ∀ {lock : Option Lbl}, (∀ l, lock = some l → l.Consistent) →
      (∀ r' ∈ lockRequests (releaseAll ordering offsets lock),
        ∃ r ∈ lockRequests lock, r.Advances r' ∧ r.lrqOffset ∉ offsets) ∧
      ∀ r ∈ lockRequests lock, r.lrqOffset ∉ offsets →
        ∃ r' ∈ lockRequests (releaseAll ordering offsets lock), r.Advances r' := by
  induction offsets with
  | nil =>
    intro lock _
    exact ⟨fun r hr => ⟨r, hr, .refl r, List.not_mem_nil⟩, fun r hr _ => ⟨r, hr, .refl r⟩⟩
  | cons offset rest ih =>
    intro lock h
    have does : Does offset (lockRequests lock) (lockRequests (releaseAt ordering offset lock))
        fun _ => False := releaseAt_does h
    obtain ⟨back, forth⟩ := ih (releaseAt_consistent h)
    refine ⟨?_, ?_⟩
    · intro r'' hr''
      obtain ⟨r', hr', advances', notin⟩ := back r'' hr''
      have other : r'.lrqOffset ≠ offset := fun same => does.after r' hr' same
      obtain ⟨r, hr, advances⟩ := does.frame.back r' hr' other
      refine ⟨r, hr, advances.trans advances', ?_⟩
      rw [List.mem_cons, not_or, ← advances.offset_eq]
      exact ⟨other, notin⟩
    · intro r hr notin
      rw [List.mem_cons, not_or] at notin
      obtain ⟨r', hr', advances⟩ := does.frame.forth r hr notin.1
      obtain ⟨r'', hr'', advances'⟩ := forth r' hr' (by rw [advances.offset_eq]; exact notin.2)
      exact ⟨r'', hr'', advances.trans advances'⟩

theorem Owned.purge (h : t.Owned)
    (consistent : ∀ key lock, t.locks key = some lock → lock.Consistent) {owner : Nat}
    {offsets : κ → List Nat}
    (own : ∀ key lock, t.locks key = some lock →
      (offsets key).Perm ((lock.lblRequests.filter (·.lrqOwner = owner)).map Lrq.lrqOffset))
    (locks : ∀ key, t'.locks key = releaseAll ordering (offsets key) (t.locks key))
    (cleared : t'.ownPendingRequest = Function.update t.ownPendingRequest owner none) : t'.Owned := by
  have purged : ∀ key, ∀ r ∈ t.requests key, (r.lrqOffset ∈ offsets key ↔ r.lrqOwner = owner) := by
    intro key r hr
    unfold requests lockRequests at hr
    cases found : t.locks key with
    | none =>
      rw [found] at hr
      cases hr
    | some lock =>
      rw [found] at hr
      rw [(own key lock found).mem_iff, List.mem_map]
      constructor
      · rintro ⟨q, hq, same⟩
        obtain ⟨hq, howner⟩ := List.mem_filter.mp hq
        have q_eq : q = r := List.inj_on_of_nodup_map (consistent key lock found).distinct hq hr same
        rw [← q_eq]
        exact of_decide_eq_true howner
      · intro howner
        exact ⟨r, List.mem_filter.mpr ⟨hr, decide_eq_true howner⟩, rfl⟩
  have back : ∀ key, ∀ r' ∈ t'.requests key,
      ∃ r ∈ t.requests key, r.Advances r' ∧ r.lrqOwner ≠ owner := by
    intro key r' hr'
    unfold requests at hr'
    rw [locks key] at hr'
    obtain ⟨r, hr, advances, notin⟩ := (releaseAll_requests (consistent key)).1 r' hr'
    exact ⟨r, hr, advances, fun howner => notin ((purged key r hr).mpr howner)⟩
  have forth : ∀ key, ∀ r ∈ t.requests key, r.lrqOwner ≠ owner →
      ∃ r' ∈ t'.requests key, r.Advances r' := by
    intro key r hr other
    unfold requests
    rw [locks key]
    exact (releaseAll_requests (consistent key)).2 r hr fun hin => other ((purged key r hr).mp hin)
  refine ⟨?_, ?_, ?_⟩
  · intro key r' hr'
    obtain ⟨r, hr, advances, -⟩ := back key r' hr'
    rcases advances with rfl | ⟨-, rfl⟩
    · exact h.asked key _ hr
    · exact fun _ _ => rfl
  · intro o key offset hown
    by_cases same : o = owner
    · rw [cleared, same, Function.update_self] at hown
      cases hown
    · rw [cleared, Function.update_of_ne same] at hown
      obtain ⟨r, hr, at_offset, howner, c, call⟩ := h.pointer o key offset hown
      obtain ⟨r', hr', advances⟩ := forth key r hr (by rw [howner]; exact same)
      exact ⟨r', hr', advances.offset_eq.trans at_offset, advances.owner_eq.trans howner, c,
        advances.call_eq.trans call⟩
  · intro key r' hr' hpending
    obtain ⟨r, hr, advances, other⟩ := back key r' hr'
    obtain rfl := advances.eq_of_pending hpending
    rw [cleared, Function.update_of_ne other]
    exact h.pending key _ hr hpending

theorem requests_of_found {lock : Lbl} (found : t.locks key = some lock) :
    t.requests key = lock.lblRequests := by
  unfold requests lockRequests
  rw [found]
  rfl

theorem Step.owned [DecidableEq κ] (step : t.Step ordering t') (h : t.Owned) (one : t.OneCall) (one' : t'.OneCall)
    (consistent : ∀ key lock, t.locks key = some lock → lock.Consistent) : t'.Owned := by
  have waiting : ∀ key, ∀ r ∈ t.requests key, r.lrqPending = true → ∃ c, r.lrqCall = .waits c := by
    intro key r hr
    unfold requests lockRequests at hr
    cases found : t.locks key with
    | none =>
      rw [found] at hr
      cases hr
    | some lock =>
      rw [found] at hr
      exact (consistent key lock found).waiting r hr
  have unique : ∀ {key lock} {request : Lrq}, t.locks key = some lock →
      request ∈ lock.lblRequests → ∀ r ∈ t.requests key, r.lrqOffset = request.lrqOffset →
        r = request := by
    intro key lock request found mem r hr same
    rw [requests_of_found found] at hr
    exact List.inj_on_of_nodup_map (consistent key lock found).distinct hr mem same
  have rested : ∀ {owner : Nat} (r : Lrq), r.Rests owner → r.lrqOwner = owner ∧
      r.lrqPending = false ∧ r.Asked :=
    fun r rests => ⟨rests.owner, rests.idle, fun _ _ => rests.asked⟩
  have refuse : ∀ (request : Lrq) c, request.lrqCall = .waits c → ∀ r, r = request.refused →
      r.lrqOwner = request.lrqOwner ∧ r.lrqPending = false ∧ r.Asked := by
    rintro request c call r rfl
    refine ⟨rfl, rfl, fun _ accepted => ?_⟩
    rcases accepted with accepted | none
    · cases accepted
    · simp [Lrq.refused, call] at none
  have before : ∀ {key lock} {request : Lrq} {new : List Lrq}, t.locks key = some lock →
      request ∈ lock.lblRequests → (∀ c, request.lrqCall ≠ .waits c) →
      ∀ r ∈ t.requests key, r.lrqOffset = request.lrqOffset →
        r.lrqOwner = request.lrqOwner ∧ ((∃ c, r.lrqCall = .waits c) →
          ∃ r' ∈ new, r'.lrqOffset = request.lrqOffset ∧ ∃ c, r'.lrqCall = .waits c) := by
    intro key lock request new found mem call r hr same
    obtain rfl := unique found mem r hr same
    exact ⟨rfl, fun ⟨c, waits⟩ => absurd waits (call c)⟩
  cases step with
  | enq key offset owner type wait fresh room =>
    obtain ⟨does, asleep⟩ := lockEnq_does ordering (consistent key) owner type wait fresh room
    have none : ∀ r ∈ t.requests key, r.lrqOffset = offset → r.lrqOwner = owner :=
      fun r hr same => absurd same (fresh r hr)
    unfold LockTable.enq at one' ⊢
    simp only at one' ⊢
    split
    next waits =>
      rw [if_pos waits] at one'
      simp only [waits, if_true] at does asleep
      exact h.waits one' waiting rfl does (asleep trivial) rfl rfl rfl rfl rfl none
    next waits =>
      simp only [waits, Bool.false_eq_true, if_false] at does
      refine h.rests rfl (does.imp rested) rfl ?_
      exact fun r hr same => absurd same (fresh r hr)
  | convert key lock request type wait found mem idle =>
    have good := consistent key lock found
    obtain ⟨does, asleep⟩ := convert_does ordering good mem
      (good.idle mem (by simp [idle])) idle type wait
    rw [← requests_of_found found] at does
    unfold LockTable.convert at one' ⊢
    simp only at one' ⊢
    split
    next waits =>
      rw [if_pos waits] at one'
      simp only [waits, if_true] at does asleep
      exact h.waits one' waiting rfl does (asleep trivial) rfl rfl rfl rfl rfl
        fun r hr same => unique found mem r hr same ▸ rfl
    next waits =>
      simp only [waits, Bool.false_eq_true, if_false] at does
      exact h.rests rfl (does.imp rested) rfl (before found mem (by simp [idle]))
  | downgrade key lock request found mem idle =>
    have good := consistent key lock found
    have does := lockDowngrade_does ordering good mem (good.idle mem (by simp [idle])) idle
    rw [← requests_of_found found] at does
    exact h.rests rfl (does.imp rested) rfl (before found mem (by simp [idle]))
  | deq key lock request found mem idle =>
    have does := releaseRequest_does ordering (consistent key lock found) mem
    rw [← requests_of_found found] at does
    exact h.rests rfl (does.imp nofun) rfl (before found mem (by simp [idle]))
  | timeout key lock request found mem pending =>
    have good := consistent key lock found
    obtain ⟨does, refused⟩ := reject_does good mem
    rw [← requests_of_found found] at does
    obtain ⟨c, call⟩ := good.waiting request mem pending
    refine h.rests rfl (does.imp (refuse request c call)) rfl ?_
    intro r hr same
    exact ⟨unique found mem r hr same ▸ rfl, fun _ => ⟨request.refused, refused, rfl, c, call⟩⟩
  | deadlock busy depth waits key lock request victim wait pending scan found mem =>
    have good := consistent key lock found
    have awaited := deadlockScan_waiting scan
    unfold LockTable.Waiting LockTable.lrq lockRequests at awaited
    rw [found, Option.elim_some, good.find_eq mem] at awaited
    obtain ⟨c, call⟩ := good.waiting victim mem awaited
    have does := (reject_does good mem).1
    rw [← requests_of_found found] at does
    exact h.clears one waiting rfl (by rw [requests_of_found found]; exact mem) (by simp [call])
      (does.imp (refuse victim c call)) rfl (unique found mem)
  | wake key lock request conversion found mem call resolved =>
    have does := (put_does (consistent key lock found) mem
      { request with lrqCall := .resolved conversion } rfl).1
    rw [← requests_of_found found] at does
    have member : request ∈ t.requests key := by
      rw [requests_of_found found]
      exact mem
    refine h.clears one waiting rfl member (by simp [call]) (does.imp ?_) rfl (unique found mem)
    rintro r rfl
    refine ⟨rfl, resolved, fun _ accepted => h.asked key request member resolved (.inl ?_)⟩
    exact accepted.resolve_right nofun
  | granted key lock request conversion found mem call accepted =>
    have good := consistent key lock found
    have does := (put_does good mem { request with lrqCall := .none } rfl).1
    rw [← requests_of_found found] at does
    refine h.rests rfl (does.imp ?_) rfl (before found mem (by simp [call]))
    rintro r rfl
    have member : request ∈ t.requests key := by
      rw [requests_of_found found]
      exact mem
    have idle := good.idle mem (by simp [call])
    exact ⟨rfl, idle, fun _ _ => h.asked key request member idle (.inl accepted)⟩
  | denyEnq key lock request found mem call rejected =>
    have does := releaseRequest_does ordering (consistent key lock found) mem
    rw [← requests_of_found found] at does
    exact h.rests rfl (does.imp nofun) rfl (before found mem (by simp [call]))
  | denyConvert key lock request found mem call rejected =>
    have good := consistent key lock found
    have does := convertRejected_does ordering good mem (good.idle mem (by simp [call]))
    rw [← requests_of_found found] at does
    exact h.rests rfl (does.imp rested) rfl (before found mem (by simp [call]))
  | purge owner requests own =>
    exact h.purge consistent own (fun _ => rfl) rfl

theorem SerialRun.owned [DecidableEq κ] (h : SerialRun ordering t) : t.Owned := by
  induction h with
  | start =>
    refine ⟨fun _ r hr => ?_, fun _ _ _ hown => ?_, fun _ r hr => ?_⟩
    · cases hr
    · cases hown
    · cases hr
  | next run step one ih => exact step.owned ih run.oneCall one run.reachable.consistent

/-- Only finitely many owners wait. -/
theorem Reachable.finite [DecidableEq κ] (h : Reachable ordering t) :
    ∃ owners : List Nat, ∀ owner, t.ownPendingRequest owner ≠ none → owner ∈ owners := by
  induction h with
  | start => exact ⟨[], fun _ some => absurd rfl some⟩
  | @next t t' _ step ih =>
    obtain ⟨owners, hfinite⟩ := ih
    obtain ⟨owner, hown⟩ : ∃ owner, ∀ o, o ≠ owner → t'.ownPendingRequest o = t.ownPendingRequest o := by
      cases step with
      | enq key offset owner type wait fresh room =>
        refine ⟨owner, ?_⟩
        unfold LockTable.enq
        simp only
        split
        · exact fun o other => Function.update_of_ne other _ _
        · exact fun _ _ => rfl
      | convert key lock request type wait found mem idle =>
        refine ⟨request.lrqOwner, ?_⟩
        unfold LockTable.convert
        simp only
        split
        · exact fun o other => Function.update_of_ne other _ _
        · exact fun _ _ => rfl
      | deadlock busy depth waits key lock request victim wait pending scan found mem =>
        exact ⟨victim.lrqOwner, fun o other => Function.update_of_ne other _ _⟩
      | wake key lock request conversion found mem call resolved =>
        exact ⟨request.lrqOwner, fun o other => Function.update_of_ne other _ _⟩
      | purge owner requests own => exact ⟨owner, fun o other => Function.update_of_ne other _ _⟩
      | downgrade | deq | timeout | granted | denyEnq | denyConvert => exact ⟨0, fun _ _ => rfl⟩
    refine ⟨owner :: owners, ?_⟩
    intro o some
    by_cases same : o = owner
    · exact same ▸ List.mem_cons_self
    · rw [hown o same] at some
      exact List.mem_cons_of_mem _ (hfinite o some)

end LockTable

end InterBase
