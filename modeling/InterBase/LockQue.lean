import Mathlib.Data.Set.Insert
import InterBase.Library.Links

namespace InterBase

open Links

/-- The links of the self-relative queues in the lock table, by the offsets of the nodes, and the
words of the secondary header block that a recovery reads. -/
structure LockShm where
  srqForward : Nat → Nat
  srqBackward : Nat → Nat
  shbInsertQue : Nat
  shbInsertPrior : Nat
  shbRemoveNode : Nat

namespace LockShm

def setForward (a v : Nat) (s : LockShm) : LockShm :=
  { s with srqForward := Function.update s.srqForward a v }

def setBackward (a v : Nat) (s : LockShm) : LockShm :=
  { s with srqBackward := Function.update s.srqBackward a v }

/-- The stores of `insert_tail` in their order. -/
def insertTail (que node : Nat) : List (LockShm → LockShm) :=
  [fun s => { s with shbInsertQue := que },
    fun s => { s with shbInsertPrior := s.srqBackward que },
    fun s => s.setForward node que,
    fun s => s.setBackward node (s.srqBackward que),
    fun s => s.setForward (s.srqBackward que) node,
    fun s => s.setBackward que node,
    fun s => { s with shbInsertQue := 0 },
    fun s => { s with shbInsertPrior := 0 }]

/-- The stores of `remove_que` in their order, `QUE_INIT` last. -/
def removeQue (node : Nat) : List (LockShm → LockShm) :=
  [fun s => { s with shbRemoveNode := node },
    fun s => s.setBackward (s.srqForward node) (s.srqBackward node),
    fun s => s.setForward (s.srqBackward node) (s.srqForward node),
    fun s => { s with shbRemoveNode := 0 },
    fun s => s.setBackward node node,
    fun s => s.setForward node node]

/-- What `acquire` does when the owner before it died with the mutex. -/
def acquire (s : LockShm) : List (LockShm → LockShm) :=
  if s.shbRemoveNode ≠ 0 then removeQue s.shbRemoveNode
  else if s.shbInsertQue ≠ 0 ∧ s.shbInsertPrior ≠ 0 then
    [fun s => s.setBackward s.shbInsertQue s.shbInsertPrior,
      fun s => s.setForward s.shbInsertPrior s.shbInsertQue,
      fun s => { s with shbInsertQue := 0 },
      fun s => { s with shbInsertPrior := 0 }]
  else []

/-- The first `n` of the stores. -/
def stored (stores : List (LockShm → LockShm)) (n : Nat) (s : LockShm) : LockShm :=
  (stores.take n).foldl (fun s store => store s) s

end LockShm

inductive QueOp where
  | insertTail (que node : Nat)
  | removeQue (node : Nat)

namespace QueOp

def stores : QueOp → List (LockShm → LockShm)
  | insertTail que node => LockShm.insertTail que node
  | removeQue node => LockShm.removeQue node

/-- What the operation does to the nodes of every queue. -/
def apply : QueOp → (Nat → List Nat) → Nat → List Nat
  | insertTail que node, c => Function.update c que (c que ++ [node])
  | removeQue node, c => fun h => (c h).erase node

/-- What comes of an operation that ends with its first `n` stores: an insertion is undone until
`shb_insert_que` is cleared, and a removal is redone from its first store on. -/
def outcome : QueOp → Nat → (Nat → List Nat) → Nat → List Nat
  | insertTail que node, n, c => if n < 7 then c else (insertTail que node).apply c
  | removeQue node, n, c => if n = 0 then c else (removeQue node).apply c

end QueOp

section

variable (heads : Set Nat)

/-- The head or a node of a queue. -/
def QueMember (c : Nat → List Nat) (a : Nat) : Prop := ∃ h ∈ heads, a ∈ h :: c h

/-- The queues are linked in both directions, and no two have a node in common. -/
structure Queues (c : Nat → List Nat) (s : LockShm) : Prop where
  nodup : ∀ h ∈ heads, (h :: c h).Nodup
  apart : ∀ h ∈ heads, ∀ h' ∈ heads, ∀ a ∈ h :: c h, a ∈ h' :: c h' → h = h'
  nonzero : ∀ a, QueMember heads c a → a ≠ 0
  ring : ∀ h ∈ heads, Ring s.srqForward s.srqBackward h (c h)

/-- A node is inserted only while it is out of a queue; what is removed is no head. -/
def QueOp.Valid (c : Nat → List Nat) : QueOp → Prop
  | insertTail que node => que ∈ heads ∧ node ≠ 0 ∧ ¬ QueMember heads c node
  | removeQue node => node ≠ 0 ∧ node ∉ heads

/-- A removal of a node that is in no queue writes no other value to a link of a queue than it
has. -/
def QueOp.Repeatable (c : Nat → List Nat) (s : LockShm) : QueOp → Prop
  | insertTail _ _ => True
  | removeQue node => ¬ QueMember heads c node →
    (QueMember heads c (s.srqForward node) →
      s.srqBackward (s.srqForward node) = s.srqBackward node) ∧
      (QueMember heads c (s.srqBackward node) →
        s.srqForward (s.srqBackward node) = s.srqForward node)

/-- An insertion does not end with its first store while `shb_insert_prior` is left over from an
earlier crash. -/
def QueOp.Fresh (n : Nat) (s : LockShm) : QueOp → Prop
  | insertTail que _ => n = 1 → s.shbInsertPrior = 0 ∨ s.shbInsertPrior = s.srqBackward que
  | removeQue _ => True

/-- What a run has to meet at an operation of which the first `n` stores are made. -/
def QueOp.Careful (c : Nat → List Nat) (n : Nat) (s : LockShm) (o : QueOp) : Prop :=
  o.Repeatable heads c s ∧ o.Fresh n s

variable (meets : (Nat → List Nat) → Nat → LockShm → QueOp → Prop)

/-- The runs of operations, crashes and recoveries that meet a condition at every operation: the
lock table, the nodes of every queue, and the operation that has crashed. -/
inductive QueRuns : LockShm → (Nat → List Nat) → Option QueOp → Prop
  | start {s c} (queues : Queues heads c s) (que : s.shbInsertQue = 0)
      (prior : s.shbInsertPrior = 0) (node : s.shbRemoveNode = 0) : QueRuns s c none
  | done {s c o} (runs : QueRuns s c none) (valid : o.Valid heads c)
      (met : meets c o.stores.length s o) :
      QueRuns (LockShm.stored o.stores o.stores.length s) (o.apply c) none
  | crash {s c o} (n : Nat) (runs : QueRuns s c none) (valid : o.Valid heads c)
      (short : n < o.stores.length) (met : meets c n s o) :
      QueRuns (LockShm.stored o.stores n s) (o.outcome n c) (some o)
  | crashAgain {s c o} (n : Nat) (runs : QueRuns s c (some o)) (short : n < s.acquire.length) :
      QueRuns (LockShm.stored s.acquire n s) c (some o)
  | recovered {s c o} (runs : QueRuns s c (some o)) :
      QueRuns (LockShm.stored s.acquire s.acquire.length s) c none

/-- What a recovery will act on, if anything, are the words of the operation that has crashed. -/
def OwnHints (c : Nat → List Nat) (s : LockShm) (o : QueOp) : Prop :=
  (s.shbRemoveNode ≠ 0 → o = .removeQue s.shbRemoveNode) ∧
    (s.shbRemoveNode = 0 → s.shbInsertQue ≠ 0 → s.shbInsertPrior ≠ 0 →
      (∃ node, o = .insertTail s.shbInsertQue node) ∧ s.shbInsertQue ∈ heads ∧
        (s.shbInsertQue :: c s.shbInsertQue).getLast? = some s.shbInsertPrior)

end

section

variable {heads : Set Nat} {c : Nat → List Nat} {s s' : LockShm} {node : Nat}

theorem Queues.congr (q : Queues heads c s)
    (forward : ∀ a, QueMember heads c a → s'.srqForward a = s.srqForward a)
    (backward : ∀ a, QueMember heads c a → s'.srqBackward a = s.srqBackward a) :
    Queues heads c s' := by
  refine { q with ring := fun h hh => Seg.congr (q.ring h hh) ?_ ?_ }
  · exact fun a ha => forward a ⟨h, hh, ha⟩
  · intro a ha
    refine backward a ⟨h, hh, ?_⟩
    obtain ha | same := List.mem_append.mp ha
    · exact List.mem_cons_of_mem _ ha
    · rw [List.mem_singleton.mp same]
      exact List.mem_cons_self

theorem Queues.back_mem (q : Queues heads c s) {que : Nat} (hq : que ∈ heads) :
    s.srqBackward que ∈ que :: c que :=
  Seg.back_mem (q.ring que hq)

theorem Queues.fwd_back (q : Queues heads c s) {que : Nat} (hq : que ∈ heads) :
    s.srqForward (s.srqBackward que) = que :=
  Seg.fwd_back (q.ring que hq)

/-- The links of a ring do not change where those of nodes of another one do. -/
theorem Queues.other (q : Queues heads c s) {h h' : Nat} (hh : h ∈ heads) (hh' : h' ∈ heads)
    (other : h ≠ h')
    (forward : ∀ a, a ∉ h :: c h → a ∈ h' :: c h' → s'.srqForward a = s.srqForward a)
    (backward : ∀ a, a ∉ h :: c h → a ∈ h' :: c h' → s'.srqBackward a = s.srqBackward a) :
    Ring s'.srqForward s'.srqBackward h' (c h') := by
  have apart : ∀ a ∈ h' :: c h', a ∉ h :: c h := by
    intro a ha ha'
    exact other (q.apart h hh h' hh' a ha' ha)
  refine Seg.congr (q.ring h' hh') ?_ ?_
  · exact fun a ha => forward a (apart a ha) ha
  · intro a ha
    have member : a ∈ h' :: c h' := by
      obtain ha | same := List.mem_append.mp ha
      · exact List.mem_cons_of_mem _ ha
      · rw [List.mem_singleton.mp same]
        exact List.mem_cons_self
    exact backward a (apart a member) member

/-- The links when a node has been put behind the others. -/
def LockShm.inserted (que node : Nat) (s : LockShm) : LockShm :=
  { s with
    srqForward := Function.update (Function.update s.srqForward node que) (s.srqBackward que) node
    srqBackward :=
      Function.update (Function.update s.srqBackward node (s.srqBackward que)) que node }

/-- The links when the neighbours of a node point to each other. -/
def LockShm.removed (node : Nat) (s : LockShm) : LockShm :=
  { s with
    srqForward := Function.update s.srqForward (s.srqBackward node) (s.srqForward node)
    srqBackward := Function.update s.srqBackward (s.srqForward node) (s.srqBackward node) }

theorem mem_update {que a h : Nat} : a ∈ h :: Function.update c que (c que ++ [node]) h ↔
    a ∈ h :: c h ∨ h = que ∧ a = node := by
  by_cases here : h = que
  · subst here
    rw [Function.update_self, ← List.cons_append, List.mem_append, List.mem_singleton]
    exact or_congr_right (and_iff_right rfl).symm
  · rw [Function.update_of_ne here]
    exact (or_iff_left fun h => here h.1).symm

theorem Queues.insert {que : Nat} (q : Queues heads c s)
    (valid : (QueOp.insertTail que node).Valid heads c) :
    Queues heads ((QueOp.insertTail que node).apply c) (s.inserted que node) := by
  obtain ⟨hq, live, fresh⟩ := valid
  have out : ∀ h ∈ heads, node ∉ h :: c h := fun h hh member => fresh ⟨h, hh, member⟩
  show Queues heads (Function.update c que (c que ++ [node])) (s.inserted que node)
  constructor
  · intro h hh
    by_cases here : h = que
    · subst here
      rw [Function.update_self, ← List.cons_append]
      exact List.nodup_append.mpr ⟨q.nodup h hh, List.nodup_singleton node, fun a ha b hb same =>
        out h hh (List.mem_singleton.mp hb ▸ same ▸ ha)⟩
    · rw [Function.update_of_ne here]
      exact q.nodup h hh
  · intro h hh h' hh' a ha ha'
    obtain old | ⟨rfl, rfl⟩ := mem_update.mp ha
    · obtain old' | ⟨rfl, rfl⟩ := mem_update.mp ha'
      · exact q.apart h hh h' hh' a old old'
      · exact absurd old (out h hh)
    · obtain old' | ⟨rfl, -⟩ := mem_update.mp ha'
      · exact absurd old' (out h' hh')
      · rfl
  · intro a member
    obtain ⟨h, hh, ha⟩ := member
    obtain old | ⟨-, rfl⟩ := mem_update.mp ha
    · exact q.nonzero a ⟨h, hh, old⟩
    · exact live
  · intro h hh
    by_cases here : h = que
    · subst here
      rw [Function.update_self]
      exact (q.ring h hh).insert (q.nodup h hh) (out h hh)
    · rw [Function.update_of_ne here]
      refine q.other hq hh (Ne.symm here) ?_ ?_
      · intro a apart ha
        have old : a ≠ node := fun same => out h hh (same ▸ ha)
        have prior : a ≠ s.srqBackward que := fun same => apart (same ▸ q.back_mem hq)
        show Function.update (Function.update s.srqForward node que) _ node a = _
        rw [Function.update_of_ne prior, Function.update_of_ne old]
      · intro a apart ha
        have old : a ≠ node := fun same => out h hh (same ▸ ha)
        have head : a ≠ que := fun same => apart (same ▸ List.mem_cons_self)
        show Function.update (Function.update s.srqBackward node _) que node a = _
        rw [Function.update_of_ne head, Function.update_of_ne old]

theorem not_mem_erase (q : Queues heads c s) (notHead : node ∉ heads) :
    ¬ QueMember heads ((QueOp.removeQue node).apply c) node := by
  intro member
  obtain ⟨h, hh, ha⟩ := member
  obtain same | ha := List.mem_cons.mp ha
  · exact notHead (same ▸ hh)
  · exact ((List.nodup_cons.mp (q.nodup h hh)).2.not_mem_erase) ha

theorem Queues.remove (q : Queues heads c s) (valid : (QueOp.removeQue node).Valid heads c)
    (repeatable : (QueOp.removeQue node).Repeatable heads c s) :
    Queues heads ((QueOp.removeQue node).apply c) (s.removed node) := by
  obtain ⟨live, notHead⟩ := valid
  have sub : ∀ h a, a ∈ h :: (c h).erase node → a ∈ h :: c h := by
    intro h a ha
    obtain rfl | ha := List.mem_cons.mp ha
    · exact List.mem_cons_self
    · exact List.mem_cons_of_mem _ (List.mem_of_mem_erase ha)
  show Queues heads (fun h => (c h).erase node) (s.removed node)
  refine ⟨?_, ?_, ?_, ?_⟩
  · intro h hh
    exact (q.nodup h hh).sublist (List.Sublist.cons_cons h List.erase_sublist)
  · intro h hh h' hh' a ha ha'
    exact q.apart h hh h' hh' a (sub h a ha) (sub h' a ha')
  · intro a member
    obtain ⟨h, hh, ha⟩ := member
    exact q.nonzero a ⟨h, hh, sub h a ha⟩
  · intro h' hh'
    by_cases member : QueMember heads c node
    · obtain ⟨h, hh, ha⟩ := member
      have inside : node ∈ c h := by
        obtain same | ha := List.mem_cons.mp ha
        · exact absurd (same ▸ hh) notHead
        · exact ha
      obtain ⟨pre, post, whole⟩ := List.append_of_mem inside
      have ring := q.ring h hh
      have nodup := q.nodup h hh
      rw [whole] at ring nodup
      by_cases here : h' = h
      · subst here
        have front : node ∉ pre := by
          intro ha
          exact (List.nodup_middle.mp (List.nodup_cons.mp nodup).2 |> List.nodup_cons.mp).1
            (List.mem_append_left _ ha)
        rw [whole, List.erase_append_right _ front, List.erase_cons_head]
        exact ring.remove nodup
      · have out : node ∉ c h' := by
          intro ha'
          exact here (q.apart h' hh' h hh node (List.mem_cons_of_mem _ ha') ha)
        obtain ⟨before, behind⟩ := seg_append.mp ring
        rw [List.erase_of_not_mem out]
        refine q.other hh hh' (Ne.symm here) ?_ ?_
        · intro a apart _
          refine Function.update_of_ne (fun same => apart ?_) ..
          rw [same, whole, ← List.cons_append]
          exact List.mem_append_left _ before.back_mem
        · intro a apart _
          refine Function.update_of_ne (fun same => apart ?_) ..
          rw [same, whole]
          obtain ha | ha := List.mem_append.mp behind.fwd_mem
          · exact List.mem_cons_of_mem _ (List.mem_append_right _ (List.mem_cons_of_mem _ ha))
          · rw [List.mem_singleton.mp ha]
            exact List.mem_cons_self
    · have out : node ∉ c h' := fun ha => member ⟨h', hh', List.mem_cons_of_mem _ ha⟩
      obtain ⟨next, previous⟩ := repeatable member
      rw [List.erase_of_not_mem out]
      suffices Queues heads c (s.removed node) from this.ring h' hh'
      refine q.congr ?_ ?_
      · intro a ha
        by_cases here : a = s.srqBackward node
        · subst here
          exact (Function.update_self ..).trans (previous ha).symm
        · exact Function.update_of_ne here ..
      · intro a ha
        by_cases here : a = s.srqForward node
        · subst here
          exact (Function.update_self ..).trans (next ha).symm
        · exact Function.update_of_ne here ..

/-- Nothing that a recovery will act on. -/
structure LockShm.Rest (heads : Set Nat) (c : Nat → List Nat) (s : LockShm) : Prop where
  queues : Queues heads c s
  node : s.shbRemoveNode = 0
  quiet : s.shbInsertQue = 0 ∨ s.shbInsertPrior = 0

/-- A removal is on its way, and what is left of it does not depend on how much is done. -/
structure LockShm.Removing (heads : Set Nat) (node : Nat) (c : Nat → List Nat) (s : LockShm) :
    Prop where
  queues : Queues heads c (s.removed node)
  out : ¬ QueMember heads c node
  hint : s.shbRemoveNode = node
  live : node ≠ 0
  quiet : s.shbInsertQue = 0 ∨ s.shbInsertPrior = 0

/-- The links when an insertion has been undone. -/
def LockShm.undone (s : LockShm) : LockShm :=
  (s.setBackward s.shbInsertQue s.shbInsertPrior).setForward s.shbInsertPrior s.shbInsertQue

/-- An insertion is on its way, and undoing it does not depend on how much is done. -/
structure LockShm.Inserting (heads : Set Nat) (c : Nat → List Nat) (s : LockShm) : Prop where
  queues : Queues heads c s.undone
  que : s.shbInsertQue ∈ heads
  prior : s.shbInsertPrior ≠ 0
  node : s.shbRemoveNode = 0

namespace LockShm

theorem stored_all {stores : List (LockShm → LockShm)} {n : Nat} (h : stores.length ≤ n)
    (s : LockShm) : stored stores n s = stored stores stores.length s := by
  unfold stored
  rw [List.take_of_length_le h, List.take_length]

theorem update_backward (back : Nat → Nat) (x node : Nat) :
    Function.update back x (back node) node = back node := by
  by_cases here : node = x
  · rw [here, Function.update_self]
  · exact Function.update_of_ne here ..

/-- The stores in front of the one that clears `shb_remove_node`. -/
theorem stored_removeQue (node : Nat) (s : LockShm) : stored (removeQue node) 3 s =
    { s.removed node with shbRemoveNode := node } := by
  show LockShm.mk (Function.update s.srqForward (Function.update s.srqBackward (s.srqForward node)
    (s.srqBackward node) node) (s.srqForward node)) _ _ _ _ = _
  rw [update_backward]
  rfl

theorem removed_links (node : Nat) {s s' : LockShm}
    (forward : s'.srqForward = s.srqForward ∨
      s'.srqForward = Function.update s.srqForward (s.srqBackward node) (s.srqForward node))
    (backward : s'.srqBackward = s.srqBackward ∨
      s'.srqBackward = Function.update s.srqBackward (s.srqForward node) (s.srqBackward node)) :
    (s'.removed node).srqForward = (s.removed node).srqForward ∧
      (s'.removed node).srqBackward = (s.removed node).srqBackward := by
  have next : s'.srqForward node = s.srqForward node := by
    obtain same | written := forward
    · rw [same]
    · rw [written]
      exact update_backward ..
  have previous : s'.srqBackward node = s.srqBackward node := by
    obtain same | written := backward
    · rw [same]
    · rw [written]
      exact update_backward ..
  unfold removed
  rw [next, previous]
  constructor
  · obtain same | written := forward
    · rw [same]
    · rw [written]
      exact Function.update_idem ..
  · obtain same | written := backward
    · rw [same]
    · rw [written]
      exact Function.update_idem ..

theorem Removing.links (h : s.Removing heads node c)
    (forward : s'.srqForward = s.srqForward ∨
      s'.srqForward = Function.update s.srqForward (s.srqBackward node) (s.srqForward node))
    (backward : s'.srqBackward = s.srqBackward ∨
      s'.srqBackward = Function.update s.srqBackward (s.srqForward node) (s.srqBackward node)) :
    Queues heads c (s'.removed node) := by
  obtain ⟨next, previous⟩ := removed_links node forward backward
  exact h.queues.congr (fun a _ => congrFun next a) (fun a _ => congrFun previous a)

/-- A removal that goes on, by its owner or by a recovery: with the fourth store it is done. -/
theorem Removing.stored (h : s.Removing heads node c) (n : Nat) :
    n < 4 ∧ (stored (removeQue node) n s).Removing heads node c ∨
      4 ≤ n ∧ (stored (removeQue node) n s).Rest heads c := by
  have out : ∀ a, QueMember heads c a → a ≠ node := fun a ha same => h.out (same ▸ ha)
  have last : Queues heads c (LockShm.stored (removeQue node) 3 s) := by
    rw [stored_removeQue]
    exact h.queues.congr (fun _ _ => rfl) (fun _ _ => rfl)
  match n with
  | 0 => exact .inl ⟨by omega, h⟩
  | 1 => exact .inl ⟨by omega, h.links (.inl rfl) (.inl rfl), h.out, rfl, h.live, h.quiet⟩
  | 2 => exact .inl ⟨by omega, h.links (.inl rfl) (.inr rfl), h.out, rfl, h.live, h.quiet⟩
  | 3 =>
    refine .inl ⟨by omega, ?_, h.out, rfl, h.live, h.quiet⟩
    rw [stored_removeQue]
    exact h.links (.inr rfl) (.inr rfl)
  | 4 => exact .inr ⟨by omega, last.congr (fun _ _ => rfl) (fun _ _ => rfl), rfl, h.quiet⟩
  | 5 =>
    refine .inr ⟨by omega, last.congr (fun _ _ => rfl) (fun a ha => ?_), rfl, h.quiet⟩
    exact Function.update_of_ne (out a ha) ..
  | n + 6 =>
    rw [stored_all (by show 6 ≤ n + 6; omega)]
    refine .inr ⟨by omega, last.congr (fun a ha => ?_) (fun a ha => ?_), rfl, h.quiet⟩
    · exact Function.update_of_ne (out a ha) ..
    · exact Function.update_of_ne (out a ha) ..

/-- The stores in front of the one that clears `shb_insert_que`. -/
theorem stored_insertTail {que : Nat} (other : que ≠ node) (s : LockShm) :
    stored (insertTail que node) 6 s =
      { s.inserted que node with
        shbInsertQue := que, shbInsertPrior := s.srqBackward que } := by
  show LockShm.mk (Function.update (Function.update s.srqForward node que)
    (Function.update s.srqBackward node (s.srqBackward que) que) node) _ _ _ _ = _
  rw [Function.update_of_ne other]
  rfl

/-- An insertion that has got so far that it will be undone. -/
theorem Rest.inserting {que : Nat} (rest : s.Rest heads c) (hq : que ∈ heads)
    (hint : s'.shbInsertQue = que) (prior : s'.shbInsertPrior = s.srqBackward que)
    (node : s'.shbRemoveNode = 0)
    (forward : ∀ a, QueMember heads c a → a ≠ s.srqBackward que →
      s'.srqForward a = s.srqForward a)
    (backward : ∀ a, QueMember heads c a → a ≠ que → s'.srqBackward a = s.srqBackward a) :
    s'.Inserting heads c := by
  have q := rest.queues
  refine ⟨q.congr ?_ ?_, hint ▸ hq, ?_, node⟩
  · intro a ha
    show Function.update s'.srqForward s'.shbInsertPrior s'.shbInsertQue a = _
    rw [hint, prior]
    by_cases here : a = s.srqBackward que
    · rw [here, Function.update_self, q.fwd_back hq]
    · rw [Function.update_of_ne here]
      exact forward a ha here
  · intro a ha
    show Function.update s'.srqBackward s'.shbInsertQue s'.shbInsertPrior a = _
    rw [hint, prior]
    by_cases here : a = que
    · rw [here, Function.update_self]
    · rw [Function.update_of_ne here]
      exact backward a ha here
  · rw [prior]
    exact q.nonzero _ ⟨que, hq, q.back_mem hq⟩

/-- An insertion up to any store. -/
theorem Rest.insertTail {que : Nat} (rest : s.Rest heads c)
    (valid : (QueOp.insertTail que node).Valid heads c) (n : Nat)
    (fresh : (QueOp.insertTail que node).Fresh n s) :
    (n < 7 ∧ ((stored (insertTail que node) n s).Rest heads c ∨
      (stored (insertTail que node) n s).shbInsertQue = que ∧
        (stored (insertTail que node) n s).Inserting heads c)) ∨
      (7 ≤ n ∧ (stored (insertTail que node) n s).Rest heads
        ((QueOp.insertTail que node).apply c)) := by
  obtain ⟨hq, live, out⟩ := id valid
  have old : ∀ a, QueMember heads c a → a ≠ node := fun a ha same => out (same ▸ ha)
  have other : que ≠ node := old que ⟨que, hq, List.mem_cons_self⟩
  have inserted := rest.queues.insert valid
  match n with
  | 0 => exact .inl ⟨by omega, .inl rest⟩
  | 1 =>
    refine .inl ⟨by omega, ?_⟩
    obtain none | same := fresh rfl
    · exact .inl ⟨rest.queues.congr (fun _ _ => rfl) (fun _ _ => rfl), rest.node, .inr none⟩
    · exact .inr ⟨rfl, rest.inserting hq rfl same rest.node (fun _ _ _ => rfl) (fun _ _ _ => rfl)⟩
  | 2 =>
    exact .inl ⟨by omega, .inr ⟨rfl, rest.inserting hq rfl rfl rest.node (fun _ _ _ => rfl)
      (fun _ _ _ => rfl)⟩⟩
  | 3 =>
    exact .inl ⟨by omega, .inr ⟨rfl, rest.inserting hq rfl rfl rest.node
      (fun a ha _ => Function.update_of_ne (old a ha) ..) (fun _ _ _ => rfl)⟩⟩
  | 4 =>
    exact .inl ⟨by omega, .inr ⟨rfl, rest.inserting hq rfl rfl rest.node
      (fun a ha _ => Function.update_of_ne (old a ha) ..)
      (fun a ha _ => Function.update_of_ne (old a ha) ..)⟩⟩
  | 5 =>
    refine .inl ⟨by omega, .inr ⟨rfl, rest.inserting hq rfl rfl rest.node (fun a ha inner => ?_)
      (fun a ha _ => Function.update_of_ne (old a ha) ..)⟩⟩
    show Function.update (Function.update s.srqForward node que)
      (Function.update s.srqBackward node (s.srqBackward que) que) node a = _
    rw [Function.update_of_ne other, Function.update_of_ne inner, Function.update_of_ne (old a ha)]
  | 6 =>
    refine .inl ⟨by omega, .inr ⟨rfl, ?_⟩⟩
    rw [stored_insertTail other]
    refine rest.inserting hq rfl rfl rest.node (fun a ha inner => ?_) (fun a ha inner => ?_)
    · show Function.update (Function.update s.srqForward node que) _ node a = _
      rw [Function.update_of_ne inner, Function.update_of_ne (old a ha)]
    · show Function.update (Function.update s.srqBackward node _) que node a = _
      rw [Function.update_of_ne inner, Function.update_of_ne (old a ha)]
  | 7 =>
    refine .inr ⟨by omega, ?_, rest.node, .inl rfl⟩
    have last : Queues heads ((QueOp.insertTail que node).apply c)
        (stored (LockShm.insertTail que node) 6 s) := by
      rw [stored_insertTail other]
      exact inserted.congr (fun _ _ => rfl) (fun _ _ => rfl)
    exact last.congr (fun _ _ => rfl) (fun _ _ => rfl)
  | n + 8 =>
    rw [stored_all (by show 8 ≤ n + 8; omega)]
    refine .inr ⟨by omega, ?_, rest.node, .inl rfl⟩
    have last : Queues heads ((QueOp.insertTail que node).apply c)
        (stored (LockShm.insertTail que node) 6 s) := by
      rw [stored_insertTail other]
      exact inserted.congr (fun _ _ => rfl) (fun _ _ => rfl)
    exact last.congr (fun _ _ => rfl) (fun _ _ => rfl)

/-- A removal up to any store. -/
theorem Rest.removeQue (rest : s.Rest heads c) (valid : (QueOp.removeQue node).Valid heads c)
    (repeatable : (QueOp.removeQue node).Repeatable heads c s) (n : Nat) :
    (n = 0 ∧ (stored (removeQue node) n s).Rest heads c) ∨
      (0 < n ∧ n < 4 ∧ (stored (removeQue node) n s).Removing heads node
        ((QueOp.removeQue node).apply c)) ∨
      (4 ≤ n ∧ (stored (removeQue node) n s).Rest heads ((QueOp.removeQue node).apply c)) := by
  have removing : (stored (LockShm.removeQue node) 1 s).Removing heads node
      ((QueOp.removeQue node).apply c) :=
    ⟨(rest.queues.remove valid repeatable).congr (fun _ _ => rfl) (fun _ _ => rfl),
      not_mem_erase rest.queues valid.2, rfl, valid.1, rest.quiet⟩
  match n with
  | 0 => exact .inl ⟨rfl, rest⟩
  | n + 1 =>
    -- The first store is made twice to no effect.
    have again : stored (LockShm.removeQue node) (n + 1) (stored (LockShm.removeQue node) 1 s) =
        stored (LockShm.removeQue node) (n + 1) s := rfl
    rw [← again]
    obtain ⟨short, still⟩ | ⟨long, done⟩ := removing.stored (n + 1)
    · exact .inr (.inl ⟨by omega, short, still⟩)
    · exact .inr (.inr ⟨long, done⟩)

theorem Inserting.links (h : s.Inserting heads c) (que : s'.shbInsertQue = s.shbInsertQue)
    (prior : s'.shbInsertPrior = s.shbInsertPrior)
    (forward : s'.srqForward = s.srqForward ∨ s'.srqForward =
      Function.update s.srqForward s.shbInsertPrior s.shbInsertQue)
    (backward : s'.srqBackward = Function.update s.srqBackward s.shbInsertQue s.shbInsertPrior) :
    Queues heads c s'.undone := by
  refine h.queues.congr (fun a _ => congrFun ?_ a) (fun a _ => congrFun ?_ a)
  · show Function.update s'.srqForward s'.shbInsertPrior s'.shbInsertQue = _
    rw [que, prior]
    obtain same | written := forward
    · rw [same]
      rfl
    · rw [written]
      exact Function.update_idem ..
  · show Function.update s'.srqBackward s'.shbInsertQue s'.shbInsertPrior = _
    rw [que, prior, backward]
    exact Function.update_idem ..

theorem Inserting.acquire_eq (h : s.Inserting heads c) : s.acquire =
    [fun s => s.setBackward s.shbInsertQue s.shbInsertPrior,
      fun s => s.setForward s.shbInsertPrior s.shbInsertQue,
      fun s => { s with shbInsertQue := 0 },
      fun s => { s with shbInsertPrior := 0 }] := by
  have que := h.queues.nonzero _ ⟨_, h.que, List.mem_cons_self⟩
  unfold acquire
  rw [if_neg (not_not_intro h.node), if_pos ⟨que, h.prior⟩]

/-- The recovery of an insertion up to any store. -/
theorem Inserting.stored (h : s.Inserting heads c) (n : Nat) :
    (n < 3 ∧ (stored s.acquire n s).shbInsertQue = s.shbInsertQue ∧
      (stored s.acquire n s).Inserting heads c) ∨ (stored s.acquire n s).Rest heads c := by
  have whole := h.acquire_eq
  rw [whole]
  match n with
  | 0 => exact .inl ⟨by omega, rfl, h⟩
  | 1 => exact .inl ⟨by omega, rfl, h.links rfl rfl (.inl rfl) rfl, h.que, h.prior, h.node⟩
  | 2 => exact .inl ⟨by omega, rfl, h.links rfl rfl (.inr rfl) rfl, h.que, h.prior, h.node⟩
  | 3 => exact .inr ⟨h.queues.congr (fun _ _ => rfl) (fun _ _ => rfl), h.node, .inl rfl⟩
  | n + 4 =>
    rw [stored_all (by show 4 ≤ n + 4; omega)]
    exact .inr ⟨h.queues.congr (fun _ _ => rfl) (fun _ _ => rfl), h.node, .inl rfl⟩

theorem Rest.acquire_eq (h : s.Rest heads c) : s.acquire = [] := by
  unfold acquire
  rw [if_neg (not_not_intro h.node), if_neg]
  rintro ⟨que, prior⟩
  obtain none | none := h.quiet
  · exact que none
  · exact prior none

theorem Removing.acquire_eq (h : s.Removing heads node c) :
    s.acquire = LockShm.removeQue node := by
  unfold acquire
  rw [h.hint, if_pos h.live]

end LockShm

/-- What there is after a crash, until a recovery has come to its end. -/
def LockShm.Mid (heads : Set Nat) (c : Nat → List Nat) (o : QueOp) (s : LockShm) : Prop :=
  s.Rest heads c ∨ (∃ node, o = .removeQue node ∧ s.Removing heads node c) ∨
    ∃ node, o = .insertTail s.shbInsertQue node ∧ s.Inserting heads c

theorem QueOp.outcome_insertTail (que node n : Nat) (c : Nat → List Nat) :
    (insertTail que node).outcome n c = if n < 7 then c else (insertTail que node).apply c := rfl

theorem QueOp.outcome_removeQue (node n : Nat) (c : Nat → List Nat) :
    (removeQue node).outcome n c = if n = 0 then c else (removeQue node).apply c := rfl

/-- An operation of which the first `n` stores are made. -/
theorem LockShm.Rest.op (rest : s.Rest heads c) {o : QueOp} (valid : o.Valid heads c) {n : Nat}
    (careful : o.Careful heads c n s) : (LockShm.stored o.stores n s).Mid heads (o.outcome n c) o ∧
      (o.stores.length ≤ n → (LockShm.stored o.stores n s).Rest heads (o.apply c)) := by
  cases o with
  | insertTail que node =>
    obtain ⟨short, undone⟩ | ⟨long, done⟩ := rest.insertTail valid n careful.2
    · refine ⟨?_, fun whole => ?_⟩
      · rw [QueOp.outcome_insertTail, if_pos short]
        obtain still | ⟨hint, inserting⟩ := undone
        · exact .inl still
        · refine .inr (.inr ⟨node, ?_, inserting⟩)
          show _ = QueOp.insertTail (LockShm.stored (LockShm.insertTail que node) n s).shbInsertQue _
          rw [hint]
      · have : 8 ≤ n := whole
        omega
    · refine ⟨?_, fun _ => done⟩
      rw [QueOp.outcome_insertTail, if_neg (by omega)]
      exact .inl done
  | removeQue node =>
    obtain ⟨none, still⟩ | ⟨some, short, removing⟩ | ⟨long, done⟩ :=
      rest.removeQue valid careful.1 n
    · refine ⟨?_, fun whole => ?_⟩
      · rw [QueOp.outcome_removeQue, if_pos none]
        exact .inl still
      · have : 6 ≤ n := whole
        omega
    · refine ⟨?_, fun whole => ?_⟩
      · rw [QueOp.outcome_removeQue, if_neg (by omega)]
        exact .inr (.inl ⟨node, rfl, removing⟩)
      · have : 6 ≤ n := whole
        omega
    · refine ⟨?_, fun _ => done⟩
      rw [QueOp.outcome_removeQue, if_neg (by omega)]
      exact .inl done

/-- A recovery of which the first `n` stores are made. -/
theorem LockShm.Mid.acquire {o : QueOp} (mid : s.Mid heads c o) (n : Nat) :
    (LockShm.stored s.acquire n s).Mid heads c o ∧
      (s.acquire.length ≤ n → (LockShm.stored s.acquire n s).Rest heads c) := by
  obtain rest | ⟨node, is, removing⟩ | ⟨node, is, inserting⟩ := mid
  · rw [rest.acquire_eq]
    have same : LockShm.stored [] n s = s := by
      unfold LockShm.stored
      rw [List.take_nil]
      rfl
    rw [same]
    exact ⟨.inl rest, fun _ => rest⟩
  · rw [removing.acquire_eq]
    obtain ⟨short, still⟩ | ⟨long, done⟩ := removing.stored n
    · refine ⟨.inr (.inl ⟨node, is, still⟩), fun whole => ?_⟩
      have : 6 ≤ n := whole
      omega
    · exact ⟨.inl done, fun _ => done⟩
  · obtain ⟨short, hint, still⟩ | done := inserting.stored n
    · refine ⟨.inr (.inr ⟨node, by rw [hint]; exact is, still⟩), fun whole => ?_⟩
      rw [inserting.acquire_eq] at whole
      have : 4 ≤ n := whole
      omega
    · exact ⟨.inl done, fun _ => done⟩

theorem queRuns_kept {p : Option QueOp} (runs : QueRuns heads (QueOp.Careful heads) s c p) :
    (p = none → s.Rest heads c) ∧ ∀ o, p = some o → s.Mid heads c o := by
  induction runs with
  | start queues que prior node =>
    refine ⟨fun _ => ⟨queues, node, .inl que⟩, fun o h => ?_⟩
    cases h
  | done runs valid met ih =>
    refine ⟨fun _ => ((ih.1 rfl).op valid met).2 (Nat.le_refl _), fun o h => ?_⟩
    cases h
  | crash n runs valid short met ih =>
    refine ⟨fun h => ?_, fun o h => ?_⟩
    · cases h
    · cases h
      exact ((ih.1 rfl).op valid met).1
  | crashAgain n runs short ih =>
    refine ⟨fun h => ?_, fun o h => ?_⟩
    · cases h
    · exact ((ih.2 o h).acquire n).1
  | @recovered _ _ o runs ih =>
    refine ⟨fun _ => ((ih.2 o rfl).acquire _).2 (Nat.le_refl _), fun o h => ?_⟩
    cases h

theorem LockShm.Inserting.getLast? (h : s.Inserting heads c) :
    (s.shbInsertQue :: c s.shbInsertQue).getLast? = some s.shbInsertPrior := by
  have last := Seg.getLast?_eq (h.queues.ring _ h.que)
  rw [last]
  congr 1
  exact Function.update_self ..

theorem LockShm.Mid.ownHints {o : QueOp} (mid : s.Mid heads c o) : OwnHints heads c s o := by
  obtain rest | ⟨node, is, removing⟩ | ⟨node, is, inserting⟩ := mid
  · refine ⟨fun live => absurd rest.node live, fun _ que prior => ?_⟩
    obtain none | none := rest.quiet
    · exact absurd none que
    · exact absurd none prior
  · refine ⟨fun _ => ?_, fun none => ?_⟩
    · rw [removing.hint]
      exact is
    · exact absurd (removing.hint.symm.trans none) removing.live
  · refine ⟨fun live => absurd inserting.node live, fun _ _ _ => ?_⟩
    exact ⟨⟨node, is⟩, inserting.que, inserting.getLast?⟩

/-- In every run that meets the condition the queues are whole lists again after every operation and
every recovery, those of before or after an operation that has crashed, and a recovery only acts on
words of that operation. -/
theorem queRuns_sound {p : Option QueOp} (runs : QueRuns heads (QueOp.Careful heads) s c p) :
    (p = none → Queues heads c s) ∧ ∀ o, p = some o → OwnHints heads c s o := by
  obtain ⟨whole, mid⟩ := queRuns_kept runs
  exact ⟨fun none => (whole none).queues, fun o crashed => (mid o crashed).ownHints⟩

/-- Queues with no nodes. -/
theorem queues_empty (live : 0 ∉ heads) : Queues heads (fun _ => []) ⟨id, id, 0, 0, 0⟩ := by
  refine ⟨fun h _ => List.nodup_singleton h, ?_, ?_, fun h _ => ⟨rfl, rfl⟩⟩
  · intro h hh h' hh' a ha ha'
    rw [← List.mem_singleton.mp ha, ← List.mem_singleton.mp ha']
  · intro a member same
    obtain ⟨h, hh, ha⟩ := member
    rw [← same, List.mem_singleton.mp ha] at live
    exact live hh

end

theorem queRuns_sound_insert : ∃ s, Queues {8} (fun _ => []) s ∧ s.srqForward 16 = 8 := by
  have empty : Queues {8} (fun _ => []) ⟨id, id, 0, 0, 0⟩ := queues_empty (by simp)
  have valid : (QueOp.insertTail 8 16).Valid {8} fun _ => [] := by
    simp [QueOp.Valid, QueMember]
  have runs : QueRuns {8} (QueOp.Careful {8}) _ _ none :=
    .recovered (.crash 5 (.start empty rfl rfl rfl) valid (by decide)
      ⟨trivial, fun h => absurd h (by decide)⟩)
  exact ⟨_, (queRuns_sound runs).1 rfl, by decide⟩

/-- A crash between the stores that clear `shb_insert_que` and `shb_insert_prior`, and another one
behind the first store of the next insertion: the recovery links two queues. -/
theorem queRuns_stale : ∃ s c, QueRuns {8, 16} (fun _ _ _ _ => True) s c none ∧
    ∀ c', ¬ Queues {8, 16} c' s := by
  have empty : Queues {8, 16} (fun _ => []) ⟨id, id, 0, 0, 0⟩ := queues_empty (by simp)
  have valid : (QueOp.insertTail 8 24).Valid {8, 16} fun _ => [] := by
    simp [QueOp.Valid, QueMember]
  have first : QueRuns {8, 16} (fun _ _ _ _ => True) _ _ none :=
    .recovered (.crash 7 (.start empty rfl rfl rfl) valid (by decide) trivial)
  have valid' : (QueOp.insertTail 16 32).Valid {8, 16}
      ((QueOp.insertTail 8 24).outcome 7 fun _ => []) := by
    simp [QueOp.Valid, QueMember, QueOp.outcome, QueOp.apply]
  have second : QueRuns {8, 16} (fun _ _ _ _ => True) _ _ none :=
    .recovered (.crash 1 first valid' (by decide) trivial)
  refine ⟨_, _, second, fun c' queues => ?_⟩
  have next := Seg.fwd_mem (queues.ring 8 (.inl rfl))
  have linked : 16 ∈ 8 :: c' 8 := by
    obtain member | same := List.mem_append.mp next
    · exact List.mem_cons_of_mem _ member
    · exact absurd (List.mem_singleton.mp same) (by decide)
  exact absurd (queues.apart 8 (.inl rfl) 16 (.inr rfl) 16 linked List.mem_cons_self) (by decide)

end InterBase
