import InterBase.BtcFlushRun

namespace InterBase.Btc

open LinkedTree

section

variable {n : Nat}

/-- A buffer that is the root of the tree or has a parent in it. -/
def Linked (s : Btree n) (bdb : Fin n) : Prop := (s.parent bdb).isSome ∨ s.root = some bdb

instance (s : Btree n) (bdb : Fin n) : Decidable (Linked s bdb) := by
  unfold Linked
  infer_instance

/-- The buffers below a link, in the order of their pages. -/
def buffersBelow (s : Btree n) : Nat → Option (Fin n) → List (Fin n)
  | 0, _ => []
  | _ + 1, none => []
  | fuel + 1, some x => buffersBelow s fuel (s.left x) ++ x :: buffersBelow s fuel (s.right x)

variable (c : BtcFlush n)

/-- The buffers that the removals during the write of a buffer put out of the way: the one that is
written has nothing to its right and is to the right of its parent, and the parent is left with a
right child that is not above the written page, below which they are. -/
def passedOver (s s' : Btree n) (bdb : Fin n) : List (Fin n) :=
  match s.right bdb, s.parent bdb with
  | none, some parent =>
    if c.page parent < c.page bdb ∧ Linked s' parent then
      match s'.right parent with
      | none => []
      | some right =>
        if c.page right ≤ c.page bdb then
          (buffersBelow s' n (some right)).filter (c.page bdb < c.page ·)
        else []
    else []
  | _, _ => []

/-- What is done about a buffer in turn. -/
structure FlushStep (n : Nat) where
  passed : List (Fin n)
  written : List (Fin n)

/-- The buffers of a tree in the order of their pages, each dealt with as it is when those before it
have been, but for those that are out of the tree by then or passed over. -/
def flushSteps : List (Fin n) → List (Fin n) → FlushState n → List (FlushStep n)
  | [], _, _ => []
  | bdb :: rest, passed, f =>
    if Linked f.btree bdb ∧ bdb ∉ passed then
      match flushVisit c bdb f with
      | .error _ => []
      | .ok f' =>
        ⟨passedOver c f.btree f'.btree bdb, f'.written⟩ ::
          flushSteps rest (passedOver c f.btree f'.btree bdb) f'
    else flushSteps rest passed f

/-- The steps of a flush that starts with the tree. -/
def flushSweep (f : FlushState n) : List (FlushStep n) :=
  flushSteps c (buffersBelow f.btree n f.btree.root) []
    { f with maxSeen := minPageNumber, calls := 0, written := [] }

/-- A buffer that the transaction could have modified and that has no journal records. -/
def Due (f : FlushState n) (bdb : Fin n) : Prop :=
  f.dirty bdb = true ∧ c.length bdb = 0 ∧ flushSelects c f bdb

instance (f : FlushState n) (bdb : Fin n) : Decidable (Due c f bdb) := by
  unfold Due
  infer_instance

variable {c} {f f' : FlushState n} {s s' : Btree n} {t : LinkTree (Fin n)} {bdb x : Fin n}
  {passed : List (Fin n)} {next : Option (Fin n)}

theorem linked_iff (h : Holds s t) : Linked s x ↔ x ∈ t.toList := by
  constructor
  · rintro (parent | root)
    · by_contra absent
      rw [(h.outside x absent).1] at parent
      simp at parent
    · by_contra absent
      exact h.root_ne absent root
  · intro mem
    refine (h.parent_or_root mem).imp_left fun some => ?_
    exact Option.isSome_iff_ne_none.mpr some

theorem buffersBelow_eq {p : Option (Fin n)} {fuel : Nat} (h : Rep s p t)
    (room : t.toList.length ≤ fuel) : buffersBelow s fuel t.top = t.toList := by
  induction t generalizing p fuel with
  | leaf => cases fuel <;> rfl
  | node l x r ihl ihr =>
    obtain ⟨-, left, right, repl, repr⟩ := h
    simp only [LinkTree.toList_node, List.length_append, List.length_cons] at room
    obtain _ | fuel := fuel
    · omega
    show buffersBelow s fuel (s.left x) ++ x :: buffersBelow s fuel (s.right x) = _
    rw [left, right, ihl repl (by omega), ihr repr (by omega)]
    rfl

theorem mem_passedOver : x ∈ passedOver c s s' bdb ↔
    s.right bdb = none ∧ ∃ parent, s.parent bdb = some parent ∧ c.page parent < c.page bdb ∧
      Linked s' parent ∧ ∃ right, s'.right parent = some right ∧ c.page right ≤ c.page bdb ∧
        x ∈ buffersBelow s' n (some right) ∧ c.page bdb < c.page x := by
  unfold passedOver
  cases s.right bdb with
  | some _ => simp
  | none =>
    cases s.parent bdb with
    | none => simp
    | some parent =>
      dsimp only
      by_cases stays : c.page parent < c.page bdb ∧ Linked s' parent
      · rw [if_pos stays]
        cases right : s'.right parent with
        | none => simp [right]
        | some z =>
          dsimp only
          by_cases low : c.page z ≤ c.page bdb
          · rw [if_pos low]
            simp [List.mem_filter, stays, right, low]
          · rw [if_neg low]
            simp [right, low]
      · rw [if_neg stays]
        simp only [List.not_mem_nil, false_iff]
        rintro ⟨-, _, e, less, linked, -⟩
        obtain rfl := Option.some.inj e
        exact stays ⟨less, linked⟩

/-- Where the walk goes on to is of no matter for a write. -/
theorem writePage_goOn (keep : Bool) :
    writePage bdb keep (flushGoOn c next f) = (writePage bdb keep f).map (flushGoOn c next) := by
  unfold writePage
  show (if f.dirty bdb then _ else _) = _
  by_cases dirty : f.dirty bdb = true
  · rw [if_pos dirty, if_pos dirty]
    show Except.map _ (if ¬ keep ∧ ((f.btree.parent bdb).isSome ∨ f.btree.root = some bdb) then
      btcRemove bdb (f.mustWrite bdb) (f.dirty bdb) f.btree else .ok f.btree) = _
    dsimp only
    generalize (if ¬ keep ∧ ((f.btree.parent bdb).isSome ∨ f.btree.root = some bdb) then
      btcRemove bdb (f.mustWrite bdb) (f.dirty bdb) f.btree else .ok f.btree) = removed
    cases removed <;> rfl
  · rw [if_neg dirty, if_neg dirty]
    rfl

theorem writePages_goOn (list : List (Fin n × Bool)) :
    writePages list (flushGoOn c next f) = (writePages list f).map (flushGoOn c next) := by
  induction list generalizing f with
  | nil => rfl
  | cons w list ih =>
    show (writePage w.1 w.2 (flushGoOn c next f)).bind _ = ((writePage w.1 w.2 f).bind _).map _
    rw [writePage_goOn]
    cases writePage w.1 w.2 f with
    | error stop => rfl
    | ok f' => exact ih

theorem flushVisit_goOn : flushVisit c bdb (flushGoOn c next f) =
    (flushVisit c bdb f).map (flushGoOn c next) := by
  unfold flushVisit
  show (if c.page bdb ≤ f.maxSeen then _ else _) = _
  by_cases seen : c.page bdb ≤ f.maxSeen
  · rw [if_pos seen, if_pos seen]
    rfl
  rw [if_neg seen, if_neg seen]
  dsimp only
  show (if ¬ f.dirty bdb then _ else _) = _
  by_cases dirty : ¬ f.dirty bdb = true
  · rw [if_pos dirty, if_pos dirty]
    show Except.map _ (btcRemove bdb (f.mustWrite bdb) (f.dirty bdb) f.btree) = _
    cases btcRemove bdb (f.mustWrite bdb) (f.dirty bdb) f.btree <;> rfl
  rw [if_neg dirty, if_neg dirty]
  by_cases length : c.length bdb ≠ 0
  · rw [if_pos length, if_pos length]
    rfl
  rw [if_neg length, if_neg length]
  by_cases selected : flushSelects c { f with maxSeen := c.page bdb } bdb
  · rw [if_pos selected, if_pos (by exact selected)]
    unfold flushWrite
    dsimp only [flushGoOn]
    cases c.writes f.calls with
    | none => rfl
    | some w =>
      exact writePages_goOn (f := { f with maxSeen := c.page bdb, calls := f.calls + 1 }) _
  · rw [if_neg selected, if_neg (by exact selected)]
    rfl

theorem flushSteps_goOn (rest : List (Fin n)) :
    flushSteps c rest passed (flushGoOn c next f) = flushSteps c rest passed f := by
  induction rest generalizing passed f with
  | nil => rfl
  | cons bdb rest ih =>
    unfold flushSteps
    show (if Linked f.btree bdb ∧ bdb ∉ passed then _ else _) = _
    by_cases comes : Linked f.btree bdb ∧ bdb ∉ passed
    · rw [if_pos comes, if_pos comes, flushVisit_goOn]
      cases flushVisit c bdb f with
      | error stop => rfl
      | ok f' => exact congrArg _ ih
    · rw [if_neg comes, if_neg comes]
      exact ih

theorem flushSteps_cons (comes : Linked f.btree bdb ∧ bdb ∉ passed) (rest : List (Fin n))
    (visit : flushVisit c bdb f = .ok f') : flushSteps c (bdb :: rest) passed f =
      ⟨passedOver c f.btree f'.btree bdb, f'.written⟩ ::
        flushSteps c rest (passedOver c f.btree f'.btree bdb) f' := by
  show (if Linked f.btree bdb ∧ bdb ∉ passed then _ else _) = _
  rw [if_pos comes, visit]

/-- What is out of the tree or passed over makes no step. -/
theorem flushSteps_append {pre : List (Fin n)}
    (none : ∀ x ∈ pre, ¬ (Linked f.btree x ∧ x ∉ passed)) (rest : List (Fin n)) :
    flushSteps c (pre ++ rest) passed f = flushSteps c rest passed f := by
  induction pre with
  | nil => rfl
  | cons x pre ih =>
    show (if Linked f.btree x ∧ x ∉ passed then _ else _) = _
    rw [if_neg (none x List.mem_cons_self)]
    exact ih fun y hy => none y (List.mem_cons_of_mem _ hy)

end

end InterBase.Btc
