import InterBase.EvlAnsiLoops

namespace InterBase

namespace AnsiNod

variable {ι Env : Type} {node : AnsiNod Env}

theorem evlBooleanOf_leaked (record : Env) (request : AnsiRequest ι) (leaked : request.leaked = true) :
    (node.evlBooleanOf record request).2.leaked = true := by
  unfold evlBooleanOf
  cases node.select with
  | none => exact evlCondition_leaked _ _ leaked
  | some select =>
    have hboth := evlCondition_leaked (node.column record)
      { (evlCondition (select record) request).2 with reqNull := false }
      (evlCondition_leaked (select record) request leaked)
    dsimp only
    split
    · exact hboth
    · split
      · exact hboth
      · exact hboth

theorem evlSelect_leaked (record : Env) {request : AnsiRequest ι} (leaked : request.leaked = true) :
    (node.evlSelect record request).2.leaked = true := by
  unfold evlSelect
  cases node.select with
  | none => exact leaked
  | some select => exact evlCondition_leaked _ _ leaked

theorem getNotAny_leaked (records : List Env) {request : AnsiRequest ι}
    (leaked : request.leaked = true) : (node.getNotAny records request).2.leaked = true := by
  induction records generalizing request with
  | nil => exact leaked
  | cons record records ih =>
    have hvalue := node.evlBooleanOf_leaked record request leaked
    unfold getNotAny
    dsimp only
    split
    · exact hvalue
    · cases node.select with
      | none =>
        dsimp only
        split
        · exact hvalue
        · exact ih hvalue
      | some select =>
        have hselect := evlCondition_leaked (select record)
          { (node.evlBooleanOf record request).2 with reqNull := false } hvalue
        have hcolumn := evlCondition_leaked (node.column record)
          { (evlCondition (select record)
              { (node.evlBooleanOf record request).2 with reqNull := false }).2 with
            reqNull := false } hselect
        dsimp only
        split
        · split
          · exact hcolumn
          · exact ih hcolumn
        · exact ih hselect

theorem getAny_leaked (records : List Env) {request : AnsiRequest ι}
    (leaked : request.leaked = true) : (node.getAny records request).2.leaked = true := by
  induction records generalizing request with
  | nil => exact leaked
  | cons record records ih =>
    have hvalue := node.evlBooleanOf_leaked record request leaked
    unfold getAny
    dsimp only
    split
    · exact hvalue
    · exact ih hvalue

theorem getNotAll_leaked (records : List Env) {request : AnsiRequest ι}
    (leaked : request.leaked = true) : (node.getNotAll records request).2.leaked = true := by
  induction records generalizing request with
  | nil => exact leaked
  | cons record records ih =>
    have hvalue := node.evlBooleanOf_leaked record
      { request with reqNull := false } leaked
    have hselect := node.evlSelect_leaked record hvalue
    unfold getNotAll
    dsimp only
    split
    · split
      · exact hselect
      · exact ih hselect
    · exact ih hvalue

theorem getAll_leaked (records : List Env) {request : AnsiRequest ι}
    (leaked : request.leaked = true) : (node.getAll records request).2.leaked = true := by
  induction records generalizing request with
  | nil => exact leaked
  | cons record records ih =>
    have hvalue := node.evlBooleanOf_leaked record
      { request with reqNull := false } leaked
    have hselect := node.evlSelect_leaked record hvalue
    unfold getAll
    dsimp only
    split
    · split
      · exact hselect
      · exact ih hselect
    · exact ih hvalue

theorem getPlain_leaked (flag : Bool) (records : List Env) {request : AnsiRequest ι}
    (leaked : request.leaked = true) : (node.getPlain flag records request).2.leaked = true := by
  induction records generalizing flag request with
  | nil => exact leaked
  | cons record records ih =>
    have hvalue := node.evlBooleanOf_leaked record request leaked
    unfold getPlain
    dsimp only
    split
    · exact hvalue
    · exact ih _ hvalue

theorem getRecord_leaked (records : List Env) {request : AnsiRequest ι}
    (leaked : request.leaked = true) : (node.getRecord records request).2.leaked = true := by
  unfold getRecord
  dsimp only
  split
  · split
    · exact getNotAny_leaked records leaked
    · exact getAny_leaked records leaked
  · split
    · split
      · exact getNotAll_leaked records leaked
      · exact getAll_leaked records leaked
    · exact getPlain_leaked false records leaked

/-- What there is to be found in the stream: a record, for NOT also where the predicate is unknown. -/
def streamValue (node : AnsiNod Env) (env : Env) : Bool :=
  if node.underNot then decide (node.quantified env ≠ .false)
  else decide (node.quantified env = .true)

/-- The loop that belongs to the node takes its flags away. -/
theorem getRecord_clear (env : Env) {request : AnsiRequest ι} (clear : request.flagged = false) :
    node.getRecord (node.records env) (setAnsi node.isAll (setAnsiNot node.underNot request)) =
      (node.streamValue env, { request with reqNull := false }) := by
  obtain ⟨null, any, all, not, impure, leaked, ended⟩ := request
  simp only [AnsiRequest.flagged, Bool.or_eq_false_iff] at clear
  obtain ⟨⟨rfl, rfl⟩, rfl⟩ := clear
  unfold streamValue quantified
  cases hall : node.isAll with
  | false =>
    cases hnot : node.underNot with
    | false => exact getAny_clear _ rfl
    | true => exact getNotAny_clear _ rfl
  | true =>
    cases hnot : node.underNot with
    | false => exact getAll_clear _ rfl
    | true => exact getNotAll_clear _ rfl

theorem streamValue_invariant (invariant : node.nodInvariant = true) (env env' : Env) :
    node.streamValue env = node.streamValue env' := by
  unfold streamValue quantified
  rw [node.records_invariant invariant env env']

/-- `EVL_boolean` of the node, or of the `nod_not` above it. -/
def answer (node : AnsiNod Env) (env : Env) : Bool :=
  if node.underNot then !node.streamValue env else node.streamValue env

theorem answer_eq_true (env : Env) : node.answer env = true ↔ node.sqlTruth env = .true := by
  unfold answer streamValue sqlTruth
  by_cases hnot : node.underNot = true
  · rw [if_pos hnot, if_pos hnot, if_pos hnot, Kleene.not_eq_true]
    simp
  · rw [if_neg hnot, if_neg hnot, if_neg hnot]
    exact decide_eq_true_iff

end AnsiNod

section

variable {ι Env : Type}

theorem setAnsiNot_leaked (underNot : Bool) (request : AnsiRequest ι) :
    (setAnsiNot underNot request).leaked = request.leaked := by
  cases underNot <;> rfl

theorem setAnsiNot_ended (underNot : Bool) (request : AnsiRequest ι) :
    (setAnsiNot underNot request).ended = request.ended := by
  cases underNot <;> rfl

theorem setAnsi_leaked (isAll : Bool) (request : AnsiRequest ι) :
    (setAnsi isAll request).leaked = request.leaked := by
  cases isAll <;> rfl

theorem setAnsi_ended (isAll : Bool) (request : AnsiRequest ι) :
    (setAnsi isAll request).ended = request.ended := by
  cases isAll <;> rfl

theorem setAnsi_flagged (isAll : Bool) (request : AnsiRequest ι) :
    (setAnsi isAll request).flagged = true := by
  unfold setAnsi AnsiRequest.flagged
  cases isAll with
  | false => simp
  | true => simp

theorem evlNot_request (value : Bool × AnsiRequest ι) : (evlNot value).2 = value.2 := by
  unfold evlNot
  split
  · rfl
  · rfl

variable [DecidableEq ι]

theorem enterNode_leaked {request : AnsiRequest ι} (i : ι) (leaked : request.leaked = true) :
    (request.enterNode i).leaked = true := by
  unfold AnsiRequest.enterNode
  dsimp only
  rw [leaked, Bool.true_or]

/-- The flags of another node are still set. -/
theorem enterNode_flagged {request : AnsiRequest ι} {i : ι} (flagged : request.flagged = true)
    (other : request.ended ≠ some i) : (request.enterNode i).leaked = true := by
  unfold AnsiRequest.enterNode
  dsimp only
  rw [flagged, decide_eq_true other, Bool.true_and, Bool.or_true]

theorem enterNode_clear {request : AnsiRequest ι} (i : ι) (clear : request.flagged = false) :
    request.enterNode i = { request with ended := none } := by
  unfold AnsiRequest.enterNode
  rw [clear, Bool.false_and, Bool.or_false]

theorem evlAnsiStream_leaked (nodes : ι → AnsiNod Env) (i : ι) (env : Env) {request : AnsiRequest ι}
    (leaked : request.leaked = true) : (evlAnsiStream nodes i env request).2.leaked = true := by
  have hrecord := (nodes i).getRecord_leaked ((nodes i).records env) leaked
  unfold evlAnsiStream
  dsimp only
  split
  · exact hrecord
  · exact hrecord

variable {nodes : ι → AnsiNod Env}

mutual

theorem evlAnsi_leaked (i : ι) (env : Env) (opened : List (AnsiEval ι Env)) (request : AnsiRequest ι)
    (entered : (request.enterNode i).leaked = true) :
    (evlAnsi nodes (.mk i env opened) request).2.leaked = true := by
  have hnot : (setAnsiNot (nodes i).underNot (request.enterNode i)).leaked = true :=
    (setAnsiNot_leaked _ _).trans entered
  unfold evlAnsi
  dsimp only
  cases computedAnsi nodes i (setAnsiNot (nodes i).underNot (request.enterNode i)) with
  | some computed =>
    split
    · rw [evlNot_request]
      exact hnot
    · exact hnot
  | none =>
    have hopen := rseOpenAnsi_leaked opened
      (setAnsi (nodes i).isAll (setAnsiNot (nodes i).underNot (request.enterNode i)))
      ((setAnsi_leaked _ _).trans hnot)
    have hstream := evlAnsiStream_leaked nodes i env hopen
    split
    · rw [evlNot_request]
      exact hstream
    · exact hstream

theorem rseOpenAnsi_leaked (opened : List (AnsiEval ι Env)) (request : AnsiRequest ι)
    (leaked : request.leaked = true) : (rseOpenAnsi nodes opened request).leaked = true := by
  match opened with
  | [] =>
    unfold rseOpenAnsi
    exact leaked
  | .mk i env inner :: opened =>
    unfold rseOpenAnsi
    exact rseOpenAnsi_leaked opened _ (evlAnsi_leaked i env inner request (enterNode_leaked i leaked))

end

/-- Evaluations one behind the other, with whatever null flag there is before each: each of them
answers as its predicate has it, and no flag is set for another node when something is evaluated. -/
def AnsiFollowsSql (nodes : ι → AnsiNod Env) : List (Bool × AnsiEval ι Env) → AnsiRequest ι → Prop
  | [], _ => True
  | (null, .mk i env opened) :: run, request =>
    let value := evlAnsi nodes (.mk i env opened) { request with reqNull := null }
    (value.1 = true ↔ (nodes i).sqlTruth env = .true) ∧ value.2.leaked = false ∧
      AnsiFollowsSql nodes run value.2

def AnsiEval.node : AnsiEval ι Env → ι
  | .mk i _ _ => i

/-- After an invariant node below a NOT has been evaluated a second time, no other one is, and where a
stream is opened, that evaluates no other node. `computed` are the nodes that were evaluated. -/
def AnsiSpared (nodes : ι → AnsiNod Env) : List ι → List (Bool × AnsiEval ι Env) → Prop
  | _, [] => True
  | computed, (_, .mk i _ opened) :: run =>
    (if (nodes i).nodInvariant = true ∧ i ∈ computed then
        (nodes i).underNot = true → ∀ step ∈ run, step.2.node = i
      else opened = []) ∧ AnsiSpared nodes (i :: computed) run

/-- The request when nothing was evaluated yet. -/
def ansiStarted (ι : Type) : AnsiRequest ι :=
  ⟨false, false, false, false, fun _ => none, false, none⟩

/-- Between two evaluations. -/
structure AnsiClear (nodes : ι → AnsiNod Env) (computed : List ι) (request : AnsiRequest ι) : Prop where
  flagged : request.flagged = false
  leaked : request.leaked = false
  fresh : ∀ i, (nodes i).nodInvariant = true → i ∉ computed → request.impure i = none
  kept : ∀ i env, (nodes i).nodInvariant = true → i ∈ computed →
    request.impure i = some ((nodes i).streamValue env, false)

/-- After the second evaluation of an invariant node below a NOT: its flag is still set. -/
structure AnsiHeld (nodes : ι → AnsiNod Env) (i : ι) (request : AnsiRequest ι) : Prop where
  flagged : request.flagged = true
  leaked : request.leaked = false
  ended : request.ended = some i
  invariant : (nodes i).nodInvariant = true
  underNot : (nodes i).underNot = true
  kept : ∀ env, request.impure i = some ((nodes i).streamValue env, false)

omit [DecidableEq ι] in
theorem ansiStarted_clear : AnsiClear nodes [] (ansiStarted ι) :=
  ⟨rfl, rfl, fun _ _ _ => rfl, fun _ _ _ mem => absurd mem List.not_mem_nil⟩

variable {computed : List ι} {request : AnsiRequest ι}

omit [DecidableEq ι] in
theorem computedAnsi_setAnsiNot (i : ι) :
    computedAnsi nodes i (setAnsiNot (nodes i).underNot request) = computedAnsi nodes i request := by
  unfold computedAnsi setAnsiNot
  cases (nodes i).underNot <;> rfl

omit [DecidableEq ι] in
/-- The null flag and the ghost of the last evaluation are of no matter. -/
theorem AnsiClear.also (clear : AnsiClear nodes computed request) (null : Bool) (ended : Option ι) :
    AnsiClear nodes computed { request with reqNull := null, ended := ended } :=
  ⟨clear.flagged, clear.leaked, clear.fresh, clear.kept⟩

theorem AnsiClear.computedAnsi_none (clear : AnsiClear nodes computed request) {i : ι}
    (fresh : ¬ ((nodes i).nodInvariant = true ∧ i ∈ computed)) :
    computedAnsi nodes i (setAnsiNot (nodes i).underNot (request.enterNode i)) = none := by
  rw [computedAnsi_setAnsiNot, enterNode_clear i clear.flagged]
  unfold computedAnsi
  by_cases invariant : (nodes i).nodInvariant = true
  · rw [if_pos invariant]
    exact clear.fresh i invariant fun mem => fresh ⟨invariant, mem⟩
  · rw [if_neg invariant]

theorem evlAnsiStream_clear (clear : AnsiClear nodes computed request) (i : ι) (env : Env) :
    ∃ request', evlAnsiStream nodes i env
        (setAnsi (nodes i).isAll (setAnsiNot (nodes i).underNot request)) =
          ((nodes i).streamValue env, request') ∧
      request'.reqNull = false ∧ AnsiClear nodes (i :: computed) request' := by
  unfold evlAnsiStream
  rw [AnsiNod.getRecord_clear env clear.flagged]
  dsimp only
  by_cases invariant : (nodes i).nodInvariant = true
  · rw [if_pos invariant]
    refine ⟨_, rfl, rfl, clear.flagged, clear.leaked, fun k hk fresh => ?_, fun k env' hk mem => ?_⟩
    · have hne : k ≠ i := fun h => fresh (by rw [h]; exact List.mem_cons_self)
      dsimp only
      rw [Function.update_of_ne hne]
      exact clear.fresh k hk fun mem => fresh (List.mem_cons_of_mem i mem)
    · dsimp only
      by_cases hne : k = i
      · rw [hne, Function.update_self, (nodes i).streamValue_invariant invariant env env']
      · rw [Function.update_of_ne hne]
        exact clear.kept k env' hk (List.mem_of_ne_of_mem hne mem)
  · rw [if_neg invariant]
    refine ⟨_, rfl, rfl, clear.flagged, clear.leaked, fun k hk fresh => ?_, fun k env' hk mem => ?_⟩
    · exact clear.fresh k hk fun mem => fresh (List.mem_cons_of_mem i mem)
    · have hne : k ≠ i := fun h => invariant (h ▸ hk)
      exact clear.kept k env' hk (List.mem_of_ne_of_mem hne mem)

/-- The value is computed. -/
theorem evlAnsi_fresh (clear : AnsiClear nodes computed request) {i : ι} (env : Env)
    (fresh : ¬ ((nodes i).nodInvariant = true ∧ i ∈ computed)) :
    ∃ request', evlAnsi nodes (.mk i env []) request = ((nodes i).answer env, request') ∧
      AnsiClear nodes (i :: computed) request' := by
  obtain ⟨request', hstream, hnull, hclear⟩ :=
    evlAnsiStream_clear (clear.also request.reqNull none) i env
  refine ⟨request'.endNode i, ?_, hclear.also request'.reqNull (some i)⟩
  unfold evlAnsi rseOpenAnsi
  dsimp only
  rw [clear.computedAnsi_none fresh, enterNode_clear i clear.flagged]
  dsimp only
  rw [hstream]
  have hnull' : (request'.endNode i).reqNull = false := hnull
  unfold AnsiNod.answer evlNot
  dsimp only
  rw [hnull']
  by_cases hnot : (nodes i).underNot = true
  · rw [if_pos hnot, if_pos hnot]
    rfl
  · rw [if_neg hnot, if_neg hnot]

/-- The value of before. -/
theorem evlAnsi_kept (request : AnsiRequest ι) {i : ι} (env : Env) (opened : List (AnsiEval ι Env))
    (invariant : (nodes i).nodInvariant = true)
    (kept : request.impure i = some ((nodes i).streamValue env, false)) :
    evlAnsi nodes (.mk i env opened) request = ((nodes i).answer env,
      ({ setAnsiNot (nodes i).underNot (request.enterNode i) with reqNull := false }).endNode i) := by
  have computed : computedAnsi nodes i (setAnsiNot (nodes i).underNot (request.enterNode i)) =
      some ((nodes i).streamValue env, false) := by
    rw [computedAnsi_setAnsiNot]
    unfold computedAnsi
    rw [if_pos invariant]
    exact kept
  unfold evlAnsi
  dsimp only
  rw [computed]
  dsimp only
  rw [Bool.and_false]
  unfold AnsiNod.answer evlNot
  by_cases hnot : (nodes i).underNot = true
  · rw [if_pos hnot, if_pos hnot]
    rfl
  · rw [if_neg hnot, if_neg hnot]

/-- The flag of the NOT stays. -/
theorem AnsiHeld.of_kept (request : AnsiRequest ι) {i : ι} (invariant : (nodes i).nodInvariant = true)
    (underNot : (nodes i).underNot = true) (entered : (request.enterNode i).leaked = false)
    (kept : ∀ env, request.impure i = some ((nodes i).streamValue env, false)) :
    AnsiHeld nodes i
      (({ setAnsiNot (nodes i).underNot (request.enterNode i) with reqNull := false }).endNode i) := by
  refine ⟨?_, (setAnsiNot_leaked _ _).trans entered, rfl, invariant, underNot, fun env => ?_⟩
  · rw [underNot]
    exact Bool.or_true _
  · rw [underNot]
    exact kept env

/-- Opening the stream evaluates another node, while the flags are set for this one. -/
theorem evlAnsi_opened (clear : AnsiClear nodes computed request) {i : ι} (env : Env)
    (eval : AnsiEval ι Env) (opened : List (AnsiEval ι Env))
    (fresh : ¬ ((nodes i).nodInvariant = true ∧ i ∈ computed)) :
    (evlAnsi nodes (.mk i env (eval :: opened)) request).2.leaked = true := by
  have hended : (setAnsi (nodes i).isAll
      (setAnsiNot (nodes i).underNot (request.enterNode i))).ended = none :=
    (setAnsi_ended _ _).trans (setAnsiNot_ended _ _)
  have hopen : (rseOpenAnsi nodes (eval :: opened)
      (setAnsi (nodes i).isAll (setAnsiNot (nodes i).underNot (request.enterNode i)))).leaked =
        true := by
    obtain ⟨j, env', inner⟩ := eval
    unfold rseOpenAnsi
    refine rseOpenAnsi_leaked opened _ (evlAnsi_leaked j env' inner _ ?_)
    refine enterNode_flagged (setAnsi_flagged _ _) ?_
    rw [hended]
    exact (Option.some_ne_none j).symm
  have hstream := evlAnsiStream_leaked nodes i env hopen
  unfold evlAnsi
  dsimp only
  rw [clear.computedAnsi_none fresh]
  dsimp only
  split
  · rw [evlNot_request]
    exact hstream
  · exact hstream

omit [DecidableEq ι] in
theorem AnsiClear.again (clear : AnsiClear nodes computed request) {i : ι} (mem : i ∈ computed) :
    AnsiClear nodes (i :: computed) request := by
  refine ⟨clear.flagged, clear.leaked, fun k hk fresh => ?_, fun k env hk hmem => ?_⟩
  · exact clear.fresh k hk fun h => fresh (List.mem_cons_of_mem i h)
  · rcases List.mem_cons.mp hmem with rfl | hmem
    · exact clear.kept k env hk mem
    · exact clear.kept k env hk hmem

/-- While the flag of a node is set, only this node can be evaluated without a leak. -/
theorem AnsiHeld.followsSql_iff {i : ι} (run : List (Bool × AnsiEval ι Env))
    (held : AnsiHeld nodes i request) :
    AnsiFollowsSql nodes run request ↔ ∀ step ∈ run, step.2.node = i := by
  induction run generalizing request with
  | nil => exact ⟨fun _ _ mem => absurd mem List.not_mem_nil, fun _ => trivial⟩
  | cons step run ih =>
    obtain ⟨null, j, env, opened⟩ := step
    unfold AnsiFollowsSql
    dsimp only
    rw [List.forall_mem_cons]
    by_cases same : j = i
    · obtain rfl := same
      have entered : (AnsiRequest.enterNode j { request with reqNull := null }).leaked = false := by
        unfold AnsiRequest.enterNode
        dsimp only
        rw [held.leaked, held.ended]
        simp
      rw [evlAnsi_kept { request with reqNull := null } env opened held.invariant (held.kept env)]
      have held' := AnsiHeld.of_kept _ held.invariant held.underNot entered held.kept
      constructor
      · intro h
        exact ⟨rfl, (ih held').mp h.2.2⟩
      · intro h
        exact ⟨(nodes j).answer_eq_true env, held'.leaked, (ih held').mpr h.2⟩
    · have leaked : (evlAnsi nodes (.mk j env opened) { request with reqNull := null }).2.leaked =
          true := by
        refine evlAnsi_leaked j env opened _ (enterNode_flagged held.flagged ?_)
        show request.ended ≠ some j
        rw [held.ended]
        exact fun h => same (Option.some.inj h).symm
      constructor
      · intro h
        exact absurd (h.2.1.symm.trans leaked) Bool.false_ne_true
      · intro h
        exact absurd h.1 same

omit [DecidableEq ι] in
/-- Evaluations of one invariant node that has its value open nothing. -/
theorem ansiSpared_same [DecidableEq ι] {i : ι} (invariant : (nodes i).nodInvariant = true)
    (mem : i ∈ computed) (run : List (Bool × AnsiEval ι Env)) (same : ∀ step ∈ run, step.2.node = i) :
    AnsiSpared nodes computed run := by
  induction run generalizing computed with
  | nil => trivial
  | cons step run ih =>
    obtain ⟨null, j, env, opened⟩ := step
    rw [List.forall_mem_cons] at same
    obtain rfl : j = i := same.1
    unfold AnsiSpared
    rw [if_pos ⟨invariant, mem⟩]
    exact ⟨fun _ => same.2, ih (List.mem_cons_of_mem j mem) same.2⟩

theorem ansiFollowsSql_iff_spared (run : List (Bool × AnsiEval ι Env))
    (clear : AnsiClear nodes computed request) :
    AnsiFollowsSql nodes run request ↔ AnsiSpared nodes computed run := by
  induction run generalizing computed request with
  | nil => exact Iff.rfl
  | cons step run ih =>
    obtain ⟨null, i, env, opened⟩ := step
    have clear' := clear.also null request.ended
    unfold AnsiFollowsSql AnsiSpared
    dsimp only
    by_cases kept : (nodes i).nodInvariant = true ∧ i ∈ computed
    · rw [if_pos kept, evlAnsi_kept { request with reqNull := null } env opened kept.1
        (clear.kept i env kept.1 kept.2)]
      have entered : AnsiRequest.enterNode i { request with reqNull := null } =
          { request with reqNull := null, ended := none } := enterNode_clear i clear.flagged
      cases hnot : (nodes i).underNot with
      | true =>
        have held := AnsiHeld.of_kept { request with reqNull := null } kept.1 hnot
          (by rw [entered]; exact clear.leaked) fun env => clear.kept i env kept.1 kept.2
        rw [hnot] at held
        constructor
        · intro h
          have same := (held.followsSql_iff run).mp h.2.2
          exact ⟨fun _ => same, ansiSpared_same kept.1 List.mem_cons_self run same⟩
        · intro h
          exact ⟨(nodes i).answer_eq_true env, held.leaked,
            (held.followsSql_iff run).mpr (h.1 rfl)⟩
      | false =>
        have clear₂ : AnsiClear nodes (i :: computed) (AnsiRequest.endNode i
            { setAnsiNot false (AnsiRequest.enterNode i { request with reqNull := null }) with
              reqNull := false }) := by
          rw [entered]
          exact (clear.also false (some i)).again kept.2
        have hrun := ih clear₂
        constructor
        · intro h
          exact ⟨fun e => absurd e Bool.false_ne_true, hrun.mp h.2.2⟩
        · intro h
          exact ⟨(nodes i).answer_eq_true env, clear₂.leaked, hrun.mpr h.2⟩
    · rw [if_neg kept]
      cases opened with
      | nil =>
        obtain ⟨request', heval, hclear⟩ := evlAnsi_fresh clear' env kept
        rw [heval]
        have hrun := ih hclear
        constructor
        · intro h
          exact ⟨rfl, hrun.mp h.2.2⟩
        · intro h
          exact ⟨(nodes i).answer_eq_true env, hclear.leaked, hrun.mpr h.2⟩
      | cons eval opened =>
        constructor
        · intro h
          exact absurd (h.2.1.symm.trans (evlAnsi_opened clear' env eval opened kept))
            Bool.false_ne_true
        · intro h
          exact absurd h.1 (List.cons_ne_nil eval opened)

end

/-- `NOT 5 = ANY (...)` with no equal column, and `T.X = ANY (...)` with a null. -/
def ansiExample (i : Bool) : AnsiNod Kleene where
  isAll := false
  underNot := i
  nodInvariant := i
  select := none
  column := id
  records := fun _ => [if i then .false else .unknown]
  records_invariant := fun _ _ _ => rfl

-- The second time, the comparison with a null is taken for true.
example :
    let first := evlAnsi ansiExample (.mk true .true []) (ansiStarted Bool)
    let second := evlAnsi ansiExample (.mk false .true []) first.2
    let third := evlAnsi ansiExample (.mk true .true []) second.2
    second.1 = false ∧ (evlAnsi ansiExample (.mk false .true []) third.2).1 = true := by decide

end InterBase
