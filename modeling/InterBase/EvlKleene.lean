import Mathlib.Tactic.Common
import InterBase.EvlBoolean

namespace InterBase

section

variable {Env α : Type} {movCompare : α → α → Int} {invariantTruth : Nat → Kleene} {kept : Bool}
  {known : Nat → Bool}

section

-- The equations of these are made here, once, and not while the proofs wait for them.
attribute [local simp] evlBoolean truth

end

theorem evl_bind {β γ : Type} (a : β) (f : β → Except EvlFault γ) : (Except.ok a >>= f) = f a := rfl

/-- The answer is the truth value, and what it leaves behind is as it should be: the null flag, unless
that is behind `TRUE` and not `kept`, and the invariant nodes that have been computed. -/
def Right (invariantTruth : Nat → Kleene) (kept : Bool) (known : Nat → Bool)
    (evaluated : Except EvlFault (Bool × EvlRequest)) (t : Kleene) : Prop :=
  ∃ request, evaluated = .ok (decide (t = .true), request) ∧
    ((t = .true → kept = true) → request.reqNull = decide (t = .unknown)) ∧
    request.Ready invariantTruth ∧ request.known = known

/-- The null flag is right in either case. -/
theorem Right.of_null {evaluated : Except EvlFault (Bool × EvlRequest)} {t : Kleene}
    {request : EvlRequest} (eq : evaluated = .ok (decide (t = .true), request))
    (null : request.reqNull = decide (t = .unknown)) (ready : request.Ready invariantTruth) :
    Right invariantTruth kept request.known evaluated t :=
  ⟨request, eq, fun _ => null, ready, rfl⟩

theorem Evaluated.value_cases (v : Evaluated α) :
    (v.null = true ∧ v.value = none) ∨ ∃ x, v.null = false ∧ v.desc = some x ∧ v.value = some x := by
  unfold Evaluated.value
  cases null : v.null with
  | true => exact .inl ⟨rfl, rfl⟩
  | false =>
    obtain ⟨x, desc⟩ := Option.isSome_iff_exists.mp (v.valued null)
    exact .inr ⟨x, rfl, desc, by rw [if_neg Bool.false_ne_true, desc]⟩

theorem evlArguments_spec (movCompare : α → α → Int) (first second : Expr Env α) (env : Env) (request : EvlRequest) :
    ∃ request', evlArguments movCompare first second env request =
        .ok (comparisonOf movCompare first second env, request') ∧
      request'.reqNull = (comparisonOf movCompare first second env).isNone ∧
      request'.impure = request.impure := by
  unfold evlArguments comparisonOf
  rcases (first.evaluate env).value_cases with ⟨null0, value0⟩ | ⟨x, null0, desc0, value0⟩
  · rw [value0]
    exact ⟨_, if_pos (by simp [evlExpr, null0]), rfl, rfl⟩
  · rcases (second.evaluate env).value_cases with ⟨null1, value1⟩ | ⟨y, null1, desc1, value1⟩
    · rw [value0, value1]
      exact ⟨_, if_pos (by simp [evlExpr, null1]), rfl, rfl⟩
    · rw [value0, value1, desc0, desc1]
      let request0 := evlExpr first env { request with reqSameTxUpd := false }
      let request1 := evlExpr second env { request0 with reqNull := false, reqCloneData := false }
      have valued : ¬(request0.reqNull || request1.reqNull) = true := by
        simp [request0, request1, evlExpr, null0, null1]
      refine ⟨{ request1 with reqNull := false, reqSameTxUpd := false },
        (if_neg valued).trans ?_, rfl, rfl⟩
      simp [request0, request1, evlExpr, compareDescriptors]

theorem judged_eq_true {op : Comparison} {comparison : Option Int} :
    judged op comparison = .true ↔ comparison.elim false op.holds = true := by
  cases comparison with
  | none => simp [judged]
  | some c => simp [judged]

theorem judged_eq_unknown {op : Comparison} {comparison : Option Int} :
    judged op comparison = .unknown ↔ comparison = none := by
  cases comparison with
  | none => simp [judged]
  | some c => simp [judged]

theorem judged_some (op : Comparison) (c : Int) : judged op (some c) = .ofBool (op.holds c) := rfl

theorem EvlRequest.Ready.congr {request request' : EvlRequest} (ready : request.Ready invariantTruth)
    (same : request'.impure = request.impure) : request'.Ready invariantTruth := by
  unfold EvlRequest.Ready
  rw [same]
  exact ready

theorem EvlRequest.known_congr {request request' : EvlRequest}
    (same : request'.impure = request.impure) : request'.known = request.known := by
  funext offset
  unfold EvlRequest.known
  rw [same]

theorem comparison_right (op : Comparison) (first second : Expr Env α) (env : Env)
    {request : EvlRequest} (ready : request.Ready invariantTruth) :
    Right invariantTruth kept request.known
      (evlBoolean movCompare (.comparison op first second) env request)
      (truth movCompare (.comparison op first second) env) := by
  obtain ⟨request', eq, null, impure⟩ :=
    evlArguments_spec movCompare first second env request
  rw [← EvlRequest.known_congr impure]
  refine .of_null ?_ ?_ (ready.congr impure)
  · rw [evlBoolean, eq, evl_bind, truth]
    simp only [judged_eq_true, Bool.decide_eq_true]
    rfl
  · rw [null, truth]
    simp only [judged_eq_unknown]
    cases comparisonOf movCompare first second env <;> rfl

theorem missing_right (value : Expr Env α) (env : Env) {request : EvlRequest}
    (ready : request.Ready invariantTruth) :
    Right invariantTruth kept request.known (evlBoolean movCompare (.missing value) env request)
      (truth movCompare (.missing value) env) := by
  rw [evlBoolean, truth]
  cases null : (value.evaluate env).null with
  | true => exact ⟨_, if_pos null, fun _ => rfl, ready, rfl⟩
  | false =>
    have valued : ¬(evlExpr value env request).reqNull = true := by simp [evlExpr, null]
    exact ⟨_, (if_neg valued).trans (if_neg Bool.false_ne_true), fun _ => null, ready, rfl⟩

theorem comparisonOf_some {first second : Expr Env α} {env : Env} {c : Int}
    (compared : comparisonOf movCompare first second env = some c) :
    ∃ x, (first.evaluate env).desc = some x ∧ (first.evaluate env).value = some x := by
  rcases (first.evaluate env).value_cases with ⟨-, value⟩ | ⟨x, -, desc, value⟩
  · unfold comparisonOf at compared
    rw [value] at compared
    cases compared
  · exact ⟨x, desc, value⟩

theorem between_right {value lower upper : Expr Env α} {env : Env}
    (sound : ¬Misjudged movCompare value lower upper env) {request : EvlRequest}
    (ready : request.Ready invariantTruth) :
    Right invariantTruth kept request.known
      (evlBoolean movCompare (.between value lower upper) env request)
      (truth movCompare (.between value lower upper) env) := by
  obtain ⟨request', eq, null, impure⟩ :=
    evlArguments_spec movCompare value lower env request
  have ready' := ready.congr impure
  rw [← EvlRequest.known_congr impure]
  rw [evlBoolean, eq, evl_bind, truth]
  unfold Misjudged at sound
  cases compared : comparisonOf movCompare value lower env with
  | none =>
    rw [compared] at sound null
    have upperTrue : judged .leq (upperComparison movCompare value upper env) ≠ .false :=
      fun below => sound (.inl ⟨rfl, below⟩)
    have unknown := Kleene.and_unknown_left _ upperTrue
    refine ⟨request', ?_, fun _ => ?_, ready', rfl⟩
    · rw [show judged .geq none = Kleene.unknown from rfl, unknown]
      rfl
    · rw [show judged .geq none = Kleene.unknown from rfl, unknown, null]
      rfl
  | some c =>
    rw [compared] at sound null
    obtain ⟨x, desc, valueX⟩ := comparisonOf_some compared
    by_cases reached : Comparison.geq.holds c = true
    · have geq : judged .geq (some c) = .true := judged_eq_true.mpr reached
      rw [geq]
      unfold upperComparison
      rw [valueX, desc]
      simp only [Option.elim_some, reached, if_true]
      rcases (upper.evaluate env).value_cases with ⟨nullU, valueU⟩ | ⟨y, nullU, descU, valueU⟩
      · have above : ∃ stale, (upper.evaluate env).desc = some stale ∧ 0 < movCompare x stale := by
          by_contra none
          refine sound (.inr ⟨geq, nullU, fun x' stale descX descS => ?_⟩)
          rw [desc] at descX
          rw [← Option.some.inj descX]
          exact Int.not_lt.mp fun positive => none ⟨stale, descS, positive⟩
        obtain ⟨stale, descS, positive⟩ := above
        refine ⟨evlExpr upper env request', ?_, fun _ => ?_, ready', rfl⟩
        · have past : Comparison.leq.holds (movCompare x stale) = false :=
            decide_eq_false (by omega)
          rw [descS, valueU, compareDescriptors, evl_bind, past]
          rfl
        · rw [valueU]
          exact nullU
      · refine ⟨evlExpr upper env request', ?_, fun _ => ?_, ready', rfl⟩
        · rw [descU, valueU, Kleene.true_and, compareDescriptors, evl_bind, Option.bind_some,
            Option.map_some, judged_some, Kleene.decide_ofBool]
          rfl
        · rw [valueU, Kleene.true_and, Option.bind_some, Option.map_some, judged_some,
            decide_eq_false (Kleene.ofBool_ne_unknown _)]
          exact nullU
    · have geq : judged .geq (some c) = .false := by
        simp [judged, reached]
      rw [geq]
      refine ⟨request', ?_, fun _ => ?_, ready', rfl⟩
      · simp only [Option.elim_some, reached]
        rfl
      · exact null

theorem between_wrong {value lower upper : Expr Env α} {env : Env}
    (misjudged : Misjudged movCompare value lower upper env) (request : EvlRequest) :
    ¬Answers (evlBoolean movCompare (.between value lower upper) env request)
      (truth movCompare (.between value lower upper) env) := by
  rintro ⟨answer, after, evaluated, isTrue, isUnknown⟩
  obtain ⟨request', eq, null, -⟩ :=
    evlArguments_spec movCompare value lower env request
  rw [evlBoolean, eq, evl_bind] at evaluated
  rw [truth] at isTrue isUnknown
  rcases misjudged with ⟨compared, above⟩ | ⟨reached, nullU, stale⟩
  · rw [compared] at evaluated null isUnknown
    rw [above] at isUnknown
    obtain ⟨rfl, rfl⟩ := Prod.mk.inj (Except.ok.inj evaluated)
    have unknown := (isUnknown id).mp null
    cases unknown
  · cases compared : comparisonOf movCompare value lower env with
    | none =>
      rw [compared] at reached
      cases reached
    | some c =>
      rw [compared] at evaluated reached isTrue
      obtain ⟨x, descX, valueX⟩ := comparisonOf_some compared
      have upperNull : upperComparison movCompare value upper env = none := by
        unfold upperComparison
        rcases (upper.evaluate env).value_cases with ⟨-, valueU⟩ | ⟨y, nullY, -⟩
        · rw [valueX, valueU]
          rfl
        · rw [nullU] at nullY
          cases nullY
      rw [upperNull, reached] at isTrue
      have holds := judged_eq_true.mp reached
      rw [if_pos holds, descX] at evaluated
      cases descU : (upper.evaluate env).desc with
      | none =>
        rw [descU] at evaluated
        cases evaluated
      | some y =>
        have leq : Comparison.leq.holds (movCompare x y) = true :=
          decide_eq_true (stale x y descX descU)
        rw [descU, compareDescriptors, evl_bind, leq] at evaluated
        obtain ⟨rfl, rfl⟩ := Prod.mk.inj (Except.ok.inj evaluated)
        have true := isTrue.mp rfl
        cases true

theorem and_right {first second : Nod Env α} {env : Env} {request : EvlRequest}
    {known₁ known₂ : Nat → Bool}
    (rightFirst : Right invariantTruth false known₁ (evlBoolean movCompare first env request)
      (truth movCompare first env))
    (rightSecond : ∀ request : EvlRequest, request.Ready invariantTruth → request.known = known₁ →
      request.reqNull = false → Right invariantTruth false known₂
        (evlBoolean movCompare second env request) (truth movCompare second env)) :
    Right invariantTruth kept known₂ (evlBoolean movCompare (.and first second) env request)
      (truth movCompare (.and first second) env) := by
  obtain ⟨request1, eq1, null1, ready1, same1⟩ := rightFirst
  obtain ⟨request2, eq2, null2, ready2, same2⟩ :=
    rightSecond { request1 with reqNull := false } ready1 same1 rfl
  rw [evlBoolean, eq1, evl_bind, eq2, evl_bind, truth]
  cases t1 : truth movCompare first env <;> cases t2 : truth movCompare second env <;>
    simp only [t1, t2, reduceCtorEq, false_implies, true_implies, Bool.false_eq_true, decide_false,
      decide_true] at null1 null2 <;>
    simp only [null1, null2] <;> exact ⟨_, rfl, fun _ => rfl, ready2, same2⟩

theorem or_right {first second : Nod Env α} {env : Env} {request : EvlRequest}
    {known₁ known₂ : Nat → Bool}
    (rightFirst : Right invariantTruth false known₁ (evlBoolean movCompare first env request)
      (truth movCompare first env))
    (rightSecond : ∀ request : EvlRequest, request.Ready invariantTruth → request.known = known₁ →
      request.reqNull = false → Right invariantTruth false known₂
        (evlBoolean movCompare second env request) (truth movCompare second env)) :
    Right invariantTruth kept known₂ (evlBoolean movCompare (.or first second) env request)
      (truth movCompare (.or first second) env) := by
  obtain ⟨request1, eq1, null1, ready1, same1⟩ := rightFirst
  obtain ⟨request2, eq2, null2, ready2, same2⟩ :=
    rightSecond { request1 with reqNull := false } ready1 same1 rfl
  rw [evlBoolean, eq1, evl_bind, eq2, evl_bind, truth]
  cases t1 : truth movCompare first env <;> cases t2 : truth movCompare second env <;>
    simp only [t1, t2, reduceCtorEq, false_implies, true_implies, Bool.false_eq_true, decide_false,
      decide_true] at null1 null2 <;>
    simp only [null1, null2] <;> exact ⟨_, rfl, fun _ => rfl, ready2, same2⟩

theorem not_right {node : Nod Env α} {env : Env} {request : EvlRequest}
    (right : Right invariantTruth true known (evlBoolean movCompare node env request)
      (truth movCompare node env)) :
    Right invariantTruth kept known (evlBoolean movCompare (.not node) env request)
      (truth movCompare (.not node) env) := by
  obtain ⟨request1, eq1, null1, ready1, same1⟩ := right
  have null1 := null1 fun _ => rfl
  rw [evlBoolean, eq1, evl_bind, null1, truth]
  cases t : truth movCompare node env with
  | unknown =>
    rw [t] at null1
    exact ⟨_, rfl, fun _ => null1, ready1, same1⟩
  | true =>
    rw [t] at null1
    exact ⟨_, rfl, fun _ => null1, ready1, same1⟩
  | false =>
    rw [t] at null1
    exact ⟨_, rfl, fun _ => null1, ready1, same1⟩

section

variable {judge : Env → Kleene} {test : Env → EvlRequest → Except EvlFault (Bool × EvlRequest)}

theorem countP_recordsAfter (records : List Env) :
    records.countP (fun record => judge record = .true) =
      (recordsAfter judge records).elim 0 fun rest =>
        rest.countP (fun record => judge record = .true) + 1 := by
  induction records with
  | nil => rfl
  | cons record records ih =>
    unfold recordsAfter
    by_cases t : judge record = .true
    · rw [if_pos t, List.countP_cons_of_pos (by simpa using t)]
      rfl
    · rw [if_neg t, List.countP_cons_of_neg (by simpa using t), ih]

section

variable {sound : Bool → (Nat → Bool) → Env → Prop} {learnt : Env → (Nat → Bool) → Nat → Bool}

/-- What is read is the truth of the stream's boolean, and the null flag afterwards. -/
theorem getRecord_spec {records : List Env} {null : Bool}
    (rows : RowsSound sound learnt judge null known records)
    (right : ∀ record null known, sound null known record → ∀ request : EvlRequest,
      request.Ready invariantTruth → request.reqNull = null → request.known = known →
      Right invariantTruth true (learnt record known) (test record request) (judge record))
    (flag : Bool)
    {request : EvlRequest} (ready : request.Ready invariantTruth) (before : request.reqNull = null)
    (same : request.known = known) :
    ∃ request', getRecord test flag records request = .ok (recordsAfter judge records, request') ∧
      request'.reqNull = (flag || nullAfter judge null records) ∧
      request'.Ready invariantTruth ∧
      request'.known =
        (recordsRead judge records).foldl (fun known record => learnt record known) known := by
  induction records generalizing flag null known request with
  | nil =>
    refine ⟨{ request with reqNull := flag || request.reqNull }, rfl, ?_, ready, same⟩
    show (flag || request.reqNull) = (flag || null)
    rw [before]
  | cons record records ih =>
    obtain ⟨here, later⟩ := rows
    obtain ⟨request1, eq1, null1, ready1, same1⟩ := right record null known here request ready before same
    have null1 := null1 fun _ => rfl
    unfold getRecord recordsAfter nullAfter recordsRead
    rw [eq1, evl_bind]
    cases t : judge record with
    | true =>
      rw [t] at null1
      refine ⟨{ request1 with reqNull := flag || request1.reqNull }, rfl, ?_, ready1, same1⟩
      show (flag || request1.reqNull) = _
      rw [null1]
      rfl
    | unknown =>
      rw [t] at null1 later
      obtain ⟨request2, eq2, null2, ready2, same2⟩ :=
        ih (later (by simp)) (flag || request1.reqNull) ready1 null1 same1
      refine ⟨request2, eq2, ?_, ready2, same2⟩
      rw [null2, null1]
      simp
    | false =>
      rw [t] at null1 later
      obtain ⟨request2, eq2, null2, ready2, same2⟩ :=
        ih (later (by simp)) (flag || request1.reqNull) ready1 null1 same1
      refine ⟨request2, eq2, ?_, ready2, same2⟩
      rw [null2, null1]
      simp

theorem evlUnique_spec {records : List Env} {null : Bool}
    (rows : RowsSound sound learnt judge null known records)
    (more : ∀ rest, recordsAfter judge records = some rest →
      RowsSound sound learnt judge (nullAfter judge null records)
        ((recordsRead judge records).foldl (fun known record => learnt record known) known) rest)
    (right : ∀ record null known, sound null known record → ∀ request : EvlRequest,
      request.Ready invariantTruth → request.reqNull = null → request.known = known →
      Right invariantTruth true (learnt record known) (test record request) (judge record))
    {request : EvlRequest} (ready : request.Ready invariantTruth) (before : request.reqNull = null)
    (same : request.known = known) :
    ∃ request', evlUnique test records request =
        .ok (records.countP (fun record => judge record = .true) == 1, request') ∧
      request'.reqNull = uniqueNull judge null records ∧ request'.Ready invariantTruth ∧
      request'.known = (recordsRead judge records ++
        (recordsAfter judge records).elim [] (recordsRead judge)).foldl
          (fun known record => learnt record known) known := by
  obtain ⟨request1, eq1, null1, ready1, same1⟩ := getRecord_spec rows right false ready before same
  rw [Bool.false_or] at null1
  unfold evlUnique uniqueNull
  rw [eq1, evl_bind, countP_recordsAfter]
  cases after : recordsAfter judge records with
  | none => exact ⟨request1, rfl, null1, ready1, by rw [same1]; simp⟩
  | some rest =>
    obtain ⟨request2, eq2, null2, ready2, same2⟩ :=
      getRecord_spec (more rest after) right false ready1 null1 same1
    simp only [eq2, evl_bind, Option.elim_some]
    refine ⟨request2, ?_, ?_, ready2, ?_⟩
    · rw [countP_recordsAfter]
      cases recordsAfter judge rest with
      | none => rfl
      | some _ => simp [pure, Except.pure]
    · rw [null2, Bool.false_or]
    · rw [same2, List.foldl_append]

end

end

theorem evlUnique_any (records : List Env) (request : EvlRequest) :
    evlUnique getAnyRecord records request = .ok (records.length == 1, request) := by
  unfold evlUnique
  cases records with
  | nil => rfl
  | cons record records =>
    cases records with
    | nil => rfl
    | cons other records => simp [getRecord, getAnyRecord, evl_bind, pure, Except.pure]

theorem learn_of_known {invariant : Option Nat} (is : isKnown invariant known = true) :
    learn invariant known = known := by
  cases invariant with
  | none => rfl
  | some offset =>
    show Function.update known offset true = known
    rw [← show known offset = true from is, Function.update_eq_self]

theorem invariant_right {invariant : Option Nat}
    {compute : EvlRequest → Except EvlFault (Bool × EvlRequest)} {b : Bool}
    (same : ∀ offset, invariant = some offset → Kleene.ofBool b = invariantTruth offset)
    {request : EvlRequest} (ready : request.Ready invariantTruth)
    (right : isKnown invariant request.known = false →
      Right invariantTruth (kept || invariant.isSome) known (compute request) (.ofBool b)) :
    Right invariantTruth kept
      (if isKnown invariant request.known then request.known else learn invariant known)
      (evlInvariant invariant compute request) (.ofBool b) := by
  unfold evlInvariant
  cases invariant with
  | none =>
    have right := right rfl
    rw [show (kept || (none : Option Nat).isSome) = kept from Bool.or_false kept] at right
    exact right
  | some offset =>
    have value := same offset rfl
    cases computed : request.impure offset with
    | some c =>
      have before := ready offset c computed
      rw [← value] at before
      subst before
      have is : isKnown (some offset) request.known = true := by
        show (request.impure offset).isSome = true
        rw [computed]
        rfl
      rw [if_pos is]
      simp only [computed]
      refine ⟨{ request with reqNull := false }, rfl, fun _ => ?_, ready, rfl⟩
      exact (decide_eq_false (Kleene.ofBool_ne_unknown b)).symm
    | none =>
      have isNot : isKnown (some offset) request.known = false := by
        show (request.impure offset).isSome = false
        rw [computed]
        rfl
      obtain ⟨request1, eq1, null1, ready1, same1⟩ := right isNot
      have clear := null1 fun _ => Bool.or_true kept
      rw [if_neg (by rw [isNot]; exact Bool.false_ne_true)]
      simp only [computed, eq1, evl_bind]
      refine ⟨_, rfl, fun _ => clear, fun offset' c computed' => ?_, ?_⟩
      · rw [decide_eq_false (Kleene.ofBool_ne_unknown b)] at clear
        simp only at computed'
        by_cases here : offset' = offset
        · subst here
          rw [Function.update_self] at computed'
          rw [← Option.some.inj computed', clear, value]
        · rw [Function.update_of_ne here] at computed'
          exact ready1 offset' c computed'
      · funext offset'
        show (Function.update request1.impure offset _ offset').isSome =
          Function.update known offset true offset'
        by_cases here : offset' = offset
        · rw [here, Function.update_self, Function.update_self]
          rfl
        · rw [Function.update_of_ne here, Function.update_of_ne here, ← same1]
          rfl

theorem right_of_value {out : Except EvlFault (Bool × EvlRequest)} {b : Bool} {request : EvlRequest}
    (eq : out = .ok (b, request)) (null : (b = true → kept = true) → request.reqNull = false)
    (ready : request.Ready invariantTruth) :
    Right invariantTruth kept request.known out (.ofBool b) := by
  refine ⟨request, ?_, fun looked => ?_, ready, rfl⟩
  · rw [Kleene.decide_ofBool]
    exact eq
  · rw [decide_eq_false (Kleene.ofBool_ne_unknown b)]
    exact null fun set => looked ((Kleene.ofBool_eq_true b).mpr set)

/-- An evaluation that is spared of what goes wrong is right. -/
theorem right_of_sound {node : Nod Env α} (invariant : node.Invariant movCompare invariantTruth)
    {null : Bool} {env : Env} (sound : Sound movCompare kept null known node env)
    {request : EvlRequest} (ready : request.Ready invariantTruth) (before : request.reqNull = null)
    (same : request.known = known) :
    Right invariantTruth kept (learns movCompare node env known)
      (evlBoolean movCompare node env request) (truth movCompare node env) := by
  induction node generalizing kept null known env request with
  | and first second ihFirst ihSecond =>
    apply and_right (ihFirst invariant.1 sound.1 ready before same)
    intro request' ready' same' clear
    exact ihSecond invariant.2 sound.2 ready' clear same'
  | or first second ihFirst ihSecond =>
    apply or_right (ihFirst invariant.1 sound.1 ready before same)
    intro request' ready' same' clear
    exact ihSecond invariant.2 sound.2 ready' clear same'
  | not node ih => exact not_right (ih invariant sound ready before same)
  | comparison op first second =>
    rw [← same]
    exact comparison_right op first second env ready
  | between value lower upper =>
    rw [← same]
    exact between_right sound ready
  | missing value =>
    rw [← same]
    exact missing_right value env ready
  | unique invariantOffset records =>
    subst before same
    rw [evlBoolean, truth]
    have searched (right : isKnown invariantOffset request.known = false →
        Right invariantTruth (kept || invariantOffset.isSome) request.known
          (evlUnique getAnyRecord (records env) request) (.ofBool ((records env).length == 1))) :
        Right invariantTruth kept (learn invariantOffset request.known)
          (evlInvariant invariantOffset (evlUnique getAnyRecord (records env)) request)
          (.ofBool ((records env).length == 1)) := by
      have right := invariant_right (fun offset eq => invariant offset eq env) ready right
      split at right
      · next is =>
        rw [learn_of_known is]
        exact right
      · exact right
    refine searched fun isNot => right_of_value (evlUnique_any _ _) (fun looked => ?_) ready
    rcases sound with is | clear | ⟨dropped, true⟩
    · rw [is] at isNot
      cases isNot
    · exact clear
    · rw [truth, Kleene.ofBool_eq_true] at true
      rw [dropped] at looked
      exact absurd (looked true) Bool.false_ne_true
  | uniqueBoolean invariantOffset records node ih =>
    obtain ⟨inner, outer⟩ := invariant
    subst before same
    rw [evlBoolean, truth]
    refine invariant_right (fun offset eq => outer offset eq env) ready fun isNot => ?_
    rcases sound with is | ⟨rows, more, left⟩
    · rw [is] at isNot
      cases isNot
    obtain ⟨request', eq, null', ready', same'⟩ := evlUnique_spec rows more
      (fun record null known sound request ready before same => ih inner sound ready before same)
      ready rfl rfl
    rw [← same']
    refine right_of_value eq (fun looked => ?_) ready'
    rcases left with clear | ⟨dropped, true⟩
    · exact null'.trans clear
    · rw [truth, Kleene.ofBool_eq_true] at true
      rw [dropped] at looked
      exact absurd (looked true) Bool.false_ne_true

theorem answered_of_right {out : Except EvlFault (Bool × EvlRequest)} {t : Kleene}
    (right : Right invariantTruth kept known out t) : NodAnswered kept out t := by
  obtain ⟨request, eq, null, -⟩ := right
  refine ⟨_, request, eq, decide_eq_true_iff, fun looked => ?_⟩
  rw [null fun true => looked (decide_eq_true true), decide_eq_true_iff]

theorem answers_of_answered {out : Except EvlFault (Bool × EvlRequest)} {t : Kleene}
    (answered : NodAnswered kept out t) : Answers out t := by
  obtain ⟨value, request, eq, isTrue, isUnknown⟩ := answered
  refine ⟨value, request, eq, isTrue, fun looked => isUnknown fun true => ?_⟩
  exact absurd (looked true) Bool.false_ne_true

/-- The negation of a tree that is answered is `TRUE` exactly for what is false. -/
theorem not_of_answers {node : Nod Env α} {env : Env} {request : EvlRequest} {t : Kleene}
    (answers : Answers (evlBoolean movCompare node env request) t) :
    ∃ value request', evlBoolean movCompare (.not node) env request = .ok (value, request') ∧
      (value = true ↔ t = .false) := by
  obtain ⟨value, after, eq, isTrue, isUnknown⟩ := answers
  rw [evlBoolean, eq, evl_bind]
  cases value with
  | true =>
    obtain rfl : t = .true := isTrue.mp rfl
    cases after.reqNull <;> exact ⟨false, after, rfl, by simp⟩
  | false =>
    have isUnknown := isUnknown fun true => absurd true Bool.false_ne_true
    have notTrue : t ≠ .true := fun true => absurd (isTrue.mpr true) Bool.false_ne_true
    cases null : after.reqNull with
    | true =>
      obtain rfl : t = .unknown := isUnknown.mp null
      exact ⟨false, after, rfl, by simp⟩
    | false =>
      have known : t ≠ .unknown := fun unknown => by
        rw [isUnknown.mpr unknown] at null
        cases null
      refine ⟨true, after, rfl, fun _ => ?_, fun _ => rfl⟩
      cases t with
      | false => rfl
      | unknown => exact absurd rfl known
      | true => exact absurd rfl notTrue

/-- What is read of a sound stream is answered record by record. -/
theorem rowsAnswered_of_sound {sound : Bool → (Nat → Bool) → Env → Prop}
    {learnt : Env → (Nat → Bool) → Nat → Bool} {judge : Env → Kleene}
    {test : Env → EvlRequest → Except EvlFault (Bool × EvlRequest)}
    {answered : Env → EvlRequest → Prop} {records : List Env} {null : Bool}
    (rows : RowsSound sound learnt judge null known records)
    (right : ∀ record null known, sound null known record → ∀ request : EvlRequest,
      request.Ready invariantTruth → request.reqNull = null → request.known = known →
      Right invariantTruth true (learnt record known) (test record request) (judge record) ∧
        answered record request) {request : EvlRequest}
    (ready : request.Ready invariantTruth) (before : request.reqNull = null)
    (same : request.known = known) : RowsAnswered answered test records request := by
  induction records generalizing null known request with
  | nil => trivial
  | cons record records ih =>
    obtain ⟨here, later⟩ := rows
    obtain ⟨⟨request1, eq1, null1, ready1, same1⟩, first⟩ :=
      right record null known here request ready before same
    refine ⟨first, fun tested eq false => ?_⟩
    obtain rfl := Except.ok.inj (eq1.symm.trans eq)
    exact ih (later (of_decide_eq_false false)) ready1 (null1 fun _ => rfl) same1

/-- And the other way round. -/
theorem rowsSound_of_answered {sound : Bool → (Nat → Bool) → Env → Prop}
    {learnt : Env → (Nat → Bool) → Nat → Bool} {judge : Env → Kleene}
    {test : Env → EvlRequest → Except EvlFault (Bool × EvlRequest)}
    {answered : Env → EvlRequest → Prop} {records : List Env}
    (right : ∀ record (request : EvlRequest), request.Ready invariantTruth → answered record request →
      sound request.reqNull request.known record ∧
      Right invariantTruth true (learnt record request.known) (test record request) (judge record))
    {request : EvlRequest} (ready : request.Ready invariantTruth)
    (rows : RowsAnswered answered test records request) :
    RowsSound sound learnt judge request.reqNull request.known records := by
  induction records generalizing request with
  | nil => trivial
  | cons record records ih =>
    obtain ⟨here, later⟩ := rows
    obtain ⟨sound, request1, eq1, null1, ready1, same1⟩ := right record request ready here
    refine ⟨sound, fun notTrue => ?_⟩
    rw [← same1, ← null1 fun _ => rfl]
    exact ih ready1 (later _ eq1 (decide_eq_false notTrue))

theorem answered_of_sound {node : Nod Env α} (invariant : node.Invariant movCompare invariantTruth)
    {env : Env} {request : EvlRequest} (ready : request.Ready invariantTruth)
    (sound : Sound movCompare kept request.reqNull request.known node env) :
    NodAnswered kept (evlBoolean movCompare node env request) (truth movCompare node env) :=
  answered_of_right (right_of_sound invariant sound ready rfl rfl)

/-- What an evaluation comes to that is spared of what goes wrong is answered. -/
theorem parts_of_sound {node : Nod Env α} (invariant : node.Invariant movCompare invariantTruth)
    {env : Env} {request : EvlRequest} (ready : request.Ready invariantTruth)
    (sound : Sound movCompare kept request.reqNull request.known node env) :
    PartsAnswered movCompare kept node env request := by
  induction node generalizing kept env request with
  | and first second ihFirst ihSecond =>
    refine ⟨answered_of_sound invariant ready sound, ihFirst invariant.1 ready sound.1,
      fun value eq => ?_⟩
    obtain ⟨request1, eq1, -, ready1, same1⟩ := right_of_sound invariant.1 sound.1 ready rfl rfl
    obtain rfl := Except.ok.inj (eq1.symm.trans eq)
    have later := sound.2
    rw [← same1] at later
    exact ihSecond invariant.2 (by exact ready1) later
  | or first second ihFirst ihSecond =>
    refine ⟨answered_of_sound invariant ready sound, ihFirst invariant.1 ready sound.1,
      fun value eq => ?_⟩
    obtain ⟨request1, eq1, -, ready1, same1⟩ := right_of_sound invariant.1 sound.1 ready rfl rfl
    obtain rfl := Except.ok.inj (eq1.symm.trans eq)
    have later := sound.2
    rw [← same1] at later
    exact ihSecond invariant.2 (by exact ready1) later
  | not node ih => exact ⟨answered_of_sound invariant ready sound, ih invariant ready sound⟩
  | comparison op first second => exact answered_of_sound invariant ready sound
  | between value lower upper => exact answered_of_sound invariant ready sound
  | missing value => exact answered_of_sound invariant ready sound
  | unique invariantOffset records =>
    refine answered_of_sound invariant ready ?_
    rw [Sound, Bool.or_assoc, Bool.or_self]
    exact sound
  | uniqueBoolean invariantOffset records node ih =>
    refine ⟨answered_of_sound invariant ready ?_, fun isNot => ?_⟩
    · rw [Sound, Bool.or_assoc, Bool.or_self]
      exact sound
    · obtain ⟨inner, -⟩ := invariant
      rcases sound with is | ⟨rows, more, -⟩
      · rw [is] at isNot
        cases isNot
      have right : ∀ record null known, Sound movCompare true null known node record →
          ∀ request : EvlRequest, request.Ready invariantTruth → request.reqNull = null →
          request.known = known → Right invariantTruth true (learns movCompare node record known)
            (evlBoolean movCompare node record request) (truth movCompare node record) :=
        fun record null known sound request ready before same =>
          right_of_sound inner sound ready before same
      have each : ∀ record null known, Sound movCompare true null known node record →
          ∀ request : EvlRequest, request.Ready invariantTruth → request.reqNull = null →
          request.known = known → Right invariantTruth true (learns movCompare node record known)
            (evlBoolean movCompare node record request) (truth movCompare node record) ∧
            PartsAnswered movCompare true node record request := by
        rintro record null known sound request ready rfl rfl
        exact ⟨right _ _ _ sound request ready rfl rfl, ih inner ready sound⟩
      refine ⟨rowsAnswered_of_sound rows each ready rfl rfl, fun rest request' got => ?_⟩
      obtain ⟨request1, eq1, null1, ready1, same1⟩ := getRecord_spec rows right false ready rfl rfl
      obtain ⟨after, rfl⟩ := Prod.mk.inj (Except.ok.inj (eq1.symm.trans got))
      exact rowsAnswered_of_sound (more rest after) each ready1 null1 same1

/-- An invariant node that has not been computed leaves what is computed. -/
theorem invariant_fresh {invariant : Option Nat} {request : EvlRequest}
    (fresh : isKnown invariant request.known = false)
    {compute : EvlRequest → Except EvlFault (Bool × EvlRequest)} {b : Bool} {after : EvlRequest}
    (eq : compute request = .ok (b, after)) :
    ∃ after', evlInvariant invariant compute request = .ok (b, after') ∧
      after'.reqNull = after.reqNull := by
  unfold evlInvariant
  cases invariant with
  | none => exact ⟨after, eq, rfl⟩
  | some offset =>
    have empty : request.impure offset = none :=
      Option.not_isSome_iff_eq_none.mp (Bool.eq_false_iff.mp fresh)
    simp only [empty, eq, evl_bind]
    exact ⟨_, rfl, rfl⟩

/-- Where a null flag is left behind what is true or false, that is right only behind `TRUE` and when
nobody looks at it. -/
theorem dropped_of_answered {out : Except EvlFault (Bool × EvlRequest)} {b : Bool}
    {after : EvlRequest} (answered : NodAnswered kept out (.ofBool b)) (eq : out = .ok (b, after))
    (null : after.reqNull = true) : kept = false ∧ Kleene.ofBool b = .true := by
  obtain ⟨value, request, eq', isTrue, isUnknown⟩ := answered
  obtain ⟨rfl, rfl⟩ := Prod.mk.inj (Except.ok.inj (eq'.symm.trans eq))
  have looked : ¬(value = true → kept = true) := fun looked =>
    Kleene.ofBool_ne_unknown value ((isUnknown looked).mp null)
  obtain ⟨true, dropped⟩ := Classical.not_imp.mp looked
  exact ⟨Bool.eq_false_iff.mpr dropped, isTrue.mp true⟩

/-- An evaluation is spared of what goes wrong if all that it comes to is answered. -/
theorem sound_of_parts {node : Nod Env α} (invariant : node.Invariant movCompare invariantTruth)
    {env : Env} {request : EvlRequest} (ready : request.Ready invariantTruth)
    (parts : PartsAnswered movCompare kept node env request) :
    Sound movCompare kept request.reqNull request.known node env := by
  induction node generalizing kept env request with
  | and first second ihFirst ihSecond =>
    obtain ⟨-, here, later⟩ := parts
    have sound := ihFirst invariant.1 ready here
    obtain ⟨request1, eq1, -, ready1, same1⟩ := right_of_sound invariant.1 sound ready rfl rfl
    refine ⟨sound, ?_⟩
    rw [← same1]
    exact ihSecond invariant.2 (by exact ready1) (later _ eq1)
  | or first second ihFirst ihSecond =>
    obtain ⟨-, here, later⟩ := parts
    have sound := ihFirst invariant.1 ready here
    obtain ⟨request1, eq1, -, ready1, same1⟩ := right_of_sound invariant.1 sound ready rfl rfl
    refine ⟨sound, ?_⟩
    rw [← same1]
    exact ihSecond invariant.2 (by exact ready1) (later _ eq1)
  | not node ih => exact ih invariant ready parts.2
  | comparison op first second => exact trivial
  | between value lower upper =>
    exact fun misjudged => between_wrong misjudged request (answers_of_answered parts)
  | missing value => exact trivial
  | unique invariantOffset records =>
    rw [Sound]
    refine or_iff_not_imp_left.mpr fun isNot => or_iff_not_imp_left.mpr fun set => ?_
    obtain ⟨after, eq, left⟩ := invariant_fresh (Bool.eq_false_iff.mpr isNot)
      (evlUnique_any (records env) request)
    refine dropped_of_answered parts ?_ (left.trans (eq_true_of_ne_false set))
    rw [evlBoolean, eq]
  | uniqueBoolean invariantOffset records node ih =>
    obtain ⟨inner, -⟩ := invariant
    obtain ⟨own, read⟩ := parts
    rw [Sound]
    refine or_iff_not_imp_left.mpr fun isNot => ?_
    have isNot := Bool.eq_false_iff.mpr isNot
    obtain ⟨rows, more⟩ := read isNot
    have each : ∀ record (request : EvlRequest), request.Ready invariantTruth →
        PartsAnswered movCompare true node record request →
        Sound movCompare true request.reqNull request.known node record ∧
        Right invariantTruth true (learns movCompare node record request.known)
          (evlBoolean movCompare node record request) (truth movCompare node record) := by
      intro record request ready parts
      have sound := ih inner ready parts
      exact ⟨sound, right_of_sound inner sound ready rfl rfl⟩
    have right : ∀ record null known, Sound movCompare true null known node record →
        ∀ request : EvlRequest, request.Ready invariantTruth → request.reqNull = null →
        request.known = known → Right invariantTruth true (learns movCompare node record known)
          (evlBoolean movCompare node record request) (truth movCompare node record) :=
      fun record null known sound request ready before same =>
        right_of_sound inner sound ready before same
    have rows : RowsSound (fun null known record => Sound movCompare true null known node record)
        (learns movCompare node) (truth movCompare node) request.reqNull request.known
        (records env) := rowsSound_of_answered each ready rows
    obtain ⟨request1, eq1, null1, ready1, same1⟩ := getRecord_spec rows right false ready rfl rfl
    rw [Bool.false_or] at null1
    have more : ∀ rest, recordsAfter (truth movCompare node) (records env) = some rest →
        RowsSound (fun null known record => Sound movCompare true null known node record)
          (learns movCompare node) (truth movCompare node)
          (nullAfter (truth movCompare node) request.reqNull (records env))
          ((recordsRead (truth movCompare node) (records env)).foldl
            (fun known record => learns movCompare node record known) request.known) rest := by
      intro rest after
      rw [← null1, ← same1]
      exact rowsSound_of_answered each ready1 (more rest request1 (by rw [eq1, after]))
    refine ⟨rows, more, or_iff_not_imp_left.mpr fun set => ?_⟩
    obtain ⟨request', eq, null', -⟩ := evlUnique_spec rows more right ready rfl rfl
    obtain ⟨after, eq', left⟩ := invariant_fresh isNot eq
    refine dropped_of_answered own ?_ (left.trans (null'.trans (eq_true_of_ne_false set)))
    rw [evlBoolean, eq']

end

/-- A literal. -/
def literalExpr (n : Int) : Expr Nat Int := ⟨false, fun _ => ⟨false, false, some n, fun _ => rfl⟩⟩

/-- A variable that has been assigned a null value, and holds `n`. -/
def nullVariable (n : Int) : Expr Nat Int :=
  ⟨false, fun _ => ⟨true, false, some n, fun h => Bool.noConfusion h⟩⟩

/-- The number of the record. -/
def numberExpr : Expr Nat Int := ⟨false, fun env => ⟨false, false, some env, fun _ => rfl⟩⟩

/-- Just one of the records 1, 2, 3 is numbered 2, and 5 is not between 6 and 9. -/
def uniqueTree : Nod Nat Int :=
  .and (.uniqueBoolean (some 0) (fun _ => [1, 2, 3])
      (.comparison .eql numberExpr (literalExpr 2)))
    (.not (.between (literalExpr 5) (literalExpr 6) (literalExpr 9)))

end InterBase
