import InterBase.EvlAnsi

namespace InterBase

namespace AnsiNod

variable {ι Env : Type} (node : AnsiNod Env)

/-- The record is among the rows of the subquery. -/
def selected (record : Env) : Bool := node.select.all fun select => select record == .true

/-- The comparisons that the predicate ranges over. -/
def compared (records : List Env) : List Kleene :=
  (records.filter node.selected).map node.column

def quantified (env : Env) : Kleene :=
  if node.isAll then Kleene.allOf (node.compared (node.records env))
  else Kleene.anyOf (node.compared (node.records env))

/-- The value of the predicate, or of its negation. -/
def sqlTruth (env : Env) : Kleene := if node.underNot then (node.quantified env).not else node.quantified env

def truthOf (record : Env) : Kleene :=
  match node.select with
  | none => node.column record
  | some select => (select record).and (node.column record)

theorem compared_cons (record : Env) (records : List Env) :
    node.compared (record :: records) =
      if node.selected record then node.column record :: node.compared records
      else node.compared records := by
  unfold compared
  rw [List.filter_cons]
  split
  · rfl
  · rfl

theorem truthOf_selected {record : Env} (h : node.selected record = true) :
    node.truthOf record = node.column record := by
  unfold selected at h
  unfold truthOf
  cases hselect : node.select with
  | none => rfl
  | some select =>
    rw [hselect] at h
    have htrue : select record = .true := by simpa using h
    dsimp only
    rw [htrue, Kleene.true_and]

theorem truthOf_true {record : Env} :
    node.truthOf record = .true ↔ node.selected record = true ∧ node.column record = .true := by
  unfold truthOf selected
  cases node.select with
  | none => simp
  | some select => simp

end AnsiNod

section

variable {ι : Type} {request : AnsiRequest ι}

theorem enter_clear (clear : request.flagged = false) : request.enter = request := by
  unfold AnsiRequest.enter
  rw [clear, Bool.or_false]

theorem evlCondition_clear (truth : Kleene) (clear : request.flagged = false) :
    evlCondition truth request = (truth == .true, { request with reqNull := truth == .unknown }) := by
  rw [evlCondition, enter_clear clear]

theorem evlCondition_leaked (truth : Kleene) (request : AnsiRequest ι)
    (leaked : request.leaked = true) : (evlCondition truth request).2.leaked = true := by
  unfold evlCondition AnsiRequest.enter
  dsimp only
  rw [leaked, Bool.true_or]

end

namespace AnsiNod

variable {ι Env : Type} {node : AnsiNod Env}

theorem evlBooleanOf_clear (record : Env) {request : AnsiRequest ι}
    (clear : request.flagged = false) :
    node.evlBooleanOf record request = (node.truthOf record == .true,
      { request with reqNull := node.truthOf record == .unknown }) := by
  unfold evlBooleanOf truthOf
  cases node.select with
  | none => exact evlCondition_clear _ clear
  | some select =>
    dsimp only
    rw [evlCondition_clear (select record) clear]
    dsimp only
    rw [evlCondition_clear (node.column record) (by exact clear)]
    cases select record <;> cases node.column record <;> rfl

theorem evlSelect_clear (record : Env) (request : AnsiRequest ι) (clear : request.flagged = false) :
    ∃ null, node.evlSelect record request =
      (node.selected record, { request with reqNull := null }) := by
  unfold evlSelect selected
  cases node.select with
  | none => exact ⟨request.reqNull, rfl⟩
  | some select =>
    refine ⟨select record == .unknown, ?_⟩
    dsimp only
    rw [evlCondition_clear (select record) (by exact clear)]
    rfl

theorem anyOf_compared_false (record : Env) (records : List Env) :
    Kleene.anyOf (node.compared (record :: records)) = .false ↔
      (node.selected record = true → node.column record = .false) ∧
        Kleene.anyOf (node.compared records) = .false := by
  rw [node.compared_cons]
  by_cases hselected : node.selected record = true
  · rw [if_pos hselected, Kleene.anyOf_eq_false, Kleene.anyOf_eq_false, List.forall_mem_cons]
    simp [hselected]
  · rw [if_neg hselected]
    simp [hselected]

/-- The loop of NOT ANY passes the records that are not selected or compare false. -/
theorem getNotAny_clear (records : List Env) {request : AnsiRequest ι}
    (clear : request.flagged = false) :
    node.getNotAny records request =
      (decide (Kleene.anyOf (node.compared records) ≠ .false),
        { request with reqNull := false }) := by
  induction records generalizing request with
  | nil => rfl
  | cons record records ih =>
    have next (null : Bool) (h : node.selected record = true → node.column record = .false) :
        node.getNotAny records { request with reqNull := null } =
          (decide (Kleene.anyOf (node.compared (record :: records)) ≠ .false),
            { request with reqNull := false }) := by
      rw [ih (by exact clear)]
      congr 1
      apply decide_eq_decide.mpr
      apply not_congr
      rw [anyOf_compared_false]
      exact (and_iff_right h).symm
    have found (hselected : node.selected record = true) (h : node.column record ≠ .false) :
        decide (Kleene.anyOf (node.compared (record :: records)) ≠ .false) = true := by
      apply decide_eq_true
      intro hnone
      exact h ((anyOf_compared_false record records).mp hnone |>.1 hselected)
    unfold getNotAny
    rw [evlBooleanOf_clear record clear]
    dsimp only
    by_cases htrue : node.truthOf record = .true
    · obtain ⟨hselected, hcolumn⟩ := node.truthOf_true.mp htrue
      rw [if_pos (by rw [htrue]; rfl), found hselected (by rw [hcolumn]; exact Kleene.noConfusion)]
    · rw [if_neg (by simpa using htrue)]
      cases hselect : node.select with
      | none =>
        have hselected : node.selected record = true := by rw [selected, hselect]; rfl
        rw [node.truthOf_selected hselected] at htrue ⊢
        dsimp only
        by_cases hnull : node.column record = .unknown
        · rw [if_pos (by rw [hnull]; rfl), found hselected (by rw [hnull]; exact Kleene.noConfusion)]
        · rw [if_neg (by simpa using hnull)]
          apply next
          intro _
          cases hcolumn : node.column record with
          | false => rfl
          | unknown => exact absurd hcolumn hnull
          | true => exact absurd hcolumn htrue
      | some select =>
        have hselected : node.selected record = (select record == .true) := by
          rw [selected, hselect]
          rfl
        dsimp only
        rw [evlCondition_clear (select record) (by exact clear)]
        dsimp only
        by_cases hin : (select record == Kleene.true) = true
        · rw [if_pos hin, evlCondition_clear (node.column record) (by exact clear)]
          rw [node.truthOf_selected (hselected.trans hin)] at htrue
          dsimp only
          by_cases hnull : node.column record = .unknown
          · rw [if_pos (by rw [hnull]; rfl),
              found (hselected.trans hin) (by rw [hnull]; exact Kleene.noConfusion)]
          · rw [if_neg (by simpa using hnull)]
            apply next
            intro _
            cases hcolumn : node.column record with
            | false => rfl
            | unknown => exact absurd hcolumn hnull
            | true => exact absurd hcolumn htrue
        · rw [if_neg hin]
          exact next _ fun h => absurd (hselected.symm.trans h) hin

theorem getAny_clear (records : List Env) {request : AnsiRequest ι}
    (clear : request.flagged = false) :
    node.getAny records request =
      (decide (Kleene.anyOf (node.compared records) = .true), { request with reqNull := false }) := by
  induction records generalizing request with
  | nil => rfl
  | cons record records ih =>
    unfold getAny
    rw [evlBooleanOf_clear record clear]
    dsimp only
    have hcons : Kleene.anyOf (node.compared (record :: records)) = .true ↔
        node.truthOf record = .true ∨ Kleene.anyOf (node.compared records) = .true := by
      rw [node.compared_cons, node.truthOf_true]
      by_cases hselected : node.selected record = true
      · rw [if_pos hselected, Kleene.anyOf_eq_true, Kleene.anyOf_eq_true, List.mem_cons]
        simp [hselected, eq_comm]
      · rw [if_neg hselected]
        simp [hselected]
    by_cases htrue : node.truthOf record = .true
    · rw [if_pos (by rw [htrue]; rfl), decide_eq_true (hcons.mpr (Or.inl htrue))]
    · rw [if_neg (by simpa using htrue), ih (by exact clear)]
      congr 1
      exact decide_eq_decide.mpr (by rw [hcons]; simp [htrue])

/-- A selected record that does not pass decides against ALL. -/
theorem allOf_compared_cons (record : Env) (records : List Env) :
    Kleene.allOf (node.compared (record :: records)) = .true ↔
      (node.selected record = true → node.truthOf record = .true) ∧
        Kleene.allOf (node.compared records) = .true := by
  rw [node.compared_cons]
  by_cases hselected : node.selected record = true
  · rw [if_pos hselected, Kleene.allOf_eq_true, Kleene.allOf_eq_true, List.forall_mem_cons,
      node.truthOf_selected hselected]
    simp [hselected]
  · rw [if_neg hselected]
    simp [hselected]

theorem getAll_clear (records : List Env) {request : AnsiRequest ι}
    (clear : request.flagged = false) :
    node.getAll records request =
      (decide (Kleene.allOf (node.compared records) = .true), { request with reqNull := false }) := by
  induction records generalizing request with
  | nil => rfl
  | cons record records ih =>
    have next (null : Bool) (h : node.selected record = true → node.truthOf record = .true) :
        node.getAll records { request with reqNull := null } =
          (decide (Kleene.allOf (node.compared (record :: records)) = .true),
            { request with reqNull := false }) := by
      rw [ih (by exact clear)]
      congr 1
      apply decide_eq_decide.mpr
      rw [allOf_compared_cons]
      exact (and_iff_right h).symm
    unfold getAll
    rw [evlBooleanOf_clear record (by exact clear)]
    dsimp only
    by_cases htrue : node.truthOf record = .true
    · rw [if_neg (by simp [htrue])]
      exact next _ fun _ => htrue
    · obtain ⟨null, hselect⟩ := node.evlSelect_clear record
        { request with reqNull := node.truthOf record == .unknown } (by exact clear)
      rw [if_pos (by simpa using htrue), hselect]
      dsimp only
      by_cases hselected : node.selected record = true
      · rw [if_pos hselected]
        congr 1
        refine (decide_eq_false ?_).symm
        rw [allOf_compared_cons]
        exact fun h => htrue (h.1 hselected)
      · rw [if_neg hselected]
        exact next _ fun h => absurd h hselected

theorem allOf_compared_false (record : Env) (records : List Env) :
    Kleene.allOf (node.compared (record :: records)) = .false ↔
      (node.selected record = true ∧ node.truthOf record = .false) ∨
        Kleene.allOf (node.compared records) = .false := by
  rw [node.compared_cons]
  by_cases hselected : node.selected record = true
  · rw [if_pos hselected, Kleene.allOf_eq_false, Kleene.allOf_eq_false, List.mem_cons,
      node.truthOf_selected hselected]
    simp [hselected, eq_comm]
  · rw [if_neg hselected]
    simp [hselected]

theorem getNotAll_clear (records : List Env) {request : AnsiRequest ι}
    (clear : request.flagged = false) :
    node.getNotAll records request =
      (decide (Kleene.allOf (node.compared records) ≠ .false), { request with reqNull := false }) := by
  induction records generalizing request with
  | nil => rfl
  | cons record records ih =>
    have next (null : Bool) (h : node.selected record = true → node.truthOf record ≠ .false) :
        node.getNotAll records { request with reqNull := null } =
          (decide (Kleene.allOf (node.compared (record :: records)) ≠ .false),
            { request with reqNull := false }) := by
      rw [ih (by exact clear)]
      congr 1
      refine decide_eq_decide.mpr (not_congr ?_)
      rw [allOf_compared_false]
      simp only [iff_or_self]
      exact fun hboth => absurd hboth.2 (h hboth.1)
    unfold getNotAll
    rw [evlBooleanOf_clear record (by exact clear)]
    dsimp only
    by_cases hfalse : node.truthOf record = .false
    · obtain ⟨null, hselect⟩ := node.evlSelect_clear record
        { request with reqNull := node.truthOf record == .unknown } (by exact clear)
      rw [if_pos (by simp [hfalse]), hselect]
      dsimp only
      by_cases hselected : node.selected record = true
      · rw [if_pos hselected]
        congr 1
        refine (decide_eq_false ?_).symm
        exact not_not.mpr ((allOf_compared_false record records).mpr (Or.inl ⟨hselected, hfalse⟩))
      · rw [if_neg hselected]
        exact next _ fun h => absurd h hselected
    · rw [if_neg (by cases h : node.truthOf record <;> simp_all)]
      exact next _ fun _ => hfalse

end AnsiNod

end InterBase
