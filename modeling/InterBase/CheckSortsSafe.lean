import InterBase.CheckSorts

namespace InterBase.Opt

open SortList

/-- The field that another one is mapped from, as the last assignment has it. -/
def key (map : NodMap) (s : Nod) : Nod := (source map s).getD s

/-- The field whose values a field shows; where there is no map, its own. -/
def keyOf (map : Option NodMap) : Nod → Nod := map.elim id key

/-- Among the fields that `set_position` looks at none is found for a field of the ORDER BY but the
one whose values it shows, and they come into its order by exchanges of which none moves a field
away that is in its place. -/
structure InOrder (map : Option NodMap) (sort c : Clause) : Prop where
  alone : ∀ x ∈ sort.args, ∀ y ∈ c.args.take sort.count,
    corresponds map x y = true → y = keyOf map x
  settles : Settles [] (sort.args.map (keyOf map)) (c.args.take sort.count)

/-- Where the DISTINCT is dropped, every field of the GROUP BY is mapped to one of its fields; where
the ORDER BY is dropped, the list that is kept comes into its order. -/
structure Clear (rse : Rse) : Prop where
  project : ∀ agg p, rse.relation = some agg → rse.projection = some p →
    agg.takesProject p = true → agg.group.args ⊆ p.args.map (key agg.map)
  sort : ∀ agg s, rse.relation = some agg → rse.sorted = some s →
    (∀ p, rse.projection = some p → agg.takesProject p = true) → agg.takesSort s = true →
    InOrder (some agg.map) s agg.group
  sortOfProject : ∀ s p, rse.sorted = some s → rse.projection = some p →
    (∀ agg, rse.relation = some agg → agg.takesProject p = false) → p.takesSort s = true →
    InOrder none s p

namespace Rse

def key (rse : Rse) : Nod → Nod := keyOf (rse.relation.map Aggregate.map)

/-- The columns of a list over the rows of the relation, with their directions. -/
def columnsOf (rse : Rse) (c : Clause) : List (Nod × Bool) :=
  c.entries.map fun entry => (rse.key entry.1, entry.2)

/-- The columns by which the rows are put into order. -/
def columns (rse : Rse) : List (Nod × Bool) :=
  match rse.projection with
  | some project => rse.columnsOf project
  | none => rse.relation.elim [] fun agg => agg.group.entries

/-- Where the ORDER BY is dropped, its columns, each where it occurs first, are the first ones of
those that are kept. -/
def SortKept (rse : Rse) : Prop :=
  ∀ sort, rse.sorted = some sort → (checkSorts rse).sorted = none →
    firsts (rse.columnsOf sort) <+: firsts (checkSorts rse).columns

/-- Where the DISTINCT is dropped, its fields are mapped from all fields of the GROUP BY. -/
def GroupTold (rse : Rse) : Prop :=
  ∀ project, rse.projection = some project → (checkSorts rse).projection = none →
    ∀ agg, rse.relation = some agg → agg.group.args ⊆ project.args.map (Opt.key agg.map)

end Rse

section

variable {map : Option NodMap} {x y : Nod} {c sort project : Clause} {n : Nat} {agg : Aggregate}
  {relation : Option Aggregate} {rse : Rse} {V : Type} {rows : List (Nod → V)}

theorem outer_eq (rse : Rse) (row : Nod → V) : rse.outer row = fun x => row (rse.key x) := by
  funext x
  unfold Rse.outer Rse.key
  cases rse.relation with
  | none => rfl
  | some agg =>
    show (source agg.map x).elim (row x) row = row ((source agg.map x).getD x)
    cases source agg.map x <;> rfl

theorem projectSafe_of_told (told : rse.GroupTold) : ProjectSafe V rse := by
  intro project present dropped agg relation a b same g hg
  obtain ⟨x, hx, rfl⟩ := List.mem_map.mp (told project present dropped agg relation hg)
  have equal := same x hx
  rw [outer_eq, outer_eq] at equal
  unfold Rse.key at equal
  rw [relation] at equal
  exact equal

variable [LinearOrder V]

theorem sorted_outer (rse : Rse) (c : Clause) :
    Sorted c.entries (rows.map rse.outer) ↔ Sorted (rse.columnsOf c) rows := by
  rw [funext (outer_eq rse)]
  exact sorted_map rse.key c.entries rows

theorem delivers_iff (rse : Rse) : rse.Delivers rows ↔ Sorted rse.columns rows := by
  obtain ⟨sorted, projection, relation⟩ := rse
  cases projection with
  | some project => exact sorted_outer _ project
  | none =>
    cases relation with
    | some agg => exact Iff.rfl
    | none => exact iff_of_true trivial (List.pairwise_iff_forall_sublist.mpr fun _ => trivial)

/-- A step keeps the fields of the lists that it keeps. -/
def KeepsFields (rse rse' : Rse) : Prop :=
  (∀ project, rse'.projection = some project →
    ∃ project', rse.projection = some project' ∧ project.args.Perm project'.args) ∧
  ∀ agg, rse'.relation = some agg →
    ∃ agg', rse.relation = some agg' ∧ agg.map = agg'.map ∧ agg.group.args.Perm agg'.group.args

theorem KeepsFields.refl (rse : Rse) : KeepsFields rse rse :=
  ⟨fun project h => ⟨project, h, List.Perm.refl _⟩, fun agg h => ⟨agg, h, rfl, List.Perm.refl _⟩⟩

theorem KeepsFields.trans {rse rse' rse'' : Rse} (h : KeepsFields rse rse')
    (h' : KeepsFields rse' rse'') : KeepsFields rse rse'' := by
  constructor
  · intro project kept
    obtain ⟨project', kept', perm⟩ := h'.1 project kept
    obtain ⟨project'', kept'', perm'⟩ := h.1 project' kept'
    exact ⟨project'', kept'', perm.trans perm'⟩
  · intro agg kept
    obtain ⟨agg', kept', same, perm⟩ := h'.2 agg kept
    obtain ⟨agg'', kept'', same', perm'⟩ := h.2 agg' kept'
    exact ⟨agg'', kept'', same.trans same', perm.trans perm'⟩

/-- What becomes of an ORDER BY over a GROUP BY. -/
theorem check_group : checkSortOfProject (checkSort ⟨some sort, none, some agg⟩) =
    if h : agg.takesSort sort = true then
      ⟨none, none, some ⟨setPosition sort (setDirection sort agg.group (agg.takesSort_count h))
        (some agg.map), agg.map⟩⟩
    else ⟨some sort, none, some agg⟩ := by
  unfold checkSort
  dsimp only
  split <;> rfl

/-- What becomes of an ORDER BY over a DISTINCT. -/
theorem check_project : checkSortOfProject (checkSort ⟨some sort, some project, relation⟩) =
    if h : project.takesSort sort = true then
      ⟨none, some (setPosition sort (setDirection sort project (project.takesSort_count h)) none),
        relation⟩
    else ⟨some sort, some project, relation⟩ := rfl

theorem checkProject_taken {sorted : Option Clause} (h : agg.takesProject project = true) :
    checkProject ⟨sorted, some project, some agg⟩ =
      ⟨sorted, none, some ⟨setDirection project agg.group (agg.takesProject_count h), agg.map⟩⟩ :=
  dif_pos h

theorem checkProject_kept {sorted : Option Clause} (h : ¬ agg.takesProject project = true) :
    checkProject ⟨sorted, some project, some agg⟩ = ⟨sorted, some project, some agg⟩ :=
  dif_neg h

theorem setPosition_perm (map : Option NodMap) (h : sort.count ≤ c.count) :
    (setPosition sort (setDirection sort c h) map).args.Perm c.args :=
  arrange_perm _ _ _ _ _

theorem checkProject_keeps (rse : Rse) : KeepsFields rse (checkProject rse) := by
  obtain ⟨sorted, projection, relation⟩ := rse
  cases projection with
  | none => exact KeepsFields.refl _
  | some project =>
    cases relation with
    | none => exact KeepsFields.refl _
    | some agg =>
      by_cases h : agg.takesProject project = true
      · rw [checkProject_taken h]
        refine ⟨fun project h => absurd h (by simp), fun agg' same => ⟨agg, rfl, ?_⟩⟩
        obtain rfl := Option.some.inj same
        exact ⟨rfl, List.Perm.refl _⟩
      · rw [checkProject_kept h]
        exact KeepsFields.refl _

theorem checkSort_keeps (rse : Rse) :
    KeepsFields rse (checkSortOfProject (checkSort rse)) := by
  obtain ⟨sorted, projection, relation⟩ := rse
  cases sorted with
  | none => exact KeepsFields.refl _
  | some sort =>
    cases projection with
    | none =>
      cases relation with
      | none => exact KeepsFields.refl _
      | some agg =>
        rw [check_group]
        split
        · refine ⟨fun project h => absurd h (by simp), fun agg' same => ⟨agg, rfl, ?_⟩⟩
          obtain rfl := Option.some.inj same
          exact ⟨rfl, setPosition_perm _ _⟩
        · exact KeepsFields.refl _
    | some project =>
      rw [check_project]
      split
      · refine ⟨fun project' same => ⟨project, rfl, ?_⟩,
          fun agg h => ⟨agg, h, rfl, List.Perm.refl _⟩⟩
        obtain rfl := Option.some.inj same
        exact setPosition_perm _ _
      · exact KeepsFields.refl _

/-- No list that is kept loses or gains a field. -/
theorem fieldsKept (rse : Rse) : FieldsKept rse :=
  (checkProject_keeps rse).trans (checkSort_keeps _)

theorem sortSafe_of_kept (kept : rse.SortKept) : SortSafe V rse := by
  intro sort present dropped rows delivers
  rw [sorted_outer]
  exact ((delivers_iff _).mp delivers).refine (kept sort present dropped)

theorem sortKept_of_safe (safe : SortSafe Int rse) : rse.SortKept := by
  intro sort present dropped
  refine (refines_iff _ _).mp fun rows sorted => ?_
  rw [← sorted_outer]
  exact safe sort present dropped rows ((delivers_iff _).mpr sorted)

/-- Rows of two groups whose DISTINCT fields are the same. -/
theorem groupTold_of_safe (safe : ProjectSafe Int rse) : rse.GroupTold := by
  intro project present dropped agg relation g hg
  by_contra missing
  have equal := safe project present dropped agg relation (fun _ => 0)
    (fun x => if x = g then 1 else 0) (fun x hx => ?_) g hg
  · simp at equal
  · rw [outer_eq, outer_eq]
    unfold Rse.key
    rw [relation]
    refine (if_neg fun same => missing ?_).symm
    exact List.mem_map.mpr ⟨x, hx, same⟩

theorem sameArgs_self (x : Nod) : sameArgs x x = true := by
  cases x <;> simp [sameArgs]

theorem sameField_eq (h : sameField x y = true) : x = y := by
  cases x <;> cases y <;> simp_all [sameField]

theorem Clause.takesSort_mem (h : project.takesSort sort = true) (hx : x ∈ sort.args) :
    ∃ y ∈ project.args.take sort.count, corresponds none x y = true := by
  rw [Clause.takesSort, Bool.and_eq_true, List.all_eq_true] at h
  obtain ⟨y, hy, same⟩ := List.any_eq_true.mp (h.2 x hx)
  obtain rfl := sameField_eq same
  exact ⟨x, hy, sameArgs_self x⟩

theorem Aggregate.takesSort_mem (h : agg.takesSort sort = true) (hx : x ∈ sort.args) :
    ∃ y ∈ agg.group.args.take sort.count, corresponds (some agg.map) x y = true := by
  rw [Aggregate.takesSort, Bool.and_eq_true, List.all_eq_true] at h
  exact List.any_eq_true.mp (h.2 x hx)

/-- A list of which no two fields show the same column comes into order. -/
theorem inOrder_of_nodup (h : sort.count ≤ c.count)
    (alone : ∀ x ∈ sort.args, ∀ y ∈ c.args.take sort.count,
      corresponds map x y = true → y = keyOf map x)
    (mem : ∀ x ∈ sort.args, ∃ y ∈ c.args.take sort.count, corresponds map x y = true)
    (nodup : (sort.args.map (keyOf map)).Nodup) : InOrder map sort c := by
  refine ⟨alone, settles_of_nodup nodup (fun k hk => ?_) ?_⟩
  · obtain ⟨x, hx, rfl⟩ := List.mem_map.mp hk
    obtain ⟨y, hy, found⟩ := mem x hx
    rwa [← alone x hx y hy found]
  · rw [List.length_take_of_le h, List.length_map]
    rfl

/-- The first entries of a list. -/
theorem Clause.entries_take {ks : List Nod} {fs : List Bool} (hk : c.args.take n = ks)
    (hf : c.flags.take n = fs) : ∃ more, c.entries = ks.zip fs ++ more := by
  refine ⟨(c.args.drop n).zip (c.flags.drop n), ?_⟩
  have length : ks.length = fs.length := by
    rw [← hk, ← hf, List.length_take, List.length_take, c.flags_length]
  rw [← List.zip_append length, ← hk, ← hf, List.take_append_drop, List.take_append_drop]
  rfl

theorem setDirection_flags (h : sort.count ≤ c.count) :
    (setDirection sort c h).flags.take sort.count = sort.flags :=
  List.take_left' sort.flags_length

/-- The list gets the order of the ORDER BY. -/
theorem setPosition_takes (h : sort.count ≤ c.count) (inOrder : InOrder map sort c)
    (mem : ∀ x ∈ sort.args, ∃ y ∈ c.args.take sort.count, corresponds map x y = true) :
    ∃ more, (setPosition sort (setDirection sort c h) map).entries =
      (sort.args.map (keyOf map)).zip sort.flags ++ more := by
  refine Clause.entries_take (n := sort.count) ?_ (setDirection_flags h)
  show (arrange (corresponds map) sort.count sort.args 0 c.args).take sort.count = _
  have only : ∀ x ∈ sort.args, ∀ y ∈ [] ++ c.args.take sort.count,
      corresponds map x y = true ↔ y = keyOf map x := by
    intro x hx y hy
    refine ⟨inOrder.alone x hx y hy, ?_⟩
    rintro rfl
    obtain ⟨z, hz, found⟩ := mem x hx
    rwa [← inOrder.alone x hx z hz found]
  have length : (c.args.take sort.count).length = sort.count := List.length_take_of_le h
  have whole : arrange (corresponds map) (c.args.take sort.count).length sort.args 0
      (c.args.take sort.count ++ c.args.drop sort.count) = _ :=
    arrange_rest (c.args.drop sort.count) (by rw [length, Nat.zero_add]; rfl)
  have placed := arrange_settles inOrder.settles only
  rw [List.nil_append, List.length_nil] at placed
  rw [placed, List.take_append_drop, length] at whole
  rw [whole]
  exact List.take_left' (by rw [List.nil_append, List.length_map]; rfl)

theorem columnsOf_eq (rse : Rse) (c : Clause) :
    rse.columnsOf c = (c.args.map rse.key).zip c.flags := by
  unfold Rse.columnsOf Clause.entries
  rw [List.zip_map_left]
  rfl

theorem kept_group (inOrder : agg.takesSort sort = true → InOrder (some agg.map) sort agg.group)
    (dropped : (checkSortOfProject (checkSort ⟨some sort, none, some agg⟩)).sorted = none) :
    firsts (Rse.columnsOf ⟨some sort, none, some agg⟩ sort) <+:
      firsts (checkSortOfProject (checkSort ⟨some sort, none, some agg⟩)).columns := by
  by_cases h : agg.takesSort sort = true
  · obtain ⟨more, entries⟩ := setPosition_takes (agg.takesSort_count h) (inOrder h)
      fun x hx => Aggregate.takesSort_mem h hx
    rw [check_group, dif_pos h, columnsOf_eq]
    show _ <+: firsts (Clause.entries _)
    rw [entries]
    exact firsts_append _ more
  · rw [check_group, dif_neg h] at dropped
    exact absurd dropped (by simp)

theorem kept_project (inOrder : project.takesSort sort = true → InOrder none sort project)
    (dropped : (checkSortOfProject (checkSort ⟨some sort, some project, relation⟩)).sorted = none) :
    firsts (Rse.columnsOf ⟨some sort, some project, relation⟩ sort) <+:
      firsts (checkSortOfProject (checkSort ⟨some sort, some project, relation⟩)).columns := by
  by_cases h : project.takesSort sort = true
  · obtain ⟨more, entries⟩ := setPosition_takes (project.takesSort_count h) (inOrder h)
      fun x hx => Clause.takesSort_mem h hx
    rw [check_project, dif_pos h]
    show _ <+: firsts (List.map _ (Clause.entries _))
    rw [entries, List.map_append]
    have same : sort.args.map (keyOf none) = sort.args := List.map_id sort.args
    rw [same]
    exact firsts_append _ _
  · rw [check_project, dif_neg h] at dropped
    exact absurd dropped (by simp)

theorem sortKept_of_clear (clear : Clear rse) : rse.SortKept := by
  obtain ⟨sorted, projection, relation⟩ := rse
  rintro sort rfl dropped
  cases projection with
  | none =>
    cases relation with
    | none => exact absurd dropped (by simp [checkSorts, checkProject, checkSort, checkSortOfProject])
    | some agg =>
      exact kept_group (clear.sort agg sort rfl rfl fun p h => absurd h (by simp)) dropped
  | some project =>
    cases relation with
    | none =>
      exact kept_project (clear.sortOfProject sort project rfl rfl fun agg h =>
        absurd h (by simp)) dropped
    | some agg =>
      by_cases h : agg.takesProject project = true
      · unfold checkSorts at dropped ⊢
        rw [checkProject_taken h] at dropped ⊢
        have inOrder := clear.sort agg sort rfl rfl fun p hp => Option.some.inj hp ▸ h
        have kept : firsts (Rse.columnsOf ⟨some sort, none, some
            ⟨setDirection project agg.group (agg.takesProject_count h), agg.map⟩⟩ sort) <+: _ :=
          kept_group (fun takes => ⟨(inOrder takes).alone, (inOrder takes).settles⟩) dropped
        exact kept
      · unfold checkSorts at dropped ⊢
        rw [checkProject_kept h] at dropped ⊢
        refine kept_project (clear.sortOfProject sort project rfl rfl fun agg' same => ?_) dropped
        obtain rfl := Option.some.inj same
        simpa using h

theorem groupTold_of_clear (clear : Clear rse) : rse.GroupTold := by
  obtain ⟨sorted, projection, relation⟩ := rse
  rintro project rfl dropped agg rfl
  by_cases h : agg.takesProject project = true
  · exact clear.project agg project rfl rfl h
  · unfold checkSorts at dropped
    rw [checkProject_kept h] at dropped
    cases sorted with
    | none => exact absurd dropped (by simp [checkSort, checkSortOfProject])
    | some sort =>
      rw [check_project] at dropped
      split at dropped <;> exact absurd dropped (by simp)

end

/-- `check_sorts` is safe where the lists that are dropped are clear. It is safe with values of any
kind if and only if the columns of a dropped ORDER BY are the first ones by which the rows are put
into order, and the fields of a dropped DISTINCT are mapped from all fields of the GROUP BY. -/
theorem checkSorts_safe_iff (rse : Rse) :
    (Clear rse → ∀ (V : Type) [LinearOrder V], Safe V rse) ∧
    ((∀ (V : Type) [LinearOrder V], Safe V rse) ↔ rse.SortKept ∧ rse.GroupTold) := by
  refine ⟨fun clear V _ => ?_, fun safe => ?_, fun told V _ => ?_⟩
  · exact ⟨sortSafe_of_kept (sortKept_of_clear clear), projectSafe_of_told (groupTold_of_clear clear),
      fieldsKept rse⟩
  · exact ⟨sortKept_of_safe (safe Int).1, groupTold_of_safe (safe Int).2.1⟩
  · exact ⟨sortSafe_of_kept told.1, projectSafe_of_told told.2, fieldsKept rse⟩

/-- An ORDER BY of two columns, one of them descending, over a GROUP BY that has their sources the
other way round and a third column. -/
def grouped : Rse :=
  ⟨some ⟨[.field 1 0, .field 1 1], [true, false], rfl⟩, none,
    some ⟨⟨[.field 0 5, .field 0 3, .field 0 7], [false, false, false], rfl⟩,
      [(.field 0 3, .field 1 0), (.field 0 5, .field 1 1), (.field 0 7, .field 1 2)]⟩⟩

theorem checkSorts_safe_grouped :
    (checkSorts grouped).sorted = none ∧
      (checkSorts grouped).columns =
        [(.field 0 3, true), (.field 0 5, false), (.field 0 7, false)] ∧
      ∀ (V : Type) [LinearOrder V], Safe V grouped := by
  refine ⟨rfl, rfl, (checkSorts_safe_iff grouped).1 ⟨fun agg p _ h => absurd h (by simp [grouped]),
    ?_, fun s p _ h => absurd h (by simp [grouped])⟩⟩
  rintro agg sort ⟨⟩ ⟨⟩ - -
  exact inOrder_of_nodup (by decide) (by decide) (by decide) (by decide)

/-- Two rows in the order of the second field and then the first, as an ORDER BY of the first field
twice leaves them over a DISTINCT of the first and the second field. -/
theorem checkSorts_swaps : ¬ SortSafe Int
    ⟨some ⟨[.field 0 0, .field 0 0], [false, false], rfl⟩,
      some ⟨[.field 0 0, .field 0 1], [false, false], rfl⟩, none⟩ := by
  intro safe
  let a : Nod → Int := fun n => if n = .field 0 0 then 1 else 0
  let b : Nod → Int := fun n => if n = .field 0 0 then 0 else 1
  have delivers : SortList.Sorted [(.field 0 1, false), (.field 0 0, false)] [a, b] :=
    sorted_pair.mpr (.inl (by simp [a, b]))
  have sorted := safe _ rfl rfl [a, b] delivers
  have first := sorted_pair.mp sorted
  simp [Clause.entries, Precedes, Rse.outer, a, b] at first

end InterBase.Opt
