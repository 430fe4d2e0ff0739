import Mathlib.Data.Fin.VecNotation
import InterBase.BtcSweep

namespace InterBase.Btc

open LinkedTree

section

variable {n : Nat} {c : BtcFlush n} {f f' start : FlushState n} {t t' l r : LinkTree (Fin n)}
  {fs : List (Frame (Fin n))} {bdb x y : Fin n} {rest passed : List (Fin n)}

/-- What holds between the turns of the walk. -/
structure Walking (c : BtcFlush n) (f : FlushState n) (t : LinkTree (Fin n)) : Prop where
  tree : DirtyTree c.page f.btree t
  nextPage : ∀ x, f.next = some x → f.nextPage = c.page x

theorem flushGoOn_nextPage (next : Option (Fin n)) :
    ∀ x, (flushGoOn c next f).next = some x → (flushGoOn c next f).nextPage = c.page x := by
  intro x e
  obtain rfl : next = some x := e
  rfl

theorem Walking.turn (distinct : Function.Injective c.page) (w : Walking c f t)
    (turn : flushTurn c f = .ok (some f')) : ∃ t', Walking c f' t' := by
  rcases flushTurn_cases distinct w.tree w.nextPage with ⟨done, -⟩ |
    ⟨fs, l, bdb, r, next, tree, -, -, ⟨-, run⟩ | ⟨-, stop | ⟨f'', t', run, visited⟩⟩⟩
  · exact absurd (turn.symm.trans done) (by simp)
  · obtain rfl : f' = flushGoOn c next f := Option.some.inj (Except.ok.inj (turn.symm.trans run))
    exact ⟨t, w.tree, flushGoOn_nextPage next⟩
  · exact absurd (turn.symm.trans stop.1) (by simp)
  · obtain rfl : f' = f'' := Option.some.inj (Except.ok.inj (turn.symm.trans run))
    refine ⟨t', visited.tree, fun x e => ?_⟩
    rw [visited.nextPage]
    exact flushGoOn_nextPage next x (visited.next.symm.trans e)

/-- The states that the walk comes to. -/
def Reaches (c : BtcFlush n) : FlushState n → FlushState n → Prop :=
  Relation.ReflTransGen fun f f' => flushTurn c f = .ok (some f')

theorem Walking.reaches (distinct : Function.Injective c.page) (w : Walking c start t)
    (run : Reaches c start f) : ∃ t', Walking c f t' := by
  induction run with
  | refl => exact ⟨t, w⟩
  | tail _ turn ih =>
    obtain ⟨t', w'⟩ := ih
    exact w'.turn distinct turn

/-- What the walk finds again is in the tree. -/
theorem Walking.visits (w : Walking c f t) (visit : Visits c f bdb) : bdb ∈ t.toList := by
  obtain ⟨x, next, found⟩ := visit
  rcases flushFind_spec w.tree (w.nextPage x next) with ⟨mem, run⟩ | ⟨-, -, run⟩ |
    ⟨-, y, gs, l, r, run, rfl, -, -⟩
  · obtain rfl : bdb = x := Option.some.inj (Except.ok.inj (found.symm.trans run))
    exact mem
  · exact absurd (found.symm.trans run) (by simp)
  · obtain rfl : bdb = y := Option.some.inj (Except.ok.inj (found.symm.trans run))
    rw [toList_plug_node]
    simp

/-- Buffers that are passed over are to the right of the place, below a node that has been seen, or
before a place that has not been seen. -/
def Astray (c : BtcFlush n) (m : Int) (passed : List (Fin n)) (t : LinkTree (Fin n)) (y : Fin n)
    (r : LinkTree (Fin n)) : Prop :=
  ∀ u ∈ t.toList, m < c.page u → u ∈ passed →
    c.page y ≤ m ∧ (∃ z, r.top = some z ∧ c.page z ≤ m) ∧ u ∈ r.toList ∨ c.page u < c.page y

/-- Where the walk is in the tree, and what it is to come to: every unseen buffer, unless it is passed
over. -/
structure Placed (c : BtcFlush n) (m : Int) (passed : List (Fin n)) (t : LinkTree (Fin n))
    (next : Option (Fin n)) : Prop where
  ahead : ∀ u ∈ t.toList, m < c.page u → u ∉ passed → ∃ x, next = some x ∧ c.page x ≤ c.page u
  standing : ∀ x, next = some x → x ∈ t.toList →
    ∃ fs l r, t = plug fs (.node l x r) ∧ Standing c m passed fs x r ∧ Astray c m passed t x r
  there : ∀ u ∈ t.toList, m < c.page u → u ∈ passed → ∀ x, next = some x → x ∈ t.toList

/-- Where the walk stands when it goes down to the first node of an unseen right subtree. -/
theorem Placed.down {gs : List (Frame (Fin n))} {m : LinkTree (Fin n)} {z : Fin n}
    (standing : Standing c f.maxSeen passed fs x r)
    (astray : Astray c f.maxSeen passed (plug fs (.node l x r)) x r)
    (seen : c.page x ≤ f.maxSeen) (top : r.top = some z) (less : f.maxSeen < c.page z)
    (tree : r = plug gs (.node .leaf y m)) :
    ∃ fs' l' r', plug fs (.node l x r) = plug fs' (.node l' y r') ∧
      Standing c f.maxSeen passed fs' y r' ∧
      Astray c f.maxSeen passed (plug fs (.node l x r)) y r' := by
  have all : ∀ u ∈ r.toList, f.maxSeen < c.page u := by
    rcases standing.right seen with unseen | ⟨⟨v, top', low⟩, -⟩
    · exact unseen
    · rw [Option.some.inj (top.symm.trans top')] at less
      exact absurd less (Int.not_lt.mpr low)
  have list : ∀ u, u ∈ r.toList ↔ u ∈ before gs ∨ u ∈ m.toList ∨ u = y ∨ u ∈ after gs := by
    intro u
    rw [tree, toList_plug_node]
    simp only [LinkTree.toList_leaf, List.nil_append, List.mem_append, List.mem_cons]
    tauto
  refine ⟨gs ++ .right l x :: fs, .leaf, m, ?_, ⟨fun u hu => ?_, fun low => ?_⟩, ?_⟩
  · rw [plug_append, ← tree]
    rfl
  · rw [after_append, List.mem_append] at hu
    rcases hu with hu | hu
    · exact all u ((list u).mpr (.inr (.inr (.inr hu))))
    · exact standing.behind u hu
  · exact absurd (all y ((list y).mpr (.inr (.inr (.inl rfl))))) (Int.not_lt.mpr low)
  · intro u hu unseen skipped
    rcases astray u hu unseen skipped with ⟨-, ⟨v, top', low⟩, -⟩ | less'
    · rw [Option.some.inj (top.symm.trans top')] at less
      exact absurd less (Int.not_lt.mpr low)
    · omega

/-- Where the walk stands when it goes up from a node whose right subtree is left behind. -/
theorem Placed.up (sorted : (plug fs (.node l x r)).toList.Pairwise (c.page · < c.page ·))
    (standing : Standing c f.maxSeen passed fs x r)
    (astray : Astray c f.maxSeen passed (plug fs (.node l x r)) x r)
    (seen : c.page x ≤ f.maxSeen) (left : ∀ u ∈ r.toList, f.maxSeen < c.page u → u ∈ passed)
    (up : above fs = some y) :
    ∃ fs' l' r', plug fs (.node l x r) = plug fs' (.node l' y r') ∧
      Standing c f.maxSeen passed fs' y r' ∧
      Astray c f.maxSeen passed (plug fs (.node l x r)) y r' := by
  rw [toList_plug_node] at sorted
  have inner := List.pairwise_append.mp (List.pairwise_append.mp sorted).2.1
  cases fs with
  | nil => simp [above] at up
  | cons g fs =>
    cases g with
    | left p k =>
      obtain rfl : p = y := Option.some.inj up
      have unseen := standing.behind p List.mem_cons_self
      refine ⟨fs, .node l x r, k, rfl, ⟨fun u hu => ?_, fun low => ?_⟩, ?_⟩
      · exact standing.behind u (List.mem_append_right _ hu)
      · exact absurd unseen (Int.not_lt.mpr low)
      · intro u hu unseen' skipped
        rcases astray u hu unseen' skipped with ⟨-, -, hu⟩ | less
        · refine .inr ?_
          have right := List.pairwise_append.mp (List.pairwise_cons.mp inner.2.1).2
          exact right.2.2 u hu p List.mem_cons_self
        · omega
    | right k p =>
      obtain rfl : p = y := Option.some.inj up
      have less : c.page p < c.page x := by
        refine (List.pairwise_append.mp sorted).2.2 p ?_ x (by simp)
        simp [before, Frame.before]
      refine ⟨fs, k, .node l x r, rfl, ⟨fun u hu => ?_, fun _ => .inr ⟨⟨x, rfl, seen⟩, ?_⟩⟩, ?_⟩
      · exact standing.behind u (by simpa [after, Frame.after] using hu)
      · intro u hu unseen
        simp only [LinkTree.toList_node, List.mem_append, List.mem_cons] at hu
        rcases hu with hu | rfl | hu
        · have := inner.2.2 u hu x List.mem_cons_self
          omega
        · omega
        · exact left u hu unseen
      · intro u hu unseen skipped
        rcases astray u hu unseen skipped with ⟨-, -, hu⟩ | less'
        · refine .inl ⟨(less.trans_le seen).le, ⟨x, rfl, seen⟩, ?_⟩
          simp [hu]
        · omega

/-- A turn at a buffer that has been seen. -/
theorem Placed.move (h : DirtyTree c.page f.btree (plug fs (.node l x r)))
    (standing : Standing c f.maxSeen passed fs x r)
    (astray : Astray c f.maxSeen passed (plug fs (.node l x r)) x r)
    (seen : c.page x ≤ f.maxSeen) {go : Option (Fin n)} (run : flushNext c f x = .ok go) :
    Placed c f.maxSeen passed (plug fs (.node l x r)) go := by
  -- what is to the right below a seen node has been passed over
  have hidden : (∃ z, r.top = some z ∧ c.page z ≤ f.maxSeen) →
      ∀ u ∈ r.toList, f.maxSeen < c.page u → u ∈ passed := by
    rintro ⟨z, top, low⟩
    rcases standing.right seen with unseen | ⟨-, all⟩
    · exact absurd (unseen z (LinkTree.top_mem top)) (Int.not_lt.mpr low)
    · exact all
  refine ⟨fun u mem unseen other => ?_, fun y next mem => ?_, fun u mem unseen skipped y next => ?_⟩
  · refine (flushNext_ahead h run mem (lt_of_le_of_lt seen unseen)).resolve_right ?_
    rintro ⟨hu, low⟩
    exact other (hidden low u hu unseen)
  · rcases flushNext_spec h with ⟨gs, z, m, w, top, less, tree, -, run'⟩ | ⟨low, run'⟩
    · obtain rfl : y = z := Option.some.inj (next.symm.trans (Except.ok.inj (run.symm.trans run')))
      exact Placed.down standing astray seen top less tree
    · have up : above fs = some y := (Except.ok.inj (run.symm.trans run')).symm.trans next
      -- the right subtree is left behind, so that all of it is seen or passed over
      have left : ∀ u ∈ r.toList, f.maxSeen < c.page u → u ∈ passed := by
        cases top : r.top with
        | none =>
          rw [LinkTree.top_none top]
          simp
        | some z => exact hidden ⟨z, top, low z top⟩
      exact Placed.up h.sorted standing astray seen left up
  · -- the next one is a node of the same tree
    rcases flushNext_spec h with ⟨gs, z, m, -, -, -, tree, -, run'⟩ | ⟨-, run'⟩
    · obtain rfl : y = z := Option.some.inj (next.symm.trans (Except.ok.inj (run.symm.trans run')))
      rw [toList_plug_node, tree, toList_plug_node]
      simp
    · have up : above fs = some y := (Except.ok.inj (run.symm.trans run')).symm.trans next
      rw [toList_plug_node]
      rcases above_mem up with hy | hy <;> simp [hy]

/-- Behind a place before which nothing is passed over. -/
theorem Placed.later {m : Int} {go : Option (Fin n)} (h' : DirtyTree c.page f'.btree t')
    (ahead : ∀ u ∈ t'.toList, m < c.page u → ∃ y, go = some y ∧ c.page y ≤ c.page u)
    (later : ∀ y, go = some y → m < c.page y) : Placed c m [] t' go := by
  refine ⟨fun u mem more _ => ahead u mem more, fun y next mem => ?_,
    fun u _ _ passed => absurd passed List.not_mem_nil⟩
  obtain ⟨gs, l', r', rfl⟩ := exists_plug mem
  have sorted' := h'.sorted
  rw [toList_plug_node] at sorted'
  have inner := List.pairwise_append.mp (List.pairwise_append.mp sorted').2.1
  have more := later y next
  refine ⟨gs, l', r', rfl, ⟨fun u hu => ?_, fun low => ?_⟩,
    fun u _ _ passed => absurd passed List.not_mem_nil⟩
  · exact more.trans ((List.pairwise_cons.mp inner.2.1).1 u (List.mem_append_right _ hu))
  · exact absurd more (Int.not_lt.mpr low)

/-- Where the walk stands when it goes up from a visited right child: what the removals have joined to
the parent is passed over when they left a seen node between. -/
theorem Placed.joined {k : LinkTree (Fin n)} {p : Fin n}
    (h : DirtyTree c.page f.btree (plug (.right k p :: fs) (.node l bdb .leaf)))
    (h' : DirtyTree c.page f'.btree t')
    (pruned : Pruned (plug (.right k p :: fs) (.node l bdb .leaf)) t') (mem : p ∈ t'.toList) :
    ∃ fs' l' r', t' = plug fs' (.node l' p r') ∧
      Standing c (c.page bdb) (passedOver c f.btree f'.btree bdb) fs' p r' ∧
      Astray c (c.page bdb) (passedOver c f.btree f'.btree bdb) t' p r' := by
  have sorted := h.sorted
  rw [toList_plug_node] at sorted
  have outer := List.pairwise_append.mp sorted
  have inner := List.pairwise_append.mp outer.2.1
  have behind := List.pairwise_cons.mp inner.2.1
  obtain ⟨-, parent, -, right, -, -⟩ := h.holds.plug_iff
  have less : c.page p < c.page bdb := by
    refine outer.2.2 p ?_ bdb (by simp)
    simp [before, Frame.before]
  obtain ⟨fs', l', r', joined, rfl, part, inside, after'⟩ :=
    Pruned.right (show Pruned (plug fs (.node k p (.node l bdb .leaf))) _ from pruned) mem
  have later : ∀ u ∈ after fs, c.page bdb < c.page u := fun u hu =>
    behind.1 u (by simp [after, Frame.after, hu])
  obtain ⟨-, -, -, right', -, repr⟩ := h'.holds.plug_iff
  have room : (r'.splice joined).toList.length ≤ n := by
    have all := h'.length_le
    rw [toList_plug_node] at all
    simp only [List.length_append, List.length_cons] at all
    omega
  have listed := buffersBelow_eq repr room
  rw [← right'] at listed
  have whole : ∀ z, (r'.splice joined).top = some z → c.page z ≤ c.page bdb →
      ∀ u, u ∈ passedOver c f.btree f'.btree bdb ↔
        u ∈ (r'.splice joined).toList ∧ c.page bdb < c.page u := by
    intro z top low u
    rw [top] at right'
    rw [right'] at listed
    rw [mem_passedOver, ← listed]
    constructor
    · rintro ⟨-, q, e, -, -, w, e', -, both⟩
      obtain rfl : p = q := Option.some.inj (parent.symm.trans e)
      obtain rfl : z = w := Option.some.inj (right'.symm.trans e')
      exact both
    · exact fun both =>
        ⟨right, p, parent, less, (linked_iff h'.holds).mpr mem, z, right', low, both⟩
  have top : ∀ z, (r'.splice joined).top = some z → c.page z ≤ c.page bdb ∨
      ∀ u ∈ (r'.splice joined).toList, c.page bdb < c.page u := by
    intro z top
    by_cases leaf : r' = .leaf
    · right
      rw [leaf]
      exact fun u hu => later u (inside u hu)
    · left
      rw [splice_top leaf] at top
      have mem := part.mem (LinkTree.top_mem top)
      simp only [LinkTree.toList_node, LinkTree.toList_leaf, List.mem_append,
        List.mem_singleton] at mem
      rcases mem with mem | rfl
      · exact (inner.2.2 z mem bdb List.mem_cons_self).le
      · exact le_refl _
  refine ⟨fs', l', r'.splice joined, rfl, ⟨fun u hu => later u (after' u hu), fun _ => ?_⟩, ?_⟩
  · cases first : (r'.splice joined).top with
    | none =>
      left
      rw [LinkTree.top_none first]
      simp
    | some z =>
      rcases top z first with low | all
      · exact .inr ⟨⟨z, rfl, low⟩, fun u hu more => (whole z first low u).mpr ⟨hu, more⟩⟩
      · exact .inl all
  · intro u _ _ hu
    refine .inl ⟨less.le, ?_⟩
    obtain ⟨-, q, e, -, -, z, e', low, -⟩ := mem_passedOver.mp hu
    obtain rfl : p = q := Option.some.inj (parent.symm.trans e)
    rw [right'] at e'
    exact ⟨⟨z, e', low⟩, ((whole z e' low u).mp hu).1⟩

/-- A buffer is visited, and the walk goes on in what is left of the tree. -/
theorem Placed.visit (h : DirtyTree c.page f.btree (plug fs (.node l bdb r)))
    (unseen : f.maxSeen < c.page bdb) {go : Option (Fin n)} (run : flushNext c f bdb = .ok go)
    (h' : DirtyTree c.page f'.btree t') (pruned : Pruned (plug fs (.node l bdb r)) t') :
    Placed c (c.page bdb) (passedOver c f.btree f'.btree bdb) t' go := by
  have sorted := h.sorted
  rw [toList_plug_node] at sorted
  have outer := List.pairwise_append.mp sorted
  have inner := List.pairwise_append.mp outer.2.1
  have behind := List.pairwise_cons.mp inner.2.1
  obtain ⟨-, parent, -, right, -, -⟩ := h.holds.plug_iff
  have none : ¬ ∃ z, r.top = some z ∧ c.page z ≤ f.maxSeen := by
    rintro ⟨z, top, low⟩
    have := behind.1 z (List.mem_append_left _ (LinkTree.top_mem top))
    omega
  have ahead : ∀ u ∈ t'.toList, c.page bdb < c.page u →
      ∃ y, go = some y ∧ c.page y ≤ c.page u := fun u mem more =>
    (flushNext_ahead h run (pruned.mem mem) more).resolve_right fun low => none low.2
  -- the places before which nothing was passed over
  have easy : passedOver c f.btree f'.btree bdb = [] → (∀ y, go = some y → c.page bdb < c.page y) →
      Placed c (c.page bdb) (passedOver c f.btree f'.btree bdb) t' go := by
    intro nothing later
    rw [nothing]
    exact Placed.later h' ahead later
  rcases flushNext_spec h with ⟨gs, y, m, z, top, -, tree, -, run'⟩ | ⟨low, run'⟩
  · obtain rfl : go = some y := Except.ok.inj (run.symm.trans run')
    refine easy ?_ ?_
    · refine List.eq_nil_iff_forall_not_mem.mpr fun u hu => ?_
      have := (mem_passedOver.mp hu).1
      rw [right, top] at this
      simp at this
    · intro w e
      obtain rfl := Option.some.inj e
      refine behind.1 y (List.mem_append_left _ ?_)
      rw [tree, toList_plug_node]
      simp
  · obtain rfl : go = above fs := Except.ok.inj (run.symm.trans run')
    obtain rfl : r = .leaf := by
      cases top : r.top with
      | none => exact LinkTree.top_none top
      | some z => exact absurd ⟨z, top, low z top⟩ none
    cases fs with
    | nil =>
      refine easy ?_ fun y e => absurd e (by simp [above])
      refine List.eq_nil_iff_forall_not_mem.mpr fun u hu => ?_
      obtain ⟨-, p, e, -⟩ := mem_passedOver.mp hu
      exact absurd (parent.symm.trans e) (by simp [above])
    | cons g fs =>
      cases g with
      | left p k =>
        have less : c.page bdb < c.page p := behind.1 p (by simp [after, Frame.after])
        refine easy ?_ fun y e => ?_
        · refine List.eq_nil_iff_forall_not_mem.mpr fun u hu => ?_
          obtain ⟨-, q, e, less', -⟩ := mem_passedOver.mp hu
          obtain rfl : p = q := Option.some.inj (parent.symm.trans e)
          omega
        · rw [← Option.some.inj e]
          exact less
      | right k p =>
        have skipped : ∀ u, u ∈ passedOver c f.btree f'.btree bdb → p ∈ t'.toList := by
          intro u hu
          obtain ⟨-, q, e, -, linked, -⟩ := mem_passedOver.mp hu
          obtain rfl : p = q := Option.some.inj (parent.symm.trans e)
          exact (linked_iff h'.holds).mp linked
        refine ⟨fun u mem more _ => ahead u mem more, fun y next mem => ?_, fun u _ _ hu y next => ?_⟩
        · obtain rfl : p = y := Option.some.inj next
          exact Placed.joined h h' pruned mem
        · obtain rfl : p = y := Option.some.inj next
          exact skipped u hu

/-- What holds between the turns of the walk: the rest of the buffers is still to be dealt with. -/
structure Sweeping (c : BtcFlush n) (rest passed : List (Fin n)) (f : FlushState n)
    (t : LinkTree (Fin n)) : Prop extends Walking c f t where
  sorted : rest.Pairwise (c.page · < c.page ·)
  unseen : ∀ u ∈ rest, f.maxSeen < c.page u
  listed : ∀ u ∈ t.toList, f.maxSeen < c.page u → u ∈ rest
  placed : Placed c f.maxSeen passed t f.next

/-- What the walk writes is what the steps write, and a buffer that is due is written or passed
over. -/
def Swept (c : BtcFlush n) (rest passed : List (Fin n)) (f : FlushState n) (t : LinkTree (Fin n))
    (g : FlushState n) : Prop :=
  (∀ u, u ∈ g.written ↔ u ∈ f.written ∨ ∃ step ∈ flushSteps c rest passed f, u ∈ step.written) ∧
  ∀ u, Pending c f t u → u ∉ passed →
    u ∈ g.written ∨ ∃ step ∈ flushSteps c rest passed f, u ∈ step.passed

/-- When the walk is over, nothing is left ahead of it. -/
theorem Sweeping.finished (w : Sweeping c rest passed f t) (done : f.next = none ∨ t = .leaf) :
    Swept c rest passed f t f := by
  have skipped : ∀ u ∈ t.toList, f.maxSeen < c.page u → u ∈ passed := by
    intro u mem unseen
    by_contra other
    rcases done with none | rfl
    · obtain ⟨x, e, -⟩ := w.placed.ahead u mem unseen other
      exact absurd (none.symm.trans e) (by simp)
    · simp at mem
  have nothing : flushSteps c rest passed f = [] := by
    rw [← List.append_nil rest]
    refine flushSteps_append (fun x hx => ?_) []
    rintro ⟨linked, other⟩
    exact other (skipped x ((linked_iff w.tree.holds).mp linked) (w.unseen x hx))
  refine ⟨fun u => ?_, fun u p other => absurd (skipped u p.mem p.unseen) other⟩
  rw [nothing]
  simp

/-- The walk comes to an unseen buffer: it is the first of the rest that is in the tree and not passed
over. -/
theorem Sweeping.comes (w : Sweeping c rest passed f (plug fs (.node l bdb r)))
    (astray : Astray c f.maxSeen passed (plug fs (.node l bdb r)) bdb r)
    (unseen : f.maxSeen < c.page bdb)
    (least : ∀ u ∈ (plug fs (.node l bdb r)).toList, f.maxSeen < c.page u → u ∉ passed →
      c.page bdb ≤ c.page u) :
    ∃ pre later, rest = pre ++ bdb :: later ∧ bdb ∉ passed ∧
      ∀ x ∈ pre, ¬ (Linked f.btree x ∧ x ∉ passed) := by
  have mem : bdb ∈ (plug fs (.node l bdb r)).toList := by
    rw [toList_plug_node]
    simp
  obtain ⟨pre, later, rfl⟩ := List.append_of_mem (w.listed bdb mem unseen)
  refine ⟨pre, later, rfl, fun skipped => ?_, fun x hx => ?_⟩
  · rcases astray bdb mem unseen skipped with ⟨seen, -⟩ | less
    · omega
    · omega
  · rintro ⟨linked, other⟩
    have le := least x ((linked_iff w.tree.holds).mp linked)
      (w.unseen x (List.mem_append_left _ hx)) other
    have less := (List.pairwise_append.mp w.sorted).2.2 x hx bdb List.mem_cons_self
    omega

/-- After the visit of a buffer, the ones behind it are still to be dealt with. -/
theorem Sweeping.visit {pre later : List (Fin n)} {go : Option (Fin n)}
    (w : Sweeping c (pre ++ bdb :: later) passed f (plug fs (.node l bdb r)))
    (unseen : f.maxSeen < c.page bdb) (step : flushNext c f bdb = .ok go)
    (visited : Visited c (flushGoOn c go f) (plug fs (.node l bdb r)) bdb (flushGoOn c go f') t') :
    Sweeping c later (passedOver c f.btree f'.btree bdb) (flushGoOn c go f') t' := by
  have order := List.pairwise_cons.mp (List.pairwise_append.mp w.sorted).2.1
  refine ⟨⟨visited.tree, flushGoOn_nextPage go⟩, order.2, ?_, ?_, ?_⟩
  · intro u hu
    rw [visited.maxSeen]
    exact order.1 u hu
  · intro u mem more
    rw [visited.maxSeen] at more
    have hu := w.listed u (visited.pruned.mem mem) (unseen.trans more)
    rcases List.mem_append.mp hu with hu | hu
    · have := (List.pairwise_append.mp w.sorted).2.2 u hu bdb List.mem_cons_self
      omega
    · rcases List.mem_cons.mp hu with rfl | hu
      · exact absurd more (Int.lt_irrefl _)
      · exact hu
  · rw [visited.maxSeen]
    show Placed c (c.page bdb) (passedOver c f.btree f'.btree bdb) _ _
    exact Placed.visit w.tree unseen step visited.tree visited.pruned

/-- The step of a visit comes before those of the rest of the walk. -/
theorem Swept.cons {pre later : List (Fin n)} {go : Option (Fin n)} {g : FlushState n}
    (steps : flushSteps c (pre ++ bdb :: later) passed f =
      ⟨passedOver c f.btree f'.btree bdb, f'.written⟩ ::
        flushSteps c later (passedOver c f.btree f'.btree bdb) f')
    (visited : Visited c (flushGoOn c go f) t bdb (flushGoOn c go f') t')
    (least : ∀ u ∈ t.toList, f.maxSeen < c.page u → u ∉ passed → c.page bdb ≤ c.page u)
    (swept : Swept c later (passedOver c f.btree f'.btree bdb) (flushGoOn c go f') t' g) :
    Swept c (pre ++ bdb :: later) passed f t g := by
  obtain ⟨written, due⟩ := swept
  rw [flushSteps_goOn] at written due
  have first_written : ∀ u ∈ f'.written, u ∈ g.written := fun u hu =>
    (written u).mpr (.inl hu)
  refine ⟨fun u => ?_, fun u p skipped => ?_⟩
  · rw [steps]
    simp only [List.mem_cons, exists_eq_or_imp]
    refine (written u).trans ⟨?_, ?_⟩
    · rintro (hu | hu)
      · exact .inr (.inl hu)
      · exact .inr (.inr hu)
    · rintro (hu | hu | hu)
      · exact .inl (visited.more u hu)
      · exact .inl hu
      · exact .inr hu
  · rw [steps]
    simp only [List.mem_cons, exists_eq_or_imp]
    have le := least u p.mem p.unseen skipped
    rcases visited.pending u ⟨p.mem, p.unseen, p.dirty, p.length, p.selected⟩ le with hu | p'
    · exact .inl (first_written u hu)
    · by_cases away : u ∈ passedOver c f.btree f'.btree bdb
      · exact .inr (.inl away)
      · exact (due u p' away).imp_right .inr

/-- The walk deals with the buffers one after the other, as the steps do. -/
theorem Sweeping.loop (distinct : Function.Injective c.page) {fuel : Nat} {g : FlushState n}
    (w : Sweeping c rest passed f t) (run : flushLoop c fuel f = .ok g) :
    Swept c rest passed f t g := by
  induction fuel generalizing rest passed f t with
  | zero => exact absurd run (by simp [flushLoop])
  | succ fuel ih =>
    have finished : flushTurn c f = .ok none → f.next = none ∨ t = .leaf →
        Swept c rest passed f t g := by
      intro turn done
      unfold flushLoop at run
      rw [turn] at run
      obtain rfl : f = g := Except.ok.inj run
      exact w.finished done
    have goesOn : ∀ f', flushTurn c f = .ok (some f') → flushLoop c fuel f' = .ok g := by
      intro f' turn
      unfold flushLoop at run
      rw [turn] at run
      exact run
    have failed : ¬ Unwinds c (flushTurn c f) := by
      rintro ⟨stop, -⟩
      unfold flushLoop at run
      rw [stop] at run
      exact absurd run (by simp [Except.bind])
    -- a turn about a buffer of the tree
    have turn : ∀ fs l bdb r x, t = plug fs (.node l bdb r) → f.next = some x →
        flushFind c f x = .ok (some bdb) → Standing c f.maxSeen passed fs bdb r →
        Astray c f.maxSeen passed t bdb r →
        (∀ u ∈ t.toList, f.maxSeen < c.page u → u ∉ passed → c.page bdb ≤ c.page u) →
        Swept c rest passed f t g := by
      rintro fs l bdb r x rfl next found standing astray least
      obtain ⟨go, step, ⟨seen, turn⟩ | ⟨unseen, stop | ⟨f', t', visit, turn, visited⟩⟩⟩ :=
        flushTurn_found distinct w.tree next found
      · have w' : Sweeping c rest passed (flushGoOn c go f) (plug fs (.node l bdb r)) :=
          ⟨⟨w.tree, flushGoOn_nextPage go⟩, w.sorted, w.unseen, w.listed,
            Placed.move w.tree standing astray seen step⟩
        obtain ⟨written, due⟩ := ih w' (goesOn _ turn)
        unfold Swept
        rw [flushSteps_goOn] at written due
        exact ⟨written, fun u p => due u ⟨p.mem, p.unseen, p.dirty, p.length, p.selected⟩⟩
      · exact absurd stop failed
      · obtain ⟨pre, later, rfl, other, gone⟩ := w.comes astray unseen least
        have linked : Linked f.btree bdb := by
          refine (linked_iff w.tree.holds).mpr ?_
          rw [toList_plug_node]
          simp
        rw [flushVisit_goOn] at visit
        obtain ⟨f₁, first, rfl⟩ : ∃ f₁, flushVisit c bdb f = .ok f₁ ∧ flushGoOn c go f₁ = f' := by
          cases first : flushVisit c bdb f with
          | error stop =>
            rw [first] at visit
            exact absurd visit (by simp [Except.map])
          | ok f₁ =>
            rw [first] at visit
            exact ⟨f₁, rfl, Except.ok.inj visit⟩
        have steps : flushSteps c (pre ++ bdb :: later) passed f =
            ⟨passedOver c f.btree f₁.btree bdb, f₁.written⟩ ::
              flushSteps c later (passedOver c f.btree f₁.btree bdb) f₁ := by
          rw [flushSteps_append gone, flushSteps_cons ⟨linked, other⟩ later first]
        exact .cons steps visited least (ih (w.visit unseen step visited) (goesOn _ turn))
    cases next : f.next with
    | none =>
      refine finished ?_ (.inl next)
      unfold flushTurn
      rw [next]
    | some x =>
      rcases flushFind_spec w.tree (w.nextPage x next) with ⟨mem, found⟩ | ⟨-, leaf, found⟩ |
        ⟨away, y, gs, l, r, found, tree, least, standing⟩
      · obtain ⟨fs, l, r, tree, standing, astray⟩ := w.placed.standing x next mem
        refine turn fs l x r x tree next found standing astray fun u hu unseen other => ?_
        obtain ⟨y, e, le⟩ := w.placed.ahead u hu unseen other
        rwa [Option.some.inj (next.symm.trans e)]
      · refine finished ?_ (.inr leaf)
        unfold flushTurn
        rw [next]
        show (flushFind c f x).bind _ = _
        rw [found]
        rfl
      · refine turn gs l y r x tree next found (standing passed) (fun u hu unseen skipped => ?_)
          fun u hu unseen _ => least u hu unseen
        exact absurd (w.placed.there u hu unseen skipped x next) away

/-- With enough fuel the walk is over, or a write has failed. -/
def Ends (c : BtcFlush n) (f : FlushState n) : Prop :=
  ∃ fuel, (∃ g, flushLoop c fuel f = .ok g) ∨ Unwinds c (flushLoop c fuel f)

theorem ends_finished (done : flushTurn c f = .ok none) : Ends c f := by
  refine ⟨1, .inl ⟨f, ?_⟩⟩
  unfold flushLoop
  rw [done]
  rfl

theorem ends_unwound (stop : Unwinds c (flushTurn c f)) : Ends c f := by
  refine ⟨1, .inr ⟨?_, stop.2⟩⟩
  unfold flushLoop
  rw [stop.1]
  rfl

theorem ends_turn (turn : flushTurn c f = .ok (some f')) (ends : Ends c f') : Ends c f := by
  obtain ⟨fuel, run⟩ := ends
  refine ⟨fuel + 1, ?_⟩
  unfold flushLoop
  rw [turn]
  exact run

/-- The size of the subtree that a move within it does not leave: the one at the nearest node that
is unseen, or the whole tree. -/
def confined (page : Fin n → Int) (m : Int) : List (Frame (Fin n)) → LinkTree (Fin n) → Nat
  | [], t => t.toList.length
  | g :: fs, t =>
    if t.top.any (m < page ·) then t.toList.length else confined page m fs (g.fill t)

theorem le_confined (page : Fin n → Int) (m : Int) (fs : List (Frame (Fin n)))
    (t : LinkTree (Fin n)) : t.toList.length ≤ confined page m fs t := by
  induction fs generalizing t with
  | nil => exact le_refl _
  | cons g fs ih =>
    unfold confined
    split
    · exact le_refl _
    · refine le_trans ?_ (ih (g.fill t))
      rw [Frame.toList_fill]
      simp only [List.length_append]
      omega

theorem confined_le (page : Fin n → Int) (m : Int) (gs fs : List (Frame (Fin n)))
    (t : LinkTree (Fin n)) (unseen : (plug gs t).top.any (m < page ·) = true) :
    confined page m (gs ++ fs) t ≤ (plug gs t).toList.length := by
  induction gs generalizing t with
  | nil =>
    cases fs with
    | nil => exact le_refl _
    | cons g fs =>
      have top : t.top.any (m < page ·) = true := unseen
      show (if t.top.any (m < page ·) then t.toList.length else _) ≤ t.toList.length
      rw [if_pos top]
  | cons g gs ih =>
    show (if t.top.any (m < page ·) then t.toList.length
      else confined page m (gs ++ fs) (g.fill t)) ≤ _
    split
    · rw [toList_plug]
      simp only [List.length_append]
      omega
    · exact ih (g.fill t) unseen

def unseenCount (c : BtcFlush n) (f : FlushState n) (t : LinkTree (Fin n)) : Nat :=
  (t.toList.filter fun x => f.maxSeen < c.page x).length

theorem Visited.unseenCount_lt {bdb : Fin n} (v : Visited c f t bdb f' t')
    (mem : bdb ∈ t.toList) (unseen : f.maxSeen < c.page bdb) :
    unseenCount c f' t' < unseenCount c f t := by
  unfold unseenCount
  rw [v.maxSeen]
  have nodup : (bdb :: t'.toList.filter fun x => c.page bdb < c.page x).Nodup := by
    refine List.nodup_cons.mpr ⟨fun h => ?_, v.tree.nodup.filter _⟩
    simpa using (List.mem_filter.mp h).2
  refine (nodup.subperm fun x hx => ?_).length_le
  rcases List.mem_cons.mp hx with rfl | hx
  · exact List.mem_filter.mpr ⟨mem, decide_eq_true unseen⟩
  · obtain ⟨mem', more⟩ := List.mem_filter.mp hx
    refine List.mem_filter.mpr ⟨v.pruned.mem mem', decide_eq_true ?_⟩
    exact unseen.trans (of_decide_eq_true more)

/-- What a turn does that starts in the tree. -/
theorem Walking.move (distinct : Function.Injective c.page) {fs : List (Frame (Fin n))}
    {l r : LinkTree (Fin n)} {x : Fin n} (w : Walking c f (plug fs (.node l x r)))
    (next : f.next = some x) :
    Unwinds c (flushTurn c f) ∨
    (∃ f' t', flushTurn c f = .ok (some f') ∧ Walking c f' t' ∧
      unseenCount c f' t' < unseenCount c f (plug fs (.node l x r))) ∨
    c.page x ≤ f.maxSeen ∧ (flushTurn c f = .ok (some (flushGoOn c (above fs) f)) ∨
      ∃ gs y m, r = plug gs (.node .leaf y m) ∧ r.top.any (f.maxSeen < c.page ·) = true ∧
        flushTurn c f = .ok (some (flushGoOn c (some y) f))) := by
  have mem : x ∈ (plug fs (.node l x r)).toList := by
    rw [toList_plug_node]
    simp
  rcases flushTurn_cases distinct w.tree w.nextPage with ⟨-, none | leaf⟩ |
    ⟨_, _, bdb, _, go, -, near, run, did⟩
  · exact absurd (none.symm.trans next) (by simp)
  · rw [leaf] at mem
    simp at mem
  obtain rfl : x = bdb := by
    rcases near with e | away
    · exact Option.some.inj (next.symm.trans e)
    · exact absurd mem (away x next)
  rcases did with ⟨seen, turn⟩ | ⟨unseen, stop | ⟨f', t', turn, v⟩⟩
  · refine .inr (.inr ⟨seen, ?_⟩)
    rcases flushNext_spec w.tree with ⟨gs, y, m, right, top, less, tree, -, run'⟩ | ⟨-, run'⟩
    · obtain rfl : go = some y := Except.ok.inj (run.symm.trans run')
      refine .inr ⟨gs, y, m, tree, ?_, turn⟩
      rw [top]
      exact decide_eq_true less
    · obtain rfl : go = above fs := Except.ok.inj (run.symm.trans run')
      exact .inl turn
  · exact .inl stop
  · refine .inr (.inl ⟨f', t', turn, ⟨v.tree, fun y e => ?_⟩, ?_⟩)
    · rw [v.nextPage]
      exact flushGoOn_nextPage go y (v.next.symm.trans e)
    · exact v.unseenCount_lt mem unseen

/-- A walk ends that stands in the tree: a move goes up, or down below an unseen node, and a visit
leaves fewer unseen ones. -/
theorem Walking.ends_located (distinct : Function.Injective c.page) {k size depth : Nat}
    (fewer : ∀ f' t', Walking c f' t' → unseenCount c f' t' < k → Ends c f')
    {fs : List (Frame (Fin n))} {l r : LinkTree (Fin n)} {x : Fin n}
    (w : Walking c f (plug fs (.node l x r))) (next : f.next = some x)
    (count : unseenCount c f (plug fs (.node l x r)) ≤ k)
    (room : confined c.page f.maxSeen fs (.node l x r) = size) (high : fs.length = depth) :
    Ends c f := by
  induction size using Nat.strong_induction_on generalizing f fs l r x depth with
  | _ size down =>
    induction depth using Nat.strong_induction_on generalizing f fs l r x with
    | _ depth up =>
      rcases w.move distinct next with stop | ⟨f', t', turn, w', less⟩ | ⟨seen, turn | move⟩
      · exact ends_unwound stop
      · exact ends_turn turn (fewer f' t' w' (less.trans_le count))
      · refine ends_turn turn ?_
        cases fs with
        | nil => exact ends_finished rfl
        | cons g fs =>
          -- the subtree that confines the walk is the same one
          have same : confined c.page f.maxSeen fs (g.fill (.node l x r)) = size := by
            rw [← room]
            refine (if_neg ?_).symm
            exact fun unseen => absurd (of_decide_eq_true unseen) (Int.not_lt.mpr seen)
          have shallow : fs.length < depth := by
            rw [← high]
            exact Nat.lt_succ_self _
          cases g with
          | left y k =>
            have w' : Walking c (flushGoOn c (some y) f) (plug fs (.node (.node l x r) y k)) :=
              ⟨w.tree, flushGoOn_nextPage _⟩
            exact up _ shallow w' rfl count same rfl
          | right k y =>
            have w' : Walking c (flushGoOn c (some y) f) (plug fs (.node k y (.node l x r))) :=
              ⟨w.tree, flushGoOn_nextPage _⟩
            exact up _ shallow w' rfl count same rfl
      · obtain ⟨gs, y, m, tree, unseen, turn⟩ := move
        refine ends_turn turn ?_
        have deeper : plug fs (.node l x r) =
            plug (gs ++ .right l x :: fs) (.node .leaf y m) := by
          rw [plug_append, ← tree]
          rfl
        have smaller : confined c.page f.maxSeen (gs ++ .right l x :: fs) (.node .leaf y m) <
            size := by
          refine lt_of_le_of_lt (confined_le _ _ gs _ _ (tree ▸ unseen)) ?_
          rw [← room, ← tree]
          refine lt_of_lt_of_le ?_ (le_confined _ _ fs _)
          rw [LinkTree.toList_node, List.length_append, List.length_cons]
          omega
        refine down _ smaller (f := flushGoOn c (some y) f) ?_ rfl ?_ rfl rfl
        · exact ⟨deeper ▸ w.tree, flushGoOn_nextPage _⟩
        · exact deeper ▸ count

/-- Every walk ends. -/
theorem Walking.ends (distinct : Function.Injective c.page) (w : Walking c f t) : Ends c f := by
  have all : ∀ k f t, Walking c f t → unseenCount c f t ≤ k → Ends c f := by
    intro k
    induction k using Nat.strong_induction_on with
    | _ k ih =>
      intro f t w count
      have fewer : ∀ f' t', Walking c f' t' → unseenCount c f' t' < k → Ends c f' :=
        fun f' t' w' less => ih _ less f' t' w' (le_refl _)
      rcases flushTurn_cases distinct w.tree w.nextPage with ⟨done, -⟩ |
        ⟨fs, l, bdb, r, go, rfl, -, run, ⟨-, turn⟩ | ⟨unseen, stop | ⟨f', t', turn, v⟩⟩⟩
      · exact ends_finished done
      · -- the next buffer is in the tree, wherever the walk was before
        refine ends_turn turn ?_
        have w' : Walking c (flushGoOn c go f) (plug fs (.node l bdb r)) :=
          ⟨w.tree, flushGoOn_nextPage go⟩
        cases go with
        | none => exact ends_finished rfl
        | some y =>
          have mem : y ∈ (plug fs (.node l bdb r)).toList := by
            rcases flushNext_spec w.tree with ⟨gs, z, m, -, -, -, tree, -, run'⟩ | ⟨-, run'⟩
            · obtain rfl : y = z := Option.some.inj (Except.ok.inj (run.symm.trans run'))
              rw [toList_plug_node, tree, toList_plug_node]
              simp
            · have e : above fs = some y := (Except.ok.inj (run.symm.trans run')).symm
              rw [toList_plug_node]
              rcases above_mem e with h | h <;> simp [h]
          obtain ⟨fs', l', r', tree⟩ := exists_plug mem
          exact Walking.ends_located distinct fewer (tree ▸ w') rfl (tree ▸ count) rfl rfl
      · exact ends_unwound stop
      · refine ends_turn turn (fewer f' t' ⟨v.tree, fun y e => ?_⟩ ?_)
        · rw [v.nextPage]
          exact flushGoOn_nextPage go y (v.next.symm.trans e)
        · refine (v.unseenCount_lt ?_ unseen).trans_le count
          rw [toList_plug_node]
          simp
  exact all _ f t w (le_refl _)

/-- The walk starts before every buffer. -/
theorem flushStart_spec (low : ∀ x, minPageNumber < c.page x) (h : DirtyTree c.page f.btree t) :
    ∃ start, flushStart c f = .ok start ∧ start.written = [] ∧
      Sweeping c t.toList [] start t ∧ flushSteps c t.toList [] start = flushSweep c f ∧
      ∀ u ∈ t.toList, Due c f u → Pending c start t u := by
  have list : buffersBelow f.btree n f.btree.root = t.toList := by
    rw [h.holds.root]
    exact buffersBelow_eq h.holds.rep h.length_le
  have sweep : flushSweep c f = flushSteps c t.toList []
      { f with maxSeen := minPageNumber, calls := 0, written := [] } := by
    unfold flushSweep
    rw [list]
  have walks : ∀ next, Placed c minPageNumber [] t next →
      let start := flushGoOn c next { f with maxSeen := minPageNumber, calls := 0, written := [] }
      start.written = [] ∧ Sweeping c t.toList [] start t ∧
        flushSteps c t.toList [] start = flushSweep c f ∧
        ∀ u ∈ t.toList, Due c f u → Pending c start t u := by
    intro next placed
    refine ⟨rfl, ⟨⟨h, flushGoOn_nextPage next⟩, h.sorted, fun u _ => low u, fun u hu _ => hu,
      placed⟩, ?_, fun u mem due => ⟨mem, low u, due.1, due.2.1, due.2.2⟩⟩
    rw [flushSteps_goOn, sweep]
  unfold flushStart
  dsimp only
  rw [h.holds.root]
  cases t with
  | leaf =>
    refine ⟨_, rfl, walks none ⟨fun u mem => ?_, fun y e => ?_, fun u mem => ?_⟩⟩
    · simp at mem
    · simp at e
    · simp at mem
  | node l x r =>
    obtain ⟨gs, y, m, tree, first, run⟩ := descend_left h.holds.rep rfl h.length_le
    refine ⟨_, ?_, walks (some y) ⟨fun u mem _ _ => ⟨y, rfl, ?_⟩, fun z e mem => ?_,
      fun u _ _ skipped => absurd skipped List.not_mem_nil⟩⟩
    · show (descend f.btree.left n x).map _ = _
      rw [run]
      rfl
    · have sorted := h.sorted
      rw [tree, toList_plug_node, first] at sorted mem
      rcases List.mem_cons.mp mem with rfl | mem
      · exact le_refl _
      · exact ((List.pairwise_cons.mp sorted).1 u mem).le
    · obtain ⟨fs, l', r', tree'⟩ := exists_plug mem
      refine ⟨fs, l', r', tree', ⟨fun u _ => low u, fun seen => ?_⟩,
        fun u _ _ skipped => absurd skipped List.not_mem_nil⟩
      exact absurd (low z) (Int.not_lt.mpr seen)

/-- The dirty page tree is a search tree of the buffers inserted and not yet removed, however these
came in order; the flush ends, stands at no removed buffer, and writes each buffer of the tree that
the transaction could have modified, unless one is passed over that no later step writes. -/
theorem dirtyTree_flushed (c : BtcFlush n) (distinct : Function.Injective c.page)
    (low : ∀ x, minPageNumber < c.page x) (ops : List (BtcOp n)) :
    ((∃ s t, btcRun c.page ops btcEmpty = .ok s ∧ DirtyTree c.page s t ∧
        {x | x ∈ t.toList} = btcHeld ops ∅) ∨
      btcRun c.page ops btcEmpty = .error (.bugcheck 211) ∧
        ∃ done op rest, ops = done ++ op :: rest ∧ BtcMisuse op (btcHeld done ∅)) ∧
    ∀ f, btcRun c.page ops btcEmpty = .ok f.btree → ∃ start, flushStart c f = .ok start ∧
      (∃ fuel, (∃ g, flushLoop c fuel start = .ok g) ∨ Unwinds c (flushLoop c fuel start)) ∧
      (∀ g bdb, Reaches c start g → Visits c g bdb →
        ∃ t, DirtyTree c.page g.btree t ∧ bdb ∈ t.toList) ∧
      ∀ fuel g, flushLoop c fuel start = .ok g →
        ((∀ x ∈ btcHeld ops ∅, Due c f x → x ∈ g.written) ↔
          ∀ step ∈ flushSweep c f, ∀ x ∈ step.passed, x ∈ btcHeld ops ∅ → Due c f x →
            ∃ later ∈ flushSweep c f, x ∈ later.written) := by
  have empty : {x | x ∈ (LinkTree.leaf : LinkTree (Fin n)).toList} = ∅ := by simp
  have runs := btcRun_spec distinct dirtyTree_empty ops
  rw [empty] at runs
  refine ⟨runs, fun f run => ?_⟩
  rcases runs with ⟨s, t, run', h, held⟩ | ⟨stop, -⟩
  · obtain rfl : f.btree = s := Except.ok.inj (run.symm.trans run')
    obtain ⟨start, begins, fresh, w, sweep, pending⟩ := flushStart_spec low h
    refine ⟨start, begins, w.toWalking.ends distinct, fun g bdb reach visit => ?_, ?_⟩
    · obtain ⟨t', w'⟩ := w.toWalking.reaches distinct reach
      exact ⟨t', w'.tree, w'.visits visit⟩
    · intro fuel g loop
      obtain ⟨written, due⟩ := w.loop distinct loop
      rw [sweep] at written due
      rw [fresh] at written
      simp only [List.not_mem_nil, false_or] at written
      rw [← held]
      constructor
      · intro all step _ x _ mem selected
        exact (written x).mp (all x mem selected)
      · intro saved x mem selected
        rcases due x (pending x mem selected) List.not_mem_nil with hx | ⟨step, hs, hx⟩
        · exact hx
        · exact (written x).mpr (saved step hs x hx mem selected)
  · exact absurd (run.symm.trans stop) (by simp)

/-- The cache before a flush of buffers 0 to 4, which were inserted in this order: a transaction in
the second bucket has modified pages 5 and 7, one in the first the others. -/
def fiveOps : List (BtcOp 5) := [.insert 0, .insert 1, .insert 2, .insert 3, .insert 4]

def fiveCache (btree : Btree 5) : FlushState 5 where
  btree := btree
  dirty := fun _ => true
  systemDirty := fun _ => false
  mustWrite := fun _ => false
  transactions := fun x => if x = 1 ∨ x = 3 then 2 else 1
  maxSeen := 0
  next := none
  nextPage := 0
  calls := 0
  written := []

/-- Both buckets are flushed, and page 20, the root, has to be written before page 5: the pages to the
right of it go below page 10. -/
def fiveFlush : BtcFlush 5 where
  page := ![20, 5, 10, 7, 30]
  length := fun _ => 0
  transactionMask := 3
  sysOnly := false
  writes := fun k => some ⟨if k = 0 then [(0, false)] else [], false⟩

theorem dirtyTree_flushed_five : ∃ s start fuel g, btcRun fiveFlush.page fiveOps btcEmpty = .ok s ∧
    flushStart fiveFlush (fiveCache s) = .ok start ∧ flushLoop fiveFlush fuel start = .ok g ∧
    ∀ x, x ∈ g.written := by
  have runs : ∃ s, btcRun fiveFlush.page fiveOps btcEmpty = .ok s ∧
      (∀ x, Due fiveFlush (fiveCache s) x) ∧
      ∀ step ∈ flushSweep fiveFlush (fiveCache s), step.passed = [] := by
    refine ⟨_, rfl, by decide, ?_⟩
    decide
  obtain ⟨s, run, due, none⟩ := runs
  obtain ⟨start, begins, ⟨fuel, ends⟩, -, writes⟩ :=
    (dirtyTree_flushed fiveFlush (by decide) (by decide) fiveOps).2 (fiveCache s) run
  rcases ends with ⟨g, loop⟩ | ⟨-, k, failed⟩
  · refine ⟨s, start, fuel, g, run, begins, loop, fun x => (writes fuel g loop).mpr ?_ x ?_ (due x)⟩
    · intro step hs x hx
      rw [none step hs] at hx
      exact absurd hx List.not_mem_nil
    · simp only [fiveOps, btcHeld, BtcOp.hold, List.foldl_cons, List.foldl_nil, Set.mem_insert_iff]
      omega
  · exact absurd failed (by simp [fiveFlush])

/-- The first bucket is flushed, so that it is page 10 before which page 20 has to be written. -/
def strandedFlush : BtcFlush 5 := { fiveFlush with transactionMask := 1 }

theorem btcFlush_stranded : ∃ s g, btcRun strandedFlush.page fiveOps btcEmpty = .ok s ∧
    btcFlush strandedFlush 20 (fiveCache s) = .ok g ∧ 4 ∈ btcHeld fiveOps ∅ ∧
    Due strandedFlush (fiveCache s) 4 ∧ g.written = [0, 2] := by
  refine ⟨_, _, rfl, rfl, ?_, ?_, rfl⟩
  · simp [fiveOps, btcHeld, BtcOp.hold]
  · exact ⟨rfl, rfl, .inl (by decide)⟩

end

end InterBase.Btc
