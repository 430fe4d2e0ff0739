import InterBase.BtcWalk

namespace InterBase.Btc

open LinkedTree

section

variable {n : Nat} {c : BtcFlush n} {f f' : FlushState n} {t l r sub : LinkTree (Fin n)}
  {fs : List (Frame (Fin n))} {bdb x : Fin n}

/-- The leftmost node below a node. -/
theorem descend_left {s : Btree n} {p : Option (Fin n)} {fuel : Nat} (h : Rep s p t)
    (top : t.top = some x) (room : t.toList.length ≤ fuel) :
    ∃ gs y m, t = plug gs (.node .leaf y m) ∧ before gs = [] ∧ descend s.left fuel x = .ok y := by
  induction t generalizing p x fuel with
  | leaf => simp [LinkTree.top] at top
  | node l y m ih _ =>
    obtain rfl : y = x := Option.some.inj top
    obtain ⟨-, left, -, rep, -⟩ := h
    obtain _ | fuel := fuel
    · simp at room
    unfold descend
    rw [left]
    cases l with
    | leaf => exact ⟨[], y, m, rfl, rfl, rfl⟩
    | node l₁ z l₂ =>
      have less : (LinkTree.node l₁ z l₂).toList.length ≤ fuel := by
        rw [LinkTree.toList_node] at room
        simp only [List.length_append, List.length_cons] at room ⊢
        omega
      obtain ⟨gs, w, k, tree, first, run⟩ := ih rep rfl less
      refine ⟨gs ++ [.left y m], w, k, ?_, ?_, run⟩
      · rw [plug_append, ← tree]
        rfl
      · have app : ∀ gs : List (Frame (Fin n)), before gs = [] →
            before (gs ++ [Frame.left y m]) = [] := by
          intro gs none
          induction gs with
          | nil => rfl
          | cons g gs ih =>
            obtain ⟨first, second⟩ := List.append_eq_nil_iff.mp none
            exact List.append_eq_nil_iff.mpr ⟨ih first, second⟩
        exact app gs first

/-- The node is in the tree, or it is not the root and has no parent. -/
theorem lost_iff (h : Holds f.btree t) :
    (f.btree.parent x = none ∧ f.btree.root ≠ some x) ↔ x ∉ t.toList := by
  constructor
  · rintro ⟨orphan, other⟩ mem
    exact (h.parent_or_root mem).elim (fun ne => ne orphan) other
  · intro absent
    exact ⟨(h.outside x absent).1, h.root_ne absent⟩

/-- A place of the tree where the walk stands: all that is behind it in order is unseen, and of what
is to the right of it, when it has been seen itself, the rest that is unseen has been passed over. -/
structure Standing (c : BtcFlush n) (m : Int) (passed : List (Fin n)) (fs : List (Frame (Fin n)))
    (y : Fin n) (r : LinkTree (Fin n)) : Prop where
  behind : ∀ u ∈ after fs, m < c.page u
  right : c.page y ≤ m → (∀ u ∈ r.toList, m < c.page u) ∨
    (∃ z, r.top = some z ∧ c.page z ≤ m) ∧ ∀ u ∈ r.toList, m < c.page u → u ∈ passed

/-- The search from the root ends at a node before which, in order, is nothing unseen. -/
theorem descend_toward (h : DirtyTree c.page f.btree (plug fs sub)) {fuel : Nat}
    (top : sub.top = some x) (room : sub.toList.length ≤ fuel)
    (low : ∀ y ∈ before fs, c.page y < f.maxSeen) (high : ∀ y ∈ after fs, f.maxSeen < c.page y) :
    ∃ y gs l r, descend (flushToward c f) fuel x = .ok y ∧ plug fs sub = plug gs (.node l y r) ∧
      (∀ u ∈ (plug fs sub).toList, f.maxSeen < c.page u → c.page y ≤ c.page u) ∧
      ∀ passed, Standing c f.maxSeen passed gs y r := by
  induction fuel generalizing fs sub x with
  | zero =>
    have mem := LinkTree.top_mem top
    rw [List.length_eq_zero_iff.mp (Nat.le_zero.mp room)] at mem
    simp at mem
  | succ fuel ih =>
    cases sub with
    | leaf => simp [LinkTree.top] at top
    | node l y r =>
      obtain rfl : y = x := Option.some.inj top
      obtain ⟨-, -, left, right, -, -⟩ := h.holds.plug_iff
      have sorted := h.sorted
      rw [toList_plug_node] at sorted
      have inner := List.pairwise_append.mp (List.pairwise_append.mp sorted).2.1
      have above := List.pairwise_cons.mp inner.2.1
      simp only [LinkTree.toList_node, List.length_append, List.length_cons] at room
      -- where the search ends, the nodes before it have been seen
      have stop : flushToward c f y = none → (f.maxSeen < c.page y → l = .leaf) →
          (c.page y < f.maxSeen → r = .leaf) →
          ∃ z gs l' r', descend (flushToward c f) (fuel + 1) y = .ok z ∧
            plug fs (.node l y r) = plug gs (.node l' z r') ∧
            (∀ u ∈ (plug fs (.node l y r)).toList, f.maxSeen < c.page u → c.page z ≤ c.page u) ∧
            ∀ passed, Standing c f.maxSeen passed gs z r' := by
        intro ends none last
        refine ⟨y, fs, l, r, ?_, rfl, ?_, fun passed => ⟨high, fun seen => .inl fun u hu => ?_⟩⟩
        · unfold descend
          rw [ends]
        · intro u hu unseen
          rw [toList_plug_node] at hu
          simp only [List.mem_append, List.mem_cons] at hu
          rcases hu with hu | hu | rfl | hu
          · exact absurd (low u hu) (by omega)
          · by_cases less : f.maxSeen < c.page y
            · rw [none less] at hu
              simp at hu
            · have before := inner.2.2 u hu y List.mem_cons_self
              omega
          · exact le_refl _
          · exact (above.1 u (List.mem_append.mpr hu)).le
        · have more := above.1 u (List.mem_append_left _ hu)
          by_cases less : c.page y < f.maxSeen
          · rw [last less] at hu
            simp at hu
          · omega
      unfold flushToward at stop
      by_cases less : f.maxSeen < c.page y
      · cases l with
        | leaf =>
          refine stop ?_ (fun _ => rfl) fun e => absurd e (by omega)
          rw [left, if_neg (by simp [LinkTree.top]), if_neg (by omega)]
        | node l₁ z l₂ =>
          have top : (LinkTree.node l₁ z l₂).top = some z := rfl
          have low' : ∀ v ∈ before (Frame.left y r :: fs), c.page v < f.maxSeen := by
            intro v hv
            exact low v (by simpa [before, Frame.before] using hv)
          have high' : ∀ v ∈ after (Frame.left y r :: fs), f.maxSeen < c.page v := by
            intro v hv
            rcases List.mem_cons.mp hv with rfl | hv
            · exact less
            · exact less.trans (above.1 v hv)
          obtain ⟨w, gs, l', r', run, rest⟩ := ih (by exact h) top (by omega) low' high'
          refine ⟨w, gs, l', r', ?_, rest⟩
          unfold descend flushToward
          rw [left, if_pos ⟨rfl, less⟩]
          exact run
      · cases r with
        | leaf =>
          refine stop ?_ (fun e => absurd e less) fun _ => rfl
          rw [right, if_neg (by omega), if_neg (by simp [LinkTree.top])]
        | node r₁ z r₂ =>
          by_cases more : c.page y < f.maxSeen
          · have top : (LinkTree.node r₁ z r₂).top = some z := rfl
            have low' : ∀ v ∈ before (Frame.right l y :: fs), c.page v < f.maxSeen := by
              intro v hv
              simp only [before, Frame.before, List.mem_append, List.mem_singleton] at hv
              rcases hv with hv | hv | rfl
              · exact low v hv
              · exact (inner.2.2 v hv y List.mem_cons_self).trans more
              · exact more
            have high' : ∀ v ∈ after (Frame.right l y :: fs), f.maxSeen < c.page v := by
              intro v hv
              exact high v (by simpa [after, Frame.after] using hv)
            obtain ⟨w, gs, l', r', run, rest⟩ := ih (by exact h) top (by omega) low' high'
            refine ⟨w, gs, l', r', ?_, rest⟩
            unfold descend flushToward
            rw [right, if_neg (by omega), if_pos ⟨rfl, more⟩]
            exact run
          · refine stop ?_ (fun e => absurd e less) fun e => absurd e more
            rw [if_neg (by omega), if_neg (by omega)]

/-- After a removal the walk finds a node of the tree, if there is one. -/
theorem flushFind_spec (h : DirtyTree c.page f.btree t) (page : f.nextPage = c.page x) :
    (x ∈ t.toList ∧ flushFind c f x = .ok (some x)) ∨
    (x ∉ t.toList ∧ t = .leaf ∧ flushFind c f x = .ok none) ∨
    (x ∉ t.toList ∧ ∃ y gs l r, flushFind c f x = .ok (some y) ∧ t = plug gs (.node l y r) ∧
      (∀ u ∈ t.toList, f.maxSeen < c.page u → c.page y ≤ c.page u) ∧
      ∀ passed, Standing c f.maxSeen passed gs y r) := by
  have lost := lost_iff (x := x) h.holds
  unfold flushFind
  by_cases mem : x ∈ t.toList
  · refine .inl ⟨mem, if_neg ?_⟩
    rintro (ne | away)
    · exact ne page.symm
    · exact lost.mp away mem
  · refine .inr ?_
    rw [if_pos (.inr (lost.mpr mem)), h.holds.root]
    cases t with
    | leaf => exact .inl ⟨mem, rfl, rfl⟩
    | node l y r =>
      have top : (LinkTree.node l y r).top = some y := rfl
      have low : ∀ v ∈ before ([] : List (Frame (Fin n))), c.page v < f.maxSeen := by
        simp [before]
      have high : ∀ v ∈ after ([] : List (Frame (Fin n))), f.maxSeen < c.page v := by
        simp [after]
      obtain ⟨z, gs, l', r', run, rest⟩ := descend_toward h top h.length_le low high
      refine .inr ⟨mem, z, gs, l', r', ?_, rest⟩
      show (descend (flushToward c f) n y).map some = _
      rw [run]
      rfl

theorem flushNext_spec (h : DirtyTree c.page f.btree (plug fs (.node l bdb r))) :
    (∃ gs y m right, r.top = some right ∧ f.maxSeen < c.page right ∧
      r = plug gs (.node .leaf y m) ∧ before gs = [] ∧ flushNext c f bdb = .ok (some y)) ∨
    ((∀ right, r.top = some right → c.page right ≤ f.maxSeen) ∧
      flushNext c f bdb = .ok (above fs)) := by
  obtain ⟨-, parent, -, right, -, rep⟩ := h.holds.plug_iff
  have room : r.toList.length ≤ n := by
    have all := h.length_le
    rw [toList_plug_node] at all
    simp only [List.length_append, List.length_cons] at all
    omega
  unfold flushNext
  rw [right, parent]
  cases top : r.top with
  | none => exact .inr ⟨fun _ e => absurd e (Option.some_ne_none _).symm, rfl⟩
  | some x =>
    by_cases less : f.maxSeen < c.page x
    · obtain ⟨gs, y, m, tree, first, run⟩ := descend_left rep top room
      refine .inl ⟨gs, y, m, x, rfl, less, tree, first, ?_⟩
      show (if f.maxSeen < c.page x then _ else _) = _
      rw [if_pos less, run]
      rfl
    · refine .inr ⟨?_, if_neg less⟩
      intro right e
      rw [← Option.some.inj e]
      exact Int.not_lt.mp less

/-- The next node comes before all unseen ones behind this one, unless they are to the right of it
below a node that has been seen. -/
theorem flushNext_ahead (h : DirtyTree c.page f.btree (plug fs (.node l bdb r)))
    {next : Option (Fin n)} (run : flushNext c f bdb = .ok next) {u : Fin n}
    (mem : u ∈ (plug fs (.node l bdb r)).toList) (more : c.page bdb < c.page u) :
    (∃ y, next = some y ∧ c.page y ≤ c.page u) ∨
      u ∈ r.toList ∧ ∃ z, r.top = some z ∧ c.page z ≤ f.maxSeen := by
  have sorted := h.sorted
  rw [toList_plug_node] at sorted mem
  have outer := List.pairwise_append.mp sorted
  have inner := List.pairwise_append.mp outer.2.1
  have right := List.pairwise_cons.mp inner.2.1
  have last := List.pairwise_append.mp right.2
  have behind : u ∈ r.toList ∨ u ∈ after fs := by
    simp only [List.mem_append, List.mem_cons] at mem
    rcases mem with mem | mem | rfl | mem
    · have less := outer.2.2 u mem bdb (by simp)
      omega
    · have less := inner.2.2 u mem bdb List.mem_cons_self
      omega
    · exact absurd more (Int.lt_irrefl _)
    · exact mem
  rcases flushNext_spec h with ⟨gs, y, m, x, -, -, tree, first, run'⟩ | ⟨seen, run'⟩
  · obtain rfl : next = some y := Except.ok.inj (run.symm.trans run')
    have list : r.toList = y :: (m.toList ++ after gs) := by
      rw [tree, toList_plug_node, first]
      rfl
    refine .inl ⟨y, rfl, ?_⟩
    rw [list] at last behind
    rcases behind with hu | hu
    · rcases List.mem_cons.mp hu with rfl | hu
      · exact le_refl _
      · exact ((List.pairwise_cons.mp last.1).1 u hu).le
    · exact (last.2.2 y List.mem_cons_self u hu).le
  · obtain rfl : next = above fs := Except.ok.inj (run.symm.trans run')
    rcases behind with hu | hu
    · obtain ⟨z, hz⟩ : ∃ z, r.top = some z := by
        cases r with
        | leaf => simp at hu
        | node r₁ z r₂ => exact ⟨z, rfl⟩
      exact .inr ⟨hu, z, hz, seen z hz⟩
    · cases fs with
      | nil => simp [after] at hu
      | cons g fs =>
        refine .inl ⟨g.node, rfl, ?_⟩
        cases g with
        | left y k =>
          rw [show after (Frame.left y k :: fs) = y :: (k.toList ++ after fs) from rfl] at last hu
          rcases List.mem_cons.mp hu with rfl | hu
          · exact le_refl _
          · exact ((List.pairwise_cons.mp last.2.1).1 u hu).le
        | right k y =>
          have less := outer.2.2 y (by simp [before, Frame.before]) bdb (by simp)
          exact (less.trans more).le

/-- The buffer that a turn of the walk is about, found again when it was lost. -/
def Visits (c : BtcFlush n) (f : FlushState n) (bdb : Fin n) : Prop :=
  ∃ x, f.next = some x ∧ flushFind c f x = .ok (some bdb)

/-- What a turn does that has found its buffer. -/
theorem flushTurn_found (distinct : Function.Injective c.page)
    (h : DirtyTree c.page f.btree (plug fs (.node l bdb r))) (next : f.next = some x)
    (found : flushFind c f x = .ok (some bdb)) :
    ∃ go, flushNext c f bdb = .ok go ∧
      (c.page bdb ≤ f.maxSeen ∧ flushTurn c f = .ok (some (flushGoOn c go f)) ∨
        f.maxSeen < c.page bdb ∧ (Unwinds c (flushTurn c f) ∨
          ∃ f' t', flushVisit c bdb (flushGoOn c go f) = .ok f' ∧ flushTurn c f = .ok (some f') ∧
            Visited c (flushGoOn c go f) (plug fs (.node l bdb r)) bdb f' t')) := by
  have mem : bdb ∈ (plug fs (.node l bdb r)).toList := by
    rw [toList_plug_node]
    simp
  obtain ⟨go, run⟩ : ∃ go, flushNext c f bdb = .ok go := by
    rcases flushNext_spec h with ⟨_, y, _, _, _, _, _, _, run⟩ | ⟨_, run⟩
    · exact ⟨some y, run⟩
    · exact ⟨above fs, run⟩
  have turn : flushTurn c f = (flushVisit c bdb (flushGoOn c go f)).map some := by
    unfold flushTurn
    rw [next]
    show (flushFind c f x).bind _ = _
    rw [found]
    show (flushNext c f bdb).bind _ = _
    rw [run]
    rfl
  refine ⟨go, run, ?_⟩
  rw [turn]
  by_cases seen : c.page bdb ≤ f.maxSeen
  · refine .inl ⟨seen, ?_⟩
    unfold flushVisit
    rw [if_pos (by exact seen)]
    rfl
  · refine .inr ⟨Int.not_le.mp seen, ?_⟩
    rcases flushVisit_spec (f := flushGoOn c go f) distinct h mem (Int.not_le.mp seen) with
      ⟨stop, failed⟩ | ⟨f', t', run', visited⟩
    · refine .inl ⟨?_, failed⟩
      rw [stop]
      rfl
    · refine .inr ⟨f', t', run', ?_, visited⟩
      rw [run']
      rfl

/-- All that a turn can do. -/
theorem flushTurn_cases (distinct : Function.Injective c.page) (h : DirtyTree c.page f.btree t)
    (page : ∀ x, f.next = some x → f.nextPage = c.page x) :
    (flushTurn c f = .ok none ∧ (f.next = none ∨ t = .leaf)) ∨
    ∃ fs l bdb r next, t = plug fs (.node l bdb r) ∧
      (f.next = some bdb ∨ ∀ x, f.next = some x → x ∉ t.toList) ∧
      flushNext c f bdb = .ok next ∧
      (c.page bdb ≤ f.maxSeen ∧ flushTurn c f = .ok (some (flushGoOn c next f)) ∨
        f.maxSeen < c.page bdb ∧ (Unwinds c (flushTurn c f) ∨
          ∃ f' t', flushTurn c f = .ok (some f') ∧ Visited c (flushGoOn c next f) t bdb f' t')) := by
  cases next : f.next with
  | none =>
    refine .inl ⟨?_, .inl rfl⟩
    unfold flushTurn
    rw [next]
  | some x =>
    rcases flushFind_spec h (page x next) with ⟨mem, found⟩ | ⟨-, leaf, found⟩ |
      ⟨away, y, gs, l, r, found, rfl, -, -⟩
    · obtain ⟨fs, l, r, rfl⟩ := exists_plug mem
      obtain ⟨go, run, did⟩ := flushTurn_found distinct h next found
      refine .inr ⟨fs, l, x, r, go, rfl, .inl rfl, run, did.imp_right ?_⟩
      rintro ⟨unseen, stop | ⟨f', t', -, turn, visited⟩⟩
      · exact ⟨unseen, .inl stop⟩
      · exact ⟨unseen, .inr ⟨f', t', turn, visited⟩⟩
    · refine .inl ⟨?_, .inr leaf⟩
      unfold flushTurn
      rw [next]
      show (flushFind c f x).bind _ = _
      rw [found]
      rfl
    · obtain ⟨go, run, did⟩ := flushTurn_found distinct h next found
      refine .inr ⟨gs, l, y, r, go, rfl, .inr ?_, run, did.imp_right ?_⟩
      · rintro z e
        rw [← Option.some.inj e]
        exact away
      · rintro ⟨unseen, stop | ⟨f', t', -, turn, visited⟩⟩
        · exact ⟨unseen, .inl stop⟩
        · exact ⟨unseen, .inr ⟨f', t', turn, visited⟩⟩

end

end InterBase.Btc
