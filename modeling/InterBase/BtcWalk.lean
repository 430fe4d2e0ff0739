import InterBase.BtcFlush

namespace InterBase.Btc

open LinkedTree

section

variable {n : Nat} {c : BtcFlush n} {f f' : FlushState n} {t t' : LinkTree (Fin n)} {bdb : Fin n}

/-- What a write does to the state of the walk: buffers leave the tree, and each one that is not
written stays as it is. -/
structure Wrote (f : FlushState n) (t : LinkTree (Fin n)) (f' : FlushState n) (t' : LinkTree (Fin n)) :
    Prop where
  pruned : Pruned t t'
  next : f'.next = f.next
  nextPage : f'.nextPage = f.nextPage
  maxSeen : f'.maxSeen = f.maxSeen
  more : ∀ x ∈ f.written, x ∈ f'.written
  kept : ∀ x, x ∈ f'.written ∨ ((x ∈ t.toList → x ∈ t'.toList) ∧ f'.dirty x = f.dirty x ∧
    f'.systemDirty x = f.systemDirty x ∧ f'.transactions x = f.transactions x)

theorem Wrote.refl : Wrote f t f t :=
  ⟨.refl t, rfl, rfl, rfl, fun _ h => h, fun _ => .inr ⟨fun h => h, rfl, rfl, rfl⟩⟩

theorem Wrote.trans {f₁ f₂ f₃ : FlushState n} {t₁ t₂ t₃ : LinkTree (Fin n)} (h : Wrote f₁ t₁ f₂ t₂)
    (h' : Wrote f₂ t₂ f₃ t₃) : Wrote f₁ t₁ f₃ t₃ where
  pruned := h.pruned.trans h'.pruned
  next := h'.next.trans h.next
  nextPage := h'.nextPage.trans h.nextPage
  maxSeen := h'.maxSeen.trans h.maxSeen
  more := fun x hx => h'.more x (h.more x hx)
  kept := by
    intro x
    rcases h.kept x with written | ⟨stays, dirty, system, transactions⟩
    · exact .inl (h'.more x written)
    · refine (h'.kept x).imp_right ?_
      rintro ⟨stays', dirty', system', transactions'⟩
      exact ⟨fun hx => stays' (stays hx), dirty'.trans dirty, system'.trans system,
        transactions'.trans transactions⟩

/-- A write of a dirty buffer. -/
theorem writePage_spec (h : DirtyTree c.page f.btree t) (bdb : Fin n) (keep : Bool) :
    ∃ f' t', writePage bdb keep f = .ok f' ∧ DirtyTree c.page f'.btree t' ∧ Wrote f t f' t' ∧
      (f.dirty bdb = true → bdb ∈ f'.written) := by
  unfold writePage
  by_cases dirty : f.dirty bdb = true
  · rw [if_pos dirty]
    -- whatever becomes of the links, the rest of the state is the same
    have wrote : ∀ b t', DirtyTree c.page b t' → Pruned t t' →
        (∀ x ∈ t.toList, x ≠ bdb → x ∈ t'.toList) →
        ∃ f' t', (Except.ok b).map (fun btree => { f with
          btree := btree
          dirty := Function.update f.dirty bdb false
          systemDirty := Function.update f.systemDirty bdb false
          mustWrite := Function.update f.mustWrite bdb false
          transactions := Function.update f.transactions bdb 0
          written := f.written ++ [bdb] }) = Except.ok (ε := CacheStop) f' ∧
          DirtyTree c.page f'.btree t' ∧ Wrote f t f' t' ∧
          (f.dirty bdb = true → bdb ∈ f'.written) := by
      intro b t' h' pruned stays
      refine ⟨_, t', rfl, h', ⟨pruned, rfl, rfl, rfl, ?_, ?_⟩, ?_⟩
      · exact fun x hx => List.mem_append_left _ hx
      · intro x
        by_cases e : x = bdb
        · exact .inl (List.mem_append_right _ (List.mem_singleton.mpr e))
        · exact .inr ⟨fun hx => stays x hx e, Function.update_of_ne e _ _,
            Function.update_of_ne e _ _, Function.update_of_ne e _ _⟩
      · exact fun _ => List.mem_append_right _ List.mem_cons_self
    by_cases remove : ¬ keep = true ∧ ((f.btree.parent bdb).isSome ∨ f.btree.root = some bdb)
    · rw [if_pos remove]
      by_cases mem : bdb ∈ t.toList
      · obtain ⟨b, run, h'⟩ := btcRemove_spec h mem (f.mustWrite bdb) (f.dirty bdb)
        rw [run]
        exact wrote b _ h' ⟨_, rfl⟩ fun x hx ne =>
          LinkTree.mem_prune.mpr ⟨hx, decide_eq_false ne⟩
      · have parent := (h.holds.outside bdb mem).1
        rcases remove.2 with linked | root
        · rw [parent] at linked
          simp at linked
        · exact absurd root (h.holds.root_ne mem)
    · rw [if_neg remove]
      exact wrote f.btree t h (.refl t) fun x hx _ => hx
  · rw [if_neg dirty]
    exact ⟨f, t, rfl, h, Wrote.refl, fun e => absurd e dirty⟩

theorem writePages_spec (h : DirtyTree c.page f.btree t) (list : List (Fin n × Bool)) :
    ∃ f' t', writePages list f = .ok f' ∧ DirtyTree c.page f'.btree t' ∧ Wrote f t f' t' ∧
      ∀ w ∈ list, f.dirty w.1 = true → w.1 ∈ f'.written := by
  induction list generalizing f t with
  | nil => exact ⟨f, t, rfl, h, Wrote.refl, fun w hw => absurd hw List.not_mem_nil⟩
  | cons w list ih =>
    obtain ⟨f₁, t₁, run, h₁, wrote, first⟩ := writePage_spec h w.1 w.2
    obtain ⟨f₂, t₂, run', h₂, wrote', rest⟩ := ih h₁
    refine ⟨f₂, t₂, ?_, h₂, wrote.trans wrote', ?_⟩
    · show (writePage w.1 w.2 f).bind _ = _
      rw [run]
      exact run'
    · intro v hv dirty
      rcases List.mem_cons.mp hv with rfl | hv
      · exact wrote'.more _ (first dirty)
      · rcases wrote.kept v.1 with written | ⟨-, same, -⟩
        · exact wrote'.more _ written
        · exact rest v hv (same.trans dirty)

/-- A buffer the flush is asked to write and has not come to. -/
structure Pending (c : BtcFlush n) (f : FlushState n) (t : LinkTree (Fin n)) (x : Fin n) : Prop where
  mem : x ∈ t.toList
  unseen : f.maxSeen < c.page x
  dirty : f.dirty x = true
  length : c.length x = 0
  selected : flushSelects c f x

theorem Pending.wrote {x : Fin n} (p : Pending c f t x) (w : Wrote f t f' t') :
    x ∈ f'.written ∨ Pending c f' t' x := by
  refine (w.kept x).imp_right ?_
  rintro ⟨stays, dirty, system, transactions⟩
  refine ⟨stays p.mem, ?_, dirty.trans p.dirty, p.length, ?_⟩
  · rw [w.maxSeen]
    exact p.unseen
  · have selected := p.selected
    unfold flushSelects at selected ⊢
    rw [system, transactions]
    exact selected

/-- What the visit of a buffer does to the state of the walk. -/
structure Visited (c : BtcFlush n) (f : FlushState n) (t : LinkTree (Fin n)) (bdb : Fin n)
    (f' : FlushState n) (t' : LinkTree (Fin n)) : Prop where
  tree : DirtyTree c.page f'.btree t'
  pruned : Pruned t t'
  next : f'.next = f.next
  nextPage : f'.nextPage = f.nextPage
  maxSeen : f'.maxSeen = c.page bdb
  more : ∀ x ∈ f.written, x ∈ f'.written
  pending : ∀ x, Pending c f t x → c.page bdb ≤ c.page x → x ∈ f'.written ∨ Pending c f' t' x

theorem Pending.seen {x : Fin n} {m : Int} (p : Pending c f t x) (h : m < c.page x) :
    Pending c { f with maxSeen := m } t x :=
  ⟨p.mem, h, p.dirty, p.length, p.selected⟩

/-- A write has failed. -/
def Unwinds {β : Type} (c : BtcFlush n) (result : Except CacheStop β) : Prop :=
  result = .error .unwound ∧ ∃ k, c.writes k = none

theorem flushWrite_spec (h : DirtyTree c.page f.btree t) (dirty : f.dirty bdb = true) :
    Unwinds c (flushWrite c bdb f) ∨ ∃ f' t', flushWrite c bdb f = .ok f' ∧
      DirtyTree c.page f'.btree t' ∧ Wrote f t f' t' ∧ bdb ∈ f'.written := by
  unfold flushWrite
  cases call : c.writes f.calls with
  | none => exact .inl ⟨rfl, f.calls, call⟩
  | some w =>
    obtain ⟨f', t', run, h', wrote, all⟩ :=
      writePages_spec (f := { f with calls := f.calls + 1 }) h (w.higher ++ [(bdb, w.keep)])
    refine .inr ⟨f', t', run, h', ?_, all (bdb, w.keep) (by simp) dirty⟩
    exact ⟨wrote.pruned, wrote.next, wrote.nextPage, wrote.maxSeen, wrote.more, wrote.kept⟩

/-- A buffer behind all that has been seen is visited. -/
theorem flushVisit_spec (distinct : Function.Injective c.page)
    (h : DirtyTree c.page f.btree t) (mem : bdb ∈ t.toList) (ahead : f.maxSeen < c.page bdb) :
    Unwinds c (flushVisit c bdb f) ∨
      ∃ f' t', flushVisit c bdb f = .ok f' ∧ Visited c f t bdb f' t' := by
  -- a buffer other than this one is still ahead
  have later : ∀ x, c.page bdb ≤ c.page x → x ≠ bdb → c.page bdb < c.page x := fun x le ne =>
    lt_of_le_of_ne le fun e => ne (distinct e).symm
  unfold flushVisit
  rw [if_neg (by omega)]
  by_cases dirty : f.dirty bdb = true
  · rw [if_neg (by simpa using dirty)]
    have leave : (c.length bdb = 0 → ¬ flushSelects c f bdb) →
        Visited c f t bdb { f with maxSeen := c.page bdb } t := fun other =>
      { tree := h, pruned := .refl t, next := rfl, nextPage := rfl, maxSeen := rfl
        more := fun _ hx => hx
        pending := by
          intro x p le
          refine .inr (p.seen (later x le ?_))
          rintro rfl
          exact other p.length p.selected }
    by_cases length : c.length bdb ≠ 0
    · rw [if_pos length]
      exact .inr ⟨_, t, rfl, leave fun e => absurd e length⟩
    · rw [if_neg length]
      by_cases selected : flushSelects c { f with maxSeen := c.page bdb } bdb
      · rw [if_pos selected]
        refine (flushWrite_spec (f := { f with maxSeen := c.page bdb }) h dirty).imp_right ?_
        rintro ⟨f', t', run, h', wrote, written⟩
        refine ⟨f', t', run, h', wrote.pruned, wrote.next, wrote.nextPage, wrote.maxSeen, wrote.more,
          fun x p le => ?_⟩
        by_cases e : x = bdb
        · exact .inl (e ▸ written)
        · exact (p.seen (later x le e)).wrote wrote
      · rw [if_neg selected]
        exact .inr ⟨_, t, rfl, leave fun _ => selected⟩
  · rw [if_pos (by simpa using dirty)]
    obtain ⟨b, run, h'⟩ := btcRemove_spec h mem (f.mustWrite bdb) (f.dirty bdb)
    refine .inr ⟨{ f with maxSeen := c.page bdb, btree := b }, t.prune (· = bdb), ?_, ?_⟩
    · show (btcRemove bdb (f.mustWrite bdb) (f.dirty bdb) f.btree).map _ = _
      rw [run]
      rfl
    · refine ⟨h', ⟨_, rfl⟩, rfl, rfl, rfl, fun _ hx => hx, ?_⟩
      intro x p le
      have ne : x ≠ bdb := by
        rintro rfl
        exact dirty p.dirty
      exact .inr ⟨LinkTree.mem_prune.mpr ⟨p.mem, decide_eq_false ne⟩, later x le ne, p.dirty, p.length, p.selected⟩

end

end InterBase.Btc
