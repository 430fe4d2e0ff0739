import InterBase.All

namespace InterBase

namespace All

open Arena

@[simp] theorem Frb.extent_first (free : Frb) : free.extent.first = free.address := rfl

@[simp] theorem Frb.extent_length (free : Frb) : free.extent.length = free.blkLength * 4 := rfl

@[simp] theorem Frb.extent_stop (free : Frb) : free.extent.stop = free.stop := rfl

/-- The search ends with a block that is large enough, or there is none. -/
theorem searchFree_spec {units : Nat} {frees : List Frb} (place : Nat) (best : Option Best)
    (ascending : frees.Pairwise fun a b => a.address < b.address)
    (small : ∀ f ∈ frees, f.blkLength < 65536) :
    ∃ found, searchFree units place best frees = .ok found ∧
      (found = none → best = none ∧ ∀ f ∈ frees, f.blkLength < units) ∧
      ∀ b, found = some b → best = some b ∨
        ∃ before after, frees = before ++ b.free :: after ∧ b.place = place + before.length ∧
          units ≤ b.free.blkLength ∧ b.tail = b.free.blkLength - units := by
  induction frees generalizing place best with
  | nil => exact ⟨best, rfl, fun none => ⟨none, List.forall_mem_nil _⟩, fun b some => .inl some⟩
  | cons free rest ih =>
    obtain ⟨above, ascending⟩ := List.pairwise_cons.mp ascending
    have ih := fun best => ih (place + 1) best ascending fun f hf => small f (List.mem_cons_of_mem _ hf)
    have order : ¬ rest.head?.any (fun next => decide (next.address ≤ free.address)) = true := by
      cases rest with
      | nil => exact Bool.false_ne_true
      | cons next others =>
        have := above next List.mem_cons_self
        simp only [List.head?_cons, Option.any_some, decide_eq_true_eq]
        omega
    have shift : ∀ found, (∀ b, found = some b → best = some b ∨
        ∃ before after, rest = before ++ b.free :: after ∧ b.place = place + 1 + before.length ∧
          units ≤ b.free.blkLength ∧ b.tail = b.free.blkLength - units) →
        ∀ b, found = some b → best = some b ∨
          ∃ before after, free :: rest = before ++ b.free :: after ∧ b.place = place + before.length ∧
            units ≤ b.free.blkLength ∧ b.tail = b.free.blkLength - units := by
      intro found later b hb
      obtain first | ⟨before, after, split, hplace, fits⟩ := later b hb
      · exact .inl first
      · refine .inr ⟨free :: before, after, by rw [split]; rfl, ?_, fits⟩
        simp only [List.length_cons]
        omega
    unfold searchFree
    rw [if_neg order]
    simp only
    split
    next better =>
      have here : ∃ before after, free :: rest = before ++ free :: after ∧
          place = place + before.length ∧ units ≤ free.blkLength ∧
          free.blkLength - units = free.blkLength - units :=
        ⟨[], rest, rfl, rfl, better.1, rfl⟩
      split
      next =>
        refine ⟨_, rfl, fun none => (Option.some_ne_none _ none).elim, ?_⟩
        intro b hb
        obtain rfl := Option.some.inj hb
        exact .inr here
      next =>
        obtain ⟨found, eq, none, some⟩ := ih (some ⟨place, free, free.blkLength - units⟩)
        refine ⟨found, eq, fun hnone => (Option.some_ne_none _ (none hnone).1).elim, ?_⟩
        intro b hb
        obtain first | ⟨before, after, split, hplace, fits⟩ := some b hb
        · obtain rfl := Option.some.inj first
          exact .inr here
        · refine .inr ⟨free :: before, after, by rw [split]; rfl, ?_, fits⟩
          simp only [List.length_cons]
          omega
    next worse =>
      obtain ⟨found, eq, none, some⟩ := ih best
      refine ⟨found, eq, ?_, shift found some⟩
      intro hnone
      obtain ⟨hbest, hrest⟩ := none hnone
      refine ⟨hbest, List.forall_mem_cons.mpr ⟨?_, hrest⟩⟩
      have := small free List.mem_cons_self
      rw [hbest] at worse
      simp only [Option.elim, maxBlock, minAllocation, sizeofHnk] at worse
      omega

section

variable {areas used : List Extent} {before after frees : List Frb} {block : Frb}

/-- A block that may be linked between free ones. -/
structure Loose (areas used : List Extent) (block : Frb) : Prop where
  positive : 0 < block.blkLength
  inside : ∃ area ∈ areas, block.extent.Within area
  apart : ∀ u ∈ used, block.extent.Apart u

theorem Loose.small (h : Loose areas used block) (small : ∀ area ∈ areas, area.length < 262144) :
    block.blkLength < 65536 := by
  obtain ⟨area, mem, low, high⟩ := h.inside
  have := small area mem
  simp only [Frb.extent_first, Frb.extent_stop, Frb.stop] at low high
  unfold Extent.stop at high
  omega

theorem loose_of_free (h : State.Sound 4 ⟨areas, frees.map Frb.extent, used⟩) (mem : block ∈ frees) :
    Loose areas used block where
  positive := by
    have := h.positive _ (List.mem_map_of_mem mem)
    simp only [Frb.extent_length] at this
    omega
  inside := h.freeInside _ (List.mem_map_of_mem mem)
  apart := h.freeApart _ (List.mem_map_of_mem mem)

/-- Two blocks that follow each other are combined, and the length fits. -/
theorem Loose.join {next : Frb} (sound : State.Sound 4 ⟨areas, frees.map Frb.extent, used⟩)
    (small : ∀ area ∈ areas, area.length < 262144) (h : Loose areas used block)
    (hnext : Loose areas used next) (meet : block.stop = next.address) :
    Loose areas used ⟨block.address, ushort (block.blkLength + next.blkLength)⟩ ∧
      (⟨block.address, ushort (block.blkLength + next.blkLength)⟩ : Frb).stop = next.stop := by
  have positive := h.positive
  have positiveNext := hnext.positive
  have inside := sound.join_inside (by omega) h.inside hnext.inside
    (by simp only [Frb.extent_length]; omega) (by simp only [Frb.extent_length]; omega) meet
  have fits : block.blkLength + next.blkLength < 65536 := by
    obtain ⟨area, mem, low, high⟩ := inside
    have := small area mem
    simp only [Extent.stop, Frb.extent_first, Frb.extent_length] at low high
    omega
  have same : (⟨block.address, block.blkLength + next.blkLength⟩ : Frb).extent =
      ⟨block.extent.first, block.extent.length + next.extent.length⟩ := by
    unfold Frb.extent
    simp only [Extent.mk.injEq, true_and]
    omega
  rw [ushort_of_lt fits]
  refine ⟨⟨by simp only; omega, ?_, ?_⟩, ?_⟩
  · rw [same]
    exact inside
  · intro u hu
    rw [same]
    exact Extent.Apart.join (h.apart u hu) (hnext.apart u hu) (sound.usedPositive u hu) meet
  · unfold Frb.stop at meet ⊢
    simp only
    omega

/-- What the merge with the next block leaves. -/
theorem mergeNext_spec (sound : State.Sound 4 ⟨areas, (before ++ after).map Frb.extent, used⟩)
    (small : ∀ area ∈ areas, area.length < 262144) (h : Loose areas used block)
    (below : ∀ g ∈ after, block.stop ≤ g.address) :
    ∃ merged rest, mergeNext block after = .ok (merged, rest) ∧ merged.address = block.address ∧
      block.blkLength ≤ merged.blkLength ∧ Loose areas used merged ∧ rest.Sublist after ∧
      ∀ g ∈ rest, merged.stop < g.address := by
  cases after with
  | nil => exact ⟨block, [], rfl, rfl, Nat.le_refl _, h, List.Sublist.refl _, List.forall_mem_nil _⟩
  | cons free rest =>
    have loose := loose_of_free sound (show free ∈ before ++ free :: rest by simp)
    rw [List.map_append, List.map_cons] at sound
    have beyond := sound.neighbours.2
    have beyond : ∀ g ∈ rest, free.stop < g.address := fun g hg =>
      beyond g.extent (List.mem_map_of_mem hg)
    rw [← List.map_cons, ← List.map_append] at sound
    have least := below free List.mem_cons_self
    rw [mergeNext]
    by_cases meet : block.stop = free.address
    · obtain ⟨joined, stop⟩ := h.join sound small loose meet
      rw [if_pos meet]
      refine ⟨_, rest, rfl, rfl, ?_, joined, List.sublist_cons_self free rest, ?_⟩
      · have length := joined.small small
        unfold Frb.stop at stop meet
        simp only at stop
        simp only
        omega
      · intro g hg
        rw [stop]
        exact beyond g hg
    · rw [if_neg meet, if_neg (Nat.not_lt.mpr least)]
      refine ⟨block, free :: rest, rfl, rfl, Nat.le_refl _, h, List.Sublist.refl _, ?_⟩
      intro g hg
      obtain rfl | hg := List.mem_cons.mp hg
      · exact Nat.lt_of_le_of_ne least meet
      · have := beyond g hg
        have positive := loose.positive
        unfold Frb.stop at this least ⊢
        omega

theorem Loose.put (sound : State.Sound 4 ⟨areas, (before ++ after).map Frb.extent, used⟩)
    (h : Loose areas used block) (above : ∀ f ∈ before, f.stop < block.address)
    (below : ∀ g ∈ after, block.stop < g.address) :
    State.Sound 4 ⟨areas, (before ++ block :: after).map Frb.extent, used⟩ := by
  have positive := h.positive
  rw [List.map_append] at sound
  rw [List.map_append, List.map_cons]
  refine sound.put ?_ h.inside ?_ ?_ h.apart
  · rw [Frb.extent_length]
    omega
  · exact List.forall_mem_map.mpr above
  · exact List.forall_mem_map.mpr below

/-- What the merge with the prior block leaves. -/
theorem mergePrior_spec (sound : State.Sound 4 ⟨areas, (before ++ after).map Frb.extent, used⟩)
    (small : ∀ area ∈ areas, area.length < 262144) (h : Loose areas used block)
    (above : ∀ f ∈ before, f.stop ≤ block.address) (below : ∀ g ∈ after, block.stop < g.address) :
    ∃ frees, mergePrior block before after = .ok frees ∧
      State.Sound 4 ⟨areas, frees.map Frb.extent, used⟩ ∧
      (∃ f ∈ frees, block.blkLength ≤ f.blkLength) ∧ ∀ f ∈ frees, f ∈ before ∨ f ∈ after ∨
        block.blkLength ≤ f.blkLength := by
  unfold mergePrior
  split
  next none =>
    rw [List.getLast?_eq_none_iff] at none
    subst none
    refine ⟨_, rfl, h.put sound (List.forall_mem_nil _) below, ⟨block, by simp, Nat.le_refl _⟩, ?_⟩
    intro f hf
    obtain rfl | hf := List.mem_cons.mp hf
    · exact .inr (.inr (Nat.le_refl _))
    · exact .inr (.inl hf)
  next prior last =>
    have split := List.dropLast_append_getLast? prior last
    revert split
    generalize before.dropLast = init
    rintro rfl
    have loose := loose_of_free sound (show prior ∈ init ++ [prior] ++ after by simp)
    have positive := loose.positive
    have most := above prior (by simp)
    have earlier : ∀ f ∈ init, f.stop < prior.address := by
      rw [List.append_assoc, List.map_append, List.singleton_append, List.map_cons] at sound
      exact fun f hf => sound.neighbours.1 f.extent (List.mem_map_of_mem hf)
    by_cases meet : prior.stop = block.address
    · obtain ⟨joined, stop⟩ := loose.join sound small h meet
      rw [if_pos ⟨by omega, meet⟩]
      have length := joined.small small
      have grown : block.blkLength ≤ ushort (prior.blkLength + block.blkLength) := by
        unfold Frb.stop at stop meet
        simp only at stop
        omega
      refine ⟨_, rfl, ?_, ⟨_, List.mem_append_right _ List.mem_cons_self, grown⟩, ?_⟩
      · refine joined.put (sound.sublist ?_) earlier (stop ▸ below)
        exact ((List.sublist_append_left init [prior]).append (List.Sublist.refl after)).map _
      · intro f hf
        simp only [List.mem_append, List.mem_cons] at hf ⊢
        obtain hf | rfl | hf := hf
        · exact .inl (.inl hf)
        · exact .inr (.inr grown)
        · exact .inr (.inl hf)
    · rw [if_neg (fun both => meet both.2), if_neg (fun both => absurd both.2 (Nat.not_lt.mpr most))]
      refine ⟨_, rfl, h.put sound ?_ below, ⟨block, by simp, Nat.le_refl _⟩, ?_⟩
      · intro f hf
        obtain hf | hf := List.mem_append.mp hf
        · have := earlier f hf
          unfold Frb.stop at most this ⊢
          omega
        · obtain rfl := List.mem_singleton.mp hf
          exact Nat.lt_of_le_of_ne most meet
      · intro f hf
        obtain hf | hf := List.mem_append.mp hf
        · exact .inl hf
        · obtain rfl | hf := List.mem_cons.mp hf
          · exact .inr (.inr (Nat.le_refl _))
          · exact .inr (.inl hf)

theorem ascending_of_sound (h : State.Sound 4 ⟨areas, frees.map Frb.extent, used⟩) :
    frees.Pairwise fun a b => a.address < b.address := by
  refine (List.pairwise_map.mp h.spaced).imp ?_
  intro a b spaced
  simp only [Frb.extent_stop, Frb.extent_first, Frb.stop] at spaced
  omega

/-- A block that nobody uses goes back to the free ones. -/
theorem linkFree_spec (sound : State.Sound 4 ⟨areas, frees.map Frb.extent, used⟩)
    (small : ∀ area ∈ areas, area.length < 262144) (h : Loose areas used block)
    (clear : ∀ f ∈ frees, f.extent.Apart block.extent) :
    ∃ frees', linkFree block frees = .ok frees' ∧
      State.Sound 4 ⟨areas, frees'.map Frb.extent, used⟩ ∧
      (∃ f ∈ frees', block.blkLength ≤ f.blkLength) ∧
      ∀ f ∈ frees', f ∈ frees ∨ block.blkLength ≤ f.blkLength := by
  have whole := List.takeWhile_append_dropWhile
    (p := fun free : Frb => decide (free.address < block.address)) (l := frees)
  have low : ∀ f ∈ frees.takeWhile (fun free => free.address < block.address),
      f.address < block.address := by
    intro f hf
    have := List.mem_takeWhile_imp hf
    exact of_decide_eq_true this
  have first := List.head?_dropWhile_not (fun free : Frb => decide (free.address < block.address)) frees
  unfold linkFree
  revert whole low first
  generalize frees.takeWhile (fun free => free.address < block.address) = before
  generalize frees.dropWhile (fun free => free.address < block.address) = after
  intro whole low first
  subst whole
  have positive := h.positive
  have loose : ∀ f ∈ before ++ after, 0 < f.blkLength := fun f hf => (loose_of_free sound hf).positive
  have high : ∀ g ∈ after, block.address ≤ g.address := by
    have ascending := (List.pairwise_append.mp (ascending_of_sound sound)).2.1
    cases after with
    | nil => exact List.forall_mem_nil _
    | cons free rest =>
      have least : block.address ≤ free.address := by simpa using first
      refine List.forall_mem_cons.mpr ⟨least, fun g hg => least.trans ?_⟩
      exact ((List.pairwise_cons.mp ascending).1 g hg).le
  have above : ∀ f ∈ before, f.stop ≤ block.address := by
    intro f hf
    have apart := clear f (List.mem_append_left _ hf)
    have less := low f hf
    simp only [Extent.Apart, Frb.extent_stop, Frb.extent_first, Frb.stop] at apart ⊢
    omega
  have below : ∀ g ∈ after, block.stop ≤ g.address := by
    intro g hg
    have apart := clear g (List.mem_append_right _ hg)
    have least := high g hg
    have length := loose g (List.mem_append_right _ hg)
    simp only [Extent.Apart, Frb.extent_stop, Frb.extent_first, Frb.stop] at apart ⊢
    omega
  have other : ¬ after.head?.any (fun free => decide (free.address = block.address)) = true := by
    cases after with
    | nil => exact Bool.false_ne_true
    | cons free rest =>
      have := below free List.mem_cons_self
      simp only [List.head?_cons, Option.any_some, decide_eq_true_eq]
      unfold Frb.stop at this
      omega
  obtain ⟨merged, rest, eq, same, grown, looseMerged, sub, beyond⟩ :=
    mergeNext_spec sound small h below
  simp only
  rw [if_neg other, eq]
  have kept : State.Sound 4 ⟨areas, (before ++ rest).map Frb.extent, used⟩ :=
    sound.sublist (((List.Sublist.refl before).append sub).map _)
  obtain ⟨frees, eq', sound', ⟨f, hf, large⟩, origin⟩ :=
    mergePrior_spec kept small looseMerged (same ▸ above) beyond
  refine ⟨frees, eq', sound', ⟨f, hf, grown.trans large⟩, ?_⟩
  intro f hf
  obtain hf | hf | hf := origin f hf
  · exact .inl (List.mem_append_left _ hf)
  · exact .inl (List.mem_append_right _ (sub.subset hf))
  · exact .inr (grown.trans hf)

end

end All

end InterBase
