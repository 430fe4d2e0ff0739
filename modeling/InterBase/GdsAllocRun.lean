import InterBase.GdsAllocSound

namespace InterBase

namespace GdsAlloc

open Arena

section

variable {p : Platform} {malloc : Nat → Option Nat} {s : State} {block : Block} {address tail : Nat}
  {size sizeRequest : Int}

theorem Invariant.empty (p : Platform) : Invariant p State.empty where
  arena := by
    refine ⟨List.Pairwise.nil, List.Pairwise.nil, ?_, ?_, ?_, List.Pairwise.nil, ?_, ?_⟩ <;>
      exact List.forall_mem_nil _
  areas := List.forall_mem_nil _
  requested := List.forall_mem_nil _
  total := rfl

/-- What is usable of a new area has a link between it and the others. -/
theorem Invariant.gap (h : Invariant p s)
    (apart : ∀ area ∈ s.mallocedMemory, Extent.Apart ⟨address, tail⟩ area)
    (link : p.areaLink ≤ tail) :
    ∀ area ∈ s.mallocedMemory.map (usable p),
      Extent.Gap p.areaLink (usable p ⟨address, tail⟩) area := by
  refine List.forall_mem_map.mpr fun area mem => ?_
  obtain ⟨room, -, -⟩ := h.areas area mem
  have outside := apart area mem
  unfold Extent.Gap usable
  unfold Extent.Apart at outside
  unfold Extent.stop at outside ⊢
  simp only at outside ⊢
  omega

/-- A new area: the block is at the end of it, and all before the block is free. -/
theorem divideArea_spec (h : Invariant p s) (sized : Sized p sizeRequest size)
    (least : minimalTail p size ≤ tail) (most : tail < 2147483648)
    (last : address + tail < 4294967296)
    (apart : ∀ area ∈ s.mallocedMemory, Extent.Apart ⟨address, tail⟩ area) :
    ∃ block pool, divideArea p address tail size sizeRequest s =
        (some (block.address + p.allocOverhead),
          ⟨pool, ⟨address, tail⟩ :: s.mallocedMemory, block :: s.live⟩) ∧
      block.sizeRequest = sizeRequest ∧
      Invariant p ⟨pool, ⟨address, tail⟩ :: s.mallocedMemory, block :: s.live⟩ := by
  obtain ⟨positive, requested, overhead, -, -⟩ := sized
  have link := p.areaLink_pos
  unfold minimalTail sizeofFree at least
  -- What is left over in front of the block.
  obtain ⟨left, hleft⟩ : ∃ left : Nat, (left : Int) = tail - (size + p.areaLink) :=
    ⟨(tail - (size + p.areaLink)).toNat, by omega⟩
  have leftPos : 0 < left := by omega
  have wrap : slong (tail - (size + p.areaLink)) = left := by
    rw [← hleft]
    exact slong_of_mem (by omega) (by omega)
  have start : pointer (address + p.areaLink) left = address + p.areaLink + left := by
    unfold pointer
    rw [Int.emod_eq_of_lt (by omega) (by omega)]
    omega
  let block : Block := ⟨address + p.areaLink + left, size, sizeRequest⟩
  let free : Free := ⟨address + p.areaLink, left⟩
  let area := usable p ⟨address, tail⟩
  have stops : block.extent.stop = area.stop ∧ area.first + left = block.address := by
    refine ⟨?_, rfl⟩
    simp only [block, area, usable, Extent.stop, Block.extent_first, Block.extent_length]
    omega
  have withinBlock : block.extent.Within area := by
    refine ⟨?_, stops.1.le⟩
    rw [Block.extent_first]
    omega
  have withinFree : free.extent.Within area := by
    refine ⟨Nat.le_refl _, ?_⟩
    simp only [free, area, usable, Extent.stop, Free.extent_first, Free.extent_length]
    omega
  have gap := h.gap apart (by omega)
  have grown := h.arena.addArea gap
  have outside : ∀ e : Extent, (s.arena p).Inside e → area.Apart e := fun e inside =>
    State.apart_of_gap gap inside
  have inUse : State.Sound p.areaLink ⟨area :: s.mallocedMemory.map (usable p),
      s.pool.map Free.extent, block.extent :: s.live.map Block.extent⟩ := by
    refine grown.use ?_ ⟨area, List.mem_cons_self, withinBlock⟩ ?_ ?_
    · rw [Block.extent_length]
      simp only [block]
      omega
    · exact fun u hu => withinBlock.apart (outside u (h.arena.usedInside u hu))
    · exact fun f hf => (withinBlock.apart (outside f (h.arena.freeInside f hf))).symm
  have loose : Loose (area :: s.mallocedMemory.map (usable p))
      (block.extent :: s.live.map Block.extent) free := by
    refine ⟨Int.natCast_pos.mpr leftPos, ⟨area, List.mem_cons_self, withinFree⟩, ?_⟩
    refine List.forall_mem_cons.mpr ⟨.inl ?_, fun u hu => ?_⟩
    · simp only [free, block, Extent.stop, Free.extent_first, Free.extent_length,
        Block.extent_first]
      omega
    · exact withinFree.apart (outside u (h.arena.usedInside u hu))
  have areas : ∀ a ∈ (⟨address, tail⟩ : Extent) :: s.mallocedMemory, p.areaLink ≤ a.length ∧
      a.length < 2147483648 ∧ a.stop < 4294967296 := by
    refine List.forall_mem_cons.mpr ⟨⟨?_, most, last⟩, h.areas⟩
    simp only
    omega
  have clear : ∀ f ∈ s.pool, f.extent.Apart free.extent := fun f hf =>
    (withinFree.apart (outside f.extent (h.arena.freeInside _ (List.mem_map_of_mem hf)))).symm
  obtain ⟨pool, eq, sound, total⟩ := freeMemory_spec p inUse link
    (bounded_usable (s := ⟨s.pool, ⟨address, tail⟩ :: s.mallocedMemory, s.live⟩) areas) loose clear
  refine ⟨block, pool, ?_, rfl, ⟨sound, areas, ?_, ?_⟩⟩
  · unfold divideArea
    simp only
    rw [wrap, eq]
    simp only
    rw [start]
  · exact List.forall_mem_cons.mpr ⟨⟨positive, requested⟩, h.requested⟩
  · have before := h.total
    unfold areaTotal at before ⊢
    simp only [liveTotal_cons, List.length_cons, List.map_cons, List.sum_cons, total]
    simp only [block, free, Nat.cast_add, Nat.cast_one, mul_add, mul_one]
    omega

/-- What `gds__alloc` does: no memory and nothing changed, or a block that was not there before. -/
structure Allocated (p : Platform) (sizeRequest : Int) (s : State) (out : Option Nat × State) :
    Prop where
  sound : Invariant p out.2
  none : out.1 = none → out.2 = s
  some : ∀ address, out.1 = some address → ∃ block : Block, out.2.live = block :: s.live ∧
    address = block.address + p.allocOverhead ∧ block.sizeRequest = sizeRequest

theorem divideArea_allocated (h : Invariant p s) (sized : Sized p sizeRequest size)
    (fresh : Fresh malloc s) (least : minimalTail p size ≤ tail) (most : tail < 2147483648)
    (obtained : malloc tail = some address) :
    Allocated p sizeRequest s (divideArea p address tail size sizeRequest s) := by
  obtain ⟨last, apart⟩ := fresh tail address obtained
  obtain ⟨block, pool, eq, request, sound⟩ := divideArea_spec h sized least most last apart
  rw [eq]
  refine ⟨sound, fun none => (Option.some_ne_none _ none).elim, ?_⟩
  intro place hplace
  exact ⟨block, rfl, (Option.some.inj hplace).symm, request⟩

theorem extend_allocated (h : Invariant p s) (sized : Sized p sizeRequest size)
    (fresh : Fresh malloc s) :
    Allocated p sizeRequest s (extend p malloc size sizeRequest s) := by
  have low := sized.least
  have step := sized.tail
  have small := sized.small
  have positive : 0 ≤ minimalTail p size := by
    unfold minimalTail
    omega
  unfold extend
  simp only
  split
  next address obtained =>
    exact divideArea_allocated h sized fresh (by omega) (by omega) obtained
  next =>
    split
    next address obtained =>
      exact divideArea_allocated h sized fresh (by omega) (by omega) obtained
    next => exact ⟨h, fun _ => rfl, fun _ some => (Option.some_ne_none _ some.symm).elim⟩

theorem gdsAlloc_allocated (h : Invariant p s) (fresh : Fresh malloc s)
    (fits : Fits p sizeRequest) :
    Allocated p sizeRequest s (gdsAlloc p malloc sizeRequest s) := by
  unfold gdsAlloc
  split
  next => exact ⟨h, fun _ => rfl, fun _ some => (Option.some_ne_none _ some.symm).elim⟩
  next positive =>
    have sized := blockSize_sized (Int.not_le.mp positive) fits
    have low := sized.least
    have pos : 0 < blockSize p sizeRequest := by omega
    have small : blockSize p sizeRequest < 2147483648 := by
      have step := sized.tail
      have most := sized.small
      unfold minimalTail at step
      omega
    obtain ⟨found, eq, some⟩ := searchPool_spec 0 none h.arena h.bounded pos small
    simp only
    rw [eq]
    cases found with
    | none => exact extend_allocated h sized fresh
    | some best =>
      obtain impossible | ⟨before, after, split, place, tail, fit⟩ := some best rfl
      · exact (Option.some_ne_none _ impossible.symm).elim
      · rw [Nat.zero_add] at place
        have arena := h.arena
        unfold State.arena at arena
        rw [split] at arena
        obtain ⟨block, pool, taken, sound, large, request, total⟩ :=
          takeBest_spec sizeRequest arena h.bounded place tail fit pos
        rw [← split] at taken total
        simp only
        rw [taken]
        refine ⟨⟨sound, h.areas, ?_, ?_⟩, fun none => (Option.some_ne_none _ none).elim, ?_⟩
        · refine List.forall_mem_cons.mpr ⟨?_, h.requested⟩
          have enough := sized.requested
          simp only
          omega
        · have whole := h.total
          simp only [liveTotal_cons]
          omega
        · intro address haddress
          exact ⟨block, rfl, (Option.some.inj haddress).symm, request⟩

/-- Where the length of a block is no less than that of a request, it counts as released. -/
theorem released_pos {length : Int} (least : p.allocOverhead < length) (small : length < 2147483648) :
    released p length ≠ 0 := by
  have alignment := p.allocOverhead_eq
  obtain ⟨n, rfl⟩ : ∃ n : Nat, (n : Int) = length := ⟨length.toNat, by omega⟩
  have kept : ((n : Int) % 4294967296).toNat = n := by omega
  unfold released
  simp only
  rw [kept]
  split
  next multiple =>
    obtain eq | eq := p.alignment_cases <;> rw [alignment, eq] at multiple ⊢ <;> omega
  next =>
    unfold ulong
    omega

/-- A block that a client holds is not refused. -/
theorem gdsFree_spec (h : Invariant p s) (mem : block ∈ s.live) :
    (gdsFree p block s).1 ≠ 0 ∧ Invariant p (gdsFree p block s).2 := by
  have link := p.areaLink_pos
  obtain ⟨positive, large⟩ := h.requested block mem
  have perm := List.perm_cons_erase mem
  have whole : State.Sound p.areaLink ⟨s.mallocedMemory.map (usable p), s.pool.map Free.extent,
      block.extent :: (s.live.erase block).map Block.extent⟩ :=
    h.arena.used_subperm (perm.map Block.extent).symm.subperm
  have rest : State.Sound p.areaLink ⟨s.mallocedMemory.map (usable p), s.pool.map Free.extent,
      (s.live.erase block).map Block.extent⟩ :=
    whole.used_subperm (List.sublist_cons_self _ _).subperm
  have loose : Loose (s.mallocedMemory.map (usable p)) ((s.live.erase block).map Block.extent)
      ⟨block.address, block.length⟩ := by
    refine ⟨by simp only; omega, whole.usedInside block.extent List.mem_cons_self, ?_⟩
    exact (List.pairwise_cons.mp whole.usedApart).1
  have clear : ∀ f ∈ s.pool, f.extent.Apart block.extent := fun f hf =>
    whole.freeApart f.extent (List.mem_map_of_mem hf) block.extent List.mem_cons_self
  obtain ⟨small, -⟩ := loose.bounds h.bounded
  obtain ⟨pool, eq, sound, total⟩ := freeMemory_spec p rest link h.bounded loose clear
  have lives : liveTotal s.live = block.length + liveTotal (s.live.erase block) :=
    (perm.map Block.length).sum_eq
  unfold gdsFree
  simp only
  rw [eq]
  refine ⟨released_pos (by simp only; omega) small, sound, h.areas, ?_, ?_⟩
  · exact fun b hb => h.requested b (List.mem_of_mem_erase hb)
  · have before := h.total
    simp only at total ⊢
    omega

theorem reachable_invariant (reach : Reachable p (Fits p) s) : Invariant p s := by
  induction reach with
  | empty => exact Invariant.empty p
  | alloc before malloc fresh sizeRequest fit ih => exact (gdsAlloc_allocated ih fresh fit).sound
  | free before block mem ih => exact (gdsFree_spec ih mem).2

/-- Over every run whose requests fit: the invariant holds, no free is refused as bad, and a call that
gives an address out records a block there, or else leaves all as it is. -/
theorem gdsAlloc_invariant (reach : Reachable p (Fits p) s) :
    Invariant p s ∧ (∀ block ∈ s.live, (gdsFree p block s).1 ≠ 0) ∧
      ∀ malloc, Fresh malloc s → ∀ sizeRequest, Fits p sizeRequest →
        Allocated p sizeRequest s (gdsAlloc p malloc sizeRequest s) := by
  have sound := reachable_invariant reach
  refine ⟨sound, fun block mem => (gdsFree_spec sound mem).1, ?_⟩
  exact fun malloc fresh sizeRequest fits => gdsAlloc_allocated sound fresh fits

end

/-- Areas of 102400 bytes and an alignment of 4. -/
def linux : Platform := ⟨4, 102400, .inl rfl, .inr (.inr rfl)⟩

/-- One area is obtained. -/
def oneArea (size : Nat) : Option Nat := if size ≤ 102400 then some 4096 else none

def oneBlock : State := ⟨[⟨4100, 102292⟩], [⟨4096, 102400⟩], [⟨106392, 104, 100⟩]⟩

theorem oneBlock_eq : (gdsAlloc linux oneArea 100 State.empty).2 = oneBlock := by decide +kernel

theorem oneBlock_reachable {fits : Int → Prop} (fit : fits 100) : Reachable linux fits oneBlock := by
  rw [← oneBlock_eq]
  refine .alloc .empty oneArea ?_ 100 fit
  intro size address obtained
  unfold oneArea at obtained
  split at obtained
  next small =>
    obtain rfl := Option.some.inj obtained
    exact ⟨by omega, List.forall_mem_nil _⟩
  next => exact (Option.some_ne_none _ obtained.symm).elim

def threeBlocks : State := ⟨[⟨4100, 99260⟩], [⟨4096, 102400⟩],
  [⟨103360, 1028, 1024⟩, ⟨104388, 2004, 2000⟩, ⟨106392, 104, 100⟩]⟩

theorem threeBlocks_eq : (gdsAlloc linux (fun _ => none) 1024
    (gdsAlloc linux (fun _ => none) 2000 oneBlock).2).2 = threeBlocks := by decide +kernel

/-- The block in the middle is free, and the one behind it is combined with it. -/
def combined : State := ⟨[⟨4100, 99260⟩, ⟨104388, 2108⟩], [⟨4096, 102400⟩], [⟨103360, 1028, 1024⟩]⟩

theorem combined_eq : (gdsFree linux ⟨106392, 104, 100⟩
    (gdsFree linux ⟨104388, 2004, 2000⟩ threeBlocks).2).2 = combined := by decide +kernel

theorem fresh_none (s : State) : Fresh (fun _ => none) s :=
  fun _ _ obtained => (Option.some_ne_none _ obtained.symm).elim

theorem fits_small {sizeRequest : Int} (small : (minimalTail linux (exactSize linux sizeRequest) /
    linux.extendSize + 1) * linux.extendSize < 2147483648) : Fits linux sizeRequest := fun _ => small

theorem combined_reachable : Reachable linux (Fits linux) combined := by
  have two : Reachable linux (Fits linux) (gdsAlloc linux (fun _ => none) 2000 oneBlock).2 :=
    .alloc (oneBlock_reachable (fits_small (by decide))) _ (fresh_none _) 2000 (fits_small (by decide))
  have three : Reachable linux (Fits linux) threeBlocks := by
    rw [← threeBlocks_eq]
    exact .alloc two _ (fresh_none _) 1024 (fits_small (by decide))
  rw [← combined_eq]
  exact .free (.free three _ (by decide)) _ (by decide +kernel)

theorem gdsAlloc_invariant_combined : Invariant linux combined ∧
    (gdsFree linux ⟨103360, 1028, 1024⟩ combined).1 ≠ 0 ∧
      Allocated linux 2000 combined (gdsAlloc linux (fun _ => none) 2000 combined) := by
  obtain ⟨sound, accepted, found⟩ := gdsAlloc_invariant combined_reachable
  exact ⟨sound, accepted _ List.mem_cons_self, found _ (fresh_none _) 2000 (fits_small (by decide))⟩

/-- The size of such a block turns negative, and the search then finds it a place in a block of
102292 bytes. -/
theorem gdsAlloc_wraps : (gdsAlloc linux (fun _ => none) 2147482624 oneBlock).2 =
    ⟨[⟨4100, 2139198360⟩], [⟨4096, 102400⟩],
      [⟨2139202460, -2139096068, 2147482624⟩, ⟨106392, 104, 100⟩]⟩ := by decide +kernel

theorem gdsAlloc_invariant_fails :
    ¬ ∀ (p : Platform) (s : State), Reachable p (fun _ => True) s → Invariant p s := by
  intro all
  have reach := Reachable.alloc
    (show Reachable linux (fun _ => True) oneBlock from oneBlock_reachable trivial) (fun _ => none)
    (fresh_none _) 2147482624 trivial
  rw [gdsAlloc_wraps] at reach
  have large := ((all linux _ reach).requested _ List.mem_cons_self).2
  revert large
  decide

end GdsAlloc

end InterBase
