import InterBase.AllFree

namespace InterBase

namespace All

open Arena

/-- The blocks that lie in hunks. -/
def shortBlocks (live : List Blk) : List Blk := live.filter fun block => block.blkLength ≠ 0

/-- The blocks that have hunks of their own. -/
def hugeBlocks (live : List Blk) : List Blk := live.filter fun block => block.blkLength = 0

/-- The hunks of a pool, and memory that is to become one. -/
def Plb.areas (pending : List Extent) (pool : Plb) : List Extent :=
  pending ++ pool.plbHunks.map Hnk.area

def Plb.used (pool : Plb) (live : List Blk) : List Extent :=
  pool.plbHunks.map (fun hunk => hunk.block.extent) ++ (shortBlocks live).map Blk.extent

def Plb.state (pending : List Extent) (pool : Plb) (live : List Blk) : State :=
  ⟨pool.areas pending, pool.plbFree.map Frb.extent, pool.used live⟩

/-- The huge hunks, beside the blocks that are in them. -/
structure HugeSound (areas : List Extent) (hunks : List Hnk) (live : List Blk) : Prop where
  apart : hunks.Pairwise fun a b => a.area.Gap 4 b.area
  areas : ∀ hunk ∈ hunks, ∀ area ∈ areas, hunk.area.Gap 4 area
  blocks : ∀ hunk ∈ hunks, hunk.block.address = hunk.hnkAddress ∧ sizeofHnk < hunk.hnkLength
  inside : ∀ block ∈ hugeBlocks live, ∃ hunk ∈ hunks, block.address = hunk.hnkAddress + sizeofHnk
  nodup : ((hugeBlocks live).map Blk.address).Nodup

/-- A pool beside the blocks that have been given out. -/
structure Plb.Sound (pending : List Extent) (pool : Plb) (live : List Blk) : Prop where
  arena : (pool.state pending live).Sound 4
  links : ∀ f ∈ pool.plbFree, 2 ≤ f.blkLength
  lengths : ∀ block ∈ shortBlocks live, 2 ≤ block.blkLength
  small : ∀ area ∈ pool.areas pending, area.length < 262144
  huge : HugeSound (pool.areas pending) pool.plbHugeHunks live
  extend : pool.plbExtendSize = minAllocation ∨ pool.plbExtendSize = 16 * minAllocation

section

variable {areas pending : List Extent} {hunks : List Hnk} {live live' : List Blk} {block : Blk}
  {pool : Plb}

theorem shortBlocks_cons (short : block.blkLength ≠ 0) :
    shortBlocks (block :: live) = block :: shortBlocks live :=
  List.filter_cons_of_pos (decide_eq_true short)

theorem hugeBlocks_cons_short (short : block.blkLength ≠ 0) :
    hugeBlocks (block :: live) = hugeBlocks live :=
  List.filter_cons_of_neg fun h => short (of_decide_eq_true h)

theorem shortBlocks_cons_huge (huge : block.blkLength = 0) :
    shortBlocks (block :: live) = shortBlocks live :=
  List.filter_cons_of_neg fun h => of_decide_eq_true h huge

theorem hugeBlocks_cons (huge : block.blkLength = 0) :
    hugeBlocks (block :: live) = block :: hugeBlocks live :=
  List.filter_cons_of_pos (decide_eq_true huge)

theorem mem_shortBlocks : block ∈ shortBlocks live ↔ block ∈ live ∧ block.blkLength ≠ 0 := by
  simp [shortBlocks]

theorem mem_hugeBlocks : block ∈ hugeBlocks live ↔ block ∈ live ∧ block.blkLength = 0 := by
  simp [hugeBlocks]

theorem HugeSound.subperm (h : HugeSound areas hunks live)
    (sub : (hugeBlocks live').Subperm (hugeBlocks live)) : HugeSound areas hunks live' where
  apart := h.apart
  areas := h.areas
  blocks := h.blocks
  inside b hb := h.inside b (sub.subset hb)
  nodup := by
    obtain ⟨l, perm, sublist⟩ := sub
    exact (perm.map Blk.address).nodup_iff.mp (h.nodup.sublist (sublist.map Blk.address))

theorem HugeSound.cons_short (h : HugeSound areas hunks live) (short : block.blkLength ≠ 0) :
    HugeSound areas hunks (block :: live) := by
  refine h.subperm ?_
  rw [hugeBlocks_cons_short short]

theorem HugeSound.of_areas {areas' : List Extent} (h : HugeSound areas hunks live)
    (gap : ∀ hunk ∈ hunks, ∀ area ∈ areas', hunk.area.Gap 4 area) :
    HugeSound areas' hunks live where
  apart := h.apart
  areas := gap
  blocks := h.blocks
  inside := h.inside
  nodup := h.nodup

theorem Plb.Sound.perm (h : pool.Sound pending live) (perm : live.Perm live') :
    pool.Sound pending live' where
  arena := h.arena.used_subperm
    (((List.Perm.refl _).append ((perm.filter _).symm.map Blk.extent)).subperm)
  links := h.links
  lengths b hb := h.lengths b ((perm.filter _).mem_iff.mpr hb)
  small := h.small
  huge := h.huge.subperm (perm.filter _).symm.subperm
  extend := h.extend

theorem Plb.Sound.memory (h : pool.Sound pending live) (memory : Nat → UInt8) :
    Plb.Sound pending { pool with memory := memory } live where
  arena := h.arena
  links := h.links
  lengths := h.lengths
  small := h.small
  huge := h.huge
  extend := h.extend

/-- The extents in use when one more block is given out. -/
theorem used_cons (pool : Plb) (short : block.blkLength ≠ 0) :
    (pool.used (block :: live)).Perm (block.extent :: pool.used live) := by
  unfold Plb.used
  rw [shortBlocks_cons short, List.map_cons]
  exact List.perm_middle

/-- What a search and a cut leave of the free blocks. -/
theorem takeFree_spec (h : pool.Sound pending live) {units : Nat} {best : Best} (type : Nat)
    (least : 2 ≤ units) (found : searchFree units 0 none pool.plbFree = .ok (some best)) :
    ∃ block frees, takeFree best type (units * 4) units pool =
        (block, { pool with
          plbFree := frees
          memory := moveClear block.address block.length pool.memory }) ∧
      Plb.Sound pending { pool with
        plbFree := frees
        memory := moveClear block.address block.length pool.memory } (block :: live) ∧
      block.blkType = type ∧ units ≤ block.blkLength ∧
      ∀ f ∈ pool.plbFree, ∀ n, 3 ≤ n → units + n ≤ f.blkLength → ∃ g ∈ frees, n ≤ g.blkLength := by
  have short : ∀ f ∈ pool.plbFree, f.blkLength < 65536 := fun f hf =>
    (loose_of_free h.arena hf).small h.small
  obtain ⟨found', eq, -, split⟩ := searchFree_spec 0 none (ascending_of_sound h.arena) short
  obtain rfl := Except.ok.inj (eq.symm.trans found)
  obtain first | ⟨before, after, split, place, fits, tail⟩ := split best rfl
  · exact (Option.some_ne_none _ first.symm).elim
  rw [Nat.zero_add] at place
  have arena := h.arena
  unfold Plb.state at arena
  rw [split, List.map_append, List.map_cons] at arena
  have links := h.links
  rw [split] at links
  unfold takeFree
  rw [split, place, tail]
  by_cases rest : sizeofFrb < (best.free.blkLength - units) * 4
  · rw [if_pos rest, List.set_append_right _ _ (Nat.le_refl _), Nat.sub_self, List.set_cons_zero]
    unfold sizeofFrb at rest
    refine ⟨_, _, rfl, ⟨?_, ?_, ?_, h.small, ?_, h.extend⟩, rfl, Nat.le_refl _, ?_⟩
    · refine State.Sound.used_subperm ?_ (used_cons pool (by simp only; omega)).subperm
      rw [List.map_append, List.map_cons]
      refine arena.takeEnd rfl ?_ ?_ ?_ ?_
      · simp only [Frb.extent_length]
        omega
      · simp only [Blk.extent, Blk.length]
        omega
      · simp only [Frb.extent_stop, Frb.stop, Blk.extent]
        omega
      · simp only [Frb.extent, Blk.extent, Blk.length, Extent.stop]
        omega
    · intro f hf
      simp only [List.mem_append, List.mem_cons] at hf
      obtain hf | rfl | hf := hf
      · exact links f (List.mem_append_left _ hf)
      · simp only
        omega
      · exact links f (List.mem_append_right _ (List.mem_cons_of_mem _ hf))
    · rw [shortBlocks_cons (by simp only; omega)]
      exact List.forall_mem_cons.mpr ⟨least, h.lengths⟩
    · exact h.huge.cons_short (by simp only; omega)
    · intro f hf n _ large
      simp only [List.mem_append, List.mem_cons] at hf
      obtain hf | rfl | hf := hf
      · exact ⟨f, List.mem_append_left _ hf, by omega⟩
      · exact ⟨_, List.mem_append_right _ List.mem_cons_self, by simp only; omega⟩
      · exact ⟨f, List.mem_append_right _ (List.mem_cons_of_mem _ hf), by omega⟩
  · rw [if_neg rest, List.eraseIdx_append_of_length_le (Nat.le_refl _), Nat.sub_self,
      List.eraseIdx_cons_zero]
    unfold sizeofFrb at rest
    refine ⟨_, _, rfl, ⟨?_, ?_, ?_, h.small, ?_, h.extend⟩, rfl, fits, ?_⟩
    · refine State.Sound.used_subperm ?_ (used_cons pool (by simp only; omega)).subperm
      rw [List.map_append]
      exact arena.takeWhole
    · intro f hf
      obtain hf | hf := List.mem_append.mp hf
      · exact links f (List.mem_append_left _ hf)
      · exact links f (List.mem_append_right _ (List.mem_cons_of_mem _ hf))
    · rw [shortBlocks_cons (by simp only; omega)]
      exact List.forall_mem_cons.mpr ⟨least.trans fits, h.lengths⟩
    · exact h.huge.cons_short (by simp only; omega)
    · intro f hf n three large
      simp only [List.mem_append, List.mem_cons] at hf
      obtain hf | rfl | hf := hf
      · exact ⟨f, List.mem_append_left _ hf, by omega⟩
      · omega
      · exact ⟨f, List.mem_append_right _ hf, by omega⟩

/-- A block of a hunk is released. -/
theorem release_short (h : pool.Sound pending (block :: live)) (short : block.blkLength ≠ 0) :
    ∃ frees, release block pool = .ok { pool with plbFree := frees } ∧
      Plb.Sound pending { pool with plbFree := frees } live := by
  have arena := h.arena.used_subperm (used_cons pool short).symm.subperm
  have kept : State.Sound 4 ⟨pool.areas pending, pool.plbFree.map Frb.extent, pool.used live⟩ :=
    arena.used_subperm (List.sublist_cons_self _ _).subperm
  have loose : Loose (pool.areas pending) (pool.used live) ⟨block.address, block.blkLength⟩ :=
    ⟨Nat.pos_of_ne_zero short, arena.usedInside _ List.mem_cons_self,
      (List.pairwise_cons.mp arena.usedApart).1⟩
  obtain ⟨frees, eq, sound, -, origin⟩ := linkFree_spec kept h.small loose
    (fun f hf => arena.freeApart _ (List.mem_map_of_mem hf) _ List.mem_cons_self)
  have lengths := h.lengths
  rw [shortBlocks_cons short] at lengths
  obtain ⟨least, lengths⟩ := List.forall_mem_cons.mp lengths
  unfold release
  rw [if_neg short, eq]
  refine ⟨frees, rfl, ⟨sound, ?_, lengths, h.small, ?_, h.extend⟩⟩
  · intro f hf
    obtain hf | hf := origin f hf
    · exact h.links f hf
    · exact least.trans hf
  · refine h.huge.subperm ?_
    rw [hugeBlocks_cons_short short]

/-- New memory is linked among the free blocks. -/
theorem release_area (h : pool.Sound [] live) {area : Extent} (type : Nat) {units : Nat}
    (length : area.length = units * 4) (large : 2 ≤ units) (small : units < 65536)
    (gap : ∀ hunk ∈ pool.plbHunks ++ pool.plbHugeHunks, area.Gap 4 hunk.area) :
    ∃ frees, release ⟨area.first, type, units⟩ pool = .ok { pool with plbFree := frees } ∧
      Plb.Sound [area] { pool with plbFree := frees } live ∧ ∃ f ∈ frees, units ≤ f.blkLength := by
  have apart : ∀ a ∈ pool.areas [], area.Gap 4 a :=
    List.forall_mem_map.mpr fun hunk hhunk => gap hunk (List.mem_append_left _ hhunk)
  have arena : State.Sound 4 ⟨pool.areas [area], pool.plbFree.map Frb.extent, pool.used live⟩ :=
    h.arena.addArea apart
  have same : (⟨area.first, units⟩ : Frb).extent = area := by
    unfold Frb.extent
    rw [← length]
  have areasSmall : ∀ a ∈ pool.areas [area], a.length < 262144 :=
    List.forall_mem_cons.mpr ⟨by omega, h.small⟩
  have loose : Loose (pool.areas [area]) (pool.used live) ⟨area.first, units⟩ := by
    refine ⟨Nat.lt_of_lt_of_le Nat.zero_lt_two large, ?_, ?_⟩
    · exact ⟨area, List.mem_cons_self, same ▸ Extent.Within.refl area⟩
    · intro u hu
      rw [same]
      exact State.apart_of_gap apart (h.arena.usedInside u hu)
  obtain ⟨frees, eq, sound, grown, origin⟩ := linkFree_spec arena areasSmall loose (by
    intro f hf
    rw [same]
    exact (State.apart_of_gap apart (h.arena.freeInside _ (List.mem_map_of_mem hf))).symm)
  have short : units ≠ 0 := by omega
  unfold release
  rw [if_neg short]
  simp only
  rw [eq]
  refine ⟨frees, rfl, ⟨sound, ?_, h.lengths, areasSmall, ?_, h.extend⟩, grown⟩
  · intro f hf
    obtain hf | hf := origin f hf
    · exact h.links f hf
    · exact large.trans hf
  · refine h.huge.of_areas ?_
    intro hunk hhunk
    exact List.forall_mem_cons.mpr
      ⟨(gap hunk (List.mem_append_right _ hhunk)).symm, h.huge.areas hunk hhunk⟩

/-- The block of a new hunk is the pool's own. -/
theorem Plb.Sound.addHunk {hunk : Blk} {address size : Nat}
    (h : Plb.Sound [⟨address, size⟩] pool (hunk :: live)) (short : hunk.blkLength ≠ 0) :
    Plb.Sound [] { pool with plbHunks := ⟨hunk, address, size⟩ :: pool.plbHunks } live where
  arena := h.arena.used_subperm (used_cons pool short).symm.subperm
  links := h.links
  lengths b hb := h.lengths b (by
    rw [shortBlocks_cons short]
    exact List.mem_cons_of_mem _ hb)
  small := h.small
  huge := h.huge.subperm (by rw [hugeBlocks_cons_short short])
  extend := h.extend

/-- The memory of a block that has been given out. -/
def Plb.extent (pool : Plb) (block : Blk) : Extent := ⟨block.address, blockLength pool block⟩

theorem extent_short (pool : Plb) (short : block.blkLength ≠ 0) : pool.extent block = block.extent := by
  unfold Plb.extent blockLength
  rw [if_neg (by omega)]
  rfl

/-- Only one huge hunk holds an address. -/
theorem HugeSound.same_hunk (h : HugeSound areas hunks live) {a b : Hnk} (ha : a ∈ hunks)
    (hb : b ∈ hunks) {x : Nat} (xa : a.area.Covers x) (xb : b.area.Covers x) : a = b := by
  by_contra ne
  have symmetric : Std.Symm fun a b : Hnk => a.area.Gap 4 b.area := ⟨fun _ _ gap => gap.symm⟩
  exact (h.apart.forall ha hb ne).apart.not_covers xa xb

theorem HugeSound.covers_block (h : HugeSound areas hunks live) {hunk : Hnk} (mem : hunk ∈ hunks)
    (address : block.address = hunk.hnkAddress + sizeofHnk) : hunk.area.Covers block.address := by
  have length := (h.blocks hunk mem).2
  unfold Extent.Covers Extent.stop Hnk.area
  simp only
  omega

theorem HugeSound.find_hunk (h : HugeSound areas hunks live) {hunk : Hnk} (mem : hunk ∈ hunks)
    (address : block.address = hunk.hnkAddress + sizeofHnk) :
    hunks.find? (fun hunk => hunk.block.address + sizeofHnk = block.address) = some hunk := by
  have start := (h.blocks hunk mem).1
  cases found : hunks.find? (fun hunk => hunk.block.address + sizeofHnk = block.address) with
  | none =>
    have := List.find?_eq_none.mp found hunk mem
    rw [start, address] at this
    exact absurd (decide_eq_true rfl) this
  | some other =>
    have memOther := List.mem_of_find?_eq_some found
    have same := List.find?_some found
    have same : other.block.address + sizeofHnk = block.address := of_decide_eq_true same
    rw [(h.blocks other memOther).1] at same
    rw [h.same_hunk memOther mem (h.covers_block memOther same.symm) (h.covers_block mem address)]

theorem blockLength_huge (h : HugeSound areas pool.plbHugeHunks live) {hunk : Hnk}
    (mem : hunk ∈ pool.plbHugeHunks) (huge : block.blkLength = 0)
    (address : block.address = hunk.hnkAddress + sizeofHnk) :
    blockLength pool block = hunk.hnkLength - sizeofHnk := by
  unfold blockLength findBlockLength
  rw [if_pos (by omega), h.find_hunk mem address]

theorem extent_huge (h : HugeSound areas pool.plbHugeHunks live) {hunk : Hnk}
    (mem : hunk ∈ pool.plbHugeHunks) (huge : block.blkLength = 0)
    (address : block.address = hunk.hnkAddress + sizeofHnk) :
    (pool.extent block).Within hunk.area := by
  have length := (h.blocks hunk mem).2
  unfold Plb.extent
  rw [blockLength_huge h mem huge address]
  unfold Extent.Within Extent.stop Hnk.area
  simp only
  omega

theorem live_perm (live : List Blk) : (shortBlocks live ++ hugeBlocks live).Perm live := by
  have parts := List.filter_append_perm (fun block : Blk => decide (block.blkLength ≠ 0)) live
  have same : hugeBlocks live = live.filter fun block => !decide (block.blkLength ≠ 0) := by
    unfold hugeBlocks
    refine List.filter_congr fun block _ => ?_
    simp
  rw [same]
  exact parts

/-- No two blocks that have been given out share a byte. -/
theorem Plb.Sound.apart (h : pool.Sound pending live) :
    live.Pairwise fun a b => (pool.extent a).Apart (pool.extent b) := by
  have symmetric : ∀ {a b : Blk}, (pool.extent a).Apart (pool.extent b) →
      (pool.extent b).Apart (pool.extent a) := fun apart => apart.symm
  refine (List.Perm.pairwise_iff symmetric (live_perm live)).mp
    (List.pairwise_append.mpr ⟨?_, ?_, ?_⟩)
  · have short := (List.pairwise_append.mp h.arena.usedApart).2.1
    refine (List.pairwise_map.mp short).imp_of_mem ?_
    intro a b ha hb apart
    rw [extent_short pool (mem_shortBlocks.mp ha).2, extent_short pool (mem_shortBlocks.mp hb).2]
    exact apart
  · refine (List.pairwise_map.mp h.huge.nodup).imp_of_mem ?_
    intro a b ha hb ne
    obtain ⟨hunkA, memA, addressA⟩ := h.huge.inside a ha
    obtain ⟨hunkB, memB, addressB⟩ := h.huge.inside b hb
    have symmetric : Std.Symm fun a b : Hnk => a.area.Gap 4 b.area := ⟨fun _ _ gap => gap.symm⟩
    have gap := h.huge.apart.forall memA memB fun same => ne (by rw [addressA, addressB, same])
    exact (gap.within (extent_huge h.huge memA (mem_hugeBlocks.mp ha).2 addressA)
      (extent_huge h.huge memB (mem_hugeBlocks.mp hb).2 addressB)).apart
  · intro a ha b hb
    obtain ⟨hunk, mem, address⟩ := h.huge.inside b hb
    have used : a.extent ∈ pool.used live := List.mem_append_right _ (List.mem_map_of_mem ha)
    obtain ⟨area, memArea, within⟩ := h.arena.usedInside _ used
    rw [extent_short pool (mem_shortBlocks.mp ha).2]
    exact ((h.huge.areas hunk mem area memArea).symm.within within
      (extent_huge h.huge mem (mem_hugeBlocks.mp hb).2 address)).apart

/-- No free block shares a byte with a block that has been given out. -/
theorem Plb.Sound.free_apart (h : pool.Sound pending live) {f : Frb} (hf : f ∈ pool.plbFree)
    (hb : block ∈ live) : f.extent.Apart (pool.extent block) := by
  by_cases short : block.blkLength = 0
  · obtain ⟨hunk, mem, address⟩ := h.huge.inside block (mem_hugeBlocks.mpr ⟨hb, short⟩)
    obtain ⟨area, memArea, within⟩ := h.arena.freeInside _ (List.mem_map_of_mem hf)
    exact ((h.huge.areas hunk mem area memArea).symm.within within
      (extent_huge h.huge mem short address)).apart
  · rw [extent_short pool short]
    exact h.arena.freeApart _ (List.mem_map_of_mem hf) _
      (List.mem_append_right _ (List.mem_map_of_mem (mem_shortBlocks.mpr ⟨hb, short⟩)))

end

end All

end InterBase
