import InterBase.AllAlloc

namespace InterBase

namespace All

open Arena

section

variable {sizes : BlockSizes} {heap : Heap} {areas areas' pending : List Extent}
  {live live' : List Blk} {block : Blk} {pool pool' : Plb} {type count size : Nat}

/-- A block keeps its length as long as its hunk stays. -/
theorem blockLength_kept (h : HugeSound areas pool.plbHugeHunks live)
    (h' : HugeSound areas' pool'.plbHugeHunks live') (mem : block ∈ live)
    (kept : ∀ hunk ∈ pool.plbHugeHunks, block.blkLength = 0 →
      block.address = hunk.hnkAddress + sizeofHnk → hunk ∈ pool'.plbHugeHunks) :
    blockLength pool' block = blockLength pool block := by
  by_cases huge : block.blkLength = 0
  · obtain ⟨hunk, memHunk, address⟩ := h.inside block (mem_hugeBlocks.mpr ⟨mem, huge⟩)
    rw [blockLength_huge h' (kept hunk memHunk huge address) huge address,
      blockLength_huge h memHunk huge address]
  · unfold blockLength
    rw [if_neg (by omega), if_neg (by omega)]

/-- The memory for a huge block has room for the hunk block in front of it. -/
theorem huge_room (long : maxBlock ≤ size) (most : size + sizeofHnk ≤ 4294967296)
    (positive : 0 < ulong (ulong (size + sizeofHnk) + minAllocation - 1) / minAllocation *
      minAllocation) :
    size + sizeofHnk ≤
      ulong (ulong (size + sizeofHnk) + minAllocation - 1) / minAllocation * minAllocation := by
  unfold maxBlock sizeofHnk minAllocation at long
  unfold sizeofHnk at most
  unfold ulong sizeofHnk minAllocation at positive ⊢
  omega

/-- The hunk of a huge block. -/
def hugeHunk (address length : Nat) : Hnk := ⟨⟨address, typeHnk, sizeofHnk / 4⟩, address, length⟩

/-- A huge block is put in front of the others. -/
theorem HugeSound.cons_huge {hunks : List Hnk} {address length : Nat}
    (h : HugeSound areas hunks live) (long : sizeofHnk < length)
    (gapHuge : ∀ hunk ∈ hunks, Extent.Gap 4 ⟨address, length⟩ hunk.area)
    (gapAreas : ∀ area ∈ areas, Extent.Gap 4 ⟨address, length⟩ area) :
    HugeSound areas (hugeHunk address length :: hunks)
      (⟨address + sizeofHnk, type, 0⟩ :: live) where
  apart := List.pairwise_cons.mpr ⟨gapHuge, h.apart⟩
  areas := List.forall_mem_cons.mpr ⟨gapAreas, h.areas⟩
  blocks := List.forall_mem_cons.mpr ⟨⟨rfl, long⟩, h.blocks⟩
  inside := by
    rw [hugeBlocks_cons rfl]
    refine List.forall_mem_cons.mpr ⟨⟨_, List.mem_cons_self, rfl⟩, ?_⟩
    intro b hb
    obtain ⟨hunk, mem, same⟩ := h.inside b hb
    exact ⟨hunk, List.mem_cons_of_mem _ mem, same⟩
  nodup := by
    rw [hugeBlocks_cons rfl, List.map_cons]
    refine List.nodup_cons.mpr ⟨?_, h.nodup⟩
    intro taken
    obtain ⟨b, hb, same⟩ := List.mem_map.mp taken
    obtain ⟨hunk, mem, start⟩ := h.inside b hb
    have gap := gapHuge hunk mem
    have lengthHunk := (h.blocks hunk mem).2
    unfold Extent.Gap Extent.stop Hnk.area at gap
    simp only at gap same
    omega

/-- `alloc_huge_hunk`: the block has a hunk of its own. -/
theorem allocHugeHunk_granted (heap : Heap) (type : Nat) (h : pool.Sound [] live) (long : maxBlock ≤ size)
    (most : size + sizeofHnk ≤ 4294967296) :
    ∃ out pool', allocHugeHunk heap type size pool = (out, pool') ∧
      Granted pool pool' live type size out := by
  unfold allocHugeHunk
  simp only
  have room := huge_room long most
  revert room
  generalize ulong (ulong (size + sizeofHnk) + minAllocation - 1) / minAllocation *
    minAllocation = length
  intro room
  cases found : allMalloc heap pool length with
  | none => exact ⟨none, pool, rfl, granted_none h⟩
  | some address =>
    obtain ⟨positive, -, gap⟩ := allMalloc_some found
    have room := room positive
    have large : sizeofHnk < length := by
      unfold maxBlock sizeofHnk minAllocation at long
      unfold sizeofHnk at room ⊢
      omega
    have huge : HugeSound (pool.areas []) (hugeHunk address length :: pool.plbHugeHunks)
        (⟨address + sizeofHnk, type, 0⟩ :: live) :=
      h.huge.cons_huge large (fun hunk mem => gap hunk (List.mem_append_right _ mem))
        (List.forall_mem_map.mpr fun hunk mem => gap hunk (List.mem_append_left _ mem))
    refine ⟨_, _, rfl, ?_⟩
    change Granted pool { pool with
      plbHugeHunks := hugeHunk address length :: pool.plbHugeHunks
      memory := moveClear (address + sizeofHnk) (length - sizeofHnk) pool.memory } live type size
      (some ⟨address + sizeofHnk, type, 0⟩)
    generalize grown : ({ pool with
      plbHugeHunks := hugeHunk address length :: pool.plbHugeHunks
      memory := moveClear (address + sizeofHnk) (length - sizeofHnk) pool.memory } : Plb) = pool'
    have hunks : pool'.plbHugeHunks = hugeHunk address length :: pool.plbHugeHunks := by rw [← grown]
    have memory : pool'.memory =
        moveClear (address + sizeofHnk) (length - sizeofHnk) pool.memory := by rw [← grown]
    rw [← hunks] at huge
    have mem : hugeHunk address length ∈ pool'.plbHugeHunks := by
      rw [hunks]
      exact List.mem_cons_self
    have own : blockLength pool' ⟨address + sizeofHnk, type, 0⟩ = length - sizeofHnk := by
      have start : (⟨address + sizeofHnk, type, 0⟩ : Blk).address =
          (hugeHunk address length).hnkAddress + sizeofHnk := by rfl
      have zero : (⟨address + sizeofHnk, type, 0⟩ : Blk).blkLength = 0 := by rfl
      rw [blockLength_huge huge mem zero start]
      rfl
    have sound : pool'.Sound [] (⟨address + sizeofHnk, type, 0⟩ :: live) := by
      subst grown
      refine ⟨?_, h.links, ?_, h.small, huge, h.extend⟩
      · unfold Plb.state Plb.used
        rw [shortBlocks_cons_huge rfl]
        exact h.arena
      · rw [shortBlocks_cons_huge rfl]
        exact h.lengths
    refine ⟨sound, sound.keeps_clear ?_ (by rw [own, memory]), ?_, ?_, ?_⟩
    · intro b hb
      refine blockLength_kept h.huge huge hb ?_
      intro hunk memHunk _ _
      rw [hunks]
      exact List.mem_cons_of_mem _ memHunk
    · intro b hb
      obtain rfl := Option.some.inj hb
      rfl
    · intro b hb
      obtain rfl := Option.some.inj hb
      rw [own]
      omega
    · intro b hb x covers
      obtain rfl := Option.some.inj hb
      unfold Plb.extent at covers
      rw [own] at covers
      rw [memory]
      exact moveClear_covers covers

/-- `ALL_alloc` serves every request whose length does not overflow. -/
theorem allAlloc_granted (heap : Heap) (h : pool.Sound [] live)
    (valid : typeMin < type ∧ type < typeMax) (fits : Fits sizes type count) (fuel : Nat) :
    ∃ out pool', allAlloc sizes heap (fuel + 2) type count pool = .ok (out, pool') ∧
      Granted pool pool' live type (requested sizes type count) out := by
  by_cases long : maxBlock ≤ blockSize sizes type count
  · have sized := fits.sized valid
    obtain ⟨out, pool', eq, granted⟩ :=
      allocHugeHunk_granted heap type h long sized.most
    rw [allAlloc, if_neg (by omega)]
    simp only
    rw [if_pos long, eq]
    exact ⟨out, pool', rfl, granted.sound, granted.keeps, granted.type,
      fun b hb => sized.requested.trans (granted.large b hb), granted.cleared⟩
  · exact allAlloc_short h valid fits (Nat.lt_of_not_le long) fuel

/-- A huge block is released with its hunk. -/
theorem release_huge (h : pool.Sound [] (block :: live)) (huge : block.blkLength = 0) :
    ∃ hunks, release block pool = .ok { pool with plbHugeHunks := hunks } ∧
      Plb.Sound [] { pool with plbHugeHunks := hunks } live ∧
      pool.Keeps { pool with plbHugeHunks := hunks } live := by
  have blocks := h.huge.inside
  have nodup := h.huge.nodup
  rw [hugeBlocks_cons huge] at blocks nodup
  obtain ⟨⟨hunk, mem, address⟩, others⟩ := List.forall_mem_cons.mp blocks
  have holds : Hnk.holds block hunk = true := by
    have long := (h.huge.blocks hunk mem).2
    unfold Hnk.holds
    refine decide_eq_true ⟨?_, ?_⟩
    · omega
    · omega
  have only : ∀ other ∈ pool.plbHugeHunks, Hnk.holds block other = true → other = hunk := by
    intro other memOther held
    have held : other.hnkAddress ≤ block.address ∧
        block.address < other.hnkAddress + other.hnkLength := of_decide_eq_true held
    exact h.huge.same_hunk memOther mem held (h.huge.covers_block mem address)
  have kept : ∀ b ∈ hugeBlocks live, ∀ other ∈ pool.plbHugeHunks,
      b.address = other.hnkAddress + sizeofHnk →
      other ∈ pool.plbHugeHunks.eraseP (Hnk.holds block) := by
    intro b hb other memOther start
    refine (List.mem_eraseP_of_neg ?_).mpr memOther
    intro held
    obtain rfl := only other memOther held
    have new : block.address ∉ (hugeBlocks live).map Blk.address := (List.nodup_cons.mp nodup).1
    exact new (List.mem_map.mpr ⟨b, hb, start.trans address.symm⟩)
  have sub : (pool.plbHugeHunks.eraseP (Hnk.holds block)).Sublist pool.plbHugeHunks :=
    List.eraseP_sublist
  have sound : HugeSound (pool.areas []) (pool.plbHugeHunks.eraseP (Hnk.holds block)) live :=
    { apart := h.huge.apart.sublist sub
      areas := fun other memOther => h.huge.areas other (sub.subset memOther)
      blocks := fun other memOther => h.huge.blocks other (sub.subset memOther)
      inside := by
        intro b hb
        obtain ⟨other, memOther, start⟩ := others b hb
        exact ⟨other, kept b hb other memOther start, start⟩
      nodup := (List.nodup_cons.mp nodup).2 }
  unfold release
  rw [if_pos huge, if_pos (List.any_eq_true.mpr ⟨hunk, mem, holds⟩)]
  refine ⟨_, rfl, ⟨?_, h.links, ?_, h.small, sound, h.extend⟩, ?_, fun _ _ _ _ => rfl⟩
  · have arena := h.arena
    unfold Plb.state Plb.used at arena
    rw [shortBlocks_cons_huge huge] at arena
    exact arena
  · have lengths := h.lengths
    rw [shortBlocks_cons_huge huge] at lengths
    exact lengths
  · intro b hb
    exact blockLength_kept h.huge sound (List.mem_cons_of_mem _ hb) fun other memOther short start =>
      kept b (mem_hugeBlocks.mpr ⟨hb, short⟩) other memOther start

/-- `release` of a block that has been given out. -/
theorem release_spec (h : pool.Sound [] (block :: live)) :
    ∃ pool', release block pool = .ok pool' ∧ pool'.Sound [] live ∧ pool.Keeps pool' live ∧
      pool'.memory = pool.memory := by
  by_cases huge : block.blkLength = 0
  · obtain ⟨hunks, eq, sound, keeps⟩ := release_huge h huge
    exact ⟨_, eq, sound, keeps, rfl⟩
  · obtain ⟨frees, eq, sound⟩ := release_short h huge
    exact ⟨_, eq, sound, ⟨fun _ _ => rfl, fun _ _ _ _ => rfl⟩, rfl⟩

end

end All

end InterBase
