import InterBase.AllPool

namespace InterBase

namespace All

open Arena

/-- What is asked for, in bytes. -/
def requested (sizes : BlockSizes) (type count : Nat) : Nat :=
  sizes.typRootLength type + (count - 1) * sizes.typTailLength type

/-- The request with the hunk of a huge block in front of it is no more than all memory. -/
def Fits (sizes : BlockSizes) (type count : Nat) : Prop :=
  requested sizes type count + sizeofHnk ≤ 4294967296

instance (sizes : BlockSizes) (type count : Nat) : Decidable (Fits sizes type count) :=
  inferInstanceAs (Decidable (_ ≤ _))

/-- The blocks keep their lengths and what is in them. -/
structure Plb.Keeps (pool pool' : Plb) (live : List Blk) : Prop where
  lengths : ∀ block ∈ live, blockLength pool' block = blockLength pool block
  contents : ∀ block ∈ live, ∀ x, (pool.extent block).Covers x → pool'.memory x = pool.memory x

/-- What comes of a request: the pool is sound with the block, if there is one. -/
structure Granted (pool pool' : Plb) (live : List Blk) (type size : Nat) (out : Option Blk) :
    Prop where
  sound : pool'.Sound [] (out.toList ++ live)
  keeps : pool.Keeps pool' live
  type : ∀ block ∈ out, block.blkType = type
  large : ∀ block ∈ out, size ≤ blockLength pool' block
  cleared : ∀ block ∈ out, ∀ x, (pool'.extent block).Covers x → pool'.memory x = 0

section

variable {sizes : BlockSizes} {heap : Heap} {pending : List Extent} {live : List Blk} {block : Blk}
  {pool pool' pool'' : Plb} {type count size : Nat}

theorem Plb.Keeps.refl (pool : Plb) (live : List Blk) : pool.Keeps pool live :=
  ⟨fun _ _ => rfl, fun _ _ _ _ => rfl⟩

theorem Plb.Keeps.extent (h : pool.Keeps pool' live) (mem : block ∈ live) :
    pool'.extent block = pool.extent block := by
  unfold Plb.extent
  rw [h.lengths block mem]

theorem Plb.Keeps.trans (h : pool.Keeps pool' live) (h' : pool'.Keeps pool'' live) :
    pool.Keeps pool'' live := by
  refine ⟨?_, ?_⟩
  · intro b hb
    rw [h'.lengths b hb, h.lengths b hb]
  · intro b hb x covers
    rw [h'.contents b hb x (by rw [h.extent hb]; exact covers), h.contents b hb x covers]

/-- Clearing a new block leaves the others as they are. -/
theorem Plb.Sound.keeps_clear (h : pool'.Sound pending (block :: live))
    (lengths : ∀ b ∈ live, blockLength pool' b = blockLength pool b)
    (memory : pool'.memory = moveClear block.address (blockLength pool' block) pool.memory) :
    pool.Keeps pool' live := by
  refine ⟨lengths, ?_⟩
  intro b hb x covers
  have apart := (List.pairwise_cons.mp h.apart).1 b hb
  unfold Plb.extent at apart covers
  rw [lengths b hb] at apart
  have outside := apart.symm.not_covers covers
  rw [memory]
  exact if_neg outside

theorem moveClear_covers {first length : Nat} {memory : Nat → UInt8} {x : Nat}
    (covers : (⟨first, length⟩ : Extent).Covers x) : moveClear first length memory x = 0 :=
  if_pos covers

theorem blockSize_eq (fits : Fits sizes type count) :
    blockSize sizes type count = (requested sizes type count + 3) / 4 * 4 := by
  unfold Fits sizeofHnk at fits
  have plain : (if sizes.typTailLength type ≠ 0 ∧ 1 ≤ count then
      ulong (sizes.typRootLength type + (count - 1) * sizes.typTailLength type)
      else sizes.typRootLength type) = requested sizes type count := by
    split
    next => exact ulong_of_lt (show requested sizes type count < 4294967296 by omega)
    next none =>
      unfold requested
      by_cases tail : sizes.typTailLength type = 0
      · rw [tail, Nat.mul_zero, Nat.add_zero]
      · have zero : count - 1 = 0 := by
          have : ¬ 1 ≤ count := fun least => none ⟨tail, least⟩
          omega
        rw [zero, Nat.zero_mul, Nat.add_zero]
  unfold blockSize
  simp only
  rw [plain]
  unfold minAlloc
  rw [show requested sizes type count + 4 - 1 = requested sizes type count + 3 by omega]
  rw [ulong_of_lt (by omega)]

theorem requested_frb (sizes : BlockSizes) (valid : typeMin < type ∧ type < typeMax) (count : Nat) :
    8 ≤ requested sizes type count :=
  (sizes.root_frb type valid.1 valid.2).trans (Nat.le_add_right _ _)

/-- The sizes that the allocators work with. -/
structure Sized (sizes : BlockSizes) (type count size : Nat) : Prop where
  eq : blockSize sizes type count = size
  requested : requested sizes type count ≤ size
  units : size / 4 * 4 = size
  least : 8 ≤ size
  most : size + sizeofHnk ≤ 4294967296

theorem Fits.sized (fits : Fits sizes type count) (valid : typeMin < type ∧ type < typeMax) :
    Sized sizes type count (blockSize sizes type count) := by
  have least := requested_frb sizes valid count
  have eq := blockSize_eq fits
  unfold Fits sizeofHnk at fits
  rw [eq]
  refine ⟨eq, ?_, ?_, ?_, ?_⟩
  · omega
  · omega
  · omega
  · unfold sizeofHnk
    omega

theorem hnk_fits (sizes : BlockSizes) : Fits sizes typeHnk 0 := by
  unfold Fits requested
  rw [sizes.hnk_root, sizes.hnk_tail]
  decide

theorem hnk_size (sizes : BlockSizes) : blockSize sizes typeHnk 0 = 16 := by
  rw [blockSize_eq (hnk_fits sizes)]
  unfold requested
  rw [sizes.hnk_root, sizes.hnk_tail]
  rfl

/-- A request that one of the free blocks satisfies. -/
theorem allAlloc_found (heap : Heap) (h : pool.Sound pending live) (valid : typeMin < type ∧ type < typeMax)
    (sized : Sized sizes type count size) (short : size < maxBlock)
    (large : ∃ f ∈ pool.plbFree, size / 4 ≤ f.blkLength) (fuel : Nat) :
    ∃ block frees, allAlloc sizes heap (fuel + 1) type count pool =
        .ok (some block, { pool with
          plbFree := frees
          memory := moveClear block.address block.length pool.memory }) ∧
      Plb.Sound pending { pool with
        plbFree := frees
        memory := moveClear block.address block.length pool.memory } (block :: live) ∧
      block.blkType = type ∧ size / 4 ≤ block.blkLength ∧
      ∀ f ∈ pool.plbFree, ∀ n, 3 ≤ n → size / 4 + n ≤ f.blkLength → ∃ g ∈ frees, n ≤ g.blkLength := by
  have room : size < 261096 := short
  have least := sized.least
  have units : ushort (size / 4) = size / 4 := ushort_of_lt (by omega)
  have lengths : ∀ f ∈ pool.plbFree, f.blkLength < 65536 := fun f hf =>
    (loose_of_free h.arena hf).small h.small
  obtain ⟨found, eq, none, -⟩ : ∃ found, searchFree (size / 4) 0 none pool.plbFree = .ok found ∧
      _ ∧ _ :=
    searchFree_spec 0 none (ascending_of_sound h.arena) lengths
  rw [allAlloc, if_neg (by omega)]
  simp only
  rw [sized.eq, if_neg (Nat.not_le.mpr short), units, eq]
  cases found with
  | none =>
    obtain ⟨f, hf, enough⟩ := large
    exact absurd ((none rfl).2 f hf) (Nat.not_lt.mpr enough)
  | some best =>
    obtain ⟨block, frees, cut, sound, same, enough, left⟩ := takeFree_spec h type (by omega) eq
    rw [sized.units] at cut
    refine ⟨block, frees, ?_, sound, same, enough, left⟩
    simp only
    rw [cut]

/-- A free block serves the request. -/
theorem granted_found {frees : List Frb} (least : 2 ≤ block.blkLength)
    (sound : Plb.Sound [] { pool with
      plbFree := frees
      memory := moveClear block.address block.length pool.memory } (block :: live))
    (same : block.blkType = type) (large : size ≤ block.length) :
    Granted pool { pool with
      plbFree := frees
      memory := moveClear block.address block.length pool.memory } live type size (some block) := by
  have length : ∀ pool' : Plb, blockLength pool' block = block.length := by
    intro pool'
    unfold blockLength
    exact if_neg (by omega)
  refine ⟨sound, sound.keeps_clear (fun _ _ => rfl) (by rw [length]), ?_, ?_, ?_⟩
  · intro b hb
    obtain rfl := Option.some.inj hb
    exact same
  · intro b hb
    obtain rfl := Option.some.inj hb
    rw [length]
    exact large
  · intro b hb x covers
    obtain rfl := Option.some.inj hb
    unfold Plb.extent at covers
    rw [length] at covers
    exact moveClear_covers covers

/-- No memory was to be had. -/
theorem granted_none (h : pool.Sound [] live) : Granted pool pool live type size none :=
  ⟨h, Plb.Keeps.refl pool live, fun _ hb => (Option.some_ne_none _ hb.symm).elim,
    fun _ hb => (Option.some_ne_none _ hb.symm).elim, fun _ hb => (Option.some_ne_none _ hb.symm).elim⟩

theorem allMalloc_some {address : Nat} (h : allMalloc heap pool size = some address) :
    0 < size ∧ size < 2147483648 ∧
      ∀ hunk ∈ pool.plbHunks ++ pool.plbHugeHunks, Extent.Gap 4 ⟨address, size⟩ hunk.area := by
  unfold allMalloc at h
  split at h
  next => exact (Option.some_ne_none _ h.symm).elim
  next positive => exact ⟨by omega, by omega, heap.fresh pool size address h⟩

/-- The memory that a pool is extended by has room for the request and for a hunk block. -/
theorem extend_units (extendSize : Nat)
    (extend : extendSize = minAllocation ∨
      extendSize = 16 * minAllocation ∧ size + sizeofHnk ≤ 16 * minAllocation)
    (room : size < maxBlock) :
    ∃ units, ulong (ulong (size + sizeofHnk) + extendSize - 1) / extendSize * extendSize = units * 4 ∧
      256 ≤ units ∧ size / 4 + 4 ≤ units ∧ units < 65536 := by
  unfold sizeofHnk minAllocation at extend
  unfold maxBlock sizeofHnk minAllocation at room
  unfold sizeofHnk
  rw [ulong_of_lt (show size + 16 < 4294967296 by omega), ulong_of_lt (by omega)]
  obtain rfl | ⟨rfl, short⟩ := extend
  · exact ⟨(size + 16 + 1024 - 1) / 1024 * 256, by omega, by omega, by omega, by omega⟩
  · exact ⟨(size + 16 + 16384 - 1) / 16384 * 4096, by omega, by omega, by omega, by omega⟩

/-- `extend_pool`: the new memory serves the request that the pool was extended for. -/
theorem extendPool_spec (sizes : BlockSizes) (heap : Heap) (h : pool.Sound [] live) (least : 8 ≤ size) (room : size < maxBlock)
    (fuel : Nat) :
    extendPool heap (allAlloc sizes heap (fuel + 1) typeHnk 0) size pool = .ok (false, pool) ∨
      ∃ pool', extendPool heap (allAlloc sizes heap (fuel + 1) typeHnk 0) size pool =
          .ok (true, pool') ∧
        pool'.Sound [] live ∧ pool.Keeps pool' live ∧ ∃ f ∈ pool'.plbFree, size / 4 ≤ f.blkLength := by
  have short : size < 261096 := room
  obtain ⟨units, rounded, many, enough, small⟩ := extend_units
    (if pool.plbExtendSize < ulong (size + sizeofHnk) then minAllocation else pool.plbExtendSize) (by
    rw [ulong_of_lt (show size + sizeofHnk < 4294967296 by unfold sizeofHnk; omega)]
    split
    next => exact .inl rfl
    next enough =>
      obtain extend | extend := h.extend
      · exact .inl extend
      · exact .inr ⟨extend, by omega⟩) room
  unfold extendPool
  simp only
  rw [rounded]
  cases found : allMalloc heap pool (units * 4) with
  | none => exact .inl rfl
  | some address =>
    obtain ⟨-, -, gap⟩ := allMalloc_some found
    obtain ⟨frees, released, sound, f, hf, large⟩ := release_area h typeFrb
      (show (⟨address, units * 4⟩ : Extent).length = units * 4 from rfl) (by omega) small gap
    have hnk := hnk_size sizes
    have valid : typeMin < typeHnk ∧ typeHnk < typeMax := by decide
    obtain ⟨hunk, frees', got, sound', -, lengthHunk, left⟩ := allAlloc_found heap sound valid
      ((hnk_fits sizes).sized valid) (by rw [hnk]; decide) ⟨f, hf, by rw [hnk]; omega⟩ fuel
    rw [hnk] at lengthHunk left
    have own : hunk.blkLength ≠ 0 := by omega
    obtain ⟨g, hg, rest⟩ := left f hf (max 3 (size / 4)) (Nat.le_max_left _ _) (by omega)
    right
    simp only
    rw [Nat.mul_div_cancel _ (by decide), ushort_of_lt small, released]
    simp only
    rw [got]
    refine ⟨_, rfl, sound'.addHunk own, ?_, g, hg, (Nat.le_max_right _ _).trans rest⟩
    have keeps : pool.Keeps _ live := sound'.keeps_clear (fun _ _ => rfl) (by
      unfold blockLength
      exact congrArg (moveClear hunk.address · pool.memory) (if_neg (by omega)).symm)
    exact ⟨keeps.lengths, keeps.contents⟩

/-- A request for a block that lies in a hunk. -/
theorem allAlloc_short (h : pool.Sound [] live) (valid : typeMin < type ∧ type < typeMax)
    (fits : Fits sizes type count) (room : blockSize sizes type count < maxBlock) (fuel : Nat) :
    ∃ out pool', allAlloc sizes heap (fuel + 2) type count pool = .ok (out, pool') ∧
      Granted pool pool' live type (requested sizes type count) out := by
  have sized := fits.sized valid
  have least := sized.least
  have served : ∀ {pool₁ : Plb}, pool₁.Sound [] live → pool.Keeps pool₁ live →
      (∃ f ∈ pool₁.plbFree, blockSize sizes type count / 4 ≤ f.blkLength) → ∀ fuel,
      ∃ out pool', allAlloc sizes heap (fuel + 1) type count pool₁ = .ok (out, pool') ∧
        Granted pool pool' live type (requested sizes type count) out := by
    intro pool₁ sound keeps large fuel
    obtain ⟨block, frees, eq, sound', same, enough, -⟩ :=
      allAlloc_found heap sound valid sized room large fuel
    have granted := granted_found (by omega) sound' same
      (sized.requested.trans (by rw [← sized.units]; exact Nat.mul_le_mul_right 4 enough))
    exact ⟨some block, _, eq, granted.sound, keeps.trans granted.keeps, granted.type, granted.large,
      granted.cleared⟩
  by_cases large : ∃ f ∈ pool.plbFree, blockSize sizes type count / 4 ≤ f.blkLength
  · exact served h (Plb.Keeps.refl pool live) large (fuel + 1)
  · have lengths : ∀ f ∈ pool.plbFree, f.blkLength < 65536 := fun f hf =>
      (loose_of_free h.arena hf).small h.small
    have units : ushort (blockSize sizes type count / 4) = blockSize sizes type count / 4 :=
      ushort_of_lt (by
        have : blockSize sizes type count < 261096 := room
        omega)
    obtain ⟨found, eq, -, split⟩ : ∃ found,
        searchFree (blockSize sizes type count / 4) 0 none pool.plbFree = .ok found ∧ _ ∧ _ :=
      searchFree_spec 0 none (ascending_of_sound h.arena) lengths
    have nothing : found = none := by
      cases found with
      | none => rfl
      | some best =>
        obtain first | ⟨before, after, whole, -, enough, -⟩ := split best rfl
        · exact first.symm
        · exact absurd ⟨best.free, by rw [whole]; simp, enough⟩ large
    subst nothing
    rw [allAlloc, if_neg (by omega)]
    simp only
    rw [if_neg (Nat.not_le.mpr room), units, eq]
    simp only
    obtain refused | ⟨pool', extended, sound, keeps, room'⟩ :=
      extendPool_spec sizes heap h least room fuel
    · rw [refused]
      exact ⟨none, pool, rfl, granted_none h⟩
    · rw [extended]
      exact served sound keeps room' fuel

end

end All

end InterBase
