import InterBase.AllHuge

namespace InterBase

namespace All

open Arena

/-- Where a vector has its count, which `ALL_extend` sets. -/
def Blk.Counts (block : Blk) (i : Nat) : Prop :=
  (block.blkType = typeVec ∨ block.blkType = typeVcl) ∧ i < sizeofBlk + 4

/-- What comes of `ALL_extend`: the new block takes the place of the old one, with what was in it. -/
structure Extended (pool pool' : Plb) (live : List Blk) (block : Blk) (size : Nat) (new : Blk) :
    Prop where
  sound : pool'.Sound [] (new :: live.erase block)
  keeps : pool.Keeps pool' (live.erase block)
  type : new.blkType = block.blkType
  large : size ≤ blockLength pool' new
  contents : ∀ i, sizeofBlk ≤ i → i < min (blockLength pool block) (blockLength pool' new) →
    ¬ new.Counts i → pool'.memory (new.address + i) = pool.memory (block.address + i)

section

variable {sizes : BlockSizes} {live : List Blk} {block new : Blk} {pool : Plb} {size x : Nat}
  {memory : Nat → UInt8}

/-- Only the count of a vector is stored. -/
theorem storeCount_outside (size : Nat) (memory : Nat → UInt8)
    (h : x < new.address ∨ ¬ new.Counts (x - new.address)) : storeCount new size memory x = memory x := by
  unfold storeCount
  split
  next vector =>
    refine if_neg ?_
    rintro ⟨low, high⟩
    unfold Blk.Counts sizeofBlk at h
    unfold sizeofBlk at low high
    obtain before | other := h
    · omega
    · exact other ⟨vector, by omega⟩
  next => rfl

theorem moveFaster_inside {source target length i : Nat} (h : i < length) :
    moveFaster source target length memory (target + i) = memory (source + i) := by
  unfold moveFaster
  rw [if_pos ⟨Nat.le_add_right _ _, Nat.add_lt_add_left h _⟩, Nat.add_sub_cancel_left]

/-- `ALL_extend` of a block that has been given out. -/
theorem allExtend_spec (heap : Heap) (h : pool.Sound [] live) (mem : block ∈ live)
    (valid : typeMin < block.blkType ∧ block.blkType < typeMax) (fits : Fits sizes block.blkType size)
    (fuel : Nat) :
    (∃ pool', allExtend sizes heap (fuel + 2) block size pool = .ok (none, pool') ∧
      pool'.Sound [] live ∧ pool.Keeps pool' live) ∨
    ∃ new pool', allExtend sizes heap (fuel + 2) block size pool = .ok (some new, pool') ∧
      Extended pool pool' live block (requested sizes block.blkType size) new := by
  obtain ⟨out, pool₁, eq, granted⟩ := allAlloc_granted heap h valid fits fuel
  unfold allExtend
  rw [eq]
  cases out with
  | none => exact .inl ⟨pool₁, rfl, granted.sound, granted.keeps⟩
  | some new =>
    right
    simp only
    have least : 8 ≤ requested sizes block.blkType size := requested_frb sizes valid size
    have large := granted.large new rfl
    have order : (new :: live).Perm (block :: new :: live.erase block) :=
      ((List.perm_cons_erase mem).cons new).trans (List.Perm.swap _ _ _)
    have held : pool₁.Sound [] (block :: new :: live.erase block) := granted.sound.perm order
    have oldLength : blockLength pool₁ block = blockLength pool block :=
      granted.keeps.lengths block mem
    generalize copied : moveFaster (block.address + sizeofBlk) (new.address + sizeofBlk)
      (min (blockLength pool₁ block) (blockLength pool₁ new) - sizeofBlk) pool₁.memory = memory
    obtain ⟨pool₂, released, sound, keeps, same⟩ := release_spec (held.memory memory)
    rw [released]
    have newLength : blockLength pool₂ new = blockLength pool₁ new :=
      keeps.lengths new List.mem_cons_self
    refine ⟨new, _, rfl, sound.memory _, ⟨?_, ?_⟩, granted.type new rfl, ?_, ?_⟩
    · intro b hb
      exact (keeps.lengths b (List.mem_cons_of_mem _ hb)).trans
        (granted.keeps.lengths b (List.mem_of_mem_erase hb))
    · intro b hb x covers
      have memLive := List.mem_of_mem_erase hb
      have apart : (pool₁.extent b).Apart (pool₁.extent new) :=
        ((List.pairwise_cons.mp granted.sound.apart).1 b memLive).symm
      have outside : ¬ (pool₁.extent new).Covers x :=
        apart.not_covers (by rw [granted.keeps.extent memLive]; exact covers)
      have away : x < new.address ∨ new.address + blockLength pool₁ new ≤ x := by
        unfold Extent.Covers Extent.stop Plb.extent at outside
        simp only at outside
        omega
      have copy : memory x = pool₁.memory x := by
        rw [← copied]
        refine if_neg ?_
        unfold sizeofBlk
        omega
      simp only
      rw [storeCount_outside, same]
      · exact copy.trans (granted.keeps.contents b memLive x covers)
      · obtain before | behind := away
        · exact .inl before
        · right
          rintro ⟨-, low⟩
          unfold sizeofBlk at low
          omega
    · exact large.trans (Nat.le_of_eq newLength.symm)
    · intro i low high uncounted
      have high : i < min (blockLength pool block) (blockLength pool₁ new) := by
        rw [← newLength]
        exact high
      simp only
      rw [storeCount_outside _ _ (.inr (by rw [Nat.add_sub_cancel_left]; exact uncounted)), same]
      simp only
      rw [← copied, show new.address + i = new.address + sizeofBlk + (i - sizeofBlk) by omega,
        moveFaster_inside (by rw [oldLength]; omega),
        show block.address + sizeofBlk + (i - sizeofBlk) = block.address + i by omega]
      refine granted.keeps.contents block mem _ ?_
      unfold Extent.Covers Extent.stop Plb.extent
      simp only
      omega

end

/-- A pool with the blocks that its callers hold. -/
structure Held where
  pool : Plb
  live : List Blk

/-- A call, with the memory that is to be had when it is made. Between calls the holders of blocks
write in memory. -/
inductive Call where
  | alloc (heap : Heap) (type count : Nat)
  | release (block : Blk)
  | extend (heap : Heap) (block : Blk) (size : Nat)
  | write (memory : Nat → UInt8)

variable (sizes : BlockSizes)

def Call.make : Call → Held → Except Stop Held
  | .alloc heap type count, s =>
    match allAlloc sizes heap 2 type count s.pool with
    | .error stop => .error stop
    | .ok (out, pool) => .ok ⟨pool, out.toList ++ s.live⟩
  | .release block, s =>
    match All.release block s.pool with
    | .error stop => .error stop
    | .ok pool => .ok ⟨pool, s.live.erase block⟩
  | .extend heap block size, s =>
    match allExtend sizes heap 2 block size s.pool with
    | .error stop => .error stop
    | .ok (none, pool) => .ok ⟨pool, s.live⟩
    | .ok (some new, pool) => .ok ⟨pool, new :: s.live.erase block⟩
  | .write memory, s => .ok ⟨{ s.pool with memory := memory }, s.live⟩

def run : List Call → Held → Except Stop Held
  | [], s => .ok s
  | call :: calls, s =>
    match call.make sizes s with
    | .error stop => .error stop
    | .ok s => run calls s

/-- The callers name a type there is and blocks that they hold, and the length of what they ask for
does not overflow. -/
def Call.Admitted (s : Held) : Call → Prop
  | .alloc _ type count => (typeMin < type ∧ type < typeMax) ∧ Fits sizes type count
  | .release block => block ∈ s.live
  | .extend _ block size => block ∈ s.live ∧ Fits sizes block.blkType size
  | .write _ => True

def AdmittedRun : List Call → Held → Prop
  | [], _ => True
  | call :: calls, s =>
    call.Admitted sizes s ∧ ∀ s', call.make sizes s = .ok s' → AdmittedRun calls s'

/-- The pool that `ALL_pool` starts with. -/
def created (extendSize : Nat) (memory : Nat → UInt8) : Held := ⟨⟨extendSize, [], [], [], memory⟩, []⟩

/-- Free blocks ascend with something between any two of them, and lie in hunks where no block is that
has been given out; no two of those overlap. -/
structure Held.Orderly (s : Held) : Prop where
  spaced : s.pool.plbFree.Pairwise fun a b => a.stop < b.address
  inside : ∀ free ∈ s.pool.plbFree, ∃ hunk ∈ s.pool.plbHunks, free.extent.Within hunk.area
  apart : ∀ free ∈ s.pool.plbFree, ∀ block ∈ s.live, free.extent.Apart (s.pool.extent block)
  live : s.live.Pairwise fun a b => (s.pool.extent a).Apart (s.pool.extent b)

/-- What a call does for its caller, and to the other blocks. -/
def Call.Served (s s' : Held) : Call → Prop
  | .alloc _ type count => ∃ out : Option Blk, s'.live = out.toList ++ s.live ∧
      (∀ block ∈ out, block.blkType = type ∧
        requested sizes type count ≤ blockLength s'.pool block) ∧
      s.pool.Keeps s'.pool s.live
  | .release block => s'.live = s.live.erase block ∧ s.pool.Keeps s'.pool s'.live
  | .extend _ block size => (s'.live = s.live ∧ s.pool.Keeps s'.pool s.live) ∨
      ∃ new, s'.live = new :: s.live.erase block ∧
        Extended s.pool s'.pool s.live block (requested sizes block.blkType size) new
  | .write _ => s'.live = s.live

/-- The invariant of a run. -/
structure Held.Sound (s : Held) : Prop where
  pool : s.pool.Sound [] s.live
  types : ∀ block ∈ s.live, typeMin < block.blkType ∧ block.blkType < typeMax

section

variable {sizes : BlockSizes} {s : Held}

theorem Held.Sound.orderly (h : s.Sound) : s.Orderly where
  spaced := List.pairwise_map.mp h.pool.arena.spaced
  inside free hfree := by
    obtain ⟨area, mem, within⟩ := h.pool.arena.freeInside _ (List.mem_map_of_mem hfree)
    obtain ⟨hunk, memHunk, rfl⟩ := List.mem_map.mp mem
    exact ⟨hunk, memHunk, within⟩
  apart _ hfree _ hblock := h.pool.free_apart hfree hblock
  live := h.pool.apart

/-- An admitted call is served, and the pool stays sound. -/
theorem Held.Sound.call (h : s.Sound) (call : Call) (admitted : call.Admitted sizes s) :
    ∃ s', call.make sizes s = .ok s' ∧ s'.Sound ∧ call.Served sizes s s' := by
  cases call with
  | alloc heap type count =>
    obtain ⟨valid, fits⟩ := admitted
    obtain ⟨out, pool, eq, granted⟩ := allAlloc_granted heap h.pool valid fits 0
    unfold Call.make
    simp only
    rw [eq]
    refine ⟨_, rfl, ⟨granted.sound, ?_⟩, out, rfl, ?_, granted.keeps⟩
    · intro b hb
      obtain hout | hlive := List.mem_append.mp hb
      · rw [granted.type b (Option.mem_toList.mp hout)]
        exact valid
      · exact h.types b hlive
    · exact fun b hb => ⟨granted.type b hb, granted.large b hb⟩
  | release block =>
    have order : s.live.Perm (block :: s.live.erase block) := List.perm_cons_erase admitted
    obtain ⟨pool, eq, sound, keeps, -⟩ := release_spec (h.pool.perm order)
    unfold Call.make
    simp only
    rw [eq]
    exact ⟨_, rfl, ⟨sound, fun b hb => h.types b (List.mem_of_mem_erase hb)⟩, rfl, keeps⟩
  | extend heap block size =>
    obtain ⟨mem, fits⟩ := admitted
    have valid := h.types block mem
    unfold Call.make
    simp only
    obtain ⟨pool, eq, sound, keeps⟩ | ⟨new, pool, eq, extended⟩ :=
      allExtend_spec heap h.pool mem valid fits 0
    · rw [eq]
      exact ⟨_, rfl, ⟨sound, h.types⟩, .inl ⟨rfl, keeps⟩⟩
    · rw [eq]
      refine ⟨_, rfl, ⟨extended.sound, ?_⟩, .inr ⟨new, rfl, extended⟩⟩
      refine List.forall_mem_cons.mpr ⟨by rw [extended.type]; exact valid, ?_⟩
      exact fun b hb => h.types b (List.mem_of_mem_erase hb)
  | write memory => exact ⟨_, rfl, ⟨h.pool.memory memory, h.types⟩, rfl⟩

theorem Held.Sound.run {calls : List Call} (h : s.Sound) (admitted : AdmittedRun sizes calls s) :
    ∃ s', All.run sizes calls s = .ok s' ∧ s'.Sound := by
  induction calls generalizing s with
  | nil => exact ⟨s, rfl, h⟩
  | cons call calls ih =>
    obtain ⟨first, later⟩ := admitted
    obtain ⟨s', eq, sound, -⟩ := h.call call first
    obtain ⟨s'', eq', sound'⟩ := ih sound (later s' eq)
    refine ⟨s'', ?_, sound'⟩
    unfold All.run
    rw [eq]
    exact eq'

theorem created_sound {extendSize : Nat} (memory : Nat → UInt8)
    (extend : extendSize = minAllocation ∨ extendSize = 16 * minAllocation) :
    (created extendSize memory).Sound := by
  refine ⟨⟨?_, List.forall_mem_nil _, List.forall_mem_nil _, List.forall_mem_nil _, ?_, extend⟩,
    List.forall_mem_nil _⟩
  · exact ⟨.nil, .nil, List.forall_mem_nil _, List.forall_mem_nil _, List.forall_mem_nil _, .nil,
      List.forall_mem_nil _, List.forall_mem_nil _⟩
  · exact ⟨.nil, List.forall_mem_nil _, List.forall_mem_nil _, List.forall_mem_nil _, .nil⟩

end

/-- In every run the pool stays in order, and the next call is served. -/
theorem pool_orderly {extendSize : Nat}
    (extend : extendSize = minAllocation ∨ extendSize = 16 * minAllocation) (memory : Nat → UInt8)
    (calls : List Call) (admitted : AdmittedRun sizes calls (created extendSize memory)) :
    ∃ s, run sizes calls (created extendSize memory) = .ok s ∧ s.Orderly ∧
      ∀ call : Call, call.Admitted sizes s →
        ∃ s', call.make sizes s = .ok s' ∧ s'.Orderly ∧ call.Served sizes s s' := by
  obtain ⟨s, eq, sound⟩ := (created_sound memory extend).run admitted
  refine ⟨s, eq, sound.orderly, ?_⟩
  intro call next
  obtain ⟨s', made, sound', served⟩ := sound.call call next
  exact ⟨s', made, sound'.orderly, served⟩

/-- The first address behind all hunks. -/
def topOf (hunks : List Hnk) : Nat := hunks.foldr (fun hunk top => max (hunk.area.stop + 4) top) 4096

theorem le_topOf {hunk : Hnk} {hunks : List Hnk} (mem : hunk ∈ hunks) :
    hunk.area.stop + 4 ≤ topOf hunks := by
  induction hunks with
  | nil => exact (List.not_mem_nil mem).elim
  | cons other hunks ih =>
    obtain rfl | later := List.mem_cons.mp mem
    · exact Nat.le_max_left _ _
    · exact (ih later).trans (Nat.le_max_right _ _)

/-- Memory is given out upwards. -/
def upward : Heap where
  gdsAlloc pool _ := some (topOf (pool.plbHunks ++ pool.plbHugeHunks))
  fresh := by
    intro pool size address h hunk mem
    obtain rfl := Option.some.inj h
    exact .inr (le_topOf mem)

/-- Vectors of longwords, beside blocks of the length of a hunk block. -/
def vectorSizes : BlockSizes where
  typRootLength type := if type = typeVec then 12 else 16
  typTailLength type := if type = typeVec then 4 else 0
  hnk_root := rfl
  hnk_tail := rfl
  root_frb := by
    intro type _ _
    unfold sizeofFrb
    split <;> decide

theorem pool_orderly_vector : ∃ s, run vectorSizes
    [.alloc upward typeVec 1, .extend upward ⟨5092, typeVec, 3⟩ 2, .release ⟨5076, typeVec, 4⟩]
      (created minAllocation fun _ => 0) = .ok s ∧ s.Orderly ∧
    ∀ call : Call, call.Admitted vectorSizes s →
      ∃ s', call.make vectorSizes s = .ok s' ∧ s'.Orderly ∧ call.Served vectorSizes s s' := by
  refine pool_orderly vectorSizes (.inl rfl) _ _ ⟨⟨by decide, by decide⟩, ?_⟩
  intro s first
  obtain rfl := Except.ok.inj first
  refine ⟨⟨List.mem_cons_self, by decide⟩, ?_⟩
  intro s second
  obtain rfl := Except.ok.inj second
  exact ⟨List.mem_cons_self, fun _ _ => trivial⟩

/-- The count of a vector is not what it was when the vector is extended, and a request of more than
all memory gets a small block. -/
theorem vector_counted_or_wrapped :
    (∃ s s', run vectorSizes [.alloc upward typeVec 1] (created minAllocation fun _ => 0) = .ok s ∧
      (Call.extend upward ⟨5092, typeVec, 3⟩ 2).make vectorSizes s = .ok s' ∧
      s.live = [⟨5092, typeVec, 3⟩] ∧ s'.live = [⟨5076, typeVec, 4⟩] ∧
      sizeofBlk < min (blockLength s.pool ⟨5092, typeVec, 3⟩)
        (blockLength s'.pool ⟨5076, typeVec, 4⟩) ∧
      s'.pool.memory (5076 + sizeofBlk) ≠ s.pool.memory (5092 + sizeofBlk)) ∧
    ∃ s, run vectorSizes [.alloc upward typeVec 1073741825] (created minAllocation fun _ => 0) =
        .ok s ∧
      s.live = [⟨5092, typeVec, 3⟩] ∧
      blockLength s.pool ⟨5092, typeVec, 3⟩ < requested vectorSizes typeVec 1073741825 :=
  ⟨⟨_, _, rfl, rfl, rfl, rfl, by decide, by decide⟩, ⟨_, rfl, rfl, by decide⟩⟩

end All

end InterBase
