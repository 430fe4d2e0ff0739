import InterBase.GdsAllocFree

namespace InterBase

namespace GdsAlloc

open Arena

variable (p : Platform)

/-- The size of a block before it is put into an `SLONG`. -/
def exactSize (sizeRequest : Int) : Int :=
  (sizeRequest + p.allocOverhead * factor sizeRequest + p.alignment - 1) / p.alignment * p.alignment

/-- The memory obtained to extend the pool by such a block is less than 2 ^ 31 bytes. -/
def Fits (sizeRequest : Int) : Prop :=
  0 < sizeRequest →
    (minimalTail p (exactSize p sizeRequest) / p.extendSize + 1) * p.extendSize < 2147483648

/-- The part of an area behind its link. -/
def usable (area : Extent) : Extent := ⟨area.first + p.areaLink, area.length - p.areaLink⟩

def Block.extent (block : Block) : Extent := ⟨block.address, block.length.toNat⟩

def liveTotal (live : List Block) : Int := (live.map Block.length).sum

def areaTotal (areas : List Extent) : Nat := (areas.map Extent.length).sum

/-- The usable parts of the areas, the free list and the blocks that clients hold. -/
def State.arena (s : State) : Arena.State :=
  ⟨s.mallocedMemory.map (usable p), s.pool.map Free.extent, s.live.map Block.extent⟩

/-- The free list ascends with something between any two blocks, all blocks are positive, lie inside
the areas and are apart; the blocks are as large as requested; all of the memory is accounted for. -/
structure Invariant (s : State) : Prop where
  arena : (s.arena p).Sound p.areaLink
  areas : ∀ area ∈ s.mallocedMemory, p.areaLink ≤ area.length ∧ area.length < 2147483648 ∧
    area.stop < 4294967296
  requested : ∀ block ∈ s.live,
    0 < block.sizeRequest ∧ block.sizeRequest + p.allocOverhead ≤ block.length
  total : poolTotal s.pool + liveTotal s.live + p.areaLink * s.mallocedMemory.length =
    areaTotal s.mallocedMemory

section

variable {p} {s : State} {pool before after : List Free} {size sizeRequest : Int}

@[simp] theorem Block.extent_first (block : Block) : block.extent.first = block.address := rfl

@[simp] theorem Block.extent_length (block : Block) : block.extent.length = block.length.toNat := rfl

@[simp] theorem liveTotal_cons (block : Block) (live : List Block) :
    liveTotal (block :: live) = block.length + liveTotal live := rfl

theorem Platform.allocOverhead_eq (p : Platform) : p.allocOverhead = p.alignment := by
  unfold Platform.allocOverhead Platform.allocRoundup sizeofUlong
  obtain eq | eq := p.alignment_cases <;> rw [eq]

theorem Platform.areaLink_eq (p : Platform) : p.areaLink = p.alignment := by
  unfold Platform.areaLink Platform.allocRoundup sizeofPointer
  obtain eq | eq := p.alignment_cases <;> rw [eq]

theorem Platform.areaLink_pos (p : Platform) : 0 < p.areaLink := by
  rw [p.areaLink_eq]
  obtain eq | eq := p.alignment_cases <;> omega

/-- The sizes for which nothing is lost in an `SLONG`. -/
structure Sized (p : Platform) (sizeRequest size : Int) : Prop where
  positive : 0 < sizeRequest
  requested : sizeRequest + p.allocOverhead ≤ size
  least : p.allocOverhead < size
  tail : minimalTail p size < extendTail p size
  small : extendTail p size < 2147483648

/-- The next multiple of the extend quantity. -/
theorem extend_between {n : Int} {extendSize : Nat} (pos : 0 < extendSize) :
    n < (n / extendSize + 1) * extendSize := by
  have step := Int.lt_ediv_add_one_mul_self n (show (0 : Int) < extendSize by omega)
  exact step

theorem factor_pos (pos : 0 < sizeRequest) : 1 ≤ factor sizeRequest := by
  unfold factor
  split <;> omega

theorem blockSize_sized (pos : 0 < sizeRequest) (fits : Fits p sizeRequest) :
    Sized p sizeRequest (blockSize p sizeRequest) := by
  have extendPos : 0 < p.extendSize := by
    obtain eq | eq | eq := p.extendSize_cases <;> omega
  have most := fits pos
  have between := extend_between (n := minimalTail p (exactSize p sizeRequest)) extendPos
  have times := factor_pos pos
  have rounded : sizeRequest + p.allocOverhead * factor sizeRequest ≤ exactSize p sizeRequest := by
    unfold exactSize
    obtain eq | eq := p.alignment_cases <;> rw [eq] <;> omega
  have overhead : (p.allocOverhead : Int) ≤ p.allocOverhead * factor sizeRequest := by
    rw [p.allocOverhead_eq]
    obtain eq | eq := p.alignment_cases <;> rw [eq] <;> omega
  have tailEq : minimalTail p (exactSize p sizeRequest) =
      exactSize p sizeRequest + 8 + p.alignment + p.alignment := by
    unfold minimalTail sizeofFree
    rw [p.areaLink_eq, p.allocOverhead_eq]
    rfl
  have exact : blockSize p sizeRequest = exactSize p sizeRequest := by
    have low : 0 ≤ sizeRequest + p.allocOverhead * factor sizeRequest := by omega
    unfold blockSize
    simp only
    rw [slong_of_mem (n := sizeRequest + _) (by omega) (by omega), slong_of_mem]
    · rfl
    · omega
    · omega
  rw [exact]
  refine ⟨pos, by omega, by omega, ?_, ?_⟩
  · unfold extendTail
    rw [Int.emod_eq_of_lt (by omega) (by omega)]
    exact between
  · unfold extendTail
    rw [Int.emod_eq_of_lt (by omega) (by omega)]
    exact most

theorem bounded_usable (areas : ∀ area ∈ s.mallocedMemory, p.areaLink ≤ area.length ∧
    area.length < 2147483648 ∧ area.stop < 4294967296) :
    Bounded (s.mallocedMemory.map (usable p)) := by
  refine List.forall_mem_map.mpr fun area mem => ?_
  obtain ⟨link, length, last⟩ := areas area mem
  unfold usable Extent.stop at *
  simp only
  omega

theorem Invariant.bounded (h : Invariant p s) : Bounded (s.mallocedMemory.map (usable p)) :=
  bounded_usable h.areas

/-- The search finds no bad block; a block that it returns is one that fits. -/
theorem searchPool_spec {areas used : List Extent} {room : Nat} (place : Nat) (best : Option Best)
    (sound : State.Sound room ⟨areas, pool.map Free.extent, used⟩) (bounded : Bounded areas)
    (pos : 0 < size) (small : size < 2147483648) :
    ∃ found, searchPool size place best pool = (found, pool) ∧
      ∀ b, found = some b → best = some b ∨
        ∃ before after, pool = before ++ b.free :: after ∧ b.place = place + before.length ∧
          b.tail = b.free.freeLength - size ∧ 0 ≤ b.tail := by
  induction pool generalizing place best with
  | nil => exact ⟨best, rfl, fun b some => .inl some⟩
  | cons free rest ih =>
    have loose := loose_of_free sound List.mem_cons_self
    have positive := loose.positive
    obtain ⟨length, -⟩ := loose.bounds bounded
    have beyond := (List.pairwise_cons.mp (spaced_of_sound sound)).1
    have ih := fun best => ih (place + 1) best
      (sound.sublist ((List.sublist_cons_self free rest).map Free.extent))
    have kosher : ¬ (free.freeLength ≤ 0 ∨
        (rest.head?.any fun next => decide (next.address < free.stop)) = true) := by
      rintro (none | next)
      · omega
      · rw [Option.any_eq_true] at next
        obtain ⟨g, first, less⟩ := next
        have := beyond g (List.mem_of_mem_head? first)
        rw [loose.stop_eq bounded] at less
        exact absurd (of_decide_eq_true less) (Nat.not_lt.mpr this.le)
    have shift : ∀ b : Best, (∃ before after, rest = before ++ b.free :: after ∧
          b.place = place + 1 + before.length ∧ b.tail = b.free.freeLength - size ∧ 0 ≤ b.tail) →
        ∃ before after, free :: rest = before ++ b.free :: after ∧
          b.place = place + before.length ∧ b.tail = b.free.freeLength - size ∧ 0 ≤ b.tail := by
      rintro b ⟨before, after, split, hplace, fits⟩
      refine ⟨free :: before, after, by rw [split]; rfl, ?_, fits⟩
      rw [List.length_cons]
      omega
    rw [searchPool, if_neg kosher]
    simp only
    rw [slong_of_mem (by omega) (by omega)]
    split
    next better =>
      have here : ∃ before after, free :: rest = before ++ free :: after ∧
          place = place + before.length ∧ free.freeLength - size = free.freeLength - size ∧
          0 ≤ free.freeLength - size := ⟨[], rest, rfl, rfl, rfl, better.1⟩
      split
      next =>
        refine ⟨_, rfl, fun b hb => .inr ?_⟩
        obtain rfl := Option.some.inj hb
        exact here
      next =>
        obtain ⟨found, eq, some⟩ := ih (some ⟨place, free, free.freeLength - size⟩)
        rw [eq]
        refine ⟨found, rfl, fun b hb => .inr ?_⟩
        obtain first | later := some b hb
        · obtain rfl := Option.some.inj first
          exact here
        · exact shift b later
    next worse =>
      obtain ⟨found, eq, some⟩ := ih best
      rw [eq]
      exact ⟨found, rfl, fun b hb => (some b hb).imp_right (shift b)⟩

/-- A block is taken from a free one; what is left over is free. -/
theorem takeBest_spec {areas used : List Extent} {room : Nat} {best : Best} (sizeRequest : Int)
    (sound : State.Sound room ⟨areas, (before ++ best.free :: after).map Free.extent, used⟩)
    (bounded : Bounded areas) (place : best.place = before.length)
    (tail : best.tail = best.free.freeLength - size) (fits : 0 ≤ best.tail) (pos : 0 < size) :
    ∃ block pool, takeBest p best size sizeRequest (before ++ best.free :: after) = (block, pool) ∧
      State.Sound room ⟨areas, pool.map Free.extent, block.extent :: used⟩ ∧
      size ≤ block.length ∧ block.sizeRequest = sizeRequest ∧
      poolTotal pool + block.length = poolTotal (before ++ best.free :: after) := by
  have loose := loose_of_free sound (show best.free ∈ before ++ best.free :: after by simp)
  obtain ⟨length, last⟩ := loose.bounds bounded
  have positive := loose.positive
  rw [List.map_append, List.map_cons] at sound
  unfold takeBest
  rw [place]
  split
  next little =>
    refine ⟨_, _, rfl, ?_, by simp only; omega, rfl, ?_⟩
    · rw [List.eraseIdx_append_of_length_le (Nat.le_refl _), Nat.sub_self, List.eraseIdx_cons_zero,
        List.map_append]
      exact sound.takeWhole
    · rw [List.eraseIdx_append_of_length_le (Nat.le_refl _), Nat.sub_self, List.eraseIdx_cons_zero]
      simp only [poolTotal_append, poolTotal_cons]
      omega
  next more =>
    have left : slong (best.free.freeLength - size) = best.tail := by
      rw [← tail]
      exact slong_of_mem (by omega) (by omega)
    have start : pointer best.free.address best.tail = best.free.address + best.tail.toNat := by
      unfold pointer
      rw [Int.emod_eq_of_lt (by omega) (by omega)]
      omega
    have tailPos : 0 < best.tail := by omega
    rw [left, start]
    refine ⟨_, _, rfl, ?_, Int.le_refl _, rfl, ?_⟩
    · rw [List.set_append_right _ _ (Nat.le_refl _), Nat.sub_self, List.set_cons_zero,
        List.map_append, List.map_cons]
      refine sound.takeEnd rfl ?_ ?_ rfl ?_
      · rw [Free.extent_length]
        exact Int.lt_toNat.mpr tailPos
      · rw [Block.extent_length]
        exact Int.lt_toNat.mpr pos
      · simp only [Extent.stop, Block.extent_first, Block.extent_length, Free.extent_first,
          Free.extent_length]
        omega
    · rw [List.set_append_right _ _ (Nat.le_refl _), Nat.sub_self, List.set_cons_zero]
      simp only [poolTotal_append, poolTotal_cons]
      omega

end

end GdsAlloc

end InterBase
