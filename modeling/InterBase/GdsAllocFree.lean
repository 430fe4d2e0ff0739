import InterBase.GdsAlloc

namespace InterBase

namespace GdsAlloc

open Arena

def Free.extent (free : Free) : Extent := ⟨free.address, free.freeLength.toNat⟩

@[simp] theorem Free.extent_first (free : Free) : free.extent.first = free.address := rfl

@[simp] theorem Free.extent_length (free : Free) : free.extent.length = free.freeLength.toNat := rfl

/-- The sum of the free lengths. -/
def poolTotal (pool : List Free) : Int := (pool.map Free.freeLength).sum

@[simp] theorem poolTotal_nil : poolTotal [] = 0 := rfl

@[simp] theorem poolTotal_cons (free : Free) (pool : List Free) :
    poolTotal (free :: pool) = free.freeLength + poolTotal pool := rfl

@[simp] theorem poolTotal_append (before after : List Free) :
    poolTotal (before ++ after) = poolTotal before + poolTotal after := by
  unfold poolTotal
  rw [List.map_append, List.sum_append]

/-- The areas do not reach lengths that an `SLONG` does not hold, nor the end of the addresses. -/
def Bounded (areas : List Extent) : Prop :=
  ∀ area ∈ areas, area.length < 2147483648 ∧ area.stop < 4294967296

section

variable {areas used : List Extent} {before after pool : List Free} {block : Free} {room : Nat}

/-- A block that may be linked between free ones. -/
structure Loose (areas used : List Extent) (block : Free) : Prop where
  positive : 0 < block.freeLength
  inside : ∃ area ∈ areas, block.extent.Within area
  apart : ∀ u ∈ used, block.extent.Apart u

theorem Loose.bounds (h : Loose areas used block) (bounded : Bounded areas) :
    block.freeLength < 2147483648 ∧ block.address + block.freeLength < 4294967296 := by
  obtain ⟨area, mem, low, high⟩ := h.inside
  obtain ⟨length, last⟩ := bounded area mem
  have positive := h.positive
  simp only [Extent.stop, Free.extent_first, Free.extent_length] at low high last
  omega

theorem Loose.stop_eq (h : Loose areas used block) (bounded : Bounded areas) :
    block.stop = block.extent.stop := by
  obtain ⟨-, last⟩ := h.bounds bounded
  have positive := h.positive
  unfold Free.stop pointer Extent.stop
  rw [Free.extent_first, Free.extent_length, Int.emod_eq_of_lt (by omega) last]
  omega

theorem loose_of_free (h : State.Sound room ⟨areas, pool.map Free.extent, used⟩)
    (mem : block ∈ pool) : Loose areas used block where
  positive := by
    have := h.positive _ (List.mem_map_of_mem mem)
    rw [Free.extent_length] at this
    omega
  inside := h.freeInside _ (List.mem_map_of_mem mem)
  apart := h.freeApart _ (List.mem_map_of_mem mem)

/-- The free blocks ascend, with something between any two. -/
theorem spaced_of_sound (h : State.Sound room ⟨areas, pool.map Free.extent, used⟩) :
    pool.Pairwise fun a b => a.extent.stop < b.address :=
  List.pairwise_map.mp h.spaced

/-- Two blocks that follow each other are combined, and an `SLONG` holds the length. -/
theorem Loose.join {next : Free} (sound : State.Sound room ⟨areas, pool.map Free.extent, used⟩)
    (gap : 0 < room) (bounded : Bounded areas) (h : Loose areas used block)
    (hnext : Loose areas used next) (meet : block.extent.stop = next.address) :
    slong (block.freeLength + next.freeLength) = block.freeLength + next.freeLength ∧
      Loose areas used ⟨block.address, block.freeLength + next.freeLength⟩ ∧
      (⟨block.address, block.freeLength + next.freeLength⟩ : Free).extent.stop = next.extent.stop := by
  have positive := h.positive
  have positiveNext := hnext.positive
  have inside := sound.join_inside gap h.inside hnext.inside
    (by rw [Free.extent_length]; omega) (by rw [Free.extent_length]; omega) meet
  have same : (⟨block.address, block.freeLength + next.freeLength⟩ : Free).extent =
      ⟨block.extent.first, block.extent.length + next.extent.length⟩ := by
    unfold Free.extent
    simp only [Extent.mk.injEq, true_and]
    omega
  have joined : Loose areas used ⟨block.address, block.freeLength + next.freeLength⟩ := by
    refine ⟨by simp only; omega, ?_, ?_⟩
    · rw [same]
      exact inside
    · intro u hu
      rw [same]
      exact Extent.Apart.join (h.apart u hu) (hnext.apart u hu) (sound.usedPositive u hu) meet
  obtain ⟨small, -⟩ := joined.bounds bounded
  refine ⟨slong_of_mem (by omega) small, joined, ?_⟩
  rw [same]
  simp only [Extent.stop, Free.extent_first, Free.extent_length] at meet ⊢
  omega

theorem Loose.put (sound : State.Sound room ⟨areas, (before ++ after).map Free.extent, used⟩)
    (h : Loose areas used block) (above : ∀ f ∈ before, f.extent.stop < block.address)
    (below : ∀ g ∈ after, block.extent.stop < g.address) :
    State.Sound room ⟨areas, (before ++ block :: after).map Free.extent, used⟩ := by
  have positive := h.positive
  rw [List.map_append] at sound
  rw [List.map_append, List.map_cons]
  refine sound.put ?_ h.inside ?_ ?_ h.apart
  · rw [Free.extent_length]
    omega
  · exact List.forall_mem_map.mpr above
  · exact List.forall_mem_map.mpr below

/-- What the merge with the next block leaves. -/
theorem mergeNext_spec (sound : State.Sound room ⟨areas, (before ++ after).map Free.extent, used⟩)
    (gap : 0 < room) (bounded : Bounded areas) (h : Loose areas used block)
    (below : ∀ g ∈ after, block.extent.stop ≤ g.address) :
    ∃ merged rest, mergeNext block after = (merged, rest) ∧ merged.address = block.address ∧
      Loose areas used merged ∧ rest.Sublist after ∧
      merged.freeLength + poolTotal rest = block.freeLength + poolTotal after ∧
      ∀ g ∈ rest, merged.extent.stop < g.address := by
  cases after with
  | nil => exact ⟨block, [], rfl, rfl, h, List.Sublist.refl _, rfl, List.forall_mem_nil _⟩
  | cons free rest =>
    have loose := loose_of_free sound (show free ∈ before ++ free :: rest by simp)
    have spaced := (List.pairwise_append.mp (spaced_of_sound sound)).2.1
    have beyond := (List.pairwise_cons.mp spaced).1
    have least := below free List.mem_cons_self
    rw [mergeNext, h.stop_eq bounded]
    by_cases meet : block.extent.stop = free.address
    · obtain ⟨fits, joined, stop⟩ := h.join sound gap bounded loose meet
      rw [if_pos meet, fits]
      refine ⟨_, rest, rfl, rfl, joined, List.sublist_cons_self free rest, ?_, ?_⟩
      · rw [poolTotal_cons]
        exact Int.add_assoc ..
      · intro g hg
        rw [stop]
        exact beyond g hg
    · rw [if_neg meet]
      refine ⟨block, free :: rest, rfl, rfl, h, List.Sublist.refl _, rfl, ?_⟩
      intro g hg
      obtain rfl | hg := List.mem_cons.mp hg
      · exact Nat.lt_of_le_of_ne least meet
      · have := beyond g hg
        unfold Extent.stop at this least ⊢
        rw [Free.extent_first] at this
        omega

/-- What the merge with the prior block leaves. -/
theorem mergePrior_spec (sound : State.Sound room ⟨areas, (before ++ after).map Free.extent, used⟩)
    (gap : 0 < room) (bounded : Bounded areas) (h : Loose areas used block)
    (above : ∀ f ∈ before, f.extent.stop ≤ block.address)
    (below : ∀ g ∈ after, block.extent.stop < g.address) :
    State.Sound room ⟨areas, (mergePrior before block after).map Free.extent, used⟩ ∧
      poolTotal (mergePrior before block after) =
        poolTotal before + block.freeLength + poolTotal after := by
  unfold mergePrior
  split
  next none =>
    rw [List.getLast?_eq_none_iff] at none
    subst none
    refine ⟨h.put sound (List.forall_mem_nil _) below, ?_⟩
    rw [poolTotal_cons, poolTotal_nil, Int.zero_add]
  next prior last =>
    have split := List.dropLast_append_getLast? prior last
    revert split
    generalize before.dropLast = init
    rintro rfl
    have loose := loose_of_free sound (show prior ∈ init ++ [prior] ++ after by simp)
    have most := above prior (by simp)
    have spaced := (List.pairwise_append.mp (spaced_of_sound sound)).1
    have earlier : ∀ f ∈ init, f.extent.stop < prior.address := fun f hf =>
      (List.pairwise_append.mp spaced).2.2 f hf prior (List.mem_singleton_self prior)
    rw [loose.stop_eq bounded]
    by_cases meet : prior.extent.stop = block.address
    · obtain ⟨fits, joined, stop⟩ := loose.join sound gap bounded h meet
      rw [if_pos meet, fits]
      refine ⟨joined.put (sound.sublist ?_) earlier (stop ▸ below), ?_⟩
      · exact ((List.sublist_append_left init [prior]).append (List.Sublist.refl after)).map _
      · simp only [poolTotal_append, poolTotal_cons, poolTotal_nil]
        omega
    · rw [if_neg meet]
      refine ⟨h.put sound ?_ below, ?_⟩
      · intro f hf
        obtain hf | hf := List.mem_append.mp hf
        · have := earlier f hf
          unfold Extent.stop at most this ⊢
          rw [Free.extent_first] at most
          omega
        · obtain rfl := List.mem_singleton.mp hf
          exact Nat.lt_of_le_of_ne most meet
      · simp only [poolTotal_append, poolTotal_cons, poolTotal_nil]
        omega

/-- The list is divided where the block belongs, and no block of it is found to be bad. -/
theorem findPlace_spec (address : Nat) (spaced : pool.Pairwise fun a b => a.extent.stop < b.address) :
    (findPlace address pool).1 ++ (findPlace address pool).2 = pool ∧
      (∀ f ∈ (findPlace address pool).1, f.address ≤ address) ∧
      ∀ g ∈ (findPlace address pool).2, address < g.address := by
  induction pool with
  | nil => exact ⟨rfl, List.forall_mem_nil _, List.forall_mem_nil _⟩
  | cons free rest ih =>
    obtain ⟨beyond, spaced⟩ := List.pairwise_cons.mp spaced
    obtain ⟨whole, low, high⟩ := ih spaced
    have beyond : ∀ g ∈ rest, free.address < g.address := by
      intro g hg
      have := beyond g hg
      unfold Extent.stop at this
      rw [Free.extent_first] at this
      omega
    have order : ¬ rest.head?.any (fun next => decide (next.address ≤ free.address)) = true := by
      cases rest with
      | nil => exact Bool.false_ne_true
      | cons next others =>
        have := beyond next List.mem_cons_self
        simp only [List.head?_cons, Option.any_some, decide_eq_true_eq]
        omega
    rw [findPlace, if_neg order]
    split
    next before =>
      refine ⟨rfl, List.forall_mem_nil _, List.forall_mem_cons.mpr ⟨before, fun g hg => ?_⟩⟩
      exact before.trans (beyond g hg)
    next behind =>
      refine ⟨?_, List.forall_mem_cons.mpr ⟨Nat.not_lt.mp behind, low⟩, high⟩
      simp only [List.cons_append, whole]

/-- A block that nobody uses goes back to the free ones: it is not refused, and nothing is lost. -/
theorem freeMemory_spec (p : Platform)
    (sound : State.Sound room ⟨areas, pool.map Free.extent, used⟩) (gap : 0 < room)
    (bounded : Bounded areas) (h : Loose areas used block)
    (clear : ∀ f ∈ pool, f.extent.Apart block.extent) :
    ∃ pool', freeMemory p block pool = (released p block.freeLength, pool') ∧
      State.Sound room ⟨areas, pool'.map Free.extent, used⟩ ∧
      poolTotal pool' = poolTotal pool + block.freeLength := by
  have positive := h.positive
  obtain ⟨whole, low, high⟩ := findPlace_spec block.address (spaced_of_sound sound)
  unfold freeMemory
  revert whole low high
  generalize findPlace block.address pool = place
  obtain ⟨before, after⟩ := place
  rintro rfl low high
  simp only at low high sound clear ⊢
  have above : ∀ f ∈ before, f.extent.stop ≤ block.address := by
    intro f hf
    have apart := clear f (List.mem_append_left _ hf)
    have less := low f hf
    simp only [Extent.Apart, Extent.stop, Free.extent_first, Free.extent_length] at apart ⊢
    omega
  have below : ∀ g ∈ after, block.extent.stop ≤ g.address := by
    intro g hg
    have apart := clear g (List.mem_append_right _ hg)
    have least := high g hg
    have length := (loose_of_free sound (List.mem_append_right _ hg)).positive
    simp only [Extent.Apart, Extent.stop, Free.extent_first, Free.extent_length] at apart ⊢
    omega
  have kosher : ¬ (block.freeLength ≤ 0 ∨
      (before.getLast?.any fun prior => decide (block.address < prior.stop)) = true ∨
      (after.head?.any fun free => decide (free.address < block.stop)) = true) := by
    rintro (none | prior | next)
    · omega
    · rw [Option.any_eq_true] at prior
      obtain ⟨f, last, less⟩ := prior
      have mem := List.mem_of_getLast? last
      have := above f mem
      rw [(loose_of_free sound (List.mem_append_left _ mem)).stop_eq bounded] at less
      exact absurd (of_decide_eq_true less) (Nat.not_lt.mpr this)
    · rw [Option.any_eq_true] at next
      obtain ⟨g, first, less⟩ := next
      have := below g (List.mem_of_mem_head? first)
      rw [h.stop_eq bounded] at less
      exact absurd (of_decide_eq_true less) (Nat.not_lt.mpr this)
  rw [if_neg kosher]
  obtain ⟨merged, rest, eq, same, loose, sub, total, beyond⟩ :=
    mergeNext_spec sound gap bounded h below
  have kept : State.Sound room ⟨areas, (before ++ rest).map Free.extent, used⟩ :=
    sound.sublist (((List.Sublist.refl before).append sub).map _)
  obtain ⟨sound', total'⟩ := mergePrior_spec kept gap bounded loose (same ▸ above) beyond
  rw [eq]
  refine ⟨_, rfl, sound', ?_⟩
  rw [total', poolTotal_append]
  omega

end

end GdsAlloc

end InterBase
