import InterBase.Library.Memory
import InterBase.Machine

namespace InterBase

open Memory

/-- How the platform keeps an address in longwords: `longs` is `SIZEOF_SR_BCKPTR_IN_LONGS`, and the
addresses of its memory are those below `limit`. -/
structure PointerLongs where
  longs : Nat
  load : List Nat → Nat
  store : Nat → List Nat
  limit : Nat
  pos : 0 < longs
  length_store : ∀ p, (store p).length = longs
  load_store : ∀ p < limit, load (store p) = p

def PointerLongs.get (B : PointerLongs) (m : Nat → Nat) (a : Nat) : Nat := B.load (slice m a B.longs)

def PointerLongs.set (B : PointerLongs) (m : Nat → Nat) (a p : Nat) : Nat → Nat :=
  write m a (B.store p)

/-- The memory pool of a sort, in longwords: `slots` pointers from `scb_first_pointer + 1` up to
`scb_next_pointer`, and `places` records from `scb_last_record` up to `scb_end_memory`. -/
structure SortPool (B : PointerLongs) where
  scbFirstPointer : Nat
  slots : Nat
  scbLastRecord : Nat
  places : Nat
  scbLongs : Nat
  long : B.longs < scbLongs

namespace SortPool

variable {B : PointerLongs} (scb : SortPool B)

def slot (i : Nat) : Nat := scb.scbFirstPointer + B.longs * (i + 1)

def place (j : Nat) : Nat := scb.scbLastRecord + scb.scbLongs * j

def scbEndMemory : Nat := scb.place scb.places

/-- The longwords of a record without its back pointer. -/
def length : Nat := scb.scbLongs - B.longs

/-- `record->sr_sort_record.sort_record_key`. -/
def keyOf (record : Nat) : Nat := record + B.longs

/-- `order` between two of its records. -/
structure OrderState where
  memory : Nat → Nat
  output : Nat
  lowerLimit : Nat

/-- The lower limit behind records that are deleted or used. -/
def advance (m : Nat → Nat) (lowerLimit : Nat) : Nat :=
  if B.get m lowerLimit = 0 ∧ lowerLimit < scb.scbEndMemory then advance m (lowerLimit + scb.scbLongs)
  else lowerLimit
termination_by scb.scbEndMemory - lowerLimit
decreasing_by
  have := scb.long
  omega

def orderStep (ptr : Nat) (s : OrderState) : OrderState :=
  let key := B.get s.memory ptr
  if key = 0 then s
  else
    let record := key - B.longs
    let lowerLimit := scb.advance s.memory s.lowerLimit
    if keyOf (B := B) record = lowerLimit then
      { s with
        memory := move s.memory (keyOf (B := B) record) s.output scb.length
        output := s.output + scb.length
        lowerLimit := lowerLimit }
    else if s.output + scb.scbLongs - 1 ≤ lowerLimit then
      let m := B.set s.memory record 0
      { s with
        memory := move m (keyOf (B := B) record) s.output scb.length
        output := s.output + scb.length
        lowerLimit := lowerLimit }
    else
      -- the record at the lower limit moves to where the next one has been
      let buffer := slice s.memory (keyOf (B := B) record) scb.length
      let m := B.set s.memory (B.get s.memory lowerLimit) (keyOf (B := B) record)
      let m := move m lowerLimit record scb.scbLongs
      { s with
        memory := write m s.output buffer
        output := s.output + scb.length
        lowerLimit := lowerLimit + scb.scbLongs }

/-- What `order` has done when it is through with the first slots. -/
def orderLoop (m : Nat → Nat) : Nat → OrderState
  | 0 => ⟨m, scb.scbLastRecord, scb.scbLastRecord⟩
  | t + 1 => scb.orderStep (scb.slot t) (orderLoop m t)

/-- The memory that `order` leaves, and what it returns. -/
def order (m : Nat → Nat) : (Nat → Nat) × Nat :=
  let s := scb.orderLoop m scb.slots
  (s.memory, (s.output - scb.scbLastRecord) / scb.length)

/-- A memory whose live records and pointers name each other. -/
structure Linked (m : Nat → Nat) : Prop where
  room : scb.slot scb.slots ≤ scb.scbLastRecord
  limit : scb.scbEndMemory ≤ B.limit
  slots : ∀ i < scb.slots, B.get m (scb.slot i) = 0 ∨ ∃ j < scb.places,
    B.get m (scb.slot i) = keyOf (B := B) (scb.place j) ∧ B.get m (scb.place j) = scb.slot i
  places : ∀ j < scb.places, B.get m (scb.place j) = 0 ∨ ∃ i < scb.slots,
    B.get m (scb.place j) = scb.slot i ∧ B.get m (scb.slot i) = keyOf (B := B) (scb.place j)

/-- The keys and data of the live records of the first slots, in the order of the slots. -/
def content (m : Nat → Nat) (t : Nat) : List (List Nat) :=
  (List.range t).filterMap fun i =>
    if B.get m (scb.slot i) = 0 then none else some (slice m (B.get m (scb.slot i)) scb.length)

section

variable {scb} {m m' : Nat → Nat} {t j : Nat}

theorem get_write {a d : Nat} {xs : List Nat} (apart : a + B.longs ≤ d ∨ d + xs.length ≤ a) :
    B.get (write m d xs) a = B.get m a := by
  unfold PointerLongs.get
  rw [slice_write_disjoint m xs apart]

theorem get_set (a : Nat) {p : Nat} (h : p < B.limit) : B.get (B.set m a p) a = p := by
  unfold PointerLongs.get PointerLongs.set
  rw [← B.length_store p, slice_write_self, B.load_store p h]

theorem scbLongs_eq : scb.scbLongs = B.longs + scb.length := by
  have := scb.long
  unfold length
  omega

theorem slot_lt {i k : Nat} (h : i < k) : scb.slot i + B.longs ≤ scb.slot k := by
  have order : B.longs * (i + 1 + 1) ≤ B.longs * (k + 1) :=
    Nat.mul_le_mul_left _ (Nat.succ_le_succ h)
  rw [Nat.mul_succ B.longs (i + 1)] at order
  unfold slot
  omega

theorem slot_inj {i k : Nat} (h : scb.slot i = scb.slot k) : i = k := by
  have pos := B.pos
  obtain lt | same | gt := Nat.lt_trichotomy i k
  · have : scb.slot i + B.longs ≤ scb.slot k := slot_lt lt
    omega
  · exact same
  · have : scb.slot k + B.longs ≤ scb.slot i := slot_lt gt
    omega

theorem slot_pos (i : Nat) : scb.slot i ≠ 0 := by
  have positive : 0 < B.longs * (i + 1) := Nat.mul_pos B.pos (Nat.succ_pos i)
  unfold slot
  omega

theorem place_lt {p q : Nat} (h : p < q) : scb.place p + scb.scbLongs ≤ scb.place q := by
  have order : scb.scbLongs * (p + 1) ≤ scb.scbLongs * q := Nat.mul_le_mul_left _ h
  rw [Nat.mul_succ] at order
  unfold place
  omega

theorem place_le {p q : Nat} (h : p ≤ q) : scb.place p ≤ scb.place q :=
  Nat.add_le_add_left (Nat.mul_le_mul_left _ h) _

theorem place_inj {p q : Nat} (h : scb.place p = scb.place q) : p = q := by
  have := scb.long
  obtain lt | same | gt := Nat.lt_trichotomy p q
  · have : scb.place p + scb.scbLongs ≤ scb.place q := place_lt lt
    omega
  · exact same
  · have : scb.place q + scb.scbLongs ≤ scb.place p := place_lt gt
    omega

theorem place_apart {p q : Nat} (h : p ≠ q) :
    scb.place p + scb.scbLongs ≤ scb.place q ∨ scb.place q + scb.scbLongs ≤ scb.place p :=
  (Nat.lt_or_gt_of_ne h).imp place_lt place_lt

theorem keyOf_inj {p q : Nat} (h : keyOf (B := B) (scb.place p) = keyOf (B := B) (scb.place q)) :
    p = q :=
  place_inj (Nat.add_right_cancel h)

theorem keyOf_pos (record : Nat) : keyOf (B := B) record ≠ 0 := by
  have := B.pos
  unfold keyOf
  omega

/-- The pointers lie below the records. -/
theorem Linked.slot_below (h : scb.Linked m) {i : Nat} (hi : i < scb.slots) (p : Nat) :
    scb.slot i + B.longs ≤ scb.place p :=
  ((slot_lt hi).trans h.room).trans (Nat.le_add_right _ _)

theorem Linked.keyOf_lt_limit (h : scb.Linked m) {p : Nat} (hp : p < scb.places) :
    keyOf (B := B) (scb.place p) < B.limit := by
  have below : scb.place p + scb.scbLongs ≤ scb.place scb.places := place_lt hp
  have last := below.trans h.limit
  have := scb.long
  unfold keyOf
  omega

/-- A record as a whole, and its parts. -/
theorem record_of_slice {a b : Nat} (h : slice m' a scb.scbLongs = slice m b scb.scbLongs) :
    B.get m' a = B.get m b ∧
      slice m' (keyOf (B := B) a) scb.length = slice m (keyOf (B := B) b) scb.length := by
  rw [scbLongs_eq, slice_append, slice_append] at h
  obtain ⟨back, rest⟩ := List.append_inj h (by rw [length_slice, length_slice])
  exact ⟨congrArg B.load back, rest⟩

/-- What the slots from `t` on and the places from `j` on still say about the first memory. -/
structure Waits (scb : SortPool B) (m : Nat → Nat) (t j : Nat) (m' : Nat → Nat) : Prop where
  slots : ∀ i, t ≤ i → i < scb.slots → B.get m (scb.slot i) = 0 ∧ B.get m' (scb.slot i) = 0 ∨
    B.get m (scb.slot i) ≠ 0 ∧ ∃ p, (j ≤ p ∧ p < scb.places) ∧
      B.get m' (scb.slot i) = keyOf (B := B) (scb.place p) ∧ B.get m' (scb.place p) = scb.slot i ∧
      slice m' (keyOf (B := B) (scb.place p)) scb.length =
        slice m (B.get m (scb.slot i)) scb.length
  places : ∀ p, j ≤ p → p < scb.places → B.get m' (scb.place p) = 0 ∨ ∃ i, (t ≤ i ∧ i < scb.slots) ∧
    B.get m' (scb.place p) = scb.slot i ∧ B.get m' (scb.slot i) = keyOf (B := B) (scb.place p)

/-- What holds between two records: what has been put out, and that nothing that waits is lost. -/
structure Ordered (scb : SortPool B) (m : Nat → Nat) (t : Nat) (s : OrderState) : Prop where
  output : s.output = scb.scbLastRecord + scb.length * (scb.content m t).length
  written : slice s.memory scb.scbLastRecord (scb.length * (scb.content m t).length) =
    (scb.content m t).flatten
  limit : ∃ j ≤ scb.places, s.lowerLimit = scb.place j ∧ s.output ≤ scb.place j ∧
    Waits scb m t j s.memory

theorem content_succ (m : Nat → Nat) (t : Nat) : scb.content m (t + 1) = scb.content m t ++
    if B.get m (scb.slot t) = 0 then [] else [slice m (B.get m (scb.slot t)) scb.length] := by
  unfold content
  rw [List.range_succ, List.filterMap_append]
  congr 1
  split
  next null => simp [null]
  next live => simp [live]

theorem Linked.start (h : scb.Linked m) : Ordered scb m 0 (scb.orderLoop m 0) := by
  refine ⟨rfl, rfl, 0, Nat.zero_le _, rfl, Nat.le_refl _, ?_, ?_⟩
  · intro i _ hi
    obtain null | ⟨p, hp, key, back⟩ := h.slots i hi
    · exact .inl ⟨null, null⟩
    · refine .inr ⟨key ▸ keyOf_pos _, p, ⟨Nat.zero_le _, hp⟩, key, back, ?_⟩
      rw [key]
      rfl
  · intro p _ hp
    obtain null | ⟨i, hi, back, key⟩ := h.places p hp
    · exact .inl null
    · exact .inr ⟨i, ⟨Nat.zero_le _, hi⟩, back, key⟩

theorem advance_spec {p : Nat} (le : j ≤ p) (hp : p < scb.places) (live : B.get m (scb.place p) ≠ 0) :
    ∃ k, (j ≤ k ∧ k ≤ p) ∧ scb.advance m (scb.place j) = scb.place k ∧
      B.get m (scb.place k) ≠ 0 ∧ ∀ q, j ≤ q → q < k → B.get m (scb.place q) = 0 := by
  have inside : scb.place j < scb.scbEndMemory := by
    have : scb.place j + scb.scbLongs ≤ scb.place scb.places := place_lt (lt_of_le_of_lt le hp)
    have := scb.long
    unfold scbEndMemory
    omega
  induction hn : p - j generalizing j with
  | zero =>
    have same : j = p := by omega
    subst same
    unfold advance
    rw [if_neg fun h => live h.1]
    exact ⟨j, ⟨Nat.le_refl _, Nat.le_refl _⟩, rfl, live, fun q low high => by omega⟩
  | succ n ih =>
    have next : scb.place j + scb.scbLongs = scb.place (j + 1) := by
      unfold place
      rw [Nat.mul_succ, Nat.add_assoc]
    unfold advance
    by_cases null : B.get m (scb.place j) = 0
    · rw [if_pos ⟨null, inside⟩, next]
      have inside' : scb.place (j + 1) < scb.scbEndMemory := by
        have : scb.place (j + 1) + scb.scbLongs ≤ scb.place scb.places := place_lt (by omega)
        have := scb.long
        unfold scbEndMemory
        omega
      obtain ⟨k, ⟨low, high⟩, at_k, here, between⟩ := ih (by omega) inside' (by omega)
      refine ⟨k, ⟨by omega, high⟩, at_k, here, ?_⟩
      intro q hq hk
      by_cases first : q = j
      · exact first ▸ null
      · exact between q (by omega) hk
    · rw [if_neg fun h => null h.1]
      exact ⟨j, ⟨Nat.le_refl _, le⟩, rfl, null, fun q low high => by omega⟩

/-- Behind places that are deleted or used. -/
theorem Waits.raise (h : Waits scb m t j m') {k : Nat} (le : j ≤ k)
    (null : ∀ q, j ≤ q → q < k → B.get m' (scb.place q) = 0) : Waits scb m t k m' := by
  refine ⟨?_, ?_⟩
  · intro i low hi
    obtain none | ⟨live, p, ⟨lowp, hp⟩, key, back, same⟩ := h.slots i low hi
    · exact .inl none
    · refine .inr ⟨live, p, ⟨?_, hp⟩, key, back, same⟩
      by_contra below
      have zero := null p lowp (by omega)
      rw [back] at zero
      exact slot_pos i zero
  · intro p low hp
    exact h.places p (le.trans low) hp

/-- The record of slot `t`, at a place that waits. -/
structure Next (scb : SortPool B) (m : Nat → Nat) (t k p : Nat) (m' : Nat → Nat) : Prop where
  linked : scb.Linked m
  waits : Waits scb m t k m'
  slot_t : t < scb.slots
  low : k ≤ p
  place_p : p < scb.places
  key : B.get m' (scb.slot t) = keyOf (B := B) (scb.place p)
  back : B.get m' (scb.place p) = scb.slot t

theorem Next.ne_of_back {k p i q : Nat} (h : Next scb m t k p m') (later : t + 1 ≤ i)
    (back : B.get m' (scb.place q) = scb.slot i) : q ≠ p := by
  intro same
  subst same
  have := slot_inj (back.symm.trans h.back)
  omega

/-- The record is put out below the lower limit, and its place is free. -/
theorem Next.moves_out {k p out : Nat} (h : Next scb m t k p m') (base : scb.scbLastRecord ≤ out)
    (fits : out + scb.scbLongs - 1 ≤ scb.place k) :
    Waits scb m (t + 1) k
      (move (B.set m' (scb.place p) 0) (keyOf (B := B) (scb.place p)) out scb.length) := by
  have pos := B.pos
  have longs : scb.scbLongs = B.longs + scb.length := scbLongs_eq
  have store : (B.store 0).length = B.longs := B.length_store 0
  have below : ∀ q, k ≤ q → out + scb.length ≤ scb.place q := by
    intro q hq
    have : scb.place k ≤ scb.place q := place_le hq
    omega
  have slotSame : ∀ i < scb.slots, B.get (move (B.set m' (scb.place p) 0)
      (keyOf (B := B) (scb.place p)) out scb.length) (scb.slot i) = B.get m' (scb.slot i) := by
    intro i hi
    have first := h.linked.slot_below hi 0
    unfold move
    rw [get_write (.inl (first.trans base))]
    exact get_write (.inl (h.linked.slot_below hi p))
  have recSame : ∀ q, k ≤ q → q ≠ p → slice (move (B.set m' (scb.place p) 0)
      (keyOf (B := B) (scb.place p)) out scb.length) (scb.place q) scb.scbLongs =
        slice m' (scb.place q) scb.scbLongs := by
    intro q hq other
    unfold move
    rw [slice_write_disjoint _ _ (.inr (by rw [length_slice]; exact below q hq))]
    unfold PointerLongs.set
    refine slice_write_disjoint _ _ ?_
    rw [store]
    have := scb.place_apart other
    omega
  have null : B.get (move (B.set m' (scb.place p) 0) (keyOf (B := B) (scb.place p)) out scb.length)
      (scb.place p) = 0 := by
    have zero : 0 < B.limit := Nat.zero_lt_of_lt (h.linked.keyOf_lt_limit h.place_p)
    unfold move
    rw [get_write (.inr (by rw [length_slice]; exact below p h.low)), get_set _ zero]
  refine ⟨?_, ?_⟩
  · intro i low hi
    rw [slotSame i hi]
    obtain none | ⟨live, q, ⟨lowq, hq⟩, key, back, same⟩ := h.waits.slots i (by omega) hi
    · exact .inl none
    · obtain ⟨back', same'⟩ := record_of_slice (recSame q lowq (h.ne_of_back low back))
      exact .inr ⟨live, q, ⟨lowq, hq⟩, key, back'.trans back, same'.trans same⟩
  · intro q low hq
    by_cases same : q = p
    · rw [same]
      exact .inl null
    · rw [(record_of_slice (recSame q low same)).1]
      obtain none | ⟨i, ⟨lowi, hi⟩, back, key⟩ := h.waits.places q low hq
      · exact .inl none
      · refine .inr ⟨i, ⟨?_, hi⟩, back, (slotSame i hi).trans key⟩
        have other : i ≠ t := by
          intro first
          subst first
          exact same (keyOf_inj (key.symm.trans h.key))
        omega

/-- The record at the lower limit takes the place of the one that is put out. -/
theorem Next.relocates {k p out : Nat} (h : Next scb m t k p m') (base : scb.scbLastRecord ≤ out)
    (order : out ≤ scb.place k) (live : B.get m' (scb.place k) ≠ 0) :
    Waits scb m (t + 1) (k + 1)
      (write (move (B.set m' (B.get m' (scb.place k)) (keyOf (B := B) (scb.place p)))
        (scb.place k) (scb.place p) scb.scbLongs) out
        (slice m' (keyOf (B := B) (scb.place p)) scb.length)) := by
  have longs : scb.scbLongs = B.longs + scb.length := scbLongs_eq
  have inside : k < scb.places := lt_of_le_of_lt h.low h.place_p
  obtain none | ⟨l, ⟨lowl, hl⟩, backl, keyl⟩ := h.waits.places k (Nat.le_refl _) inside
  · exact absurd none live
  rw [backl]
  have store (a : Nat) : (B.store a).length = B.longs := B.length_store a
  have below : ∀ q, k < q → out + scb.length ≤ scb.place q := by
    intro q hq
    have : scb.place k + scb.scbLongs ≤ scb.place q := place_lt hq
    omega
  generalize memory : write (move (B.set m' (scb.slot l) (keyOf (B := B) (scb.place p)))
    (scb.place k) (scb.place p) scb.scbLongs) out
    (slice m' (keyOf (B := B) (scb.place p)) scb.length) = after
  have slotAfter : ∀ i < scb.slots, B.get after (scb.slot i) =
      B.get (B.set m' (scb.slot l) (keyOf (B := B) (scb.place p))) (scb.slot i) := by
    intro i hi
    have first := h.linked.slot_below hi 0
    rw [← memory, get_write (.inl (first.trans base))]
    unfold move
    exact get_write (.inl (h.linked.slot_below hi p))
  have slotSame : ∀ i < scb.slots, i ≠ l → B.get after (scb.slot i) = B.get m' (scb.slot i) := by
    intro i hi other
    rw [slotAfter i hi]
    unfold PointerLongs.set
    refine get_write ?_
    rw [store]
    exact (Nat.lt_or_gt_of_ne other).imp slot_lt slot_lt
  have slotMoved : B.get after (scb.slot l) = keyOf (B := B) (scb.place p) := by
    rw [slotAfter l hl, get_set _ (h.linked.keyOf_lt_limit h.place_p)]
  have recordAfter : ∀ q, k < q → slice after (scb.place q) scb.scbLongs =
      slice (move (B.set m' (scb.slot l) (keyOf (B := B) (scb.place p))) (scb.place k)
        (scb.place p) scb.scbLongs) (scb.place q) scb.scbLongs := by
    intro q hq
    rw [← memory]
    exact slice_write_disjoint _ _ (.inr (by rw [length_slice]; exact below q hq))
  have untouched : ∀ q, slice (B.set m' (scb.slot l) (keyOf (B := B) (scb.place p))) (scb.place q)
      scb.scbLongs = slice m' (scb.place q) scb.scbLongs := by
    intro q
    refine slice_write_disjoint _ _ (.inr ?_)
    rw [store]
    exact h.linked.slot_below hl q
  have recSame : ∀ q, k < q → q ≠ p → slice after (scb.place q) scb.scbLongs =
      slice m' (scb.place q) scb.scbLongs := by
    intro q hq other
    rw [recordAfter q hq]
    unfold move
    rw [slice_write_disjoint _ _ (by rw [length_slice]; exact place_apart other), untouched]
  have recMoved : k < p → slice after (scb.place p) scb.scbLongs =
      slice m' (scb.place k) scb.scbLongs := by
    intro hp
    rw [recordAfter p hp]
    unfold move
    have self := slice_write_self (B.set m' (scb.slot l) (keyOf (B := B) (scb.place p)))
      (scb.place p) (slice (B.set m' (scb.slot l) (keyOf (B := B) (scb.place p))) (scb.place k)
        scb.scbLongs)
    rw [length_slice] at self
    rw [self, untouched]
  -- the slot of the record at the lower limit is the one of the next record only at the same place
  have first : l = t → p = k := by
    intro same
    subst same
    exact keyOf_inj (h.key.symm.trans keyl)
  refine ⟨?_, ?_⟩
  · intro i low hi
    obtain none | ⟨live', q, ⟨lowq, hq⟩, key, back, same⟩ := h.waits.slots i (by omega) hi
    · have other : i ≠ l := by
        intro eq
        subst eq
        rw [keyl] at none
        exact keyOf_pos _ none.2
      rw [slotSame i hi other]
      exact .inl none
    · refine .inr ⟨live', ?_⟩
      by_cases mine : i = l
      · subst mine
        have at_k : q = k := keyOf_inj (key.symm.trans keyl)
        subst at_k
        have later : q < p := by
          refine lt_of_le_of_ne h.low ?_
          intro eq
          have := slot_inj ((eq ▸ backl).symm.trans h.back)
          omega
        obtain ⟨back', same'⟩ := record_of_slice (recMoved later)
        exact ⟨p, ⟨later, h.place_p⟩, slotMoved, back'.trans back, same'.trans same⟩
      · have other : q ≠ k := by
          intro eq
          subst eq
          exact mine (slot_inj (back.symm.trans backl))
        have later : k < q := by omega
        obtain ⟨back', same'⟩ := record_of_slice (recSame q later (h.ne_of_back low back))
        rw [slotSame i hi mine]
        exact ⟨q, ⟨later, hq⟩, key, back'.trans back, same'.trans same⟩
  · intro q low hq
    by_cases same : q = p
    · subst same
      obtain ⟨back', -⟩ := record_of_slice (recMoved low)
      refine .inr ⟨l, ⟨?_, hl⟩, back'.trans backl, slotMoved⟩
      have other : l ≠ t := fun eq => by
        have := first eq
        omega
      omega
    · rw [(record_of_slice (recSame q low same)).1]
      obtain none | ⟨i, ⟨lowi, hi⟩, back, key⟩ := h.waits.places q (by omega) hq
      · exact .inl none
      · have other : i ≠ l := by
          intro eq
          subst eq
          have := keyOf_inj (key.symm.trans keyl)
          omega
        have later : i ≠ t := by
          intro eq
          subst eq
          exact same (keyOf_inj (key.symm.trans h.key))
        exact .inr ⟨i, ⟨by omega, hi⟩, back, (slotSame i hi other).trans key⟩

/-- What is put out behind the records in front of it. -/
theorem Ordered.put_out {s : OrderState} (h : Ordered scb m t s) (after : Nat → Nat)
    {record : List Nat}
    (live : B.get m (scb.slot t) ≠ 0)
    (same : record = slice m (B.get m (scb.slot t)) scb.length)
    (front : slice after scb.scbLastRecord (scb.length * (scb.content m t).length) =
      slice s.memory scb.scbLastRecord (scb.length * (scb.content m t).length)) :
    s.output + scb.length =
        scb.scbLastRecord + scb.length * (scb.content m (t + 1)).length ∧
      slice (write after s.output record) scb.scbLastRecord
        (scb.length * (scb.content m (t + 1)).length) = (scb.content m (t + 1)).flatten := by
  have long : record.length = scb.length := by rw [same, length_slice]
  rw [content_succ, if_neg live, List.length_append, List.length_singleton, Nat.mul_succ, h.output]
  refine ⟨Nat.add_assoc _ _ _, ?_⟩
  have written := slice_write_end after scb.scbLastRecord
    (scb.length * (scb.content m t).length) record
  rw [long] at written
  rw [written, front, h.written, List.flatten_append, same, List.flatten_singleton]

theorem orderStep_ordered (linked : scb.Linked m) {s : OrderState} (h : Ordered scb m t s)
    (ht : t < scb.slots) : Ordered scb m (t + 1) (scb.orderStep (scb.slot t) s) := by
  obtain ⟨j, hj, at_j, order, waits⟩ := h.limit
  have base : scb.scbLastRecord ≤ s.output := h.output ▸ Nat.le_add_right _ _
  unfold orderStep
  simp only
  obtain ⟨null, null'⟩ | ⟨live, p, ⟨low, hp⟩, key, back, same⟩ := waits.slots t (Nat.le_refl _) ht
  · rw [if_pos null']
    have content : scb.content m (t + 1) = scb.content m t := by
      rw [content_succ, if_pos null, List.append_nil]
    refine ⟨content ▸ h.output, content ▸ h.written, j, hj, at_j, order, ?_, ?_⟩
    · intro i hi
      exact waits.slots i (by omega)
    · intro q hq hq'
      apply (waits.places q hq hq').imp_right
      intro found
      obtain ⟨i, ⟨lowi, hi⟩, back, key⟩ := found
      have other : i ≠ t := by
        intro eq
        subst eq
        rw [key] at null'
        exact keyOf_pos _ null'
      exact ⟨i, ⟨by omega, hi⟩, back, key⟩
  · have record : keyOf (B := B) (scb.place p) - B.longs = scb.place p := Nat.add_sub_cancel _ _
    rw [if_neg (by rw [key]; exact keyOf_pos _), key, record, at_j]
    obtain ⟨k, ⟨lowk, highk⟩, at_k, livek, between⟩ :=
      advance_spec low hp (by rw [back]; exact slot_pos t)
    have next : Next scb m t k p s.memory :=
      ⟨linked, waits.raise lowk between, ht, highk, hp, key, back⟩
    have ordered : s.output ≤ scb.place k := order.trans (place_le lowk)
    have apart : keyOf (B := B) (scb.place p) ≠ scb.place k := by
      have : scb.place k ≤ scb.place p := place_le highk
      have := B.pos
      unfold keyOf
      omega
    have longs : scb.scbLongs = B.longs + scb.length := scbLongs_eq
    have out : s.output = scb.scbLastRecord + scb.length * (scb.content m t).length := h.output
    have past : scb.place k ≤ scb.place p := place_le highk
    rw [at_k, if_neg apart]
    by_cases fits : s.output + scb.scbLongs - 1 ≤ scb.place k
    · rw [if_pos fits]
      have content : slice (B.set s.memory (scb.place p) 0) (keyOf (B := B) (scb.place p))
          scb.length = slice m (B.get m (scb.slot t)) scb.length := by
        rw [← same]
        unfold PointerLongs.set
        refine slice_write_disjoint _ _ (.inr ?_)
        rw [B.length_store]
        exact Nat.le_refl _
      have put := h.put_out (B.set s.memory (scb.place p) 0) live content (by
        unfold PointerLongs.set
        exact slice_write_disjoint _ _ (.inl (by omega)))
      refine ⟨put.1, put.2, k, (highk.trans_lt hp).le, rfl, ?_, next.moves_out base fits⟩
      have := B.pos
      simp only
      omega
    · rw [if_neg fits]
      have put := h.put_out
        (move (B.set s.memory (B.get s.memory (scb.place k)) (keyOf (B := B) (scb.place p)))
          (scb.place k) (scb.place p) scb.scbLongs) live same (by
        obtain none | ⟨l, ⟨-, hl⟩, backl, -⟩ :=
          next.waits.places k (Nat.le_refl _) (highk.trans_lt hp)
        · exact absurd none livek
        have below := linked.slot_below hl 0
        have first : scb.place 0 = scb.scbLastRecord := rfl
        unfold move PointerLongs.set
        rw [slice_write_disjoint _ _ (.inl (by omega)), backl]
        refine slice_write_disjoint _ _ (.inr ?_)
        rw [B.length_store]
        omega)
      have after : scb.place k + scb.scbLongs = scb.place (k + 1) := by
        unfold place
        rw [Nat.mul_succ, Nat.add_assoc]
      refine ⟨put.1, put.2, k + 1, by omega, after, ?_, next.relocates base ordered livek⟩
      rw [← after]
      simp only
      omega

theorem orderLoop_ordered (linked : scb.Linked m) (ht : t ≤ scb.slots) :
    Ordered scb m t (scb.orderLoop m t) := by
  induction t with
  | zero => exact linked.start
  | succ t ih => exact orderStep_ordered linked (ih (by omega)) ht

/-- A run in place: the keys and data of the live records in the order of the slots, without the
back pointers, and at no time one of them lost that is not yet in the run. -/
structure Packs (scb : SortPool B) (m : Nat → Nat) : Prop where
  run : slice (scb.order m).1 scb.scbLastRecord (scb.length * (scb.content m scb.slots).length) =
    (scb.content m scb.slots).flatten
  records : (scb.order m).2 = (scb.content m scb.slots).length
  output : ∀ t ≤ scb.slots, slice (scb.orderLoop m t).memory scb.scbLastRecord
    (scb.length * (scb.content m t).length) = (scb.content m t).flatten
  kept : ∀ t ≤ scb.slots, ∀ i, t ≤ i → i < scb.slots → B.get m (scb.slot i) ≠ 0 →
    slice (scb.orderLoop m t).memory (B.get (scb.orderLoop m t).memory (scb.slot i)) scb.length =
      slice m (B.get m (scb.slot i)) scb.length

theorem order_packs (linked : scb.Linked m) : Packs scb m := by
  have whole := orderLoop_ordered linked (Nat.le_refl scb.slots)
  refine ⟨whole.written, ?_, ?_, ?_⟩
  · have positive : 0 < scb.length := Nat.sub_pos_of_lt scb.long
    show ((scb.orderLoop m scb.slots).output - scb.scbLastRecord) / scb.length = _
    rw [whole.output, Nat.add_sub_cancel_left, Nat.mul_div_cancel_left _ positive]
  · intro t ht
    exact (orderLoop_ordered linked ht).written
  · intro t ht i low hi live
    obtain ⟨j, -, -, -, waits⟩ := (orderLoop_ordered linked ht).limit
    obtain ⟨null, -⟩ | ⟨-, p, -, key, -, same⟩ := waits.slots i low hi
    · exact absurd null live
    · rw [key]
      exact same

end

/-- A machine with addresses of one longword. -/
def oneLong : PointerLongs where
  longs := 1
  load longs := longs.headD 0
  store p := [p]
  limit := 4294967296
  pos := Nat.one_pos
  length_store _ := rfl
  load_store _ _ := rfl

/-- Two records whose pointers have been exchanged, and a third one that is eliminated. -/
theorem order_packs_exchanged :
    let scb : SortPool oneLong := ⟨0, 3, 4, 3, 3, by decide⟩
    Packs scb fun a => [0, 11, 0, 5, 3, 50, 51, 0, 60, 61, 1, 70, 71].getD a 0 := by
  refine order_packs ⟨by decide, by decide, ?_, ?_⟩
  · decide
  · decide

end SortPool

end InterBase
