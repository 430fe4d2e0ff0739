import InterBase.Sbm

namespace InterBase

section

variable {σ : Type}

/-- What a slot points to, if it is allocated. -/
def slotAt (slots : List (Option σ)) (slot : Nat) : Option σ := slots[slot]?.join

theorem slotAt_of_lt {slots : List (Option σ)} {slot : Nat} (h : slot < slots.length) :
    slots[slot]? = some (slotAt slots slot) := by
  rw [slotAt, List.getElem?_eq_getElem h]
  rfl

theorem slotAt_of_le {slots : List (Option σ)} {slot : Nat} (h : slots.length ≤ slot) :
    slotAt slots slot = none := by
  rw [slotAt, List.getElem?_eq_none h]
  rfl

theorem slotAt_set {slots : List (Option σ)} {slot : Nat} (h : slot < slots.length) (x : Option σ)
    (i : Nat) : slotAt (slots.set slot x) i = if i = slot then x else slotAt slots i := by
  rw [slotAt, slotAt, List.getElem?_set]
  split
  next he => rw [if_pos he.symm, Option.join_some]
  next he => rw [if_neg (Ne.symm he)]

theorem slotAt_replicate (n i : Nat) : slotAt (List.replicate n (none : Option σ)) i = none := by
  rw [slotAt, List.getElem?_replicate]
  split <;> rfl

def slotHolds (holds : σ → Nat → Bool) : Option σ → Nat → Bool
  | none, _ => false
  | some s, relative => holds s relative

/-- The numbers whose bits are set in the slots. -/
def slotsHold (size : Nat) (holds : σ → Nat → Bool) (slots : List (Option σ)) (number : Nat) :
    Bool :=
  slotHolds holds (slotAt slots (number / size)) (number % size)

/-- The members of a bitmap. -/
def Sbm.mem (size : Nat) (holds : σ → Nat → Bool) (bitmap : Sbm σ) (number : Nat) : Bool :=
  match bitmap.sbmState with
  | .empty => false
  | .singular => number == bitmap.sbmNumber
  | .plural => slotsHold size holds bitmap.sbmSegments number

/-- The slots of a bitmap, from `least` to `most` of them, are as `sbm_count` and `sbm_high_water`
have it. -/
structure Sbm.Slots (least most : Nat) (sound : σ → Prop) (bitmap : Sbm σ) : Prop where
  allocated : bitmap.sbmSegments.length = bitmap.sbmCount
  long : least ≤ bitmap.sbmCount
  short : bitmap.sbmCount ≤ most
  high : bitmap.sbmHighWater < bitmap.sbmCount
  covered : ∀ i s, slotAt bitmap.sbmSegments i = some s → i ≤ bitmap.sbmHighWater
  slots : ∀ i s, slotAt bitmap.sbmSegments i = some s → sound s

/-- A bitmap that is not plural has nothing in its slots. -/
structure Sbm.Sound (least most limit : Nat) (sound : σ → Prop) (bitmap : Sbm σ) : Prop
    extends bitmap.Slots least most sound where
  bare : bitmap.sbmState ≠ .plural → ∀ i, slotAt bitmap.sbmSegments i = none
  number : bitmap.sbmNumber < limit

def SlotSound (sound : σ → Prop) (slot : Option σ) : Prop := ∀ s, slot = some s → sound s

section

variable {size least most limit : Nat} {sound : σ → Prop} {holds : σ → Nat → Bool}
variable {bitmap map1 map2 : Sbm σ} {number : Nat}

theorem Sbm.mem_plural (h : bitmap.sbmState = .plural) (n : Nat) :
    bitmap.mem size holds n = slotsHold size holds bitmap.sbmSegments n := by
  rw [Sbm.mem, h]

theorem Sbm.Slots.slot_above (h : bitmap.Slots least most sound) {slot : Nat}
    (above : bitmap.sbmHighWater < slot) : slotAt bitmap.sbmSegments slot = none := by
  cases hs : slotAt bitmap.sbmSegments slot with
  | none => rfl
  | some s =>
    have := h.covered slot s hs
    omega

/-- The slot of a number is a `USHORT`. -/
theorem ushort_slot (pos : 0 < size) (within : limit ≤ size * 65536) (small : number < limit) :
    ushort (number / size) = number / size :=
  ushort_of_lt ((Nat.div_lt_iff_lt_mul pos).mpr (by rw [Nat.mul_comm]; omega))

theorem mapTest_eq {testSlot : σ → Nat → Option Bool} (h : bitmap.Sound least most limit sound)
    (pos : 0 < size) (within : limit ≤ size * 65536) (small : number < limit)
    (test : ∀ s r, sound s → r < size → testSlot s r = some (holds s r)) :
    mapTest size testSlot bitmap number = some (bitmap.mem size holds number) := by
  rw [mapTest, Sbm.mem]
  cases bitmap.sbmState with
  | empty => rfl
  | singular => rfl
  | plural =>
    dsimp only
    rw [ushort_slot pos within small, slotsHold]
    split
    next habove => rw [h.slot_above habove, slotHolds]
    next hbelow =>
      have hhigh := h.high
      rw [slotAt_of_lt (by rw [h.allocated]; omega)]
      cases hs : slotAt bitmap.sbmSegments (number / size) with
      | none => rfl
      | some s => exact test s _ (h.slots _ s hs) (Nat.mod_lt _ pos)

/-- Another value in a slot; the high water mark may rise. -/
theorem Sbm.Slots.set (h : bitmap.Slots least most sound) {slot high : Nat} {s : σ} (hs : sound s)
    (used : slot ≤ high) (rises : bitmap.sbmHighWater ≤ high) (below : high < bitmap.sbmCount) :
    ({ bitmap with
        sbmSegments := bitmap.sbmSegments.set slot (some s)
        sbmHighWater := high } : Sbm σ).Slots least most sound := by
  have hin : slot < bitmap.sbmSegments.length := by
    rw [h.allocated]
    omega
  refine ⟨?_, h.long, h.short, below, fun i t ht => ?_, fun i t ht => ?_⟩
  · rw [List.length_set]
    exact h.allocated
  · rw [slotAt_set hin] at ht
    split at ht
    next he => exact he ▸ used
    next => exact Nat.le_trans (h.covered i t ht) rises
  · rw [slotAt_set hin] at ht
    split at ht
    next => exact Option.some.inj ht ▸ hs
    next => exact h.slots i t ht

/-- Numbers in other slots are not affected. -/
theorem slotsHold_set {slots : List (Option σ)} {s : σ} (inside : number / size < slots.length)
    (n : Nat) : slotsHold size holds (slots.set (number / size) (some s)) n =
      if n / size = number / size then holds s (n % size) else slotsHold size holds slots n := by
  rw [slotsHold, slotAt_set inside]
  split <;> rfl

/-- In one slot numbers differ by their offsets. -/
theorem bne_number {n : Nat} (slot : n / size = number / size) :
    (n % size != number % size) = (n != number) := by
  have hiff : n % size = number % size ↔ n = number := by
    constructor
    · intro hm
      rw [← Nat.div_add_mod n size, ← Nat.div_add_mod number size, slot, hm]
    · rintro rfl
      rfl
  rw [Bool.eq_iff_iff]
  simp [hiff]

theorem mapClear_spec {clearSlot : σ → Nat → Option (Bool × σ)}
    (h : bitmap.Sound least most limit sound) (pos : 0 < size) (within : limit ≤ size * 65536)
    (small : number < limit)
    (clear : ∀ s r, sound s → r < size → ∃ s', clearSlot s r = some (holds s r, s') ∧ sound s' ∧
      ∀ j < size, holds s' j = (holds s j && j != r)) :
    ∃ bitmap', mapClear size clearSlot bitmap number =
        some (bitmap.mem size holds number, bitmap') ∧ bitmap'.Sound least most limit sound ∧
      ∀ n, bitmap'.mem size holds n = (bitmap.mem size holds n && n != number) := by
  rw [mapClear]
  cases hstate : bitmap.sbmState with
  | empty =>
    refine ⟨bitmap, by rw [Sbm.mem, hstate], h, fun n => ?_⟩
    rw [Sbm.mem, hstate]
    rfl
  | singular =>
    dsimp only
    split
    next he =>
      refine ⟨{ bitmap with sbmState := .empty }, by rw [Sbm.mem, hstate, he]; simp,
        ⟨⟨h.allocated, h.long, h.short, h.high, h.covered, h.slots⟩,
          fun _ => h.bare (by rw [hstate]; decide), h.number⟩, fun n => ?_⟩
      simp [Sbm.mem, hstate, he]
    next he =>
      refine ⟨bitmap, by rw [Sbm.mem, hstate]; simp [he], h, fun n => ?_⟩
      by_cases hn : n = bitmap.sbmNumber
      · simp [Sbm.mem, hstate, hn, Ne.symm he]
      · simp [Sbm.mem, hstate, hn]
  | plural =>
    dsimp only
    rw [ushort_slot pos within small, Sbm.mem_plural hstate]
    -- a number without a slot is no member
    have hkeep (hnone : slotAt bitmap.sbmSegments (number / size) = none) (n : Nat) :
        bitmap.mem size holds n = (bitmap.mem size holds n && n != number) := by
      by_cases hn : n = number
      · rw [hn, Sbm.mem_plural hstate, slotsHold, hnone]
        rfl
      · simp [hn]
    split
    next habove =>
      have hnone := h.slot_above habove
      exact ⟨bitmap, by rw [slotsHold, hnone]; rfl, h, hkeep hnone⟩
    next hbelow =>
      have hhigh := h.high
      have hin : number / size < bitmap.sbmSegments.length := by
        rw [h.allocated]
        omega
      rw [slotAt_of_lt hin]
      cases hs : slotAt bitmap.sbmSegments (number / size) with
      | none => exact ⟨bitmap, by rw [slotsHold, hs]; rfl, h, hkeep hs⟩
      | some s =>
        obtain ⟨s', hclear, hsound, hholds⟩ :=
          clear s _ (h.slots _ s hs) (Nat.mod_lt number pos)
        refine ⟨{ bitmap with sbmSegments := bitmap.sbmSegments.set (number / size) (some s') },
          by simp only [hclear, Option.map_some, slotsHold, hs, slotHolds, hstate],
          ⟨h.toSlots.set hsound (by omega) (Nat.le_refl _) h.high, fun hp => absurd hstate hp,
            h.number⟩, fun n => ?_⟩
        rw [Sbm.mem_plural hstate, Sbm.mem_plural (by exact hstate)]
        dsimp only
        rw [slotsHold_set hin]
        split
        next he =>
          rw [hholds _ (Nat.mod_lt n pos), slotsHold, he, hs, slotHolds, bne_number he]
        next he =>
          have hne : n ≠ number := fun heq => he (by rw [heq])
          simp [hne]

/-- What `mapPut` makes of the slots; the rest of the map stays. -/
theorem mapPut_spec {fresh : σ} {setSlot : σ → Nat → Option σ} (h : bitmap.Slots least most sound)
    (pos : 0 < size) (within : limit ≤ size * 65536) (small : number < limit)
    (inside : number / size < bitmap.sbmCount) (clean : sound fresh)
    (none : ∀ j, holds fresh j = false)
    (set : ∀ s r, sound s → r < size → ∃ s', setSlot s r = some s' ∧ sound s' ∧
      ∀ j < size, holds s' j = (j == r || holds s j)) :
    ∃ bitmap', mapPut size fresh setSlot bitmap number = some bitmap' ∧
      bitmap'.Slots least most sound ∧ bitmap'.sbmState = bitmap.sbmState ∧
      bitmap'.sbmNumber = bitmap.sbmNumber ∧ bitmap'.sbmCount = bitmap.sbmCount ∧
      ∀ n, slotsHold size holds bitmap'.sbmSegments n =
        (n == number || slotsHold size holds bitmap.sbmSegments n) := by
  have hin : number / size < bitmap.sbmSegments.length := by
    rw [h.allocated]
    exact inside
  have hhigh := h.high
  have hr := Nat.mod_lt number pos
  -- the slot gets `s'`, made from a value that holds what the slot held before
  have hslots {s s' : σ} (hs : ∀ j, holds s j = slotHolds holds (slotAt bitmap.sbmSegments
      (number / size)) j) (hholds : ∀ j < size, holds s' j = (j == number % size || holds s j))
      (n : Nat) : slotsHold size holds (bitmap.sbmSegments.set (number / size) (some s')) n =
        (n == number || slotsHold size holds bitmap.sbmSegments n) := by
    rw [slotsHold_set hin]
    split
    next he =>
      have hbne := bne_number he
      rw [hholds _ (Nat.mod_lt n pos), hs, slotsHold, he]
      congr 1
      rw [← Bool.not_inj_iff]
      exact hbne
    next he =>
      have hne : n ≠ number := fun heq => he (by rw [heq])
      simp [hne]
  rw [mapPut, ushort_slot pos within small, slotAt_of_lt hin]
  cases hs : slotAt bitmap.sbmSegments (number / size) with
  | none =>
    obtain ⟨s', hset, hsound, hholds⟩ := set fresh _ clean hr
    refine ⟨{ bitmap with
        sbmSegments := bitmap.sbmSegments.set (number / size) (some s')
        sbmHighWater :=
          if bitmap.sbmHighWater < number / size then number / size else bitmap.sbmHighWater },
      by simp only [hset, Option.map_some], h.set hsound ?_ ?_ ?_, rfl, rfl, rfl,
      hslots (fun j => by rw [hs, none]; rfl) hholds⟩
    all_goals split <;> omega
  | some s =>
    obtain ⟨s', hset, hsound, hholds⟩ := set s _ (h.slots _ s hs) hr
    have hused := h.covered _ s hs
    exact ⟨_, by simp only [hset, Option.map_some], h.set hsound hused (Nat.le_refl _) h.high, rfl,
      rfl, rfl, hslots (fun j => by rw [hs]; rfl) hholds⟩

/-- The vector can be made long enough for every bit that `SBM_set` sets; `grows` gives its length
afterwards. -/
def Sbm.Settable (size : Nat) (grows : Nat → Nat → Option Nat) (vector : Sbm σ) (number : Nat) :
    Prop :=
  match vector.sbmState with
  | .empty => True
  | .plural => ∃ c, grows vector.sbmCount (number / size) = some c
  | .singular => ∃ c, grows vector.sbmCount (number / size) = some c ∧
      ∃ d, grows c (vector.sbmNumber / size) = some d

theorem mapSet_spec {extend : Sbm σ → Nat → Option (Sbm σ)} {grows : Nat → Nat → Option Nat}
    {fresh : σ} {setSlot : σ → Nat → Option σ} (h : bitmap.Sound least most limit sound)
    (pos : 0 < size) (within : limit ≤ size * 65536) (small : number < limit)
    (settable : bitmap.Settable size grows number)
    (room : ∀ (vector : Sbm σ) slot c, vector.Slots least most sound →
      grows vector.sbmCount slot = some c → ∃ vector', extend vector slot = some vector' ∧
        vector'.Slots least most sound ∧ vector'.sbmState = vector.sbmState ∧
        vector'.sbmNumber = vector.sbmNumber ∧ vector'.sbmCount = c ∧ slot < c ∧
        ∀ i, slotAt vector'.sbmSegments i = slotAt vector.sbmSegments i)
    (clean : sound fresh) (none : ∀ j, holds fresh j = false)
    (set : ∀ s r, sound s → r < size → ∃ s', setSlot s r = some s' ∧ sound s' ∧
      ∀ j < size, holds s' j = (j == r || holds s j)) :
    ∃ bitmap', mapSet size extend fresh setSlot bitmap number = some bitmap' ∧
      bitmap'.Sound least most limit sound ∧
      ∀ n, bitmap'.mem size holds n = (n == number || bitmap.mem size holds n) := by
  -- one bit, whatever the state of the map
  have hput (vector : Sbm σ) (k c : Nat) (hv : vector.Slots least most sound) (hk : k < limit)
      (hc : grows vector.sbmCount (k / size) = some c) : ∃ vector',
      (extend vector (ushort (k / size))).bind (mapPut size fresh setSlot · k) = some vector' ∧
        vector'.Slots least most sound ∧ vector'.sbmState = vector.sbmState ∧
        vector'.sbmNumber = vector.sbmNumber ∧ vector'.sbmCount = c ∧
        ∀ n, slotsHold size holds vector'.sbmSegments n =
          (n == k || slotsHold size holds vector.sbmSegments n) := by
    obtain ⟨v, hextend, hslots, hstate, hnumber, hcount, hinside, hsame⟩ := room vector _ c hv hc
    obtain ⟨v', hmap, hslots', hstate', hnumber', hcount', hholds⟩ :=
      mapPut_spec hslots pos within hk (by omega) clean none set
    refine ⟨v', ?_, hslots', hstate'.trans hstate, hnumber'.trans hnumber, hcount'.trans hcount,
      fun n => ?_⟩
    · rw [ushort_slot pos within hk, hextend, Option.bind_some, hmap]
    · rw [hholds, slotsHold, slotsHold, hsame]
  rw [mapSet]
  cases hstate : bitmap.sbmState with
  | empty =>
    refine ⟨{ bitmap with sbmState := .singular, sbmNumber := number }, rfl,
      ⟨⟨h.allocated, h.long, h.short, h.high, h.covered, h.slots⟩,
        fun _ => h.bare (by rw [hstate]; decide), small⟩, fun n => ?_⟩
    simp [Sbm.mem, hstate]
  | plural =>
    rw [Sbm.Settable, hstate] at settable
    obtain ⟨c, hc⟩ := settable
    obtain ⟨v, hmap, hslots, hstate', hnumber, -, hholds⟩ := hput bitmap number c h.toSlots small hc
    have hplural := hstate'.trans hstate
    refine ⟨v, hmap, ⟨hslots, fun hp => absurd hplural hp, hnumber ▸ h.number⟩, fun n => ?_⟩
    rw [Sbm.mem_plural hplural, Sbm.mem_plural hstate, hholds]
  | singular =>
    rw [Sbm.Settable, hstate] at settable
    obtain ⟨c, hc, d, hd⟩ := settable
    obtain ⟨v, hmap, hslots, -, hnumber, hcount, hholds⟩ := hput bitmap number c h.toSlots small hc
    have hslots' : ({ v with sbmState := .plural } : Sbm σ).Slots least most sound :=
      ⟨hslots.allocated, hslots.long, hslots.short, hslots.high, hslots.covered, hslots.slots⟩
    obtain ⟨w, hmap', hslotsw, hstatew, hnumberw, -, hholds'⟩ := hput { v with sbmState := .plural }
      v.sbmNumber d hslots' (hnumber ▸ h.number) (by dsimp only; rw [hcount, hnumber, hd])
    refine ⟨w, ?_, ⟨hslotsw, fun hp => absurd hstatew hp, ?_⟩, fun n => ?_⟩
    · dsimp only
      rw [hmap, Option.bind_some]
      exact hmap'
    · rw [hnumberw]
      exact hnumber ▸ h.number
    · have hbare : slotsHold size holds bitmap.sbmSegments n = false := by
        rw [slotsHold, h.bare (by rw [hstate]; decide)]
        rfl
      rw [Sbm.mem_plural hstatew, hholds', hholds, hbare, Sbm.mem, hstate, hnumber, Bool.or_false]
      exact Bool.or_comm _ _

/-- A loop over the first slots does to each pair of them what `merge` does. -/
theorem mergeSlots_spec {merge : Option σ → Option σ → Option (Option σ × Option σ)}
    {ready : Option σ → Prop} {done : Option σ → Option σ → Option σ × Option σ → Prop}
    (each : ∀ x y, ready x → ready y → ∃ r, merge x y = some r ∧ done x y r) (n : Nat)
    {slots1 slots2 : List (Option σ)} (long1 : n ≤ slots1.length) (long2 : n ≤ slots2.length)
    (ready1 : ∀ i, ready (slotAt slots1 i)) (ready2 : ∀ i, ready (slotAt slots2 i)) :
    ∃ r, mergeSlots merge n slots1 slots2 = some r ∧ r.1.length = slots1.length ∧
      r.2.length = slots2.length ∧
      (∀ i < n, done (slotAt slots1 i) (slotAt slots2 i) (slotAt r.1 i, slotAt r.2 i)) ∧
      ∀ i, n ≤ i → slotAt r.1 i = slotAt slots1 i ∧ slotAt r.2 i = slotAt slots2 i := by
  induction n generalizing slots1 slots2 with
  | zero =>
    exact ⟨(slots1, slots2), by rw [mergeSlots], rfl, rfl, fun i hi => absurd hi (by omega),
      fun _ _ => ⟨rfl, rfl⟩⟩
  | succ n ih =>
    obtain ⟨x, slots1, rfl⟩ := List.exists_cons_of_length_pos (by omega : 0 < slots1.length)
    obtain ⟨y, slots2, rfl⟩ := List.exists_cons_of_length_pos (by omega : 0 < slots2.length)
    simp only [List.length_cons] at long1 long2
    obtain ⟨q, hmerge, hdone⟩ := each x y (ready1 0) (ready2 0)
    obtain ⟨r, hloop, hlen1, hlen2, hfront, hback⟩ := ih (by omega) (by omega)
      (fun i => ready1 (i + 1)) (fun i => ready2 (i + 1))
    refine ⟨(q.1 :: r.1, q.2 :: r.2), ?_, ?_, ?_, fun i hi => ?_, fun i hi => ?_⟩
    · rw [mergeSlots, hmerge, Option.bind_some, hloop, Option.map_some]
    · rw [List.length_cons, List.length_cons, hlen1]
    · rw [List.length_cons, List.length_cons, hlen2]
    · cases i with
      | zero => exact hdone
      | succ i => exact hfront i (by omega)
    · cases i with
      | zero => omega
      | succ i => exact hback i (by omega)

/-- The map that an operation returns. -/
def chosen : Option Operand → Sbm σ → Sbm σ → Option (Sbm σ)
  | none, _, _ => none
  | some .first, map1, _ => some map1
  | some .second, _, map2 => some map2

/-- Both slots are in order, and the first one holds what `op` makes of what they held. -/
def Merged (size : Nat) (sound : σ → Prop) (holds : σ → Nat → Bool) (op : Bool → Bool → Bool)
    (x y : Option σ) (r : Option σ × Option σ) : Prop :=
  SlotSound sound r.1 ∧ SlotSound sound r.2 ∧
    ∀ k < size, slotHolds holds r.1 k = op (slotHolds holds x k) (slotHolds holds y k)

/-- Both maps of a merge stay in order, and the first one holds what `op` makes of them. -/
theorem merge_maps {merge : Option σ → Option σ → Option (Option σ × Option σ)}
    {op : Bool → Bool → Bool} {n : Nat} (h1 : map1.Sound least most limit sound)
    (h2 : map2.Sound least most limit sound) (pos : 0 < size) (plural1 : map1.sbmState = .plural)
    (plural2 : map2.sbmState = .plural) (within1 : n ≤ map1.sbmHighWater + 1)
    (within2 : n ≤ map2.sbmHighWater + 1)
    (each : ∀ x y, SlotSound sound x → SlotSound sound y →
      ∃ r, merge x y = some r ∧ Merged size sound holds op x y r)
    (behind : ∀ i k, n ≤ i → slotHolds holds (slotAt map1.sbmSegments i) k =
      op (slotHolds holds (slotAt map1.sbmSegments i) k)
        (slotHolds holds (slotAt map2.sbmSegments i) k)) :
    ∃ r, mergeSlots merge n map1.sbmSegments map2.sbmSegments = some r ∧
      ({ map1 with sbmSegments := r.1 } : Sbm σ).Sound least most limit sound ∧
      ({ map2 with sbmSegments := r.2 } : Sbm σ).Sound least most limit sound ∧
      ∀ k, ({ map1 with sbmSegments := r.1 } : Sbm σ).mem size holds k =
        op (map1.mem size holds k) (map2.mem size holds k) := by
  have hhigh1 := h1.high
  have hhigh2 := h2.high
  obtain ⟨r, hmerge, hlen1, hlen2, hfront, hback⟩ := mergeSlots_spec each n
    (by rw [h1.allocated]; omega) (by rw [h2.allocated]; omega) h1.slots h2.slots
  refine ⟨r, hmerge, ⟨⟨hlen1.trans h1.allocated, h1.long, h1.short, h1.high, fun i s hs => ?_, fun i => ?_⟩,
    fun hp => absurd plural1 hp, h1.number⟩, ⟨⟨hlen2.trans h2.allocated, h2.long, h2.short, h2.high,
    fun i s hs => ?_, fun i => ?_⟩, fun hp => absurd plural2 hp, h2.number⟩, fun k => ?_⟩
  · by_cases hi : i < n
    · exact Nat.le_of_lt_succ (Nat.lt_of_lt_of_le hi within1)
    · exact h1.covered i s ((hback i (by omega)).1 ▸ hs)
  · by_cases hi : i < n
    · exact (hfront i hi).1
    · exact (hback i (by omega)).1 ▸ h1.slots i
  · by_cases hi : i < n
    · exact Nat.le_of_lt_succ (Nat.lt_of_lt_of_le hi within2)
    · exact h2.covered i s ((hback i (by omega)).2 ▸ hs)
  · by_cases hi : i < n
    · exact (hfront i hi).2.1
    · exact (hback i (by omega)).2 ▸ h2.slots i
  · rw [Sbm.mem_plural plural1, Sbm.mem_plural plural2, Sbm.mem_plural (by exact plural1)]
    by_cases hi : k / size < n
    · exact (hfront _ hi).2.2 _ (Nat.mod_lt k pos)
    · simp only [slotsHold]
      rw [(hback _ (by omega)).1]
      exact behind _ _ (by omega)

theorem plural_of_ne (h1 : bitmap.sbmState ≠ .empty) (h2 : bitmap.sbmState ≠ .singular) :
    bitmap.sbmState = .plural := by
  cases hs : bitmap.sbmState with
  | empty => exact absurd hs h1
  | singular => exact absurd hs h2
  | plural => rfl

theorem Sbm.mem_empty (h : bitmap.sbmState = .empty) (n : Nat) :
    bitmap.mem size holds n = false := by
  rw [Sbm.mem, h]

theorem Sbm.mem_singular (h : bitmap.sbmState = .singular) (n : Nat) :
    bitmap.mem size holds n = (n == bitmap.sbmNumber) := by
  rw [Sbm.mem, h]

theorem mapAnd_spec {test : Sbm σ → Nat → Option Bool}
    {andSlot : Option σ → Option σ → Option (Option σ × Option σ)}
    (h1 : map1.Sound least most limit sound) (h2 : map2.Sound least most limit sound) (pos : 0 < size)
    (testing : ∀ (map : Sbm σ) n, map.Sound least most limit sound → n < limit →
      test map n = some (map.mem size holds n))
    (each : ∀ x y, SlotSound sound x → SlotSound sound y →
      ∃ r, andSlot x y = some r ∧ Merged size sound holds and x y r) :
    ∃ r, mapAnd test andSlot map1 map2 = some r ∧ r.2.1.Sound least most limit sound ∧
      r.2.2.Sound least most limit sound ∧
      ∀ k, slotHolds (Sbm.mem size holds) (chosen r.1 r.2.1 r.2.2) k =
        (map1.mem size holds k && map2.mem size holds k) := by
  have hbehind (m m' : Sbm σ) (hm : m.Sound least most limit sound) (i k : Nat)
      (hi : m.sbmHighWater + 1 ≤ i) : slotHolds holds (slotAt m.sbmSegments i) k =
        (slotHolds holds (slotAt m.sbmSegments i) k &&
          slotHolds holds (slotAt m'.sbmSegments i) k) := by
    rw [hm.slot_above (by omega)]
    rfl
  rw [mapAnd]
  split
  next hempty =>
    refine ⟨(none, map1, map2), rfl, h1, h2, fun k => ?_⟩
    rcases hempty with he | he
    · simp [slotHolds, chosen, Sbm.mem_empty he]
    · simp [slotHolds, chosen, Sbm.mem_empty he]
  next hempty =>
    push Not at hempty
    split
    next hs =>
      rw [testing map2 _ h2 h1.number, Option.map_some]
      refine ⟨_, rfl, h1, h2, fun k => ?_⟩
      rw [Sbm.mem_singular hs]
      cases hb : map2.mem size holds map1.sbmNumber with
      | true => by_cases hk : k = map1.sbmNumber <;>
          simp [slotHolds, chosen, Sbm.mem_singular hs, hk, hb]
      | false => by_cases hk : k = map1.sbmNumber <;> simp [slotHolds, chosen, hk, hb]
    next hs1 =>
      split
      next hs =>
        rw [testing map1 _ h1 h2.number, Option.map_some]
        refine ⟨_, rfl, h1, h2, fun k => ?_⟩
        rw [Sbm.mem_singular hs]
        cases hb : map1.mem size holds map2.sbmNumber with
        | true => by_cases hk : k = map2.sbmNumber <;>
            simp [slotHolds, chosen, Sbm.mem_singular hs, hk, hb]
        | false => by_cases hk : k = map2.sbmNumber <;> simp [slotHolds, chosen, hk, hb]
      next hs2 =>
        have hp1 := plural_of_ne hempty.1 hs1
        have hp2 := plural_of_ne hempty.2 hs2
        split
        next hshort =>
          obtain ⟨r, hmerge, hsound2, hsound1, hmem⟩ := merge_maps h2 h1 pos hp2 hp1
            (Nat.le_refl _) (by omega) each (hbehind map2 map1 h2)
          refine ⟨_, by rw [hmerge]; rfl, hsound1, hsound2, fun k => ?_⟩
          exact (hmem k).trans (Bool.and_comm _ _)
        next hshort =>
          obtain ⟨r, hmerge, hsound1, hsound2, hmem⟩ := merge_maps h1 h2 pos hp1 hp2
            (Nat.le_refl _) (by omega) each (hbehind map1 map2 h1)
          refine ⟨_, by rw [hmerge]; rfl, hsound1, hsound2, fun k => ?_⟩
          exact hmem k

theorem mapOr_spec {set : Sbm σ → Nat → Option (Sbm σ)} (settable : Sbm σ → Nat → Prop)
    {orSlot : Option σ → Option σ → Option (Option σ × Option σ)}
    (h1 : map1.Sound least most limit sound) (h2 : map2.Sound least most limit sound) (pos : 0 < size)
    (set1 : map1.sbmState = .singular → settable map2 map1.sbmNumber)
    (set2 : map1.sbmState ≠ .singular → map2.sbmState = .singular →
      settable map1 map2.sbmNumber)
    (setting : ∀ (map : Sbm σ) n, map.Sound least most limit sound → n < limit → settable map n →
      ∃ map', set map n = some map' ∧ map'.Sound least most limit sound ∧
        ∀ k, map'.mem size holds k = (k == n || map.mem size holds k))
    (each : ∀ x y, SlotSound sound x → SlotSound sound y →
      ∃ r, orSlot x y = some r ∧ Merged size sound holds or x y r) :
    ∃ r, mapOr set orSlot map1 map2 = some r ∧ r.2.1.Sound least most limit sound ∧
      r.2.2.Sound least most limit sound ∧
      ∀ k, slotHolds (Sbm.mem size holds) (chosen (some r.1) r.2.1 r.2.2) k =
        (map1.mem size holds k || map2.mem size holds k) := by
  have hbehind (m m' : Sbm σ) (hm : m'.Sound least most limit sound) (i k : Nat)
      (hi : m'.sbmHighWater + 1 ≤ i) : slotHolds holds (slotAt m.sbmSegments i) k =
        (slotHolds holds (slotAt m.sbmSegments i) k ||
          slotHolds holds (slotAt m'.sbmSegments i) k) := by
    rw [hm.slot_above (by omega), slotHolds, Bool.or_false]
  rw [mapOr]
  split
  next he =>
    refine ⟨_, rfl, h1, h2, fun k => ?_⟩
    rw [Sbm.mem_empty he, Bool.false_or]
    rfl
  next he1 =>
    split
    next he =>
      refine ⟨_, rfl, h1, h2, fun k => ?_⟩
      rw [Sbm.mem_empty he, Bool.or_false]
      rfl
    next he2 =>
      split
      next hs =>
        obtain ⟨m, hset, hsound, hmem⟩ := setting map2 _ h2 h1.number (set1 hs)
        refine ⟨_, by rw [hset]; rfl, h1, hsound, fun k => ?_⟩
        rw [Sbm.mem_singular hs]
        exact hmem k
      next hs1 =>
        split
        next hs =>
          obtain ⟨m, hset, hsound, hmem⟩ := setting map1 _ h1 h2.number (set2 hs1 hs)
          refine ⟨_, by rw [hset]; rfl, hsound, h2, fun k => ?_⟩
          rw [Sbm.mem_singular hs, Bool.or_comm]
          exact hmem k
        next hs2 =>
          have hp1 := plural_of_ne he1 hs1
          have hp2 := plural_of_ne he2 hs2
          split
          next hshort =>
            obtain ⟨r, hmerge, hsound2, hsound1, hmem⟩ := merge_maps h2 h1 pos hp2 hp1
              (by omega) (Nat.le_refl _) each (hbehind map2 map1 h1)
            refine ⟨_, by rw [hmerge]; rfl, hsound1, hsound2, fun k => ?_⟩
            exact (hmem k).trans (Bool.or_comm _ _)
          next hshort =>
            obtain ⟨r, hmerge, hsound1, hsound2, hmem⟩ := merge_maps h1 h2 pos hp1 hp2
              (by omega) (Nat.le_refl _) each (hbehind map1 map2 h2)
            refine ⟨_, by rw [hmerge]; rfl, hsound1, hsound2, fun k => ?_⟩
            exact hmem k

end

end

end InterBase
