import InterBase.Library.Memory
import InterBase.Machine

namespace InterBase

open Memory

/-- A key descriptor on the index root page. -/
structure Irtd where
  irtdField : UInt16
  irtdItype : UInt16
deriving Repr, DecidableEq

def Irtd.bytes (d : Irtd) : List UInt8 :=
  [UInt8.ofNat d.irtdField.toNat, UInt8.ofNat (d.irtdField.toNat / 256),
    UInt8.ofNat d.irtdItype.toNat, UInt8.ofNat (d.irtdItype.toNat / 256)]

def irtdSize : Nat := 4

/-- The `l` bytes that `MOVE_FASTER` takes from `idx_rpt`. -/
def irtdBytes (ds : List Irtd) : List UInt8 := ds.flatMap Irtd.bytes

/-- An entry of the slot array; the selectivity has no part in the space of the page. -/
structure IrtRepeat where
  irtRoot : Nat
  irtDesc : Nat
  irtKeys : Nat
  irtFlags : UInt8
deriving Repr, DecidableEq

def irtInProgress : UInt8 := 4

def IrtRepeat.inProgress (slot : IrtRepeat) : Bool := slot.irtFlags &&& irtInProgress ≠ 0

/-- `root_idx->irt_root || (root_idx->irt_flags & irt_in_progress)`. -/
def IrtRepeat.used (slot : IrtRepeat) : Bool := slot.irtRoot ≠ 0 || slot.inProgress

/-- The index root page: the slot array and the bytes by their offsets from the start of the page. -/
structure Irt where
  irtRpt : List IrtRepeat
  bytes : Nat → UInt8

/-- The address of the slot `n`, behind `irt_header`, `irt_relation` and `irt_count`. -/
def irtOffset (n : Nat) : Nat := 20 + 12 * n

/-- What `BTR_reserve_slot` takes from an `IDX`. -/
structure RootIdx where
  idxFlags : UInt8
  idxRpt : List Irtd
  keyed : 1 ≤ idxRpt.length
  few : idxRpt.length ≤ 16

/-- The scan of the index root page for the high water mark of the descriptions. -/
def highWater (pageSize : Nat) (slots : List IrtRepeat) : Nat :=
  slots.foldl (fun space slot => if slot.used then min space slot.irtDesc else space) pageSize

/-- One pass of `retry`: `space` is a `USHORT`, and a slot is taken over or allocated at the end.
Nothing when there is not enough room. -/
def tryReserve (pageSize : Nat) (idx : RootIdx) (root : Irt) : Option (Nat × Irt) :=
  let l := idx.idxRpt.length * irtdSize
  let space := ushort (65536 + highWater pageSize root.irtRpt - l)
  if space < irtOffset (root.irtRpt.length + 1) then none
  else
    let id := root.irtRpt.findIdx fun slot => !slot.used
    let slot : IrtRepeat := ⟨0, space, idx.idxRpt.length % 256, idx.idxFlags ||| irtInProgress⟩
    let rpt := if id < root.irtRpt.length then root.irtRpt.set id slot else root.irtRpt ++ [slot]
    some (id, ⟨rpt, write root.bytes space (irtdBytes idx.idxRpt)⟩)

/-- The loop of `compress_root`, with `p` counted from `temp`. -/
def compressSlots : Int → List IrtRepeat → List IrtRepeat
  | _, [] => []
  | p, slot :: slots =>
    if slot.irtRoot ≠ 0 then
      let p := p - (slot.irtKeys * irtdSize : Nat)
      { slot with irtDesc := (p % 65536).toNat } :: compressSlots p slots
    else slot :: compressSlots p slots

/-- `compress_root`. The descriptions are moved up inside `temp`, a copy of the page that is freed;
the page itself only gets the offsets. -/
def compressRoot (pageSize : Nat) (root : Irt) : Irt :=
  { root with irtRpt := compressSlots pageSize root.irtRpt }

/-- `BTR_reserve_slot`: the index id, if there is one, and the page. -/
def btrReserveSlot (pageSize maxIdx : Nat) (idx : RootIdx) (root : Irt) : Option Nat × Irt :=
  if maxIdx < root.irtRpt.length then (none, root)
  else
    match tryReserve pageSize idx root with
    | some (id, root) => (some id, root)
    | none =>
      let root := compressRoot pageSize root
      match tryReserve pageSize idx root with
      | some (id, root) => (some id, root)
      | none => (none, root)

/-- What `BTR_create` does to the index root page when the index is built. -/
def btrCreate (id page : Nat) (root : Irt) : Irt :=
  { root with irtRpt := root.irtRpt.modify id fun slot =>
      { slot with irtRoot := page, irtFlags := slot.irtFlags &&& ~~~irtInProgress } }

/-- What `BTR_delete_index` does to it. -/
def btrDeleteIndex (id : Nat) (root : Irt) : Irt :=
  { root with irtRpt := root.irtRpt.modify id fun slot => { slot with irtRoot := 0, irtFlags := 0 } }

/-- The page, and for every slot the descriptors of the index that was last reserved there. -/
structure RootRun where
  root : Irt
  descs : Nat → List Irtd

/-- A call on the index root page. An index is created in the slot that was reserved for it, on a
page that `fast_load` has allocated. -/
inductive RootCall where
  | reserve (idx : RootIdx)
  | create (id page : Nat)
  | delete (id : Nat)

def RootRun.call (pageSize maxIdx : Nat) (s : RootRun) : RootCall → RootRun
  | .reserve idx =>
    match btrReserveSlot pageSize maxIdx idx s.root with
    | (some id, root) => ⟨root, fun i => if i = id then idx.idxRpt else s.descs i⟩
    | (none, root) => ⟨root, s.descs⟩
  | .create id page => { s with root := btrCreate id page s.root }
  | .delete id => { s with root := btrDeleteIndex id s.root }

/-- `IDX_create_index` hands `BTR_create` the slot that it has reserved and that is still in
progress. -/
def RootRun.Allows (s : RootRun) : RootCall → Prop
  | .create id page => page ≠ 0 ∧ s.root.irtRpt[id]?.any IrtRepeat.inProgress = true
  | _ => True

instance (s : RootRun) (c : RootCall) : Decidable (s.Allows c) := by
  cases c <;> unfold RootRun.Allows <;> infer_instance

/-- An index root page as it is formatted for a new relation. -/
def newRoot : RootRun := ⟨⟨[], fun _ => 0⟩, fun _ => []⟩

/-- The states that calls on a new page lead to, when every call is `good` in its state. -/
inductive RootReach (pageSize maxIdx : Nat) (good : RootRun → RootCall → Prop) : RootRun → Prop where
  | new : RootReach pageSize maxIdx good newRoot
  | call {s : RootRun} {c : RootCall} (reach : RootReach pageSize maxIdx good s)
      (allowed : s.Allows c) (well : good s c) :
      RootReach pageSize maxIdx good (s.call pageSize maxIdx c)

/-- What the page owes its indices: their descriptors lie between the slot array and the end of the
page, apart from each other, and are those that the indices were reserved with. -/
structure RootKept (pageSize : Nat) (s : RootRun) : Prop where
  inside : ∀ (i : Nat) (slot : IrtRepeat), s.root.irtRpt[i]? = some slot → slot.used = true →
    irtOffset s.root.irtRpt.length ≤ slot.irtDesc ∧
      slot.irtDesc + slot.irtKeys * irtdSize ≤ pageSize
  apart : ∀ (i j : Nat) (slot other : IrtRepeat), i ≠ j → s.root.irtRpt[i]? = some slot →
    s.root.irtRpt[j]? = some other → slot.used = true → other.used = true →
    slot.irtDesc + slot.irtKeys * irtdSize ≤ other.irtDesc ∨
      other.irtDesc + other.irtKeys * irtdSize ≤ slot.irtDesc
  kept : ∀ (i : Nat) (slot : IrtRepeat), s.root.irtRpt[i]? = some slot → slot.used = true →
    slot.irtKeys = (s.descs i).length ∧
      slice s.root.bytes slot.irtDesc (slot.irtKeys * irtdSize) = irtdBytes (s.descs i)

/-- No descriptor in use starts below `n`. -/
def FreeBelow (pageSize : Nat) (slots : List IrtRepeat) (n : Nat) : Prop :=
  n ≤ pageSize ∧ ∀ slot ∈ slots, slot.used = true → n ≤ slot.irtDesc

/-- The descriptors of the indices that have a root lie one below the other, in the order of the
slots, with the first of them at the end of the page. -/
def Packed : Nat → List IrtRepeat → Prop
  | _, [] => True
  | top, slot :: slots =>
    if slot.irtRoot ≠ 0 then
      slot.irtDesc + slot.irtKeys * irtdSize = top ∧ Packed slot.irtDesc slots
    else Packed top slots

/-- A reservation that goes well: the new descriptors are not longer than what is free, and they fit
behind the slot array, or else the page has nothing to compress. -/
def Roomy (pageSize : Nat) (s : RootRun) : RootCall → Prop
  | .reserve idx =>
    FreeBelow pageSize s.root.irtRpt (idx.idxRpt.length * irtdSize) ∧
      (FreeBelow pageSize s.root.irtRpt
          (irtOffset (s.root.irtRpt.length + 1) + idx.idxRpt.length * irtdSize) ∨
        Packed pageSize s.root.irtRpt)
  | _ => True

theorem length_irtdBytes (ds : List Irtd) : (irtdBytes ds).length = ds.length * irtdSize := by
  induction ds with
  | nil => rfl
  | cons d ds ih =>
    have hcons : irtdBytes (d :: ds) = d.bytes ++ irtdBytes ds := rfl
    rw [hcons, List.length_append, ih, List.length_cons]
    simp only [Irtd.bytes, irtdSize, List.length_cons, List.length_nil]
    omega

theorem highWater_le_start (pageSize : Nat) (slots : List IrtRepeat) :
    highWater pageSize slots ≤ pageSize := by
  unfold highWater
  induction slots generalizing pageSize with
  | nil => exact le_rfl
  | cons slot slots ih =>
    rw [List.foldl_cons]
    split
    · exact (ih _).trans (Nat.min_le_left _ _)
    · exact ih _

theorem highWater_le (pageSize : Nat) {slots : List IrtRepeat} {slot : IrtRepeat}
    (h : slot ∈ slots) (used : slot.used = true) : highWater pageSize slots ≤ slot.irtDesc := by
  unfold highWater
  induction slots generalizing pageSize with
  | nil => simp at h
  | cons first slots ih =>
    rw [List.foldl_cons]
    rcases List.mem_cons.mp h with rfl | h
    · rw [if_pos used]
      exact (highWater_le_start _ slots).trans (Nat.min_le_right _ _)
    · exact ih _ h

/-- What one pass did when there was room. -/
theorem tryReserve_some {pageSize : Nat} {idx : RootIdx} {root root' : Irt} {id : Nat}
    (small : pageSize < 65536)
    (low : idx.idxRpt.length * irtdSize ≤ highWater pageSize root.irtRpt)
    (h : tryReserve pageSize idx root = some (id, root')) :
    ∃ space slot, space + idx.idxRpt.length * irtdSize = highWater pageSize root.irtRpt ∧
      irtOffset (root.irtRpt.length + 1) ≤ space ∧
      slot = ⟨0, space, idx.idxRpt.length, idx.idxFlags ||| irtInProgress⟩ ∧
      root'.bytes = write root.bytes space (irtdBytes idx.idxRpt) ∧
      id ≤ root.irtRpt.length ∧ root'.irtRpt.length ≤ root.irtRpt.length + 1 ∧
      root'.irtRpt[id]? = some slot ∧ ∀ i ≠ id, root'.irtRpt[i]? = root.irtRpt[i]? := by
  have hle := highWater_le_start pageSize root.irtRpt
  have hfew := idx.few
  have hspace : ushort (65536 + highWater pageSize root.irtRpt - idx.idxRpt.length * irtdSize) =
      highWater pageSize root.irtRpt - idx.idxRpt.length * irtdSize := by
    simp only [ushort]
    omega
  unfold tryReserve at h
  dsimp only at h
  rw [hspace, Nat.mod_eq_of_lt (by omega : idx.idxRpt.length < 256)] at h
  split at h
  next => cases h
  next hroom =>
    obtain ⟨rfl, rfl⟩ := Prod.mk.inj (Option.some.inj h)
    have hid : root.irtRpt.findIdx (fun slot => !slot.used) ≤ root.irtRpt.length :=
      List.findIdx_le_length
    refine ⟨_, _, by omega, by omega, rfl, rfl, hid, ?_, ?_, ?_⟩
    · dsimp only
      split
      · rw [List.length_set]
        omega
      · simp
    · dsimp only
      split
      next hlt => rw [List.getElem?_set_self hlt]
      next hge =>
        have heq : root.irtRpt.findIdx (fun slot => !slot.used) = root.irtRpt.length := by omega
        rw [heq, List.getElem?_concat_length]
    · intro i hi
      dsimp only
      split
      next hlt => rw [List.getElem?_set_ne (Ne.symm hi)]
      next hge =>
        rcases Nat.lt_or_ge i root.irtRpt.length with hlt | hge'
        · rw [List.getElem?_append_left hlt]
        · rw [List.getElem?_eq_none (by simp; omega), List.getElem?_eq_none hge']

theorem le_highWater {pageSize n : Nat} {slots : List IrtRepeat}
    (h : FreeBelow pageSize slots n) : n ≤ highWater pageSize slots := by
  unfold highWater
  induction slots generalizing pageSize with
  | nil => exact h.1
  | cons slot slots ih =>
    rw [List.foldl_cons]
    have later : ∀ s ∈ slots, s.used = true → n ≤ s.irtDesc :=
      fun s hs => h.2 s (List.mem_cons_of_mem slot hs)
    split
    next used => exact ih ⟨le_min h.1 (h.2 slot List.mem_cons_self used), later⟩
    next => exact ih ⟨h.1, later⟩

theorem compressSlots_packed {top : Nat} {slots : List IrtRepeat} (small : top < 65536)
    (h : Packed top slots) : compressSlots top slots = slots := by
  induction slots generalizing top with
  | nil => rfl
  | cons slot slots ih =>
    unfold Packed at h
    unfold compressSlots
    split
    next live =>
      rw [if_pos live] at h
      have hp : (top : Int) - (slot.irtKeys * irtdSize : Nat) = (slot.irtDesc : Nat) := by omega
      have hdesc : (((slot.irtDesc : Nat) : Int) % 65536).toNat = slot.irtDesc := by omega
      dsimp only
      rw [hp, hdesc, ih (by omega) h.2]
    next dead =>
      rw [if_neg dead] at h
      rw [ih small h]

/-- A pass that finds room puts the new descriptors below those that are there. -/
theorem tryReserve_kept {pageSize : Nat} {idx : RootIdx} {s : RootRun} {root : Irt} {id : Nat}
    (small : pageSize < 65536) (held : RootKept pageSize s)
    (low : idx.idxRpt.length * irtdSize ≤ highWater pageSize s.root.irtRpt)
    (h : tryReserve pageSize idx s.root = some (id, root)) :
    RootKept pageSize ⟨root, fun i => if i = id then idx.idxRpt else s.descs i⟩ := by
  obtain ⟨space, slot, hspace, hroom, rfl, hbytes, -, hlength, hid, hne⟩ := tryReserve_some small low h
  have hstart := highWater_le_start pageSize s.root.irtRpt
  -- what was there lies above the new descriptors
  have above : ∀ {i : Nat} {other : IrtRepeat}, s.root.irtRpt[i]? = some other → other.used = true →
      space + idx.idxRpt.length * irtdSize ≤ other.irtDesc := by
    intro i other hi used
    rw [hspace]
    exact highWater_le pageSize (List.mem_of_getElem? hi) used
  have hslots : irtOffset root.irtRpt.length ≤ irtOffset (s.root.irtRpt.length + 1) := by
    unfold irtOffset
    omega
  refine ⟨?_, ?_, ?_⟩
  · intro i other hi used
    dsimp only at hi ⊢
    by_cases heq : i = id
    · subst heq
      rw [hid] at hi
      obtain rfl := Option.some.inj hi
      dsimp only
      omega
    · rw [hne i heq] at hi
      have hin := held.inside i other hi used
      have hab := above hi used
      omega
  · intro i j first second hij hi hj usedFirst usedSecond
    dsimp only at hi hj
    by_cases heq : i = id
    · subst heq
      rw [hid] at hi
      obtain rfl := Option.some.inj hi
      rw [hne j (Ne.symm hij)] at hj
      exact Or.inl (above hj usedSecond)
    · rw [hne i heq] at hi
      by_cases heq' : j = id
      · subst heq'
        rw [hid] at hj
        obtain rfl := Option.some.inj hj
        exact Or.inr (above hi usedFirst)
      · rw [hne j heq'] at hj
        exact held.apart i j first second hij hi hj usedFirst usedSecond
  · intro i other hi used
    dsimp only at hi ⊢
    have hlen := length_irtdBytes idx.idxRpt
    by_cases heq : i = id
    · subst heq
      rw [hid] at hi
      obtain rfl := Option.some.inj hi
      rw [if_pos rfl, hbytes]
      refine ⟨rfl, ?_⟩
      dsimp only
      rw [← hlen]
      exact slice_write_self _ _ _
    · rw [hne i heq] at hi
      rw [if_neg heq, hbytes, slice_write_disjoint _ _ (Or.inr (by rw [hlen]; exact above hi used))]
      exact held.kept i other hi used

/-- A change of the slots that moves no descriptors and takes no more of them into use. -/
theorem kept_modify {pageSize : Nat} {s : RootRun} {id : Nat} {f : IrtRepeat → IrtRepeat}
    (held : RootKept pageSize s)
    (same : ∀ slot, s.root.irtRpt[id]? = some slot → (f slot).used = true →
      slot.used = true ∧ (f slot).irtDesc = slot.irtDesc ∧ (f slot).irtKeys = slot.irtKeys) :
    RootKept pageSize { s with root := { s.root with irtRpt := s.root.irtRpt.modify id f } } := by
  -- every slot in use after the change was in use before it, with the same descriptors
  have before : ∀ {i : Nat} {slot : IrtRepeat}, (s.root.irtRpt.modify id f)[i]? = some slot →
      slot.used = true → ∃ old, s.root.irtRpt[i]? = some old ∧ old.used = true ∧
        slot.irtDesc = old.irtDesc ∧ slot.irtKeys = old.irtKeys := by
    intro i slot hi used
    rw [List.getElem?_modify] at hi
    obtain ⟨old, hold, rfl⟩ := Option.map_eq_some_iff.mp hi
    by_cases heq : id = i
    · subst heq
      rw [if_pos rfl] at used ⊢
      exact ⟨old, hold, same old hold used⟩
    · rw [if_neg heq] at used ⊢
      exact ⟨old, hold, used, rfl, rfl⟩
  refine ⟨?_, ?_, ?_⟩
  · intro i slot hi used
    obtain ⟨old, hold, was, hdesc, hkeys⟩ := before hi used
    dsimp only
    rw [hdesc, hkeys, List.length_modify]
    exact held.inside i old hold was
  · intro i j slot other hij hi hj used usedOther
    obtain ⟨old, hold, was, hdesc, hkeys⟩ := before hi used
    obtain ⟨old', hold', was', hdesc', hkeys'⟩ := before hj usedOther
    rw [hdesc, hkeys, hdesc', hkeys']
    exact held.apart i j old old' hij hold hold' was was'
  · intro i slot hi used
    obtain ⟨old, hold, was, hdesc, hkeys⟩ := before hi used
    dsimp only
    rw [hdesc, hkeys]
    exact held.kept i old hold was

theorem btrReserveSlot_kept {pageSize maxIdx : Nat} {idx : RootIdx} {s : RootRun}
    (small : pageSize < 65536) (held : RootKept pageSize s) (roomy : Roomy pageSize s (.reserve idx)) :
    RootKept pageSize (s.call pageSize maxIdx (.reserve idx)) := by
  obtain ⟨free, fits⟩ := roomy
  have low := le_highWater free
  have hstart := highWater_le_start pageSize s.root.irtRpt
  unfold RootRun.call
  dsimp only
  unfold btrReserveSlot
  by_cases many : maxIdx < s.root.irtRpt.length
  · rw [if_pos many]
    exact held
  · rw [if_neg many]
    cases h : tryReserve pageSize idx s.root with
    | some found =>
      obtain ⟨id, root⟩ := found
      exact tryReserve_kept small held low h
    | none =>
      rcases fits with fits | packed
      · -- with room behind the slots the first pass does not fail
        have hfits := le_highWater fits
        unfold tryReserve at h
        dsimp only at h
        have hspace : ushort (65536 + highWater pageSize s.root.irtRpt -
            idx.idxRpt.length * irtdSize) =
            highWater pageSize s.root.irtRpt - idx.idxRpt.length * irtdSize := by
          simp only [ushort]
          omega
        rw [hspace, if_neg (by omega)] at h
        cases h
      · have hsame : compressRoot pageSize s.root = s.root := by
          unfold compressRoot
          rw [compressSlots_packed small packed]
        dsimp only
        rw [hsame, h]
        exact held

theorem call_kept {pageSize maxIdx : Nat} {s : RootRun} {c : RootCall} (small : pageSize < 65536)
    (held : RootKept pageSize s) (allowed : s.Allows c) (roomy : Roomy pageSize s c) :
    RootKept pageSize (s.call pageSize maxIdx c) := by
  cases c with
  | reserve idx => exact btrReserveSlot_kept small held roomy
  | create id page =>
    apply kept_modify held
    intro old hold _
    have progress := allowed.2
    rw [hold] at progress
    have used : old.inProgress = true := progress
    exact ⟨by simp [IrtRepeat.used, used], rfl, rfl⟩
  | delete id =>
    apply kept_modify held
    intro old _ used
    simp [IrtRepeat.used, IrtRepeat.inProgress] at used

/-- As long as every reservation has room, the index root page keeps the descriptors of its indices
apart, inside and as they were reserved. -/
theorem rootReach_kept {pageSize maxIdx : Nat} {s : RootRun} (small : pageSize < 65536)
    (h : RootReach pageSize maxIdx (Roomy pageSize) s) : RootKept pageSize s := by
  induction h with
  | new => exact ⟨by simp [newRoot], by simp [newRoot], by simp [newRoot]⟩
  | call _ allowed well ih => exact call_kept small ih allowed well

/-- An index on as many fields as an index can have. -/
def idxOf (field : Nat) : RootIdx :=
  ⟨0, (List.range 16).map fun i => ⟨UInt16.ofNat (field + i), 0⟩, by simp, by simp⟩

/-- The page with two indices. -/
def twoIndices : RootRun :=
  (((newRoot.call 1024 62 (.reserve (idxOf 3))).call 1024 62 (.create 0 200)).call 1024 62
    (.reserve (idxOf 7))).call 1024 62 (.create 1 201)

theorem rootReach_kept_two : RootKept 1024 twoIndices ∧ twoIndices.root.irtRpt.length = 2 := by
  refine ⟨?_, by decide⟩
  apply rootReach_kept (by decide)
  apply RootReach.call _ (by decide) trivial
  apply RootReach.call _ (by decide) ⟨⟨by decide, by decide⟩, Or.inl ⟨by decide, by decide⟩⟩
  apply RootReach.call _ (by decide) trivial
  exact RootReach.call .new (by decide) ⟨⟨by decide, by decide⟩, Or.inl ⟨by decide, by decide⟩⟩

/-- Calls one after the other, each of them allowed. -/
def RootRun.calls (pageSize maxIdx : Nat) : RootRun → List RootCall → Option RootRun
  | s, [] => some s
  | s, c :: cs => if s.Allows c then (s.call pageSize maxIdx c).calls pageSize maxIdx cs else none

theorem rootReach_calls {pageSize maxIdx : Nat} {s s' : RootRun} {cs : List RootCall}
    (reach : RootReach pageSize maxIdx (fun _ _ => True) s)
    (h : s.calls pageSize maxIdx cs = some s') :
    RootReach pageSize maxIdx (fun _ _ => True) s' := by
  induction cs generalizing s with
  | nil => exact Option.some.inj h ▸ reach
  | cons c cs ih =>
    unfold RootRun.calls at h
    split at h
    next allowed => exact ih (.call reach allowed trivial) h
    next => cases h

/-- Two indices of 16 fields that take turns: each new one is built before the older is dropped. -/
def turns : List RootCall :=
  (List.range 15).flatMap fun i =>
    [.reserve (idxOf i), .create (i % 2) (200 + i), .delete ((i + 1) % 2)]

/-- The sixteenth index does not fit before `compress_root`. It takes the descriptors of the index
in slot 0 for moved to the end of the page, where those of the first index of all are left. -/
theorem rootReach_lost :
    ∃ s, RootReach 1024 62 (fun _ _ => True) s ∧ ¬RootKept 1024 s := by
  have lost : ((newRoot.calls 1024 62 (turns ++ [.reserve (idxOf 15)])).any fun s =>
      decide (s.root.irtRpt[0]? = some ⟨214, 960, 16, 0⟩ ∧
        slice s.root.bytes 960 64 ≠ irtdBytes (s.descs 0))) = true := by
    decide
  obtain ⟨s, hs, ht⟩ := (Option.any_eq_true _ _).mp lost
  obtain ⟨hslot, hbytes⟩ := of_decide_eq_true ht
  refine ⟨s, rootReach_calls .new hs, fun kept => hbytes ?_⟩
  exact (kept.kept 0 _ hslot (by decide)).2

end InterBase
