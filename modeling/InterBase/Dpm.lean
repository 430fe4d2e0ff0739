import Mathlib.Data.List.Basic
import Mathlib.Logic.Function.Basic

namespace InterBase

open Function

/-- What `dpm.e` takes from the database block; `dbbReserve` is the absence of
`DBB_no_reserve`. -/
structure DpmDbb where
  dbbPageSize : Nat
  dbbDpPerPp : Nat
  dbbMaxRecords : Nat
  dbbReserve : Bool

/-- A line with a segment. Where on the page the segment lies makes no difference to whether there
is room for another one. -/
structure DpgLine where
  dpgLength : Nat
  /-- No back version, and none of `rhd_chain | rhd_blob | rhd_deleted | rhd_fragment`. -/
  primary : Bool
deriving Repr, DecidableEq

/-- A data page. A line without a segment is one with a `dpg_offset` of zero. -/
structure Dpg where
  dpgRpt : List (Option DpgLine)
  dpgFull : Bool
  dpgLarge : Bool
deriving Repr, DecidableEq

/-- A pointer page. The data page itself stands where the pointer page has its number; its
`dpg_sequence` is the place where it stands. -/
structure Ppg where
  ppgCount : Nat
  ppgPage : Nat → Option Dpg
  fullBit : Nat → Bool
  largeBit : Nat → Bool
  ppgMinSpace : Nat

/-- The relation block of one session. -/
structure DpmRel where
  relSlotSpace : Nat
  relDataSpace : Nat
deriving Repr, DecidableEq

/-- A relation: `relPages` pointer pages, of which the last has `ppg_eof`, the relation blocks of
the sessions, and the session that last cleared the full bit of a slot. -/
structure DataSpace (σ : Type) where
  relPages : Nat
  pages : Nat → Ppg
  rels : σ → DpmRel
  cleared : Nat → Nat → Option σ

inductive DpmType where
  | primary
  | secondary
  | other
deriving Repr, DecidableEq

def dpgRepeatSize : Nat := 4

/-- `HIGH_WATER`. -/
def dpgHighWater (count : Nat) : Nat := 24 + dpgRepeatSize * count

/-- `RHDF_SIZE`, which is also `SPACE_FUDGE`. -/
def rhdfSize : Nat := 22

/-- `ROUNDUP (size, ODS_ALIGNMENT)`. -/
def odsAligned (size : Nat) : Nat := (size + 3) / 4 * 4

/-- The segment that `locate_space` is asked to place. `DPM_store`, `store_big_record` and
`DPM_store_blob` ask for no more than an empty page holds. -/
structure DpmSegment (dbb : DpmDbb) where
  size : Nat
  primary : Bool
  fits : odsAligned size + dpgHighWater 1 ≤ dbb.dbbPageSize

/-- The slot that the scan of the lines finds: the first empty one behind line 0, or 0. -/
def emptyLine (rpt : List (Option DpgLine)) : Nat :=
  match rpt.tail.findIdx? Option.isNone with
  | some i => i + 1
  | none => 0

/-- What a line takes of the page, with what is reserved for a back version. -/
def lineUsed (dbb : DpmDbb) (type : DpmType) : Option DpgLine → Nat
  | some line => odsAligned line.dpgLength +
      if type = .primary ∧ dbb.dbbReserve ∧ line.primary then rhdfSize else 0
  | none => 0

/-- The space that `find_space` counts as used. -/
def Dpg.used (dbb : DpmDbb) (type : DpmType) (page : Dpg) : Nat :=
  dpgHighWater page.dpgRpt.length + (page.dpgRpt.map (lineUsed dbb type)).foldr (· + ·) 0 +
    if emptyLine page.dpgRpt = 0 then dpgRepeatSize else 0

/-- The page with the segment on it, if there is room. -/
def Dpg.place {dbb : DpmDbb} (type : DpmType) (segment : DpmSegment dbb) (page : Dpg) : Option Dpg :=
  if dbb.dbbPageSize < odsAligned segment.size + page.used dbb type then none
  else
    let line : DpgLine := ⟨segment.size, segment.primary⟩
    some { page with
      dpgRpt :=
        if emptyLine page.dpgRpt = 0 then page.dpgRpt ++ [some line]
        else page.dpgRpt.set (emptyLine page.dpgRpt) (some line) }

namespace DataSpace

variable {σ : Type} [DecidableEq σ]

def setPage (pp slot : Nat) (page : Dpg) (s : DataSpace σ) : DataSpace σ :=
  { s with pages := update s.pages pp { s.pages pp with
      ppgPage := update (s.pages pp).ppgPage slot (some page) } }

def setDataSpace (sess : σ) (pp : Nat) (s : DataSpace σ) : DataSpace σ :=
  { s with rels := update s.rels sess { s.rels sess with relDataSpace := pp } }

def setCleared (sess : σ) (pp slot : Nat) (s : DataSpace σ) : DataSpace σ :=
  { s with cleared := update s.cleared pp (update (s.cleared pp) slot (some sess)) }

/-- `mark_full`. The flags are those of the data page, which has been changed before. -/
def markFull (sess : σ) (pp slot : Nat) (s : DataSpace σ) : DataSpace σ :=
  let ppage := s.pages pp
  match ppage.ppgPage slot with
  | none => s
  | some page =>
    let largeBit := update ppage.largeBit slot page.dpgLarge
    if page.dpgFull then
      { s with pages := update s.pages pp { ppage with
          fullBit := update ppage.fullBit slot true
          ppgMinSpace := max (slot + 1) ppage.ppgMinSpace
          largeBit } }
    else
      let s := { s with pages := update s.pages pp { ppage with
          fullBit := update ppage.fullBit slot false
          ppgMinSpace := min slot ppage.ppgMinSpace
          largeBit } }
      (s.setDataSpace sess (min pp (s.rels sess).relDataSpace)).setCleared sess pp slot

variable {dbb : DpmDbb}

/-- `find_space` on the data page in a slot. -/
def findSpace (type : DpmType) (segment : DpmSegment dbb) (sess : σ) (pp slot : Nat)
    (s : DataSpace σ) : DataSpace σ × Bool :=
  match (s.pages pp).ppgPage slot with
  | none => (s, false)
  | some page =>
    match page.place type segment with
    | some page => (s.setPage pp slot page, true)
    | none => ((s.setPage pp slot { page with dpgFull := true }).markFull sess pp slot, false)

/-- The inner loop of `locate_space`, over the `n` slots from `slot` on. -/
def scanSlots (type : DpmType) (segment : DpmSegment dbb) (sess : σ) (pp : Nat) :
    Nat → Nat → DataSpace σ → DataSpace σ × Option Nat
  | 0, _, s => (s, none)
  | n + 1, slot, s =>
    if ((s.pages pp).ppgPage slot).isSome ∧ (s.pages pp).fullBit slot = false then
      match s.findSpace type segment sess pp slot with
      | (s, true) => (s, some slot)
      | (s, false) => scanSlots type segment sess pp n (slot + 1) s
    else scanSlots type segment sess pp n (slot + 1) s

/-- The outer loop, over the `n` pointer pages from `pp` to the one with `ppg_eof`. -/
def scanPages (type : DpmType) (segment : DpmSegment dbb) (sess : σ) :
    Nat → Nat → DataSpace σ → DataSpace σ × Option (Nat × Nat)
  | 0, _, s => (s, none)
  | n + 1, pp, s =>
    let s := s.setDataSpace sess pp
    let low := (s.pages pp).ppgMinSpace
    match scanSlots type segment sess pp ((s.pages pp).ppgCount - low) low s with
    | (s, some slot) => (s, some (pp, slot))
    | (s, none) => scanPages type segment sess n (pp + 1) s

/-- The slot that `extend_relation` takes on a pointer page, if it has one. -/
def freeSlot (dbb : DpmDbb) (pp : Nat) (ppage : Ppg) : Option Nat :=
  match (List.range ppage.ppgCount).find? fun slot => (ppage.ppgPage slot).isNone with
  | some slot => some slot
  | none =>
    if (pp ≠ 0 ∧ ppage.ppgCount < dbb.dbbDpPerPp) ∨ ppage.ppgCount < dbb.dbbDpPerPp - 1 then
      some ppage.ppgCount
    else none

/-- The search of the `n` pointer pages from `pp` on for an empty slot. -/
def searchSlot (dbb : DpmDbb) (s : DataSpace σ) : Nat → Nat → Option (Nat × Nat)
  | 0, _ => none
  | n + 1, pp =>
    match freeSlot dbb pp (s.pages pp) with
    | some slot => some (pp, slot)
    | none => searchSlot dbb s n (pp + 1)

/-- The new data page is put into the slot. The large bit stays as it was. -/
def insertPage (sess : σ) (pp slot : Nat) (s : DataSpace σ) : DataSpace σ :=
  let ppage := s.pages pp
  let s := { s with pages := update s.pages pp { ppage with
      ppgPage := update ppage.ppgPage slot (some ⟨[], false, false⟩)
      ppgMinSpace := min ppage.ppgMinSpace slot
      ppgCount := max ppage.ppgCount (slot + 1)
      fullBit := update ppage.fullBit slot false } }
  (s.setDataSpace sess pp).setCleared sess pp slot

def newPpg : Ppg := ⟨0, fun _ => none, fun _ => false, fun _ => false, 0⟩

/-- A new last pointer page. -/
def addPpg (sess : σ) (s : DataSpace σ) : DataSpace σ :=
  { s with
    relPages := s.relPages + 1
    pages := update s.pages s.relPages newPpg
    rels := update s.rels sess { s.rels sess with relSlotSpace := s.relPages } }

/-- `extend_relation`, with the slot of the new data page. Nothing when the pointer page has
vanished. -/
def extendRelation (dbb : DpmDbb) (sess : σ) (s : DataSpace σ) : Option (DataSpace σ × Nat × Nat) :=
  let first := (s.rels sess).relSlotSpace
  if s.relPages ≤ first then none
  else
    match searchSlot dbb s (s.relPages - first) first with
    | some (pp, slot) => some (s.insertPage sess pp slot, pp, slot)
    | none => some ((s.addPpg sess).insertPage sess s.relPages 0, s.relPages, 0)

/-- At most `n` extensions, until one gives space. -/
def extendLoop (type : DpmType) (segment : DpmSegment dbb) (sess : σ) :
    Nat → DataSpace σ → DataSpace σ × Option (Nat × Nat)
  | 0, s => (s, none)
  | n + 1, s =>
    match s.extendRelation dbb sess with
    | none => (s, none)
    | some (s, pp, slot) =>
      match s.findSpace type segment sess pp slot with
      | (s, true) => (s, some (pp, slot))
      | (s, false) => extendLoop type segment sess n s

/-- `Look for space anywhere`. -/
def lookAnywhere (type : DpmType) (segment : DpmSegment dbb) (sess : σ) (s : DataSpace σ) :
    DataSpace σ × Option (Nat × Nat) :=
  let first := (s.rels sess).relDataSpace
  if s.relPages ≤ first then (s, none)
  else
    match scanPages type segment sess (s.relPages - first) first s with
    | (s, some at_) => (s, some at_)
    | (s, none) => extendLoop type segment sess 20 s

/-- The slot of the page on which the record with the number `rpb_number` lies. -/
def preferred (dbb : DpmDbb) (number : Nat) : Nat × Nat :=
  let sequence := number / dbb.dbbMaxRecords
  (sequence / dbb.dbbDpPerPp, sequence % dbb.dbbDpPerPp)

/-- A slot of the pointer pages that holds a data page. -/
def Holds (s : DataSpace σ) (pp slot : Nat) : Prop :=
  pp < s.relPages ∧ slot < (s.pages pp).ppgCount ∧ ((s.pages pp).ppgPage slot).isSome

instance (s : DataSpace σ) (pp slot : Nat) : Decidable (s.Holds pp slot) :=
  inferInstanceAs (Decidable (_ ∧ _ ∧ _))

/-- `locate_space`, with the slot of the page on which there was space. -/
def locateSpace (type : DpmType) (number : Nat) (segment : DpmSegment dbb) (sess : σ)
    (s : DataSpace σ) : DataSpace σ × Option (Nat × Nat) :=
  let (pp, slot) := preferred dbb number
  if type = .secondary ∧ s.Holds pp slot then
    match s.findSpace type segment sess pp slot with
    | (s, true) => (s, some (pp, slot))
    | (s, false) => s.lookAnywhere type segment sess
  else s.lookAnywhere type segment sess

/-- What `store_big_record`, and `DPM_store_blob` for a blob with pages, do with the page. -/
def markLarge (sess : σ) (pp slot : Nat) (s : DataSpace σ) : DataSpace σ :=
  match (s.pages pp).ppgPage slot with
  | none => s
  | some page =>
    if page.dpgLarge then s
    else (s.setPage pp slot { page with dpgLarge := true }).markFull sess pp slot

/-- The number of slots up to the last one that is in use. -/
def lastUsed (page : Nat → Option Dpg) : Nat → Nat
  | 0 => 0
  | n + 1 => if (page n).isSome then n + 1 else lastUsed page n

/-- The data page has gone empty: it is released. -/
def releasePage (sess : σ) (pp slot : Nat) (s : DataSpace σ) : DataSpace σ :=
  let ppage := s.pages pp
  let page := update ppage.ppgPage slot none
  let count := lastUsed page ppage.ppgCount
  { s with
    pages := update s.pages pp { ppage with
      ppgPage := page
      ppgCount := count
      ppgMinSpace := min ppage.ppgMinSpace (count - 1) }
    rels := update s.rels sess { s.rels sess with
      relSlotSpace := min (s.rels sess).relSlotSpace pp } }

/-- `DPM_delete` of a line on a page that a pointer page has. -/
def dpmDelete (sess : σ) (pp slot line : Nat) (s : DataSpace σ) : DataSpace σ :=
  if s.Holds pp slot then
    match (s.pages pp).ppgPage slot with
    | none => s
    | some page =>
      match page.dpgRpt[line]? with
      | some (some _) =>
        let rpt := ((page.dpgRpt.set line none).reverse.dropWhile Option.isNone).reverse
        if rpt = [] then s.releasePage sess pp slot
        else if page.dpgFull then
          (s.setPage pp slot { page with dpgRpt := rpt, dpgFull := false }).markFull sess pp slot
        else s.setPage pp slot { page with dpgRpt := rpt }
      | _ => s
  else s

end DataSpace

/-- A call that stores or deletes, by a session. -/
inductive DpmCall (dbb : DpmDbb) where
  | store (type : DpmType) (number : Nat) (segment : DpmSegment dbb)
  | storeLarge (segment : DpmSegment dbb)
  | delete (pp slot line : Nat)

namespace DataSpace

variable {σ : Type} [DecidableEq σ] {dbb : DpmDbb}

def call (sess : σ) (s : DataSpace σ) : DpmCall dbb → DataSpace σ
  | .store type number segment => (s.locateSpace type number segment sess).1
  | .storeLarge segment =>
    match s.locateSpace .other 0 segment sess with
    | (s, some (pp, slot)) => s.markLarge sess pp slot
    | (s, none) => s
  | .delete pp slot line => s.dpmDelete sess pp slot line

/-- A relation as `DPM_create_relation` leaves it. -/
def created : DataSpace σ := ⟨1, fun _ => newPpg, fun _ => ⟨0, 0⟩, fun _ _ => none⟩

end DataSpace

end InterBase
