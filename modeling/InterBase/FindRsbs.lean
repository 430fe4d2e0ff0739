import Mathlib.Logic.Function.Basic
import Mathlib.Data.List.Basic

namespace InterBase

/-- A record block. Without a format all of its fields are null. -/
structure Rec (ρ : Type) where
  recFormat : Option Nat
  recFmtBk : Option Nat
  recData : ρ

/-- `rpb_record` of each stream of the request. -/
abbrev Rpbs (ρ : Type) := Nat → Option (Rec ρ)

variable {ρ : Type}

/-- What an expression sees of a stream: `none` where all of it is null. -/
def shown (rpbs : Rpbs ρ) (s : Nat) : Option ρ :=
  (rpbs s).bind fun record => record.recFormat.map fun _ => record.recData

abbrev Row (ρ : Type) := Nat → Option ρ

/-- Record source blocks, as far as `find_rsbs` looks at them. `next` is one that has a source below it
in `rsb_next`: `rsb_boolean`, `rsb_sort`, `rsb_first`, `rsb_skip`. -/
inductive Rsb where
  | union (rsbStream rsbFormat : Nat)
  | aggregate (rsbStream rsbFormat : Nat)
  | indexed (rsbStream : Nat)
  | sequential (rsbStream : Nat)
  | extSequential (rsbStream : Nat)
  | extIndexed (rsbStream : Nat)
  | procedure (rsbStream : Nat)
  | navigate (rsbStream : Nat)
  | cross (rsbArg : List Rsb)
  | leftCross (outer inner : Rsb)
  | merge (rsbArg : List Rsb)
  | next (rsb : Rsb)

namespace Rsb

mutual

/-- All streams that are read below. -/
def streams : Rsb → List Nat
  | union s _ => [s]
  | aggregate s _ => [s]
  | indexed s => [s]
  | sequential s => [s]
  | extSequential s => [s]
  | extIndexed s => [s]
  | procedure s => [s]
  | navigate s => [s]
  | cross args => streamsAll args
  | leftCross outer inner => streams outer ++ streams inner
  | merge args => streamsAll args
  | next rsb => streams rsb

def streamsAll : List Rsb → List Nat
  | [] => []
  | rsb :: args => streams rsb ++ streamsAll args

end

/-- The stacks of `find_rsbs`: streams, and unions and aggregates with their formats. -/
structure Stacks where
  streamList : List Nat
  rsbList : List (Nat × Nat)

def Stacks.push (s : Nat) (lists : Stacks) : Stacks :=
  { lists with streamList := s :: lists.streamList }

def Stacks.pushRsb (s format : Nat) (lists : Stacks) : Stacks :=
  ⟨s :: lists.streamList, (s, format) :: lists.rsbList⟩

mutual

/-- An `rsb_navigate` has no case of its own, and nothing in `rsb_next`. -/
def findRsbs : Rsb → Stacks → Stacks
  | union s format, lists => lists.pushRsb s format
  | aggregate s format, lists => lists.pushRsb s format
  | indexed s, lists => lists.push s
  | sequential s, lists => lists.push s
  | extSequential s, lists => lists.push s
  | extIndexed s, lists => lists.push s
  | procedure s, lists => lists.push s
  | navigate _, lists => lists
  | cross args, lists => findAll args lists
  | leftCross outer inner, lists => findRsbs inner (findRsbs outer lists)
  | merge args, lists => findAll args lists
  | next rsb, lists => findRsbs rsb lists

def findAll : List Rsb → Stacks → Stacks
  | [], lists => lists
  | rsb :: args, lists => findAll args (findRsbs rsb lists)

end

def found (rsb : Rsb) : List Nat := (rsb.findRsbs ⟨[], []⟩).streamList

end Rsb

/-- A record source below the join: the rows that it gives after each `RSE_open`, and what opening
it and reading from it do to the record blocks of its streams. `ready` says that the blocks are as
an open and reads leave them; from then on a read puts back what the row needs. What an open, or a
read that finds no record, leaves a stream showing that `find_rsbs` does not find is given by what
it showed before: an index walk leaves that, a sort has read all of the records. -/
structure RecordStream (ρ : Type) where
  rsb : Rsb
  rows : List (Row ρ)
  onOpen : Rpbs ρ → Rpbs ρ
  onGet : Option (Row ρ) → Rpbs ρ → Rpbs ρ
  ready : Rpbs ρ → Prop
  ready_open : ∀ rpbs, ready (onOpen rpbs)
  ready_end : ∀ rpbs, ready rpbs → ready (onGet none rpbs)
  ready_get : ∀ row ∈ rows, ∀ rpbs, ready rpbs → ready (onGet (some row) rpbs)
  ready_congr : ∀ rpbs rpbs', (∀ s ∈ rsb.streams, rpbs s = rpbs' s) → ready rpbs → ready rpbs'
  get_shown : ∀ row ∈ rows, ∀ rpbs, ready rpbs → ∀ s ∈ rsb.streams,
    shown (onGet (some row) rpbs) s = row s
  open_frame : ∀ rpbs, ∀ s ∉ rsb.streams, onOpen rpbs s = rpbs s
  get_frame : ∀ row rpbs, ∀ s ∉ rsb.streams, onGet row rpbs s = rpbs s
  openLeaves : Nat → Option ρ → Option ρ
  endLeaves : Nat → Option ρ → Option ρ
  open_shown : ∀ rpbs, ∀ s ∈ rsb.streams, s ∉ rsb.found →
    shown (onOpen rpbs) s = openLeaves s (shown rpbs s)
  end_shown : ∀ rpbs, ready rpbs → ∀ s ∈ rsb.streams, s ∉ rsb.found →
    shown (onGet none rpbs) s = endLeaves s (shown rpbs s)

def RecordStream.streams (source : RecordStream ρ) : List Nat := source.rsb.streams

namespace Rsb

/-- The streams on both stacks lie in a list. -/
def Stacks.Within (streams : List Nat) (lists : Stacks) : Prop :=
  (∀ s ∈ lists.streamList, s ∈ streams) ∧ ∀ rsb ∈ lists.rsbList, rsb.1 ∈ lists.streamList

theorem Stacks.Within.push {streams : List Nat} {lists : Stacks} (h : lists.Within streams) {s : Nat}
    (mem : s ∈ streams) : (lists.push s).Within streams := by
  refine ⟨?_, fun rsb hrsb => List.mem_cons_of_mem s (h.2 rsb hrsb)⟩
  exact List.forall_mem_cons.mpr ⟨mem, h.1⟩

theorem Stacks.Within.pushRsb {streams : List Nat} {lists : Stacks} (h : lists.Within streams)
    {s : Nat} (format : Nat) (mem : s ∈ streams) : (lists.pushRsb s format).Within streams := by
  refine ⟨List.forall_mem_cons.mpr ⟨mem, h.1⟩, List.forall_mem_cons.mpr ⟨List.mem_cons_self, ?_⟩⟩
  exact fun rsb hrsb => List.mem_cons_of_mem s (h.2 rsb hrsb)

mutual

theorem findRsbs_within {all : List Nat} (rsb : Rsb) (sub : ∀ s ∈ rsb.streams, s ∈ all)
    {lists : Stacks} (h : lists.Within all) : (rsb.findRsbs lists).Within all := by
  cases rsb with
  | union s format => exact h.pushRsb format (sub s List.mem_cons_self)
  | aggregate s format => exact h.pushRsb format (sub s List.mem_cons_self)
  | indexed s => exact h.push (sub s List.mem_cons_self)
  | sequential s => exact h.push (sub s List.mem_cons_self)
  | extSequential s => exact h.push (sub s List.mem_cons_self)
  | extIndexed s => exact h.push (sub s List.mem_cons_self)
  | procedure s => exact h.push (sub s List.mem_cons_self)
  | navigate s => exact h
  | cross args => exact findAll_within args sub h
  | leftCross outer inner =>
    have left := findRsbs_within outer (fun s hs => sub s (List.mem_append_left _ hs)) h
    exact findRsbs_within inner (fun s hs => sub s (List.mem_append_right _ hs)) left
  | merge args => exact findAll_within args sub h
  | next rsb => exact findRsbs_within rsb sub h

theorem findAll_within {all : List Nat} (args : List Rsb) (sub : ∀ s ∈ streamsAll args, s ∈ all)
    {lists : Stacks} (h : lists.Within all) : (findAll args lists).Within all := by
  cases args with
  | nil => exact h
  | cons rsb args =>
    have first := findRsbs_within rsb (fun s hs => sub s (List.mem_append_left _ hs)) h
    exact findAll_within args (fun s hs => sub s (List.mem_append_right _ hs)) first

end

theorem found_within (rsb : Rsb) : (rsb.findRsbs ⟨[], []⟩).Within rsb.streams :=
  findRsbs_within rsb (fun _ hs => hs)
    ⟨fun _ hs => absurd hs List.not_mem_nil, fun _ hrsb => absurd hrsb List.not_mem_nil⟩

theorem found_streams (rsb : Rsb) {s : Nat} (mem : s ∈ rsb.found) : s ∈ rsb.streams :=
  rsb.found_within.1 s mem

end Rsb

namespace RecordStream

/-- What the streams that are not found show, once rows were read to their end. -/
def ends (source : RecordStream ρ) (rows : List (Row ρ)) (w : Row ρ) : Row ρ :=
  fun s => source.endLeaves s ((rows.getLast?.map fun row => row s).getD (w s))

/-- What they show after the source was opened and read through. -/
def readThrough (source : RecordStream ρ) (w : Row ρ) : Row ρ :=
  source.ends source.rows fun s => source.openLeaves s (w s)

/-- The streams that are not found show this row, which nothing puts to null. -/
def Lingers (source : RecordStream ρ) (rpbs : Rpbs ρ) (w : Row ρ) : Prop :=
  ∀ s ∈ source.streams, s ∉ source.rsb.found → shown rpbs s = w s

/-- They will show it when the rows that are left have been read. -/
def Ends (source : RecordStream ρ) (rows : List (Row ρ)) (rpbs : Rpbs ρ) (w : Row ρ) : Prop :=
  ∀ s ∈ source.streams, s ∉ source.rsb.found → source.ends rows (shown rpbs) s = w s

variable {source : RecordStream ρ} {rpbs rpbs' : Rpbs ρ} {w : Row ρ} {row : Row ρ}
  {rows : List (Row ρ)}

theorem Lingers.congr (h : source.Lingers rpbs w)
    (same : ∀ s ∈ source.streams, s ∉ source.rsb.found → rpbs' s = rpbs s) : source.Lingers rpbs' w := by
  intro s mem unfound
  rw [shown, same s mem unfound]
  exact h s mem unfound

theorem Ends.congr (h : source.Ends rows rpbs w)
    (same : ∀ s ∈ source.streams, s ∉ source.rsb.found → rpbs' s = rpbs s) :
    source.Ends rows rpbs' w := by
  intro s mem unfound
  have hshown : shown rpbs' s = shown rpbs s := by rw [shown, same s mem unfound, shown]
  rw [ends, hshown]
  exact h s mem unfound

theorem Lingers.open (h : source.Lingers rpbs w) :
    source.Ends source.rows (source.onOpen rpbs) (source.readThrough w) := by
  intro s mem unfound
  rw [readThrough, ends, ends, source.open_shown rpbs s mem unfound, h s mem unfound]

theorem ends_cons (w : Row ρ) : source.ends (row :: rows) w = source.ends rows row := by
  funext s
  rw [ends, ends, List.getLast?_cons]
  cases rows.getLast? <;> rfl

theorem Ends.get (h : source.Ends (row :: rows) rpbs w) (mem : row ∈ source.rows)
    (ready : source.ready rpbs) : source.Ends rows (source.onGet (some row) rpbs) w := by
  intro s hs unfound
  have hread := h s hs unfound
  rw [ends_cons] at hread
  rw [← hread, ends, ends, source.get_shown row mem rpbs ready s hs]

theorem Ends.finish (h : source.Ends [] rpbs w) (ready : source.ready rpbs) :
    source.Lingers (source.onGet none rpbs) w := by
  intro s mem unfound
  rw [source.end_shown rpbs ready s mem unfound]
  exact h s mem unfound

/-- Where there are rows, what was shown before they were read is gone. -/
theorem readThrough_congr (h : source.rows ≠ []) (w w' : Row ρ) :
    source.readThrough w = source.readThrough w' := by
  obtain ⟨row, rows, hrows⟩ := List.exists_cons_of_ne_nil h
  rw [readThrough, readThrough, hrows, ends_cons, ends_cons]

end RecordStream

end InterBase
