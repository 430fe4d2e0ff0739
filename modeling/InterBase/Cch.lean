import InterBase.Library.Acyclic

namespace InterBase

/-- A precedence block: the page of the higher buffer is written before that of the lower one. -/
structure Pre (β : Type) where
  preLow : β
  preHi : β
  cleared : Bool
  deriving DecidableEq

/-- What happens to the buffers, as far as the order of the writes depends on it. -/
inductive CchEvent (β : Type) where
  | wrote (b : β)
  /-- `write_buffer` has come to the page and not written it. -/
  | passed (b : β)
  | related (low high : β)
  /-- The buffer holds a page that has just been allocated. -/
  | faked (b : β)
  | released (b : β)
  /-- The buffer is used for another page. -/
  | reassigned (b : β)

/-- The buffers with their flags, the precedence blocks, the last one first, and what has
happened. -/
structure Bcb (β : Type) where
  pres : List (Pre β)
  dirty : β → Bool
  marked : β → Bool
  faked : β → Bool
  log : List (CchEvent β)

/-- What `related` finds out; where it has found nothing, the limit that is left is returned. -/
inductive Related where
  | present
  | unknown
  | limit (left : Nat)

def preSearchLimit : Nat := 100

section

variable {β : Type} [DecidableEq β]

/-- The queue of a buffer with the blocks of the higher ones. -/
def bdbHigher (pres : List (Pre β)) (b : β) : List (Pre β) := pres.filter fun p => p.preLow = b

def bdbLower (pres : List (Pre β)) (b : β) : List (Pre β) := pres.filter fun p => p.preHi = b

/-- The loop over one queue; every block that is visited takes one from the limit, so the fuel
lasts as long as the limit. -/
def relatedLoop (pres : List (Pre β)) (high : β) : Nat → List (Pre β) → Nat → Related
  | _, [], limit => .limit limit
  | 0, _ :: _, _ => .unknown
  | fuel + 1, p :: que, limit =>
    if limit - 1 = 0 then .unknown
    else if p.cleared then relatedLoop pres high fuel que (limit - 1)
    else if p.preHi = high then .present
    else
      match relatedLoop pres high fuel (bdbHigher pres p.preHi) (limit - 1) with
      | .limit left => relatedLoop pres high fuel que left
      | answer => answer

def related (pres : List (Pre β)) (low high : β) : Related :=
  relatedLoop pres high preSearchLimit (bdbHigher pres low) preSearchLimit

def clearPrecedence (b : β) (s : Bcb β) : Bcb β :=
  { s with pres := s.pres.filter fun p => p.preHi ≠ b }

/-- `write_page`, which writes without an error. -/
def writePage (b : β) (s : Bcb β) : Bcb β :=
  { s with dirty := Function.update s.dirty b false, log := .wrote b :: s.log }

/-- The loop of `write_buffer` over the buffers that must be written first. Without a result one of
them is marked for an update. In a superserver a call made because of the precedence returns
after one such write. -/
def writeHigher (superserver : Bool) (write : β → Bcb β → Option (Option (Bcb β)))
    (writeThisPage : Bool) (b : β) (finish : Bcb β → Bcb β) : Nat → Bcb β → Option (Option (Bcb β))
  | 0, _ => none
  | fuel + 1, s =>
    match bdbHigher s.pres b with
    | [] => some (some (finish s))
    | p :: _ =>
      if p.cleared then
        writeHigher superserver write writeThisPage b finish fuel { s with pres := s.pres.erase p }
      else
        match write p.preHi s with
        | some (some s) =>
          if superserver && !writeThisPage then some (some s)
          else writeHigher superserver write writeThisPage b finish fuel s
        | answer => answer

/-- What `write_buffer` does with a page that no other one must precede any more. A faked page that
is still marked is not written. -/
def writeThis (b : β) (s : Bcb β) : Bcb β :=
  if s.dirty b && !s.marked b then clearPrecedence b (writePage b s)
  else clearPrecedence b { s with log := .passed b :: s.log }

/-- `write_buffer`; there is no answer when the fuel is used up, and no buffers where the program
stops with message 217, because a buffer is marked for an update. -/
def writeBuffer (superserver : Bool) : Nat → Bool → β → Bcb β → Option (Option (Bcb β))
  | 0, _, _, _ => none
  | fuel + 1, writeThisPage, b, s =>
    if s.marked b && !s.faked b then some none
    else if !s.dirty b then some (some (clearPrecedence b s))
    else
      writeHigher superserver (writeBuffer superserver fuel false) writeThisPage b (writeThis b)
        (s.pres.length + 1) s

/-- The new precedence block. -/
def relate (low high : β) (s : Bcb β) : Bcb β :=
  { s with pres := ⟨low, high, false⟩ :: s.pres, log := .related low high :: s.log }

/-- `check_precedence` for the buffer of a window and a buffer that holds the page; 212 is the other
message with which the program stops. -/
def checkPrecedence (superserver : Bool) (fuel : Nat) (low high : β) (s : Bcb β) :
    Option (Option (Bcb β)) :=
  if !s.dirty high || high = low then some (some s)
  else if s.marked low && !s.faked low then some none
  else
    let relationship := if bdbLower s.pres high = [] then .limit 0 else related s.pres low high
    match relationship with
    | .present => some (some s)
    | .unknown => writeBuffer superserver fuel true high s
    | .limit _ =>
      let relationship := if bdbLower s.pres low = [] then .limit 0 else related s.pres high low
      match relationship with
      | .limit _ => some (some (relate low high s))
      | _ =>
        match writeBuffer superserver fuel true low s with
        | some (some s) => some (some (relate low high s))
        | answer => answer

/-- `CCH_mark`. -/
def cchMark (b : β) (s : Bcb β) : Bcb β :=
  { s with dirty := Function.update s.dirty b true, marked := Function.update s.marked b true }

/-- `CCH_release` of a buffer that was accessed for write. -/
def cchRelease (b : β) (s : Bcb β) : Bcb β :=
  { s with
    marked := Function.update s.marked b false, faked := Function.update s.faked b false
    log := .released b :: s.log }

/-- `CCH_fake` with a latch wait: a dirty page is written before its buffer is cleared. -/
def cchFake (superserver : Bool) (fuel : Nat) (b : β) (s : Bcb β) : Option (Option (Bcb β)) :=
  let written :=
    if s.dirty b then writeBuffer superserver fuel true b s else some (some (clearPrecedence b s))
  match written with
  | some (some s) =>
    some (some (cchMark b
      { s with faked := Function.update s.faked b true, log := .faked b :: s.log }))
  | answer => answer

/-- The write of a page at AST level in `down_grade`, where no higher buffer is dirty any more; the
blocks are only marked there. -/
def downGrade (b : β) (s : Bcb β) : Bcb β :=
  let s := writePage b s
  { s with pres := s.pres.map fun p => if p.preHi = b then { p with cleared := true } else p }

/-- `get_buffer` takes a buffer for another page. -/
def reassign (b : β) (s : Bcb β) : Bcb β :=
  { s with
    pres := s.pres.filter fun p => p.preLow ≠ b ∧ p.preHi ≠ b
    log := .reassigned b :: s.log }

end

/-- The buffers after any calls, with a cache that is empty at first. -/
inductive CchRun {β : Type} [DecidableEq β] (superserver : Bool) : Bcb β → Prop
  | start : CchRun superserver ⟨[], fun _ => false, fun _ => false, fun _ => false, []⟩
  | mark {s : Bcb β} (b : β) : CchRun superserver s → CchRun superserver (cchMark b s)
  | release {s : Bcb β} (b : β) : CchRun superserver s → CchRun superserver (cchRelease b s)
  | fake {s s' : Bcb β} {fuel : Nat} {b : β} : CchRun superserver s → s.marked b = false →
      cchFake superserver fuel b s = some (some s') → CchRun superserver s'
  | precedence {s s' : Bcb β} {fuel : Nat} {low high : β} : CchRun superserver s →
      checkPrecedence superserver fuel low high s = some (some s') → CchRun superserver s'
  | write {s s' : Bcb β} {fuel : Nat} {b : β} : CchRun superserver s →
      writeBuffer superserver fuel true b s = some (some s') → CchRun superserver s'
  | downGrade {s : Bcb β} {b : β} : CchRun superserver s → s.dirty b = true → s.marked b = false →
      (∀ p ∈ bdbHigher s.pres b, p.cleared = false → s.dirty p.preHi = false) →
      CchRun superserver (downGrade b s)
  | reassign {s : Bcb β} {b : β} : CchRun superserver s → s.dirty b = false →
      CchRun superserver (reassign b s)

section

variable {β : Type}

/-- The buffer holds a new page that is still being made. -/
def Formatting : List (CchEvent β) → β → Prop
  | [], _ => False
  | .faked b :: log, x => b = x ∨ Formatting log x
  | .released b :: log, x => b ≠ x ∧ Formatting log x
  | _ :: log, x => Formatting log x

/-- A page that was made to precede another one has been neither written since, nor passed while it
was exempt. -/
def Owes (exempt : List (CchEvent β) → β → Prop) : List (CchEvent β) → β → β → Prop
  | [], _, _ => False
  | .related x y :: log, low, high => x = low ∧ y = high ∨ Owes exempt log low high
  | .wrote x :: log, low, high => x ≠ high ∧ Owes exempt log low high
  | .passed x :: log, low, high => ¬(x = high ∧ exempt log x) ∧ Owes exempt log low high
  | .reassigned x :: log, low, high => x ≠ low ∧ Owes exempt log low high
  | _ :: log, low, high => Owes exempt log low high

/-- No page was ever written while one that must precede it was not. -/
def WrittenInOrder (exempt : List (CchEvent β) → β → Prop) : List (CchEvent β) → Prop
  | [] => True
  | .wrote b :: log => (∀ high, ¬Owes exempt log b high) ∧ WrittenInOrder exempt log
  | _ :: log => WrittenInOrder exempt log

end

end InterBase
