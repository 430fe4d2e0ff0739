import InterBase.Machine

namespace InterBase

/-- A page inventory page: a bit is set where a page is free. -/
structure Pip where
  pipMin : Nat
  pipBits : Nat → UInt8

/-- The inventory pages in order, and the page control block of an attachment. -/
structure PageSpace where
  pips : List Pip
  pgcHighWater : Nat

def Pip.free (p : Pip) (relativeBit : Nat) : Bool :=
  (p.pipBits (relativeBit / 8)).toNat.testBit (relativeBit % 8)

/-- `*bytes &= ~bit`. -/
def clearBit (byte : UInt8) (i : Nat) : UInt8 := byte &&& ~~~UInt8.ofNat (1 <<< i)

/-- `pages->pip_bits [relative_bit >> 3] |= 1 << (relative_bit & 7)`. -/
def setBit (byte : UInt8) (i : Nat) : UInt8 := byte ||| UInt8.ofNat (1 <<< i)

def Pip.markUsed (p : Pip) (relativeBit : Nat) : Pip :=
  { p with
    pipBits := Function.update p.pipBits (relativeBit / 8)
      (clearBit (p.pipBits (relativeBit / 8)) (relativeBit % 8)) }

def Pip.release (p : Pip) (relativeBit : Nat) : Pip where
  pipMin := min p.pipMin relativeBit
  pipBits := Function.update p.pipBits (relativeBit / 8)
    (setBit (p.pipBits (relativeBit / 8)) (relativeBit % 8))

/-- A new inventory page: `CCH_fake` has zeroed it, and all its bits are set. -/
def freshPip : Pip := ⟨0, fun _ => 255⟩

/-- The first inventory page of a new database, where the header, the inventory page and the log
page are in use. -/
def formatPip : Pip :=
  ⟨4, Function.update (fun _ => 255) 0 (255 &&& ~~~(1 ||| 2 ||| 4))⟩

section

/- The bytes of bits on an inventory page. -/
variable (pgcBytes : Nat)

/-- Pages per inventory page. -/
def pgcPpp : Nat := pgcBytes * 8

/-- The number of an inventory page. -/
def pipPage (sequence : Nat) : Nat := if sequence = 0 then 1 else sequence * pgcPpp pgcBytes - 1

/-- The first free page of one byte that `CCH_fake` does not refuse. -/
def findInByte (refused : Nat → Bool) (sequence : Nat) (p : Pip) (byte : Nat) : Option Nat :=
  if p.pipBits byte = 0 then none
  else
    ((List.range 8).find? fun i =>
      (p.pipBits byte).toNat.testBit i &&
        !refused (byte * 8 + i + sequence * pgcPpp pgcBytes)).map fun i => byte * 8 + i

/-- The first free page of an inventory page that `CCH_fake` does not refuse. -/
def findInPip (refused : Nat → Bool) (sequence : Nat) (p : Pip) : Option Nat :=
  let first := p.pipMin / 8
  (List.range' first (pgcBytes - first)).findSome? (findInByte pgcBytes refused sequence p)

/-- The search through the inventory pages from one on. -/
def findPage (refused : Nat → Bool) : Nat → List Pip → Option (Nat × Nat)
  | _, [] => none
  | sequence, p :: pips =>
    match findInPip pgcBytes refused sequence p with
    | some relativeBit => some (sequence, relativeBit)
    | none => findPage refused (sequence + 1) pips

/-- Each of the nested calls has its own pages that `CCH_fake` gives up on, because they are latched
or would have to be written first. There is no result where the calls run out, or where the search
leaves the inventory pages. -/
def pagAllocate : List (Nat → Bool) → PageSpace → Option (Nat × PageSpace)
  | [], _ => none
  | refused :: nested, s =>
    match findPage pgcBytes refused s.pgcHighWater (s.pips.drop s.pgcHighWater) with
    | none => none
    | some (sequence, relativeBit) =>
      let pips := s.pips.modify sequence (Pip.markUsed · relativeBit)
      if relativeBit ≠ pgcPpp pgcBytes - 1 then
        some (relativeBit + sequence * pgcPpp pgcBytes, ⟨pips, sequence⟩)
      else
        -- the last page is formatted as the next inventory page
        pagAllocate nested
          ⟨pips.take (sequence + 1) ++ freshPip :: pips.drop (sequence + 2), sequence⟩

def pagReleasePage (number : Nat) (s : PageSpace) : PageSpace :=
  let sequence := number / pgcPpp pgcBytes
  let relativeBit := number % pgcPpp pgcBytes
  ⟨s.pips.modify sequence (Pip.release · relativeBit), min s.pgcHighWater sequence⟩

end

inductive PagEvent where
  | allocate (refused : List (Nat → Bool)) (number : Nat)
  | release (number : Nat)
  /-- Another attachment starts with a new page control block. -/
  | attach

section

variable (pgcBytes : Nat)

/-- A page that has an inventory page, and is not one. -/
def Managed (s : PageSpace) (number : Nat) : Prop :=
  number / pgcPpp pgcBytes < s.pips.length ∧ ∀ sequence, number ≠ pipPage pgcBytes sequence

/-- The allocations and releases in a database since it was formatted, the last one first. -/
inductive PagRun : List PagEvent → PageSpace → Prop
  | format : PagRun [] ⟨[formatPip], 0⟩
  | allocate {events : List PagEvent} {s s' : PageSpace} {refused : List (Nat → Bool)}
      {number : Nat} : PagRun events s → pagAllocate pgcBytes refused s = some (number, s') →
      PagRun (.allocate refused number :: events) s'
  | release {events : List PagEvent} {s : PageSpace} {number : Nat} : PagRun events s →
      Managed pgcBytes s number → PagRun (.release number :: events) (pagReleasePage pgcBytes number s)
  | attach {events : List PagEvent} {s : PageSpace} : PagRun events s →
      PagRun (.attach :: events) ⟨s.pips, 0⟩

/-- The page is marked free on its inventory page. -/
def Free (s : PageSpace) (number : Nat) : Prop :=
  ∃ p, s.pips[number / pgcPpp pgcBytes]? = some p ∧ p.free (number % pgcPpp pgcBytes) = true

/-- The page is marked used on its inventory page. -/
def Used (s : PageSpace) (number : Nat) : Prop :=
  ∃ p, s.pips[number / pgcPpp pgcBytes]? = some p ∧ p.free (number % pgcPpp pgcBytes) = false

end

/-- The page has been allocated and not been released since. -/
def HandedOut : List PagEvent → Nat → Prop
  | [], _ => False
  | .allocate _ n :: events, number => n = number ∨ HandedOut events number
  | .release n :: events, number => n ≠ number ∧ HandedOut events number
  | .attach :: events, number => HandedOut events number

/-- `CCH_fake` may have given up on the page in this attachment, since the page was released. -/
def PassedOver : List PagEvent → Nat → Prop
  | [], _ => False
  | .allocate refused _ :: events, number =>
    (∃ r ∈ refused, r number = true) ∨ PassedOver events number
  | .release n :: events, number => n ≠ number ∧ PassedOver events number
  | .attach :: _, _ => False

end InterBase
