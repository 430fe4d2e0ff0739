import InterBase.Library.Memory
import InterBase.Machine

namespace InterBase

open Memory

def traMask : Nat := 3

def traActive : Nat := 0

def traLimbo : Nat := 1

def traDead : Nat := 2

def traCommitted : Nat := 3

def traUs : Nat := 4

def traPrecommitted : Nat := 5

def maxTraNumber : Nat := 2147483647

/-- `TRANS_SHIFT`. -/
def transShift (number : Nat) : Nat := (number &&& traMask) <<< 1

/-- `TRANS_OFFSET`. -/
def transOffset (number : Nat) : Nat := number >>> 2

/-- `oldest & ~TRA_MASK`. -/
def traBase (oldest : Nat) : Nat := oldest - oldest % (traMask + 1)

/-- The state of a transaction in the bit vector at `bitVector`. -/
def traState (m : Nat → UInt8) (bitVector oldest number : Nat) : Nat :=
  let byte := transOffset (number - traBase oldest)
  (m (bitVector + byte)).toNat >>> transShift number &&& traMask

section

/- The inventory pages, each with its `tip_transactions`, and how many transactions fit on one. -/
variable (tip : Nat → Nat → UInt8) (transPerTip : Nat)

/-- The state on the inventory page. -/
def traFetchState (number : Nat) : Nat :=
  let tipSeq := number / transPerTip
  let byte := transOffset (number % transPerTip)
  (tip tipSeq byte).toNat >>> transShift number &&& traMask

/-- The pages behind the first one; `p` is where the next one goes in the bit vector. -/
def inventoryLoop (top last : Nat) (sequence : Nat) (m : Nat → UInt8) (p : Option Nat) :
    Nat → UInt8 :=
  if sequence ≤ last then
    let base := sequence * transPerTip
    match p with
    | none => inventoryLoop top last (sequence + 1) m none
    | some p =>
      let l := transOffset (min (ulong (top + traMask - base)) transPerTip)
      inventoryLoop top last (sequence + 1) (write m p (slice (tip sequence) 0 l)) (some (p + l))
  else m
termination_by last + 1 - sequence

/-- The memory after the states of the transactions from `base` to `top` have been moved to the
bit vector. -/
def traGetInventory (bitVector : Option Nat) (base top : Nat) (m : Nat → UInt8) : Nat → UInt8 :=
  let sequence := base / transPerTip
  let last := top / transPerTip
  match bitVector with
  | none => inventoryLoop tip transPerTip top last (sequence + 1) m none
  | some p =>
    let l := base % transPerTip
    let q := transOffset l
    let l := transOffset (min (ulong (top + traMask - base)) (transPerTip - l))
    inventoryLoop tip transPerTip top last (sequence + 1) (write m p (slice (tip sequence) q l))
      (some (p + l))

end

/-- A transaction, with the address of its `tra_transactions`. -/
structure Tra where
  traNumber : Nat
  traTop : Nat
  traOldest : Nat
  traSystem : Bool
  traReadCommitted : Bool
  traCommitSubTrans : Nat → Bool
  traTransactions : Nat

/-- `precommited number` is the answer of `TRA_precommited (tdbb, number, number)`, and `tpc` that
of `TPC_snapshot_state`. -/
def traSnapshotState (precommited : Nat → Bool) (tpc : Nat → Nat) (m : Nat → UInt8) (trans : Tra)
    (number : Nat) : Nat :=
  if number ≠ 0 ∧ precommited number = true then traPrecommitted
  else if number = trans.traNumber then traUs
  else if number < trans.traOldest then traCommitted
  else if number = 0 ∨ trans.traSystem = true then traCommitted
  else if trans.traReadCommitted then tpc number
  else if trans.traCommitSubTrans number then traCommitted
  else if trans.traTop < number then traActive
  else traState m trans.traTransactions trans.traOldest number

end InterBase
