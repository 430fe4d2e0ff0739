import InterBase.Library.Arena
import InterBase.Machine

namespace InterBase

namespace GdsAlloc

open Arena

/-- `GDS_ALLOC_ALIGNMENT` and `GDS_ALLOC_EXTEND_SIZE`, which differ from one 32-bit platform to
another. -/
structure Platform where
  alignment : Nat
  extendSize : Nat
  alignment_cases : alignment = 4 ∨ alignment = 8
  extendSize_cases : extendSize = 2048 ∨ extendSize = 8192 ∨ extendSize = 102400

/-- `sizeof (struct free)`: the link to the next block, and the length. -/
def sizeofFree : Nat := 8

def sizeofPointer : Nat := 4

def sizeofUlong : Nat := 4

def Platform.allocRoundup (p : Platform) (n : Nat) : Nat :=
  (n + p.alignment - 1) / p.alignment * p.alignment

def Platform.allocOverhead (p : Platform) : Nat := p.allocRoundup sizeofUlong

/-- What the link to the other areas takes at the beginning of each. -/
def Platform.areaLink (p : Platform) : Nat := p.allocRoundup sizeofPointer

/-- A block of the free list. -/
structure Free where
  address : Nat
  freeLength : Int
deriving Repr, DecidableEq

/-- A block that a client holds, with `block [0]` and the size that was asked for. -/
structure Block where
  address : Nat
  length : Int
  sizeRequest : Int
deriving Repr, DecidableEq

/-- The links of the free blocks are the order of `pool`. -/
structure State where
  pool : List Free
  mallocedMemory : List Extent
  live : List Block
deriving Repr, DecidableEq

def State.empty : State := ⟨[], [], []⟩

/-- An address of 32 bits. -/
def pointer (address : Nat) (n : Int) : Nat := (((address : Int) + n) % 4294967296).toNat

def Free.stop (free : Free) : Nat := pointer free.address free.freeLength

variable (p : Platform)

/-- `ALLOC_OVERHEAD` once, or once for each 1024 bytes of a multiple of 1024. -/
def factor (sizeRequest : Int) : Int := if sizeRequest % 1024 = 0 then sizeRequest / 1024 else 1

/-- The size of a block in an `SLONG`. -/
def blockSize (sizeRequest : Int) : Int :=
  let size := slong (sizeRequest + p.allocOverhead * factor sizeRequest)
  slong (size + p.alignment - 1) / p.alignment * p.alignment

/-- A block that fits; `place` is its place in the free list. -/
structure Best where
  place : Nat
  free : Free
  tail : Int
deriving Repr, DecidableEq

/-- The free block with the shortest tail. What stands behind a bad block is cut off. -/
def searchPool (size : Int) (place : Nat) (best : Option Best) : List Free → Option Best × List Free
  | [] => (best, [])
  | free :: rest =>
    if free.freeLength ≤ 0 ∨ rest.head?.any fun next => next.address < free.stop then (best, [])
    else
      let tail := slong (free.freeLength - size)
      if 0 ≤ tail ∧ best.all fun best => tail < best.tail then
        if tail = 0 then (some ⟨place, free, tail⟩, free :: rest)
        else
          let (best, rest) := searchPool size (place + 1) (some ⟨place, free, tail⟩) rest
          (best, free :: rest)
      else
        let (best, rest) := searchPool size (place + 1) best rest
        (best, free :: rest)

/-- The whole chunk when little is left over, or what is needed from the end of it. -/
def takeBest (best : Best) (size sizeRequest : Int) (pool : List Free) : Block × List Free :=
  if best.tail ≤ sizeofFree + p.allocOverhead then
    (⟨best.free.address, best.free.freeLength, sizeRequest⟩, pool.eraseIdx best.place)
  else
    (⟨pointer best.free.address best.tail, size, sizeRequest⟩,
      pool.set best.place { best.free with freeLength := slong (best.free.freeLength - size) })

/-- The place of a block in the free list. What stands behind a bad block is cut off. -/
def findPlace (address : Nat) : List Free → List Free × List Free
  | [] => ([], [])
  | free :: rest =>
    if rest.head?.any fun next => next.address ≤ free.address then ([], [])
    else if address < free.address then ([], free :: rest)
    else
      let (before, after) := findPlace address rest
      (free :: before, after)

def mergeNext (block : Free) : List Free → Free × List Free
  | [] => (block, [])
  | free :: rest =>
    if block.stop = free.address then
      (⟨block.address, slong (block.freeLength + free.freeLength)⟩, rest)
    else (block, free :: rest)

def mergePrior (before : List Free) (block : Free) (after : List Free) : List Free :=
  match before.getLast? with
  | none => block :: after
  | some prior =>
    if prior.stop = block.address then
      before.dropLast ++ ⟨prior.address, slong (prior.freeLength + block.freeLength)⟩ :: after
    else before ++ block :: after

/-- The number of bytes freed from the user's point of view. -/
def released (length : Int) : Nat :=
  let length := (length % 4294967296).toNat
  if length % (1024 + p.allocOverhead) = 0 then
    length - p.allocOverhead * (length / (1024 + p.allocOverhead))
  else ulong (length + 4294967296 - p.allocOverhead)

/-- A block that is refused as bad gives 0. -/
def freeMemory (block : Free) (pool : List Free) : Nat × List Free :=
  let (before, after) := findPlace block.address pool
  if block.freeLength ≤ 0 ∨ (before.getLast?.any fun prior => block.address < prior.stop) ∨
      after.head?.any fun free => free.address < block.stop then
    (0, before ++ after)
  else
    let (merged, after) := mergeNext block after
    (released p block.freeLength, mergePrior before merged after)

def gdsFree (block : Block) (s : State) : Nat × State :=
  let (released, pool) := freeMemory p ⟨block.address, block.length⟩ s.pool
  (released, { s with pool := pool, live := s.live.erase block })

/-- The minimal amount of memory to be obtained. -/
def minimalTail (size : Int) : Int := size + sizeofFree + p.areaLink + p.allocOverhead

/-- The amount in multiples of the extend quantity. -/
def extendTail (size : Int) : Int :=
  (minimalTail p size % 4294967296 / p.extendSize + 1) * p.extendSize

/-- A new area is divided: its end goes to the client, and the rest is released. -/
def divideArea (address tail : Nat) (size sizeRequest : Int) (s : State) : Option Nat × State :=
  let block := address + p.areaLink
  let left := slong (tail - (size + p.areaLink))
  let (_, pool) := freeMemory p ⟨block, left⟩ s.pool
  let block := pointer block left
  (some (block + p.allocOverhead),
    { pool := pool
      mallocedMemory := ⟨address, tail⟩ :: s.mallocedMemory
      live := ⟨block, size, sizeRequest⟩ :: s.live })

def extend (malloc : Nat → Option Nat) (size sizeRequest : Int) (s : State) : Option Nat × State :=
  let tail := (extendTail p size % 4294967296).toNat
  match malloc tail with
  | some address => divideArea p address tail size sizeRequest s
  | none =>
    let tail := (minimalTail p size % 4294967296).toNat
    match malloc tail with
    | some address => divideArea p address tail size sizeRequest s
    | none => (none, s)

/-- Without an address there is no more memory, or the size is not positive. -/
def gdsAlloc (malloc : Nat → Option Nat) (sizeRequest : Int) (s : State) : Option Nat × State :=
  if sizeRequest ≤ 0 then (none, s)
  else
    let size := blockSize p sizeRequest
    match searchPool size 0 none s.pool with
    | (some best, pool) =>
      let (block, pool) := takeBest p best size sizeRequest pool
      (some (block.address + p.allocOverhead), { s with pool := pool, live := block :: s.live })
    | (none, pool) => extend p malloc size sizeRequest { s with pool := pool }

/-- `malloc` gives memory that it has not given before, below the end of the address space. -/
def Fresh (malloc : Nat → Option Nat) (s : State) : Prop :=
  ∀ size address, malloc size = some address → address + size < 4294967296 ∧
    ∀ area ∈ s.mallocedMemory, Extent.Apart ⟨address, size⟩ area

/-- The states after calls of `gds__alloc` that all satisfy `fits`, and of `gds__free` for blocks that
clients hold. -/
inductive Reachable (fits : Int → Prop) : State → Prop
  | empty : Reachable fits State.empty
  | alloc {s : State} (before : Reachable fits s) (malloc : Nat → Option Nat) (fresh : Fresh malloc s)
      (sizeRequest : Int) (fit : fits sizeRequest) :
      Reachable fits (gdsAlloc p malloc sizeRequest s).2
  | free {s : State} (before : Reachable fits s) (block : Block) (mem : block ∈ s.live) :
      Reachable fits (gdsFree p block s).2

end GdsAlloc

end InterBase
