import InterBase.Library.Arena
import InterBase.Machine

namespace InterBase

namespace All

open Arena

def typeMin : Nat := 0
def typeFrb : Nat := 1
def typeHnk : Nat := 2
def typeVec : Nat := 4
def typeVcl : Nat := 14
def typeMax : Nat := 70

def sizeofBlk : Nat := 4
def sizeofFrb : Nat := 8
def sizeofHnk : Nat := 16
def minAlloc : Nat := 4
def minAllocation : Nat := 1024
def maxBlock : Nat := 262144 - minAllocation - sizeofHnk - 8

/-- A block with its header. A length of 0 stands for a huge block. -/
structure Blk where
  address : Nat
  blkType : Nat
  blkLength : Nat
deriving Repr, DecidableEq

/-- A free block. -/
structure Frb where
  address : Nat
  blkLength : Nat
deriving Repr, DecidableEq

/-- A hunk of memory, with the block that describes it. -/
structure Hnk where
  block : Blk
  hnkAddress : Nat
  hnkLength : Nat
deriving Repr, DecidableEq

/-- A pool. The links of its free blocks and of its hunks are the order of the lists; `memory` holds
what stands behind the headers of the other blocks. -/
structure Plb where
  plbExtendSize : Nat
  plbFree : List Frb
  plbHunks : List Hnk
  plbHugeHunks : List Hnk
  memory : Nat → UInt8

/-- `block_sizes`: the lengths of the structures, and of one more element of those that repeat. -/
structure BlockSizes where
  typRootLength : Nat → Nat
  typTailLength : Nat → Nat
  hnk_root : typRootLength typeHnk = sizeofHnk
  hnk_tail : typTailLength typeHnk = 0
  root_frb : ∀ type, typeMin < type → type < typeMax → sizeofFrb ≤ typRootLength type

def Blk.length (block : Blk) : Nat := block.blkLength * 4

def Frb.stop (free : Frb) : Nat := free.address + free.blkLength * 4

def Frb.extent (free : Frb) : Extent := ⟨free.address, free.blkLength * 4⟩

def Blk.extent (block : Blk) : Extent := ⟨block.address, block.length⟩

def Hnk.area (hunk : Hnk) : Extent := ⟨hunk.hnkAddress, hunk.hnkLength⟩

/-- Where the call ends otherwise than by a return. -/
inductive Stop where
  | bugcheck (msg : Nat)
  | fuel
deriving Repr, DecidableEq

/-- `gds__alloc` and `gds__sys_alloc`. Each writes the length in front of the memory it gives out,
so that there is room between any two pieces of it. -/
structure Heap where
  gdsAlloc : Plb → Nat → Option Nat
  fresh : ∀ pool size address, gdsAlloc pool size = some address →
    ∀ hunk ∈ pool.plbHunks ++ pool.plbHugeHunks, Extent.Gap 4 ⟨address, size⟩ hunk.area

variable (sizes : BlockSizes) (heap : Heap)

/-- `ALL_malloc` and `ALL_sys_alloc`; the size is a positive `SLONG` for the allocators below. -/
def allMalloc (pool : Plb) (size : Nat) : Option Nat :=
  if size = 0 ∨ 2147483648 ≤ size then none else heap.gdsAlloc pool size

/-- The length of a block in bytes, rounded up, as far as a `ULONG` holds it. -/
def blockSize (type count : Nat) : Nat :=
  let size := sizes.typRootLength type
  let tail := sizes.typTailLength type
  let size := if tail ≠ 0 ∧ 1 ≤ count then ulong (size + (count - 1) * tail) else size
  ulong (size + minAlloc - 1) / minAlloc * minAlloc

def moveClear (first length : Nat) (memory : Nat → UInt8) : Nat → UInt8 :=
  fun x => if first ≤ x ∧ x < first + length then 0 else memory x

def moveFaster (source target length : Nat) (memory : Nat → UInt8) : Nat → UInt8 :=
  fun x => if target ≤ x ∧ x < target + length then memory (source + (x - target)) else memory x

/-- A `ULONG` is stored. -/
def storeLong (target n : Nat) (memory : Nat → UInt8) : Nat → UInt8 :=
  fun x => if target ≤ x ∧ x < target + 4 then UInt8.ofNat (n / 256 ^ (x - target)) else memory x

structure Best where
  place : Nat
  free : Frb
  tail : Nat
deriving Repr, DecidableEq

/-- The best fit among the free blocks; `place` is that of the first of them. -/
def searchFree (units place : Nat) (best : Option Best) : List Frb → Except Stop (Option Best)
  | [] => .ok best
  | free :: rest =>
    if rest.head?.any fun next => next.address ≤ free.address then .error (.bugcheck 152)
    else
      let tail := free.blkLength - units
      if units ≤ free.blkLength ∧ tail < best.elim maxBlock Best.tail then
        if tail = 0 then .ok (some ⟨place, free, tail⟩)
        else searchFree units (place + 1) (some ⟨place, free, tail⟩) rest
      else searchFree units (place + 1) best rest

/-- The block is cut off the end of the free one, or is all of it. -/
def takeFree (best : Best) (type size units : Nat) (pool : Plb) : Blk × Plb :=
  if sizeofFrb < best.tail * 4 then
    let address := best.free.address + best.free.blkLength * 4 - size
    (⟨address, type, units⟩,
      { pool with
        plbFree := pool.plbFree.set best.place
          { best.free with blkLength := best.free.blkLength - units }
        memory := moveClear address size pool.memory })
  else
    (⟨best.free.address, type, best.free.blkLength⟩,
      { pool with
        plbFree := pool.plbFree.eraseIdx best.place
        memory := moveClear best.free.address (best.free.blkLength * 4) pool.memory })

def mergeNext (block : Frb) : List Frb → Except Stop (Frb × List Frb)
  | [] => .ok (block, [])
  | free :: rest =>
    if block.stop = free.address then
      .ok (⟨block.address, ushort (block.blkLength + free.blkLength)⟩, rest)
    else if free.address < block.stop then .error (.bugcheck 155)
    else .ok (block, free :: rest)

def mergePrior (block : Frb) (before after : List Frb) : Except Stop (List Frb) :=
  match before.getLast? with
  | none => .ok (block :: after)
  | some prior =>
    if prior.blkLength ≠ 0 ∧ prior.stop = block.address then
      .ok (before.dropLast ++ ⟨prior.address, ushort (prior.blkLength + block.blkLength)⟩ :: after)
    else if prior.blkLength ≠ 0 ∧ block.address < prior.stop then .error (.bugcheck 156)
    else .ok (before ++ block :: after)

/-- A block goes where it belongs among the free ones, and is combined with its neighbours. -/
def linkFree (block : Frb) (plbFree : List Frb) : Except Stop (List Frb) :=
  let before := plbFree.takeWhile fun free => free.address < block.address
  let after := plbFree.dropWhile fun free => free.address < block.address
  if after.head?.any fun free => free.address = block.address then .error (.bugcheck 154)
  else
    match mergeNext block after with
    | .error stop => .error stop
    | .ok (block, after) => mergePrior block before after

def Hnk.holds (block : Blk) (hunk : Hnk) : Bool :=
  hunk.hnkAddress ≤ block.address ∧ block.address < hunk.hnkAddress + hunk.hnkLength

def release (block : Blk) (pool : Plb) : Except Stop Plb :=
  if block.blkLength = 0 then
    if pool.plbHugeHunks.any (Hnk.holds block) then
      .ok { pool with plbHugeHunks := pool.plbHugeHunks.eraseP (Hnk.holds block) }
    else .error (.bugcheck 154)
  else
    match linkFree ⟨block.address, block.blkLength⟩ pool.plbFree with
    | .error stop => .error stop
    | .ok plbFree => .ok { pool with plbFree := plbFree }

def allocHugeHunk (type size : Nat) (pool : Plb) : Option Blk × Plb :=
  let minimumSize := ulong (size + sizeofHnk)
  let size := ulong (minimumSize + minAllocation - 1) / minAllocation * minAllocation
  match allMalloc heap pool size with
  | none => (none, pool)
  | some address =>
    (some ⟨address + sizeofHnk, type, 0⟩,
      { pool with
        plbHugeHunks := ⟨⟨address, typeHnk, sizeofHnk / 4⟩, address, size⟩ :: pool.plbHugeHunks
        memory := moveClear (address + sizeofHnk) (size - sizeofHnk) pool.memory })

/-- The extend size is a power of two. `alloc` gets the block for the new hunk. -/
def extendPool (alloc : Plb → Except Stop (Option Blk × Plb)) (size : Nat) (pool : Plb) :
    Except Stop (Bool × Plb) :=
  let minimumSize := ulong (size + sizeofHnk)
  let extendSize := if pool.plbExtendSize < minimumSize then minAllocation else pool.plbExtendSize
  let size := ulong (minimumSize + extendSize - 1) / extendSize * extendSize
  match allMalloc heap pool size with
  | none => .ok (false, pool)
  | some address =>
    match release ⟨address, typeFrb, ushort (size / 4)⟩ pool with
    | .error stop => .error stop
    | .ok pool =>
      match alloc pool with
      | .error stop => .error stop
      | .ok (none, pool) => .ok (false, pool)
      | .ok (some hunk, pool) =>
        .ok (true, { pool with plbHunks := ⟨hunk, address, size⟩ :: pool.plbHunks })

/-- `ALL_alloc`; without a block the system has no more memory. -/
def allAlloc : Nat → Nat → Nat → Plb → Except Stop (Option Blk × Plb)
  | 0, _, _, _ => .error .fuel
  | fuel + 1, type, count, pool =>
    if type ≤ typeMin ∨ typeMax ≤ type then .error (.bugcheck 150)
    else
      let size := blockSize sizes type count
      let units := ushort (size / 4)
      if maxBlock ≤ size then .ok (allocHugeHunk heap type size pool)
      else
        match searchFree units 0 none pool.plbFree with
        | .error stop => .error stop
        | .ok (some best) =>
          let (block, pool) := takeFree best type size units pool
          .ok (some block, pool)
        | .ok none =>
          match extendPool heap (allAlloc fuel typeHnk 0) size pool with
          | .error stop => .error stop
          | .ok (false, pool) => .ok (none, pool)
          | .ok (true, pool) => allAlloc fuel type count pool

/-- The length of a huge block, from the hunk in front of it. -/
def findBlockLength (pool : Plb) (block : Blk) : Nat :=
  match pool.plbHugeHunks.find? fun hunk => hunk.block.address + sizeofHnk = block.address with
  | none => 0
  | some hunk => hunk.hnkLength - sizeofHnk

/-- The length of a block in bytes. -/
def blockLength (pool : Plb) (block : Blk) : Nat :=
  if block.blkLength * 4 = 0 then findBlockLength pool block else block.blkLength * 4

/-- The count of a vector. -/
def storeCount (new : Blk) (size : Nat) (memory : Nat → UInt8) : Nat → UInt8 :=
  if new.blkType = typeVec ∨ new.blkType = typeVcl then
    storeLong (new.address + sizeofBlk) size memory
  else memory

/-- `ALL_extend`; without a block the request has ended with an error. -/
def allExtend (fuel : Nat) (block : Blk) (size : Nat) (pool : Plb) :
    Except Stop (Option Blk × Plb) :=
  match allAlloc sizes heap fuel block.blkType size pool with
  | .error stop => .error stop
  | .ok (none, pool) => .ok (none, pool)
  | .ok (some new, pool) =>
    let oldLength := blockLength pool block
    let newLength := blockLength pool new
    let copied := moveFaster (block.address + sizeofBlk) (new.address + sizeofBlk)
      (min oldLength newLength - sizeofBlk) pool.memory
    match release block { pool with memory := copied } with
    | .error stop => .error stop
    | .ok pool => .ok (some new, { pool with memory := storeCount new size pool.memory })

end All

end InterBase
