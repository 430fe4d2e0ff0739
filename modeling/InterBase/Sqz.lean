import InterBase.Library.Memory
import InterBase.Machine

namespace InterBase

open Memory

/-- A data compression control block: the bytes from `dcc_string` to `dcc_end`. -/
structure Dcc where
  string : List UInt8
deriving Repr, DecidableEq

/-- The state of `SQZ_length`: the filled blocks, the open one and the length so far. -/
structure DccChain where
  full : List Dcc := []
  control : List UInt8 := []
  length : Nat := 0
deriving Repr, DecidableEq

/-- `*control++ = n`; a new block is chained when the 128 bytes of this one are used. -/
def DccChain.put (s : DccChain) (n : Int) : DccChain :=
  let control := s.control ++ [toSchar n]
  if control.length = 128 then { s with full := s.full ++ [⟨control⟩], control := [] }
  else { s with control := control }

def DccChain.blocks (s : DccChain) : List Dcc := s.full ++ [⟨s.control⟩]

/-- The search for three equal bytes; `none` when `max` runs out first. -/
def scanRun : Nat → List UInt8 → Nat → Option Nat
  | 0, _, _ => none
  | max + 1, data, stepped =>
    if data.getD 0 0 ≠ data.getD 1 0 ∨ data.getD 0 0 ≠ data.getD 2 0 then
      if 1 < max then scanRun max data.tail (stepped + 1) else none
    else some stepped

/-- Length of the non-compressable run at the front of the data. -/
def literalCount (data : List UInt8) : Nat :=
  let count := ushort data.length
  let max := count - 1
  if 1 < max then (scanRun max data 0).getD count else count

/-- Non-compressable runs are limited to 127 bytes. -/
def putLiterals (count : Nat) (s : DccChain) : DccChain :=
  if count = 0 then s
  else
    let max := min count 127
    putLiterals (count - max) ({ s with length := s.length + (1 + max) }.put max)
termination_by count

/-- The `do … while (--max)` loop: how many of the first `max` bytes are `c`. -/
def equalCount (c : UInt8) : Nat → List UInt8 → Nat
  | 0, _ => 0
  | max + 1, data => if data.getD 0 0 ≠ c then 0 else equalCount c max data.tail + 1

theorem literalCount_pos {data : List UInt8} (h : ushort data.length ≠ 0)
    (short : data.length < 3) : 0 < literalCount data := by
  have hu : ushort data.length = data.length := ushort_of_lt (by omega)
  simp only [literalCount, hu, show ¬1 < data.length - 1 by omega, if_false]
  omega

theorem equalCount_pos {max : Nat} (data : List UInt8) (h : 0 < max) :
    0 < equalCount (data.getD 0 0) max data := by
  cases max with
  | zero => omega
  | succ max => simp [equalCount]

/-- The outer loop of `SQZ_length`, which ends when `count = end - data` is zero. -/
def sqzLengthLoop (data : List UInt8) (s : DccChain) : DccChain :=
  if _h : ushort data.length = 0 then s
  else
    let count := literalCount data
    let s := putLiterals count s
    let rest := data.drop count
    let max := min 128 rest.length
    if _hm : 3 ≤ max then
      let run := equalCount (rest.getD 0 0) max rest
      sqzLengthLoop (rest.drop run) ({ s with length := s.length + 2 }.put (-run))
    else sqzLengthLoop rest s
termination_by data.length
decreasing_by
  · have hm : 3 ≤ min 128 (data.drop (literalCount data)).length := _hm
    have hr := equalCount_pos (data.drop (literalCount data))
      (Nat.lt_of_lt_of_le (by decide : 0 < 3) hm)
    rw [List.length_drop]
    have hlen : (data.drop (literalCount data)).length ≤ data.length := by simp
    omega
  · have hm : ¬3 ≤ min 128 (data.drop (literalCount data)).length := _hm
    have hp := literalCount_pos _h
    have hz : ¬data.length = 0 := fun e => _h (by rw [e]; rfl)
    rw [List.length_drop] at hm ⊢
    omega

/-- `SQZ_length`: the control blocks, and the length through the `USHORT` result. -/
def sqzLength (data : List UInt8) : List Dcc × Nat :=
  let s := sqzLengthLoop data {}
  (s.blocks, ushort s.length)

/-- One control block of `SQZ_fast`: the bytes put out and the input left. -/
def sqzFastBlock : List UInt8 → List UInt8 → List UInt8 × List UInt8
  | [], input => ([], input)
  | c :: control, input =>
    let length := schar c
    if length < 0 then
      let (output, rest) := sqzFastBlock control (input.drop (-length).toNat)
      (c :: input.getD 0 0 :: output, rest)
    else if 0 < length then
      let (output, rest) := sqzFastBlock control (input.drop length.toNat)
      (c :: input.take length.toNat ++ output, rest)
    else
      let (output, rest) := sqzFastBlock control input
      (c :: output, rest)

def sqzFast : List Dcc → List UInt8 → List UInt8
  | [], _ => []
  | dcc :: dccs, input =>
    let (output, rest) := sqzFastBlock dcc.string input
    output ++ sqzFast dccs rest

/-- `SQZ_decompress` from address `input` up to `last`; `output` is what was put out so far
and `room` the distance from the start of the output to `output_end`. -/
def sqzDecompressLoop (m : Nat → UInt8) (input last room : Nat) (output : List UInt8) :
    Except Nat (List UInt8) :=
  if input < last then
    let l := schar (m input)
    if l < 0 then
      let c := m (input + 1)
      if room < output.length + (-l).toNat then .error 179
      else sqzDecompressLoop m (input + 2) last room (output ++ List.replicate (-l).toNat c)
    else if room < output.length + l.toNat then .error 179
    else sqzDecompressLoop m (input + 1 + l.toNat) last room (output ++ slice m (input + 1) l.toNat)
  else if room < output.length then .error 179
  else .ok output
termination_by last - input

def sqzDecompress (m : Nat → UInt8) (input length room : Nat) : Except Nat (List UInt8) :=
  sqzDecompressLoop m input (input + ushort length) room []

end InterBase
