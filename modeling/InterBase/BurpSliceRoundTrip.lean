import InterBase.BurpSliceElements

namespace InterBase

namespace BurpSlice

open Memory BigEndian

/-- The length word and the elements. -/
def Dsc.encodedLength (order : ByteOrder) (desc : Dsc) (m : Nat → UInt8) (length : Nat) : Nat :=
  4 + desc.externals order m (length / desc.dscLength) 0

/-- The string of a slice of `length` bytes. -/
def sliceString (length : Nat) (m : Nat → UInt8) : Lstring := ⟨length, length, some ⟨length, m⟩⟩

def bufferString (estimate : Nat) (buffer : Area) : Lstring := ⟨estimate, estimate, some buffer⟩

/-- `slice` is backed up with `buffer` for its external form, and what is restored says the same. -/
def RoundTrips (port : Port) (desc : Dsc) (buffer slice : Lstring) : Prop :=
  ∃ block restored, putSlice port desc buffer slice = .ok block ∧
    getSlice port desc slice.lstrLength block = .ok restored ∧
    restored.lstrLength = slice.lstrLength ∧
    desc.Same port.order restored.area.bytes slice.area (slice.lstrLength / desc.dscLength) 0

/-- The slices that survive: the last clause is about the buffer, which starts with room for
`estimate` bytes. -/
structure Survives (port : Port) (desc : Dsc) (estimate length : Nat) (m : Nat → UInt8) : Prop where
  element : 0 < desc.dscLength
  strings : desc.Short m (length / desc.dscLength) 0
  block : length + port.link < 2147483648
  grows : GrowsInTime (slong estimate) (desc.encodedLength port.order m length)

section

variable {port : Port} {desc : Dsc} {source buffer : Area} {p n estimate length : Nat} {x x' y : Xdr}
  {m : Nat → UInt8}

/-- The buffer that `BURP_ALLOC` gives, or the few bytes less than none for a length close to 2^32. -/
theorem grown_initial (small : estimate < 4294967296) (handed : burpAlloc port estimate = .ok buffer)
    (slice : Lstring) (op : XdrOp) :
    Grown port (slong estimate) (xdrInit (bufferString estimate buffer) slice op) := by
  have link := port.link_bounds
  rcases Nat.lt_or_ge (estimate + port.link) 2147483648 with fits | large
  · rw [burpAlloc_ok fits] at handed
    obtain rfl := Except.ok.inj handed
    have same : slong estimate = estimate := slong_of_small (by omega)
    refine ⟨?_, ?_, by omega, by omega, Nat.zero_le _⟩
    · change ((0 : Nat) : Int) + slong estimate = slong estimate
      omega
    · change estimate = (slong estimate).toNat
      omega
  · have none := burpAlloc_large large small buffer handed
    have wraps : 4294967296 < estimate + port.link := by
      simp only [burpAlloc] at handed
      split at handed
      next positive =>
        rcases Nat.lt_or_ge (estimate + port.link) 4294967296 with below | above
        · rw [ulong_of_lt below, slong_of_large large below] at positive
          omega
        · rcases Nat.lt_or_eq_of_le above with more | exact
          · exact more
          · rw [← exact] at positive
            exact absurd positive (by decide)
      next => simp at handed
    have same : slong estimate = estimate - 4294967296 := slong_of_large (by omega) small
    refine ⟨?_, ?_, by omega, by omega, Nat.zero_le _⟩
    · change ((0 : Nat) : Int) + slong estimate = slong estimate
      omega
    · change buffer.size = (slong estimate).toNat
      omega

theorem xdrInit_private (buffer slice : Lstring) (op : XdrOp) :
    (xdrInit buffer slice op).xPrivate = 0 := rfl

theorem xdrArray_encode {slice : Lstring} (positive : 0 < desc.dscLength)
    (data : x.data = slice.area) : xdrArray port desc slice x =
      xdrElements port desc (slice.lstrLength / desc.dscLength) 0 x >>= fun x =>
        .ok ({ slice with lstrAddress := some x.data }, x) := by
  have same : { x with data := slice.area } = x := by rw [← data]
  unfold xdrArray
  rw [if_neg (by omega), same]
  rfl

theorem elements_fit (desc : Dsc) (length : Nat) :
    0 + length / desc.dscLength * desc.dscLength ≤ length := by
  rw [Nat.zero_add]
  exact Nat.div_mul_le_self length desc.dscLength

/-- The length word has to be written before anything else can fail. -/
theorem canSlice_encode (x : Xdr)
    (init : x = xdrInit (bufferString estimate buffer) (sliceString length m) .encode)
    (positive : 0 < desc.dscLength) :
    canSlice port desc (bufferString estimate buffer) (sliceString length m) .encode =
      (putEach port (bigEndian 4 length) x >>= fun x =>
        xdrElements port desc (length / desc.dscLength) 0 x) >>= fun x =>
          .ok (x.xPrivate, ⟨x.lstrLength, x.lstrAllocated, some x.xBase⟩,
            { sliceString length m with lstrAddress := some x.data }) := by
  subst init
  have op : (xdrInit (bufferString estimate buffer) (sliceString length m) .encode).xOp = .encode := rfl
  simp only [canSlice, xdrSlice, op, putlong_eq]
  rw [show (sliceString length m).lstrLength = length from rfl]
  cases put : putEach port (bigEndian 4 length)
      (xdrInit (bufferString estimate buffer) (sliceString length m) .encode) with
  | error e => rfl
  | ok x' =>
    obtain ⟨_, data, _⟩ := putEach_keeps put
    simp only [ok_bind]
    rw [xdrArray_encode positive (data.trans rfl)]
    change (xdrElements port desc (length / desc.dscLength) 0 x' >>= _) >>= _ = _
    cases xdrElements port desc (length / desc.dscLength) 0 x' with
    | error e => rfl
    | ok z => rfl

theorem putSlice_divides (none : desc.dscLength = 0) (block : List UInt8) :
    putSlice port desc (bufferString estimate buffer) (sliceString length m) ≠ .ok block := by
  intro done
  obtain ⟨⟨count, buffer', slice'⟩, encoded, _⟩ := bind_ok done
  obtain ⟨⟨slice'', z⟩, sliced, _⟩ := bind_ok encoded
  obtain ⟨x', _, array⟩ := bind_ok (show (_ >>= fun x => xdrArray port desc _ x) = _ from sliced)
  unfold xdrArray at array
  rw [if_pos none] at array
  simp at array

theorem putSlice_long (small : estimate < 4294967296)
    (handed : burpAlloc port estimate = .ok buffer) (positive : 0 < desc.dscLength)
    (long : ¬desc.Short m (length / desc.dscLength) 0) (block : List UInt8) :
    putSlice port desc (bufferString estimate buffer) (sliceString length m) ≠ .ok block := by
  intro done
  obtain ⟨⟨count, buffer', slice'⟩, encoded, _⟩ := bind_ok done
  have grown := grown_initial small handed (sliceString length m) .encode
  rw [canSlice_encode _ rfl positive] at encoded
  obtain ⟨z, encoded, _⟩ := bind_ok encoded
  obtain ⟨x', put, encoded⟩ := bind_ok encoded
  obtain ⟨op, data, _⟩ := putEach_keeps put
  have handy : 0 ≤ x'.xHandy := by
    have first := grown.handy
    have low := grown.low
    rw [xdrInit_private] at first
    exact putEach_handy_first (by omega) put
  obtain ⟨e, failed⟩ := xdrElements_long port ⟨length, m⟩ positive
    (elements_fit desc length) long op data handy
  rw [failed] at encoded
  simp at encoded

theorem putSlice_late (small : estimate < 4294967296)
    (handed : burpAlloc port estimate = .ok buffer) (positive : 0 < desc.dscLength)
    (short : desc.Short m (length / desc.dscLength) 0)
    (late : ¬GrowsInTime (slong estimate) (desc.encodedLength port.order m length))
    (block : List UInt8) :
    putSlice port desc (bufferString estimate buffer) (sliceString length m) ≠ .ok block := by
  intro done
  obtain ⟨⟨count, buffer', slice'⟩, encoded, _⟩ := bind_ok done
  have grown := grown_initial small handed (sliceString length m) .encode
  obtain ⟨bytes, total, sent, _⟩ := xdrElements_carries port ⟨length, m⟩
    positive (elements_fit desc length) short 4
  obtain ⟨e, failed⟩ := putEach_fails (bigEndian 4 length ++ bytes) grown (by
    rw [List.length_append, length_bigEndian, total]
    change ¬GrowsInTime (slong estimate) (0 + (4 + _))
    rw [Nat.zero_add]
    exact late)
  rw [putEach_append] at failed
  rw [canSlice_encode _ rfl positive] at encoded
  obtain ⟨z, encoded, _⟩ := bind_ok encoded
  obtain ⟨x', put, encoded⟩ := bind_ok encoded
  obtain ⟨op, data, place⟩ := putEach_keeps put
  rw [length_bigEndian] at place
  rw [put, ok_bind, ← sent x' op data (place.trans (Nat.zero_add 4)), encoded] at failed
  simp at failed

/-- What `put_array` writes when the buffer grows in time: the length word, and what the elements are
read back from. -/
theorem putSlice_wrote (small : estimate < 4294967296)
    (handed : burpAlloc port estimate = .ok buffer) (positive : 0 < desc.dscLength)
    (short : desc.Short m (length / desc.dscLength) 0)
    (grows : GrowsInTime (slong estimate) (desc.encodedLength port.order m length)) :
    ∃ bytes, putSlice port desc (bufferString estimate buffer) (sliceString length m) =
        .ok (bigEndian 4 length ++ bytes) ∧
      (bigEndian 4 length ++ bytes).length + port.link < 2147483648 ∧
      ∀ (y : Xdr) (rest : List UInt8), y.xOp = .decode → y.Ready (bytes ++ rest) →
        length ≤ y.data.size → ∃ y',
          xdrElements port desc (length / desc.dscLength) 0 y = .ok y' ∧
          desc.Same port.order y'.data.bytes ⟨length, m⟩ (length / desc.dscLength) 0 := by
  have fit := elements_fit desc length
  have link := port.link_bounds
  have grown := grown_initial small handed (sliceString length m) .encode
  obtain ⟨bytes, total, sent, got⟩ := xdrElements_carries port ⟨length, m⟩
    positive fit short 4
  obtain ⟨x', c', put, after, wrote⟩ := putEach_wrote (bigEndian 4 length ++ bytes) grown (by
    rw [List.length_append, length_bigEndian, total]
    change GrowsInTime (slong estimate) (0 + (4 + _))
    rw [Nat.zero_add]
    exact grows)
  have count := wrote.count
  have text := wrote.written
  rw [xdrInit_private, Nat.zero_add] at count
  have used := after.used
  have high := after.high
  have fetched : x'.xBase.fetch 0 x'.xPrivate = .ok (bigEndian 4 length ++ bytes) := by
    rw [fetch_ok (by rw [after.size]; omega)]
    exact congrArg Except.ok text
  refine ⟨bytes, ?_, ?_, fun y rest op ready room => ?_⟩
  · rw [putEach_append] at put
    obtain ⟨z, word, rest⟩ := bind_ok put
    obtain ⟨op, data, place⟩ := putEach_keeps word
    rw [length_bigEndian] at place
    rw [← sent z op data (place.trans (Nat.zero_add 4))] at rest
    simp only [putSlice, canSlice_encode _ rfl positive, word, ok_bind, rest]
    exact fetched
  · rw [← count]
    omega
  · obtain ⟨y', more, _, same⟩ := got y rest op ready (by omega)
    exact ⟨y', more, same⟩

theorem canSlice_decode {string target slice : Lstring}
    (init : y = xdrInit string target .decode) (word : getlong port y = .ok (length, x))
    (some : length ≠ 0) (alloc : allocSlice port { target with lstrLength := length } = .ok slice) :
    canSlice port desc string target .decode = xdrArray port desc slice x >>= fun done =>
      .ok (done.2.xPrivate, ⟨done.2.lstrLength, done.2.lstrAllocated, Option.some done.2.xBase⟩,
        done.1) := by
  have op : y.xOp = .decode := by
    rw [init]
    rfl
  simp only [canSlice, xdrSlice, ← init, op, word, ok_bind, if_neg some, alloc]
  rfl

/-- The string of a block that was read from the backup. -/
def blockString (block : List UInt8) : Lstring :=
  ⟨block.length, block.length, some ⟨block.length, write (fun _ => 0) 0 block⟩⟩

theorem ready_block {block : List UInt8} (target : Lstring) (fits : block.length < 2147483648) :
    (xdrInit (blockString block) target .decode).Ready block := by
  refine ⟨le_of_eq ?_, holds_write _ 0 block, ?_⟩
  · exact (slong_of_small fits).symm
  · change 0 + block.length ≤ block.length
    omega

theorem getSlice_canSlice {block : List UInt8} {target : Area}
    (made : burpAlloc port length = .ok target) (fits : block.length + port.link < 2147483648) :
    getSlice port desc length block =
      canSlice port desc (blockString block) (bufferString length target) .decode >>= fun done =>
        .ok done.2.2 := by
  have stored : (Area.mk block.length fun _ => 0).store 0 block =
      .ok ⟨block.length, write (fun _ => 0) 0 block⟩ :=
    store_ok (show 0 + block.length ≤ block.length by omega)
  rw [getSlice, made, ok_bind, burpAlloc_ok fits, ok_bind, stored, ok_bind, blockString,
    bufferString]
  generalize canSlice port desc _ _ .decode = run
  cases run with
  | error e => rfl
  | ok done => rfl

theorem getSlice_eq (desc : Dsc) {bytes : List UInt8} {target : Area} (positive : 0 < desc.dscLength)
    (lt : length < 4294967296) (some : length ≠ 0) (made : burpAlloc port length = .ok target)
    (fits : (bigEndian 4 length ++ bytes).length + port.link < 2147483648) :
    ∃ y : Xdr, y.xOp = .decode ∧ y.Ready (bytes ++ []) ∧ y.data = target ∧
      getSlice port desc length (bigEndian 4 length ++ bytes) =
        xdrElements port desc (length / desc.dscLength) 0 y >>= fun y' =>
          .ok ⟨length, length, Option.some y'.data⟩ := by
  let y := xdrInit (blockString (bigEndian 4 length ++ bytes)) (bufferString length target) .decode
  have ready : y.Ready (bigEndian 4 length ++ (bytes ++ [])) := by
    rw [List.append_nil]
    exact ready_block _ (by omega)
  have alloc : allocSlice port { bufferString length target with lstrLength := length } =
      .ok (bufferString length target) := by
    have enough : ¬(length < length ∧ length ≠ 0) := by simp
    unfold allocSlice bufferString
    rw [if_neg enough]
  have array : xdrArray port desc (bufferString length target) (y.advanced 4) =
      xdrElements port desc (length / desc.dscLength) 0 (y.advanced 4) >>= fun y' =>
        .ok (⟨length, length, Option.some y'.data⟩, y') := by
    unfold xdrArray
    rw [if_neg (by omega)]
    rfl
  refine ⟨y.advanced 4, rfl, ready_long ready, rfl, ?_⟩
  rw [getSlice_canSlice made fits, canSlice_decode rfl (getlong_ready lt ready) some alloc, array]
  cases xdrElements port desc (length / desc.dscLength) 0 (y.advanced 4) with
  | error e => rfl
  | ok y' => rfl

theorem getSlice_empty (desc : Dsc) {bytes : List UInt8}
    (fits : (bigEndian 4 0 ++ bytes).length + port.link < 2147483648) : ∃ restored,
      getSlice port desc 0 (bigEndian 4 0 ++ bytes) = .ok restored ∧ restored.lstrLength = 0 := by
  have link := port.link_bounds
  let y := xdrInit (blockString (bigEndian 4 0 ++ bytes)) (bufferString 0 ⟨0, fun _ => 0⟩) .decode
  have ready : y.Ready (bigEndian 4 0 ++ bytes) := ready_block _ (by omega)
  have word : getlong port y = .ok (0, y.advanced 4) := getlong_ready (by omega) ready
  have op : y.xOp = .decode := rfl
  refine ⟨⟨0, 0, some ⟨0, fun _ => 0⟩⟩, ?_, rfl⟩
  have slice : xdrSlice port desc (bufferString 0 ⟨0, fun _ => 0⟩) y =
      .ok (⟨0, 0, some ⟨0, fun _ => 0⟩⟩, y.advanced 4) := by
    simp only [xdrSlice, op, word, ok_bind]
    rfl
  rw [getSlice_canSlice (burpAlloc_ok (by omega)) fits, canSlice, slice]
  rfl

theorem getSlice_large {bytes : List UInt8} {restored : Lstring} (positive : 0 < desc.dscLength)
    (lt : length < 4294967296) (large : 2147483648 ≤ length + port.link)
    (fits : (bigEndian 4 length ++ bytes).length + port.link < 2147483648) :
    getSlice port desc length (bigEndian 4 length ++ bytes) ≠ .ok restored := by
  intro done
  have link := port.link_bounds
  have short := desc.length_lt
  have started := done
  unfold getSlice at started
  obtain ⟨target, made, _⟩ := bind_ok started
  obtain ⟨y, op, _, data, same⟩ := getSlice_eq desc positive lt (by omega) made fits
  rw [same] at done
  obtain ⟨y', elements, _⟩ := bind_ok done
  have some : 0 < length / desc.dscLength := Nat.div_pos (by omega) positive
  obtain ⟨n, count⟩ : ∃ n, length / desc.dscLength = n + 1 := ⟨_, (Nat.succ_pred_eq_of_pos some).symm⟩
  rw [count, xdrElements] at elements
  obtain ⟨z, first, _⟩ := bind_ok elements
  refine xdrDatum_nowhere positive op ?_ first
  rw [data]
  exact burpAlloc_large large lt target made

theorem roundTrips_of_survives (small : estimate < 4294967296) (lt : length < 4294967296)
    (handed : burpAlloc port estimate = .ok buffer) (survives : Survives port desc estimate length m) :
    RoundTrips port desc (bufferString estimate buffer) (sliceString length m) := by
  obtain ⟨positive, short, block, grows⟩ := survives
  obtain ⟨bytes, put, fits, got⟩ := putSlice_wrote small handed positive short grows
  by_cases none : length = 0
  · subst none
    obtain ⟨restored, read⟩ := getSlice_empty desc fits
    refine ⟨_, restored, put, read.1, read.2, fun k bound => ?_⟩
    exact absurd bound (by simp [sliceString])
  · obtain ⟨y, op, ready, data, read⟩ := getSlice_eq desc positive lt none
      (burpAlloc_ok block) fits
    obtain ⟨y', elements, same⟩ := got y [] op ready (by rw [data])
    refine ⟨_, ⟨length, length, some y'.data⟩, put, ?_, rfl, same⟩
    change getSlice port desc length _ = _
    rw [read, elements]
    rfl

theorem survives_of_roundTrips (small : estimate < 4294967296) (lt : length < 4294967296)
    (handed : burpAlloc port estimate = .ok buffer)
    (trips : RoundTrips port desc (bufferString estimate buffer) (sliceString length m)) :
    Survives port desc estimate length m := by
  obtain ⟨block, restored, put, got, _, _⟩ := trips
  have positive : 0 < desc.dscLength := by
    by_contra none
    exact putSlice_divides (by omega) block put
  have short : desc.Short m (length / desc.dscLength) 0 := by
    by_contra long
    exact putSlice_long small handed positive long block put
  have grows : GrowsInTime (slong estimate) (desc.encodedLength port.order m length) := by
    by_contra late
    exact putSlice_late small handed positive short late block put
  refine ⟨positive, short, ?_, grows⟩
  by_contra large
  obtain ⟨bytes, wrote, fits, _⟩ := putSlice_wrote small handed positive short grows
  obtain rfl := Except.ok.inj (wrote.symm.trans put)
  exact getSlice_large positive lt (by omega) fits got

/-- A slice comes back as it was just when its strings are short enough, it fits in a block, and the
buffer never has to grow with more than 31743 bytes in it. -/
theorem canSlice_roundTrips_iff (port : Port) (desc : Dsc) {estimate length : Nat}
    (m : Nat → UInt8) {buffer : Area} (small : estimate < 4294967296) (lt : length < 4294967296)
    (handed : burpAlloc port estimate = .ok buffer) :
    RoundTrips port desc (bufferString estimate buffer) (sliceString length m) ↔
      Survives port desc estimate length m :=
  ⟨survives_of_roundTrips small lt handed, roundTrips_of_survives small lt handed⟩

theorem externals_text (order : ByteOrder) (m : Nat → UInt8) (text : desc.dscDtype = .text)
    (n p : Nat) : desc.externals order m n p = n * fours desc.dscLength := by
  induction n generalizing p with
  | zero => rw [Dsc.externals, Nat.zero_mul]
  | succ n ih =>
    have first : desc.external order m p = fours desc.dscLength := by
      unfold Dsc.external
      rw [text]
    rw [Dsc.externals, first, ih, Nat.succ_mul, Nat.add_comm]

/-- An element of the type `CHAR (1)`. -/
def charOne : Dsc := ⟨.text, 1, by decide, trivial⟩

theorem encodedLength_charOne (order : ByteOrder) (m : Nat → UInt8) (length : Nat) :
    charOne.encodedLength order m length = 4 + length * 4 := by
  rw [Dsc.encodedLength, externals_text order m rfl, show charOne.dscLength = 1 from rfl,
    Nat.div_one]
  rfl

theorem vax_link : (4 : Nat) = 4 ∨ (4 : Nat) = 8 := .inl rfl

def vaxPort : Port := ⟨⟨.vax, false, false, fun _ => 0⟩, 4, vax_link⟩

/-- Three characters: the estimate is 12 bytes, and the buffer grows once. -/
theorem canSlice_roundTrips_chars :
    RoundTrips vaxPort charOne (bufferString 12 ⟨12, fun _ => 0⟩) (sliceString 3 fun _ => 65) := by
  refine (canSlice_roundTrips_iff vaxPort charOne (fun _ => 65) (by decide) (by decide)
    (burpAlloc_ok (by decide))).mpr ⟨by decide, fun cstring => ?_, by decide, fun j due => ?_⟩
  · exact absurd cstring (by decide)
  · rw [encodedLength_charOne, slong_of_small (show 12 < 2147483648 by decide)] at *
    omega

/-- An array of 8192 characters is estimated at 32768 bytes and takes 32772: the new length is
negative. -/
theorem canSlice_chars_fails : ∃ buffer,
    burpAlloc vaxPort (xdrBufferLength 1 [(1, 8192)]) = .ok buffer ∧
    ¬RoundTrips vaxPort charOne (bufferString (xdrBufferLength 1 [(1, 8192)]) buffer)
      (sliceString 8192 fun _ => 65) := by
  have estimate : xdrBufferLength 1 [(1, 8192)] = 32768 := by decide
  have handed : burpAlloc vaxPort 32768 = .ok ⟨32768, fun _ => 0⟩ := burpAlloc_ok (by decide)
  rw [estimate]
  refine ⟨_, handed, fun trips => ?_⟩
  obtain ⟨block, _, put, _⟩ := trips
  refine putSlice_late (by decide) handed (by decide) (fun cstring => ?_) (fun grows => ?_) block put
  · exact absurd cstring (by decide)
  · have first := grows 0
    rw [encodedLength_charOne, slong_of_small (show 32768 < 2147483648 by decide)] at first
    omega

end

end BurpSlice

end InterBase
