import InterBase.BurpSliceGrowth

namespace InterBase

namespace BurpSlice

open Memory BigEndian

namespace Xdr

/-- The state after `n` bytes were read. -/
def advanced (n : Nat) (xdrs : Xdr) : Xdr :=
  { xdrs with xPrivate := xdrs.xPrivate + n, xHandy := xdrs.xHandy - n }

def received (p : Nat) (image : List UInt8) (xdrs : Xdr) : Xdr :=
  { xdrs with data := { xdrs.data with bytes := write xdrs.data.bytes p image } }

/-- The bytes that come next. -/
structure Ready (xdrs : Xdr) (bytes : List UInt8) : Prop where
  handy : (bytes.length : Int) ≤ xdrs.xHandy
  held : Holds xdrs.xBase.bytes xdrs.xPrivate bytes
  inside : xdrs.xPrivate + bytes.length ≤ xdrs.xBase.size

end Xdr

/-- The code writes `len` bytes for what lies at `p` in `source`, and from them it stores `image`. What
the padding holds may depend on where it is written. -/
def Carries (port : Port) (code : Xdr → Except Stop Xdr) (source : Area) (p len : Nat)
    (image : List UInt8) : Prop :=
  ∀ i, ∃ bytes : List UInt8, bytes.length = len ∧
    (∀ x : Xdr, x.xOp = .encode → x.data = source → x.xPrivate = i →
      code x = putEach port bytes x) ∧
    ∀ (y : Xdr) (rest : List UInt8), y.xOp = .decode → y.Ready (bytes ++ rest) →
      p + image.length ≤ y.data.size → code y = .ok ((y.advanced len).received p image)

/-- The bytes that a string takes in fours. -/
def fours (n : Nat) : Nat := (n + 3) / 4 * 4

namespace Dsc

/-- The bytes that an element takes in the stream. -/
def external (order : ByteOrder) (desc : Dsc) (m : Nat → UInt8) (p : Nat) : Nat :=
  match desc.dscDtype with
  | .text => fours desc.dscLength
  | .varying => 4 + fours (min (desc.dscLength - 2) (number order (slice m p 2)))
  | .cstring => 4 + fours (strlen m p (desc.dscLength - 1))
  | .short | .sqlDate | .sqlTime | .long | .real => 4
  | .double | .timestamp | .quad | .blob | .int64 => 8

/-- What an element says. The length of a string is what `CVT_get_string_ptr` takes it for. -/
def value (order : ByteOrder) (desc : Dsc) (m : Nat → UInt8) (p : Nat) : List UInt8 :=
  match desc.dscDtype with
  | .varying => slice m (p + 2) (min (desc.dscLength - 2) (number order (slice m p 2)))
  | .cstring => slice m p (strlen m p (desc.dscLength - 1))
  | _ => slice m p desc.dscLength

end Dsc

section

variable {port : Port} {source : Area} {p n : Nat} {x y : Xdr} {bytes rest xs ys : List UInt8}

theorem ready_advanced (ready : y.Ready (bytes ++ rest)) : (y.advanced bytes.length).Ready rest := by
  have handy := ready.handy
  have inside := ready.inside
  rw [List.length_append] at handy inside
  refine ⟨?_, (holds_append.mp ready.held).2, ?_⟩
  · change (rest.length : Int) ≤ y.xHandy - bytes.length
    omega
  · change y.xPrivate + bytes.length + rest.length ≤ y.xBase.size
    omega

theorem getbytes_ready (ready : y.Ready (bytes ++ rest)) {n : Int} (length : n = bytes.length) :
    getbytes port n y = .ok (bytes, y.advanced bytes.length) := by
  subst length
  have handy := ready.handy
  have inside := ready.inside
  rw [List.length_append] at handy inside
  have held : slice y.xBase.bytes y.xPrivate bytes.length = bytes := (holds_append.mp ready.held).1
  have read : y.xBase.fetch y.xPrivate bytes.length = .ok bytes := by
    rw [fetch_ok (by omega), held]
  by_cases none : bytes = []
  · subst none
    simp [getbytes, getEach, Xdr.advanced]
  · have some : 0 < bytes.length := List.length_pos_iff.mpr none
    unfold getbytes
    rw [if_pos ⟨by omega, by omega⟩, if_neg (by omega), Int.toNat_natCast, read, ok_bind]
    rfl

theorem getlong_ready (small : n < 4294967296) (ready : y.Ready (bigEndian 4 n ++ rest)) :
    getlong port y = .ok (n, y.advanced 4) := by
  have four : (bigEndian 4 n).length = 4 := length_bigEndian 4 n
  have read : getbytes port 4 y = .ok (bigEndian 4 n, y.advanced 4) := by
    have whole : getbytes port (4 : Int) y = .ok (bigEndian 4 n, y.advanced (bigEndian 4 n).length) :=
      getbytes_ready ready (by rw [four]; rfl)
    rwa [four] at whole
  simp only [getlong, read, ok_bind, value_bigEndian,
    Nat.mod_eq_of_lt (show n < 256 ^ 4 from small)]
  rfl

theorem ready_long (ready : y.Ready (bigEndian 4 n ++ rest)) : (y.advanced 4).Ready rest := by
  have later := ready_advanced ready
  rwa [length_bigEndian] at later

theorem xdr_store_ok (inside : p + bytes.length ≤ y.data.size) :
    y.store p bytes = .ok (y.received p bytes) := by
  simp only [Xdr.store, store_ok inside, ok_bind]
  rfl

theorem Carries.bind {code code' : Xdr → Except Stop Xdr} {len len' q : Nat}
    (first : Carries port code source p len xs) (second : Carries port code' source q len' ys)
    (next : q = p + xs.length) :
    Carries port (fun x => code x >>= code') source p (len + len') (xs ++ ys) := by
  intro i
  obtain ⟨bytes, length, sent, got⟩ := first i
  obtain ⟨bytes', length', sent', got'⟩ := second (i + len)
  refine ⟨bytes ++ bytes', by rw [List.length_append, length, length'], ?_, ?_⟩
  · intro x op data place
    simp only [sent x op data place, putEach_append]
    cases put : putEach port bytes x with
    | error e => rfl
    | ok x' =>
      obtain ⟨op', data', count⟩ := putEach_keeps put
      exact sent' x' (op'.trans op) (data'.trans data) (by omega)
  · intro y rest op ready inside
    rw [List.append_assoc] at ready
    rw [List.length_append] at inside
    have later := ready_advanced ready
    rw [length] at later
    have more := got' ((y.advanced len).received p xs) rest op
      ⟨later.handy, later.held, later.inside⟩ (show q + ys.length ≤ y.data.size by omega)
    simp only [got y (bytes' ++ rest) op ready (by omega), ok_bind, more]
    simp only [Xdr.received, Xdr.advanced, write_append, Nat.cast_add, Nat.add_assoc, sub_sub, next]

theorem data_fetch {count : Nat} (data : x.data = source) (inside : p + count ≤ source.size) :
    x.data.fetch p count = .ok (slice source.bytes p count) := by
  rw [data]
  exact fetch_ok inside

theorem xdrLong_carries (inside : p + 4 ≤ source.size) :
    Carries port (xdrLong port p) source p 4 (slice source.bytes p 4) := by
  intro i
  have small := number_slice_lt port.order source.bytes p 4
  have back := numberBytes_number port.order (slice source.bytes p 4)
  rw [length_slice] at back
  refine ⟨bigEndian 4 (number port.order (slice source.bytes p 4)), length_bigEndian 4 _, ?_, ?_⟩
  · intro x op data _
    simp only [xdrLong, op, data_fetch data inside, ok_bind, putlong_eq]
  · intro y rest op ready room
    simp only [xdrLong, op, getlong_ready small ready, ok_bind, back]
    exact xdr_store_ok room

theorem xdrShort_carries (inside : p + 2 ≤ source.size) :
    Carries port (xdrShort port p) source p 4 (slice source.bytes p 2) := by
  intro i
  have small := number_slice_lt port.order source.bytes p 2
  have back := numberBytes_number port.order (slice source.bytes p 2)
  rw [length_slice] at back
  refine ⟨bigEndian 4 (signExtend (number port.order (slice source.bytes p 2))),
    length_bigEndian 4 _, ?_, ?_⟩
  · intro x op data _
    simp only [xdrShort, op, data_fetch data inside, ok_bind, putlong_eq]
  · intro y rest op ready room
    simp only [xdrShort, op, getlong_ready (signExtend_lt small) ready, ok_bind,
      numberBytes_signExtend, back]
    exact xdr_store_ok room

theorem fours_eq (n : Nat) : n + ((4 - (n : Int)) % 4).toNat = fours n := by
  unfold fours
  omega

theorem xdrOpaque_carries {len : Nat} (inside : p + len ≤ source.size) :
    Carries port (xdrOpaque port p len) source p (fours len) (slice source.bytes p len) := by
  intro i
  let l := ((4 - (len : Int)) % 4).toNat
  let trash := (List.range l).map fun k => port.trash (i + len + k)
  have padded : trash.length = l := by simp [trash]
  have length : (slice source.bytes p len).length = len := length_slice _ p len
  refine ⟨slice source.bytes p len ++ trash, ?_, ?_, ?_⟩
  · rw [List.length_append, length, padded]
    exact fours_eq len
  · intro x op data place
    have fetched : x.data.fetch p (len : Int).toNat = .ok (slice source.bytes p len) :=
      data_fetch data inside
    have text : putbytes port (slice source.bytes p len) len x =
        putEach port (slice source.bytes p len) x := putbytes_eq (by rw [length])
    simp only [xdrOpaque, op, fetched, ok_bind, text, putEach_append]
    cases put : putEach port (slice source.bytes p len) x with
    | error e => rfl
    | ok x' =>
      obtain ⟨_, _, count⟩ := putEach_keeps put
      rw [length, place] at count
      simp only [ok_bind, count]
      by_cases none : l = 0
      · have nothing : trash = [] := List.eq_nil_of_length_eq_zero (padded.trans none)
        rw [if_neg (not_not.mpr none), nothing]
        rfl
      · rw [if_pos none]
        exact putbytes_eq (by rw [padded])
  · intro y rest op ready room
    rw [List.append_assoc] at ready
    have later := ready_advanced ready
    rw [length] at room later
    have text : getbytes port len y = .ok (slice source.bytes p len, y.advanced len) := by
      rw [getbytes_ready ready (by rw [length]), length]
    have stored : (y.advanced len).store p (slice source.bytes p len) =
        .ok ((y.advanced len).received p (slice source.bytes p len)) :=
      xdr_store_ok (by rw [length]; exact room)
    simp only [xdrOpaque, op, text, ok_bind, stored]
    have whole := fours_eq len
    by_cases none : l = 0
    · rw [if_neg (not_not.mpr none), ← whole, show ((4 - (len : Int)) % 4).toNat = 0 from none]
      rfl
    · have tail : Xdr.Ready ((y.advanced len).received p (slice source.bytes p len))
          (trash ++ rest) := ⟨later.handy, later.held, later.inside⟩
      rw [if_pos none, getbytes_ready tail (by rw [padded]), ok_bind, padded]
      simp only [Xdr.advanced, Xdr.received, ← whole, Nat.cast_add, Nat.add_assoc, sub_sub]
      rfl

theorem xdrTempLongs_carries {swap : Bool} (inside : p + 8 ≤ source.size) :
    Carries port (xdrTempLongs port swap p) source p 8 (slice source.bytes p 8) := by
  intro i
  let temp := slice source.bytes p 8
  let low := number port.order (temp.take 4)
  let high := number port.order (temp.drop 4)
  have length : temp.length = 8 := length_slice _ p 8
  have lowLength : (temp.take 4).length = 4 := by simp [length]
  have highLength : (temp.drop 4).length = 4 := by simp [length]
  have lowSmall : low < 4294967296 := (number_lt port.order _).trans_eq (by rw [lowLength]; rfl)
  have highSmall : high < 4294967296 := (number_lt port.order _).trans_eq (by rw [highLength]; rfl)
  have lowBack : numberBytes port.order 4 low = temp.take 4 := by
    have back := numberBytes_number port.order (temp.take 4)
    rwa [lowLength] at back
  have highBack : numberBytes port.order 4 high = temp.drop 4 := by
    have back := numberBytes_number port.order (temp.drop 4)
    rwa [highLength] at back
  have whole : temp.take 4 ++ temp.drop 4 = temp := List.take_append_drop 4 temp
  let first := if swap then high else low
  let second := if swap then low else high
  have firstSmall : first < 4294967296 := by
    cases swap with
    | false => exact lowSmall
    | true => exact highSmall
  have secondSmall : second < 4294967296 := by
    cases swap with
    | false => exact highSmall
    | true => exact lowSmall
  refine ⟨bigEndian 4 first ++ bigEndian 4 second, ?_, ?_, ?_⟩
  · rw [List.length_append, length_bigEndian, length_bigEndian]
  · intro x op data _
    have fetched : x.data.fetch p 8 = .ok temp := data_fetch data inside
    simp only [xdrTempLongs, op, fetched, ok_bind, putlong_eq, putEach_append]
    cases swap <;> rfl
  · intro y rest op ready room
    rw [List.append_assoc] at ready
    have stored : ((y.advanced 4).advanced 4).store p temp =
        .ok (((y.advanced 4).advanced 4).received p temp) :=
      xdr_store_ok (by rw [length] at room ⊢; exact room)
    have both : (y.advanced 4).advanced 4 = y.advanced 8 := by
      simp only [Xdr.advanced, Nat.add_assoc, sub_sub]
      norm_num
    have image : (if swap = true then
          numberBytes port.order 4 second ++ numberBytes port.order 4 first
        else numberBytes port.order 4 first ++ numberBytes port.order 4 second) = temp := by
      cases swap <;> simp only [first, second] <;> simp [lowBack, highBack]
    simp only [xdrTempLongs, op, getlong_ready firstSmall ready,
      getlong_ready secondSmall (ready_long ready), ok_bind]
    rw [both] at stored ⊢
    cases swap with
    | false =>
      rw [if_neg (by decide)] at image ⊢
      rw [image]
      exact stored
    | true =>
      rw [if_pos rfl] at image ⊢
      rw [image]
      exact stored

theorem xdrQuad_carries (inside : p + 8 ≤ source.size) :
    Carries port (xdrQuad port p) source p 8 (slice source.bytes p 8) := by
  have first : Carries port (xdrLong port p) source p 4 (slice source.bytes p 4) :=
    xdrLong_carries (by omega)
  have second : Carries port (xdrLong port (p + 4)) source (p + 4) 4 (slice source.bytes (p + 4) 4) :=
    xdrLong_carries (by omega)
  have both := first.bind second (by rw [length_slice])
  rwa [← slice_append] at both

theorem varying_text {order : ByteOrder} {m m' : Nat → UInt8} {k : Nat}
    (held : Holds m' p (slice m p (2 + k))) :
    number order (slice m' p 2) = number order (slice m p 2) ∧
      slice m' (p + 2) k = slice m (p + 2) k := by
  have same : slice m' p (2 + k) = slice m p (2 + k) := by
    have whole := held
    unfold Holds at whole
    rwa [length_slice] at whole
  rw [slice_append, slice_append] at same
  obtain ⟨counter, text⟩ := List.append_inj same (by rw [length_slice, length_slice])
  exact ⟨by rw [counter], text⟩

theorem xdrVarying_carries {dscLength : Nat} (counter : 2 ≤ dscLength)
    (inside : p + dscLength ≤ source.size) :
    Carries port (xdrVarying port p dscLength) source p
      (4 + fours (min (dscLength - 2) (number port.order (slice source.bytes p 2))))
      (slice source.bytes p
        (2 + min (dscLength - 2) (number port.order (slice source.bytes p 2)))) := by
  let varyLength := number port.order (slice source.bytes p 2)
  let n := min (dscLength - 2) varyLength
  have least : n ≤ dscLength - 2 := Nat.min_le_left _ _
  have bytecount : min ((dscLength : Int) - 2) varyLength = n := by omega
  have first : Carries port (xdrShort port p) source p 4 (slice source.bytes p 2) :=
    xdrShort_carries (by omega)
  have second : Carries port (xdrOpaque port (p + 2) n) source (p + 2) (fours n)
      (slice source.bytes (p + 2) n) := xdrOpaque_carries (by omega)
  intro i
  obtain ⟨bytes, length, sent, got⟩ := first i
  obtain ⟨bytes', length', sent', got'⟩ := second (i + 4)
  refine ⟨bytes ++ bytes', by rw [List.length_append, length, length'], ?_, ?_⟩
  · intro x op data place
    simp only [xdrVarying, sent x op data place, putEach_append]
    cases put : putEach port bytes x with
    | error e => rfl
    | ok x' =>
      obtain ⟨op', data', count⟩ := putEach_keeps put
      have fetched : x'.data.fetch p 2 = .ok (slice source.bytes p 2) :=
        data_fetch (data'.trans data) (by omega)
      have text := sent' x' (op'.trans op) (data'.trans data) (by omega)
      simp only [ok_bind, fetched]
      rw [show min ((dscLength : Int) - 2) (number port.order (slice source.bytes p 2)) = n
        from bytecount]
      exact text
  · intro y rest op ready room
    rw [List.append_assoc] at ready
    rw [length_slice] at room
    have later := ready_advanced ready
    rw [length] at later
    let y' := (y.advanced 4).received p (slice source.bytes p 2)
    have stored := got y (bytes' ++ rest) op ready (by rw [length_slice]; omega)
    have fetched : y'.data.fetch p 2 = .ok (slice y'.data.bytes p 2) :=
      fetch_ok (show p + 2 ≤ y.data.size by omega)
    have read : slice y'.data.bytes p 2 = slice source.bytes p 2 := by
      have back := slice_write_self y.data.bytes p (slice source.bytes p 2)
      rwa [length_slice] at back
    have text := got' y' rest op ⟨later.handy, later.held, later.inside⟩
      (show p + 2 + (slice source.bytes (p + 2) n).length ≤ y.data.size by rw [length_slice]; omega)
    simp only [xdrVarying, stored, ok_bind]
    rw [show ((y.advanced 4).received p (slice source.bytes p 2)).data.fetch p 2 =
      .ok (slice source.bytes p 2) from fetched.trans (by rw [read]), ok_bind,
      show min ((dscLength : Int) - 2) (number port.order (slice source.bytes p 2)) = n
        from bytecount]
    refine text.trans ?_
    have image := slice_append source.bytes p 2 n
    simp only [y', Xdr.received, Xdr.advanced, n, varyLength, image, write_append, length_slice,
      Nat.cast_add, Nat.add_assoc, sub_sub]

theorem strlen_text (m : Nat → UInt8) (p k : Nat) : 0 ∉ slice m p (strlen m p k) := by
  induction k generalizing p with
  | zero => simp [strlen, slice]
  | succ k ih =>
    unfold strlen
    split
    next => simp [slice]
    next more =>
      rw [slice, List.mem_cons, not_or]
      exact ⟨Ne.symm more, ih (p + 1)⟩

/-- A string of that length with its terminator is read back with the same length. -/
theorem strlen_held {m m' : Nat → UInt8} {k : Nat}
    (held : Holds m' p (slice m p (strlen m p k) ++ [0])) :
    strlen m' p k = strlen m p k ∧ slice m' p (strlen m p k) = slice m p (strlen m p k) := by
  obtain ⟨text, terminator⟩ := holds_append.mp held
  unfold Holds at text
  rw [length_slice] at text terminator
  have zero : m' (p + strlen m p k) = 0 := (holds_cons.mp terminator).1
  have clean : 0 ∉ slice m' p (strlen m p k) := by
    rw [text]
    exact strlen_text m p k
  refine ⟨?_, text⟩
  rcases Nat.lt_or_eq_of_le (strlen_le m p k) with less | whole
  · exact (strlen_eq_iff less).mpr ⟨clean, zero⟩
  · rw [whole] at clean ⊢
    exact strlen_eq_limit clean

theorem sshort_of_lt {n : Nat} (small : n < 32768) : sshort n = n := if_pos small

theorem xdrTerminated_carries {dscLength : Nat} (positive : 0 < dscLength)
    (inside : p + dscLength ≤ source.size)
    (short : strlen source.bytes p (dscLength - 1) < 32768) :
    Carries port (xdrTerminated port p dscLength) source p
      (4 + fours (strlen source.bytes p (dscLength - 1)))
      (slice source.bytes p (strlen source.bytes p (dscLength - 1)) ++ [0]) := by
  let n := strlen source.bytes p (dscLength - 1)
  have least : n ≤ dscLength - 1 := strlen_le _ _ _
  have extended : signExtend n = n := if_pos short
  have kept : ushort n = n := ushort_of_lt (by omega)
  have text : Carries port (xdrOpaque port p n) source p (fours n) (slice source.bytes p n) :=
    xdrOpaque_carries (by omega)
  intro i
  obtain ⟨bytes, length, sent, got⟩ := text (i + 4)
  refine ⟨bigEndian 4 n ++ bytes, by rw [List.length_append, length_bigEndian, length], ?_, ?_⟩
  · intro x op data place
    have count : ushort (strlen x.data.bytes p (dscLength - 1)) = n := by
      rw [data]
      exact kept
    simp only [xdrTerminated, op, count, extended, putlong_eq, putEach_append]
    cases put : putEach port (bigEndian 4 n) x with
    | error e => rfl
    | ok x' =>
      obtain ⟨op', data', count⟩ := putEach_keeps put
      rw [length_bigEndian] at count
      rw [ok_bind, sshort_of_lt short]
      exact sent x' (op'.trans op) (data'.trans data) (by omega)
  · intro y rest op ready room
    rw [List.append_assoc] at ready
    rw [List.length_append, length_slice] at room
    have later := ready_long ready
    have opened := got (y.advanced 4) rest op later
      (show p + (slice source.bytes p n).length ≤ y.data.size by rw [length_slice]; omega)
    have stored : (((y.advanced 4).advanced (fours n)).received p (slice source.bytes p n)).store
        (p + n) [0] = .ok _ := xdr_store_ok (show p + n + 1 ≤ y.data.size from room)
    simp only [xdrTerminated, op, getlong_ready (show n < 4294967296 by omega) ready, ok_bind, kept]
    rw [sshort_of_lt short, opened, ok_bind, Int.toNat_natCast, stored]
    simp only [n, Xdr.received, Xdr.advanced, write_append, length_slice, Nat.cast_add,
      Nat.add_assoc, sub_sub]

/-- An element goes over as an image of its own bytes, which says what the element says. -/
structure Dsc.Goes (port : Port) (desc : Dsc) (source : Area) (p : Nat) (image : List UInt8) :
    Prop where
  length : image.length ≤ desc.dscLength
  carries : Carries port (xdrDatum port desc p) source p
    (desc.external port.order source.bytes p) image
  value : ∀ m, Holds m p image → desc.value port.order m p = desc.value port.order source.bytes p

theorem Dsc.goes_whole {desc : Dsc} {len : Nat} (length : desc.dscLength = len)
    (carries : Carries port (xdrDatum port desc p) source p
      (desc.external port.order source.bytes p) (slice source.bytes p len))
    (value : ∀ m, desc.value port.order m p = slice m p desc.dscLength) :
    desc.Goes port source p (slice source.bytes p len) where
  length := by rw [length_slice, length]
  carries := carries
  value := fun m held => by
    rw [value m, value source.bytes, length]
    unfold Holds at held
    rwa [length_slice] at held

theorem xdrDatum_goes (port : Port) {desc : Dsc} (positive : 0 < desc.dscLength)
    (inside : p + desc.dscLength ≤ source.size)
    (short : desc.dscDtype = .cstring → strlen source.bytes p (desc.dscLength - 1) < 32768) :
    ∃ image, desc.Goes port source p image := by
  obtain ⟨dtype, dscLength, lt, takes⟩ := desc
  simp only at positive inside short
  cases dtype with
  | text => exact ⟨_, Dsc.goes_whole rfl (xdrOpaque_carries inside) fun m => rfl⟩
  | varying =>
    refine ⟨_, ?_, xdrVarying_carries takes inside, fun m held => ?_⟩
    · have room : 2 ≤ dscLength := takes
      rw [length_slice]
      change 2 + min (dscLength - 2) _ ≤ dscLength
      omega
    · obtain ⟨counter, text⟩ := varying_text held
      change slice m (p + 2) (min (dscLength - 2) (number port.order (slice m p 2))) = _
      rw [counter, text]
      rfl
  | cstring =>
    refine ⟨_, ?_, xdrTerminated_carries positive inside (short rfl), fun m held => ?_⟩
    · have least := strlen_le source.bytes p (dscLength - 1)
      rw [List.length_append, length_slice]
      change strlen source.bytes p (dscLength - 1) + 1 ≤ dscLength
      omega
    · obtain ⟨count, text⟩ := strlen_held held
      change slice m p (strlen m p (dscLength - 1)) = _
      rw [count, text]
      rfl
  | short =>
    obtain rfl : dscLength = 2 := takes
    exact ⟨_, Dsc.goes_whole rfl (xdrShort_carries inside) fun m => rfl⟩
  | sqlDate =>
    obtain rfl : dscLength = 4 := takes
    exact ⟨_, Dsc.goes_whole rfl (xdrLong_carries inside) fun m => rfl⟩
  | sqlTime =>
    obtain rfl : dscLength = 4 := takes
    exact ⟨_, Dsc.goes_whole rfl (xdrLong_carries inside) fun m => rfl⟩
  | long =>
    obtain rfl : dscLength = 4 := takes
    exact ⟨_, Dsc.goes_whole rfl (xdrLong_carries inside) fun m => rfl⟩
  | real =>
    obtain rfl : dscLength = 4 := takes
    exact ⟨_, Dsc.goes_whole rfl (xdrLong_carries inside) fun m => rfl⟩
  | double =>
    obtain rfl : dscLength = 8 := takes
    exact ⟨_, Dsc.goes_whole rfl (xdrTempLongs_carries inside) fun m => rfl⟩
  | timestamp =>
    obtain rfl : dscLength = 8 := takes
    exact ⟨_, Dsc.goes_whole rfl (xdrQuad_carries inside) fun m => rfl⟩
  | quad =>
    obtain rfl : dscLength = 8 := takes
    exact ⟨_, Dsc.goes_whole rfl (xdrQuad_carries inside) fun m => rfl⟩
  | blob =>
    obtain rfl : dscLength = 8 := takes
    exact ⟨_, Dsc.goes_whole rfl (xdrQuad_carries inside) fun m => rfl⟩
  | int64 =>
    obtain rfl : dscLength = 8 := takes
    exact ⟨_, Dsc.goes_whole rfl (xdrTempLongs_carries inside) fun m => rfl⟩

end

end BurpSlice

end InterBase
