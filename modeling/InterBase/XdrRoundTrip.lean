import InterBase.Xdr

namespace InterBase

open Memory BigEndian

/-- The high half of a `double` travels first. -/
def XdrPort.highFirst (port : XdrPort) : Bool := (port.order == .vax) == port.swapDouble

namespace XdrDsc

/-- How many bytes of the message a field takes. -/
def used (order : ByteOrder) (desc : XdrDsc) (m : Nat → UInt8) : Nat :=
  match desc.dscDtype with
  | .text => desc.dscLength
  | .varying => 2 + number order (slice m desc.dscAddress 2)
  | .cstring => strlen m desc.dscAddress desc.dscLength + 1
  | .short => 2
  | .sqlTime | .sqlDate | .long | .real => 4
  | .double | .int64 | .timestamp | .array | .quad | .blob => 8

/-- What a field says: the bytes of a string or the numbers it is made of. -/
def value (order : ByteOrder) (desc : XdrDsc) (m : Nat → UInt8) : List Nat :=
  let p := desc.dscAddress
  match desc.dscDtype with
  | .text => (slice m p desc.dscLength).map UInt8.toNat
  | .varying => (slice m (p + 2) (number order (slice m p 2))).map UInt8.toNat
  | .cstring => (slice m p (strlen m p desc.dscLength)).map UInt8.toNat
  | .short => [number order (slice m p 2)]
  | .sqlTime | .sqlDate | .long | .real => [number order (slice m p 4)]
  | .double | .int64 => [number order (slice m p 8)]
  | .timestamp | .array | .quad | .blob =>
    [number order (slice m p 4), number order (slice m (p + 4) 4)]

/-- A varying length and the terminator of a string lie within their field. -/
def Fits (order : ByteOrder) (desc : XdrDsc) (m : Nat → UInt8) : Prop :=
  match desc.dscDtype with
  | .varying => number order (slice m desc.dscAddress 2) ≤ ushort (desc.dscLength + 65534)
  | .cstring => strlen m desc.dscAddress desc.dscLength < desc.dscLength
  | _ => True

/-- The field lies in a message of `size` bytes and the length of its string fits an `SSHORT`. -/
def Carried (order : ByteOrder) (size : Nat) (desc : XdrDsc) (m : Nat → UInt8) : Prop :=
  inMessage size desc.dscAddress (desc.used order m) = true ∧
    (desc.dscDtype = .cstring → strlen m desc.dscAddress desc.dscLength < 32768)

end XdrDsc

/-- What `here` sends is read by `there` without a byte left over or missing, and every field says the
same on both sides. -/
def RoundTrips (here there : XdrPort) (format : Fmt) (m : Nat → UInt8) : Prop :=
  ∀ before, ∃ bytes,
    xdrMessage here format ⟨.encode, before, m⟩ = .ok ⟨.encode, before ++ bytes, m⟩ ∧
    ∀ rest m', ∃ received,
      xdrMessage there format ⟨.decode, bytes ++ rest, m'⟩ = .ok ⟨.decode, rest, received⟩ ∧
      ∀ desc ∈ format.fmtDesc, desc.value there.order received = desc.value here.order m

/-- The bytes of a counted string. -/
def CString.text (cstring : CString) : List UInt8 :=
  (cstring.cstrAddress.getD []).take cstring.cstrLength

/-- The block is at hand for `n` bytes: one that the caller lends has them, one that was allocated
has what `cstr_allocated` says. -/
def CString.Ready (cstring : CString) (n : Nat) : Prop :=
  match cstring.cstrAddress with
  | none => cstring.cstrAllocated = 0
  | some block =>
    if cstring.cstrAllocated = 0 then n ≤ block.length else cstring.cstrAllocated ≤ block.length

def CstringRoundTrips (here there : XdrPort) : Prop :=
  ∀ cstring : CString, cstring.cstrLength < 65536 → cstring.text.length = cstring.cstrLength →
    ∀ receiver : CString, receiver.Ready cstring.cstrLength → ∀ before m, ∃ bytes,
      xdrCstring here cstring ⟨.encode, before, m⟩ = .ok (cstring, ⟨.encode, before ++ bytes, m⟩) ∧
      ∀ rest m', ∃ received,
        xdrCstring there receiver ⟨.decode, bytes ++ rest, m'⟩ = .ok (received, ⟨.decode, rest, m'⟩) ∧
        received.cstrLength = cstring.cstrLength ∧ received.text = cstring.text

theorem number_lt (order : ByteOrder) (bytes : List UInt8) :
    number order bytes < 256 ^ bytes.length := by
  cases order with
  | vax => exact (value_lt bytes.reverse).trans_eq (by rw [List.length_reverse])
  | nonVax => exact value_lt bytes

theorem number_slice_lt (order : ByteOrder) (m : Nat → UInt8) (p k : Nat) :
    number order (slice m p k) < 256 ^ k :=
  (number_lt order _).trans_eq (by rw [length_slice])

@[simp] theorem length_numberBytes (order : ByteOrder) (k n : Nat) :
    (numberBytes order k n).length = k := by
  cases order <;> simp [numberBytes]

theorem number_numberBytes (order : ByteOrder) (k n : Nat) :
    number order (numberBytes order k n) = n % 256 ^ k := by
  cases order with
  | vax => rw [number, numberBytes, List.reverse_reverse, value_bigEndian]
  | nonVax => exact value_bigEndian k n

theorem numberBytes_number (order : ByteOrder) (bytes : List UInt8) :
    numberBytes order bytes.length (number order bytes) = bytes := by
  cases order with
  | vax =>
    have reversed := bigEndian_value bytes.reverse
    rw [List.length_reverse] at reversed
    rw [number, numberBytes, reversed, List.reverse_reverse]
  | nonVax => exact bigEndian_value bytes

/-- Memory holds the bytes of a number just where the number is read from it. -/
theorem holds_numberBytes {order : ByteOrder} {m : Nat → UInt8} {p k n : Nat} (small : n < 256 ^ k) :
    Holds m p (numberBytes order k n) ↔ number order (slice m p k) = n := by
  unfold Holds
  rw [length_numberBytes]
  constructor
  · intro held
    rw [held, number_numberBytes, Nat.mod_eq_of_lt small]
  · intro read
    have same := numberBytes_number order (slice m p k)
    rw [length_slice, read] at same
    exact same.symm

theorem numberBytes_eight (order : ByteOrder) (v : Nat) : numberBytes order 8 v =
    if order = .vax then numberBytes order 4 v ++ numberBytes order 4 (v / 4294967296)
    else numberBytes order 4 (v / 4294967296) ++ numberBytes order 4 v := by
  have halves : bigEndian 8 v = bigEndian 4 (v / 4294967296) ++ bigEndian 4 v := bigEndian_append 4 4 v
  cases order with
  | vax =>
    rw [if_pos rfl]
    simp only [numberBytes]
    rw [halves, List.reverse_append]
  | nonVax => exact halves

theorem number_eight (order : ByteOrder) {bytes : List UInt8} (length : bytes.length = 8) :
    number order bytes =
      if order = .vax then
        number order (bytes.drop 4) * 4294967296 + number order (bytes.take 4)
      else number order (bytes.take 4) * 4294967296 + number order (bytes.drop 4) := by
  have halves := List.take_append_drop 4 bytes
  cases order with
  | vax =>
    have first : (bytes.take 4).reverse.length = 4 := by simp [length]
    rw [if_pos rfl]
    simp only [number]
    conv_lhs => rw [← halves, List.reverse_append, value_append, first]
    rfl
  | nonVax =>
    have last : (bytes.drop 4).length = 4 := by simp [length]
    rw [if_neg (by decide)]
    simp only [number]
    conv_lhs => rw [← halves, value_append, last]
    rfl

section

variable {here there : XdrPort} {size p : Nat} {m : Nat → UInt8}

/-- The field at `p` goes over as the bytes `image`. -/
def Travels (send receive : Xdr → Except XdrFault Xdr) (m : Nat → UInt8) (p : Nat)
    (image : List UInt8) : Prop :=
  ∀ before, ∃ bytes, send ⟨.encode, before, m⟩ = .ok ⟨.encode, before ++ bytes, m⟩ ∧
    ∀ rest m', receive ⟨.decode, bytes ++ rest, m'⟩ = .ok ⟨.decode, rest, write m' p image⟩

theorem xdr_bind {β γ : Type} (a : β) (f : β → Except XdrFault γ) : (Except.ok a >>= f) = f a := rfl

theorem xdr_bind_error {β γ : Type} (e : XdrFault) (f : β → Except XdrFault γ) :
    (Except.error e >>= f) = .error e := rfl

theorem getbytes_append {op : XdrOp} {bytes rest : List UInt8} {n : Nat} (length : bytes.length = n) :
    Xdr.getbytes n ⟨op, bytes ++ rest, m⟩ = .ok (bytes, ⟨op, rest, m⟩) := by
  subst length
  unfold Xdr.getbytes
  rw [if_pos (by simp), List.take_left, List.drop_left]

theorem getlong_bigEndian {op : XdrOp} {n : Nat} (rest : List UInt8) (small : n < 4294967296) :
    Xdr.getlong ⟨op, bigEndian 4 n ++ rest, m⟩ = .ok (n, ⟨op, rest, m⟩) := by
  unfold Xdr.getlong
  rw [getbytes_append (length_bigEndian 4 n), xdr_bind]
  simp only [value_bigEndian, Nat.mod_eq_of_lt (show n < 256 ^ 4 from small)]
  rfl

theorem signExtend_lt {n : Nat} (small : n < 65536) : signExtend n < 4294967296 := by
  unfold signExtend
  split <;> omega

theorem ushort_signExtend {n : Nat} (small : n < 65536) : ushort (signExtend n) = n := by
  unfold ushort signExtend
  split <;> omega

theorem numberBytes_signExtend (order : ByteOrder) (n : Nat) :
    numberBytes order 2 (signExtend n) = numberBytes order 2 n := by
  have low : bigEndian 2 (signExtend n) = bigEndian 2 n := by
    rw [← bigEndian_mod, ← bigEndian_mod 2 n]
    congr 1
    unfold signExtend
    split <;> omega
  cases order with
  | vax => simp only [numberBytes, low]
  | nonVax => exact low

theorem Travels.bind {send receive send' receive' : Xdr → Except XdrFault Xdr} {xs ys : List UInt8}
    {q : Nat} (first : Travels send receive m p xs) (second : Travels send' receive' m q ys)
    (next : q = p + xs.length) :
    Travels (fun xdrs => send xdrs >>= send') (fun xdrs => receive xdrs >>= receive') m p
      (xs ++ ys) := by
  intro before
  obtain ⟨bytes, sent, received⟩ := first before
  obtain ⟨bytes', sent', received'⟩ := second (before ++ bytes)
  refine ⟨bytes ++ bytes', ?_, fun rest m' => ?_⟩
  · simp only [sent, xdr_bind, sent', List.append_assoc]
  · simp only [List.append_assoc, received, xdr_bind, received', write_append, next]

theorem fetch_ok {op : XdrOp} {stream : List UInt8} {count : Nat}
    (inside : inMessage size p count = true) :
    fetch size p count ⟨op, stream, m⟩ = .ok (slice m p count) := if_pos inside

theorem fetch_outside {op : XdrOp} {stream : List UInt8} {count : Nat}
    (outside : ¬inMessage size p count = true) :
    fetch size p count ⟨op, stream, m⟩ = .error .outside := if_neg outside

theorem store_ok {op : XdrOp} {stream bytes : List UInt8} {n : Nat} (length : bytes.length = n)
    (inside : inMessage size p n = true) :
    store size p bytes ⟨op, stream, m⟩ = .ok ⟨op, stream, write m p bytes⟩ := by
  subst length
  exact if_pos inside

theorem xdrLong_travels (here there : XdrPort) (inside : inMessage size p 4 = true) :
    Travels (xdrLong here size p) (xdrLong there size p) m p
      (numberBytes there.order 4 (number here.order (slice m p 4))) := by
  intro before
  refine ⟨bigEndian 4 (number here.order (slice m p 4)), ?_, fun rest m' => ?_⟩
  · simp only [xdrLong, fetch_ok inside, xdr_bind]
    rfl
  · simp only [xdrLong, getlong_bigEndian rest (number_slice_lt here.order m p 4), xdr_bind]
    exact store_ok (length_numberBytes _ 4 _) inside

theorem xdrShort_travels (here there : XdrPort) (inside : inMessage size p 2 = true) :
    Travels (xdrShort here size p) (xdrShort there size p) m p
      (numberBytes there.order 2 (number here.order (slice m p 2))) := by
  intro before
  have small := number_slice_lt here.order m p 2
  refine ⟨bigEndian 4 (signExtend (number here.order (slice m p 2))), ?_, fun rest m' => ?_⟩
  · simp only [xdrShort, fetch_ok inside, xdr_bind]
    rfl
  · simp only [xdrShort, getlong_bigEndian rest (signExtend_lt small), xdr_bind,
      numberBytes_signExtend]
    exact store_ok (length_numberBytes _ 2 _) inside

theorem xdrOpaque_travels (here there : XdrPort) {len : Nat} (inside : inMessage size p len = true) :
    Travels (xdrOpaque here size p len) (xdrOpaque there size p len) m p (slice m p len) := by
  intro before
  let pad := (List.range (padding len)).map fun i =>
    here.trash ((before ++ slice m p len).length + i)
  refine ⟨slice m p len ++ pad, ?_, fun rest m' => ?_⟩
  · simp only [xdrOpaque, fetch_ok inside, xdr_bind]
    by_cases none : padding len = 0
    · rw [if_neg (by simpa using none)]
      simp [pad, none, Xdr.putbytes, pure, Except.pure]
    · rw [if_pos none]
      simp [pad, Xdr.putbytes, pure, Except.pure]
  · have padded : pad.length = padding len := by simp [pad]
    simp only [xdrOpaque, inside, if_true]
    rw [List.append_assoc, getbytes_append (length_slice m p len), xdr_bind]
    simp only [store_ok (length_slice m p len) inside, xdr_bind]
    by_cases none : padding len = 0
    · rw [if_neg (by simpa using none), List.eq_nil_of_length_eq_zero (padded.trans none)]
      rfl
    · rw [if_pos none, getbytes_append padded]
      rfl

/-- The two longs of eight bytes on the line. -/
def wireLongs (high : Bool) (v : Nat) : List UInt8 :=
  if high then bigEndian 4 (v / 4294967296) ++ bigEndian 4 v
  else bigEndian 4 v ++ bigEndian 4 (v / 4294967296)

theorem xdrTempLongs_encode {swap : Bool} {before : List UInt8} (inside : inMessage size p 8 = true) :
    xdrTempLongs here size swap p ⟨.encode, before, m⟩ = .ok ⟨.encode, before ++
      wireLongs ((here.order == .vax) == swap) (number here.order (slice m p 8)), m⟩ := by
  let bytes := slice m p 8
  have length : bytes.length = 8 := length_slice m p 8
  have first : number here.order (bytes.take 4) < 4294967296 :=
    (number_lt here.order _).trans_eq (by simp [length])
  have last : number here.order (bytes.drop 4) < 4294967296 :=
    (number_lt here.order _).trans_eq (by simp [length])
  have whole := number_eight here.order length
  simp only [xdrTempLongs, fetch_ok inside, xdr_bind, wireLongs]
  change number here.order (slice m p 8) = _ at whole
  by_cases vax : here.order = .vax
  · rw [if_pos vax] at whole
    have low := bigEndian_mod 4 (number here.order (slice m p 8))
    rw [whole, show (256 : Nat) ^ 4 = 4294967296 by decide, Nat.mul_add_mod_self_right,
      Nat.mod_eq_of_lt first] at low
    rw [whole, ← low, Nat.add_comm, Nat.add_mul_div_right _ _ (by decide),
      Nat.div_eq_of_lt first, vax]
    cases swap <;> simp [Xdr.putlong, Xdr.putbytes, pure, Except.pure, bytes]
  · rw [if_neg vax] at whole
    have low := bigEndian_mod 4 (number here.order (slice m p 8))
    rw [whole, show (256 : Nat) ^ 4 = 4294967296 by decide, Nat.mul_add_mod_self_right,
      Nat.mod_eq_of_lt last] at low
    rw [whole, ← low, Nat.add_comm, Nat.add_mul_div_right _ _ (by decide),
      Nat.div_eq_of_lt last, beq_false_of_ne vax]
    cases swap <;> simp [Xdr.putlong, Xdr.putbytes, pure, Except.pure, bytes]

theorem numberBytes_mod (order : ByteOrder) (k n : Nat) :
    numberBytes order k (n % 256 ^ k) = numberBytes order k n := by
  cases order with
  | vax => simp only [numberBytes, bigEndian_mod]
  | nonVax => exact bigEndian_mod k n

theorem xdrTempLongs_decode {swap : Bool} {rest : List UInt8} {v : Nat} (small : v < 256 ^ 8)
    (inside : inMessage size p 8 = true) :
    xdrTempLongs there size swap p
        ⟨.decode, wireLongs ((there.order == .vax) == swap) v ++ rest, m⟩ =
      .ok ⟨.decode, rest, write m p (numberBytes there.order 8 v)⟩ := by
  have high : v / 4294967296 < 4294967296 := by omega
  have low : v % 4294967296 < 4294967296 := Nat.mod_lt v (by decide)
  have getHigh (rest : List UInt8) : Xdr.getlong
      ⟨.decode, bigEndian 4 (v / 4294967296) ++ rest, m⟩ =
        .ok (v / 4294967296, ⟨.decode, rest, m⟩) := getlong_bigEndian rest high
  have getLow (rest : List UInt8) : Xdr.getlong ⟨.decode, bigEndian 4 v ++ rest, m⟩ =
      .ok (v % 4294967296, ⟨.decode, rest, m⟩) := by
    rw [← bigEndian_mod]
    exact getlong_bigEndian rest low
  have put (n k : Nat) : store size p (numberBytes there.order 4 n ++ numberBytes there.order 4 k)
      ⟨.decode, rest, m⟩ = .ok ⟨.decode, rest, write m p
        (numberBytes there.order 4 n ++ numberBytes there.order 4 k)⟩ :=
    store_ok (by simp) inside
  have lowBytes : numberBytes there.order 4 (v % 4294967296) = numberBytes there.order 4 v :=
    numberBytes_mod there.order 4 v
  simp only [xdrTempLongs, wireLongs]
  rw [numberBytes_eight]
  cases order : there.order with
  | vax =>
    rw [order] at put lowBytes
    cases swap <;> simp [getHigh, getLow, xdr_bind, put, lowBytes]
  | nonVax =>
    rw [order] at put lowBytes
    cases swap <;> simp [getHigh, getLow, xdr_bind, put, lowBytes]

theorem xdrTempLongs_travels {swap swap' : Bool}
    (agree : ((here.order == .vax) == swap) = ((there.order == .vax) == swap'))
    (inside : inMessage size p 8 = true) :
    Travels (xdrTempLongs here size swap p) (xdrTempLongs there size swap' p) m p
      (numberBytes there.order 8 (number here.order (slice m p 8))) := by
  intro before
  refine ⟨_, xdrTempLongs_encode inside, fun rest m' => ?_⟩
  rw [agree]
  exact xdrTempLongs_decode (number_slice_lt here.order m p 8) inside

theorem inMessage_iff {count : Nat} :
    inMessage size p count = true ↔ count = 0 ∨ p + count ≤ size := by
  simp [inMessage]

theorem xdrVarying_travels {dscLength : Nat}
    (fits : number here.order (slice m p 2) ≤ ushort (dscLength + 65534))
    (inside : inMessage size p (2 + number here.order (slice m p 2)) = true) :
    Travels (xdrVarying here size p dscLength) (xdrVarying there size p dscLength) m p
      (numberBytes there.order 2 (number here.order (slice m p 2)) ++
        slice m (p + 2) (number here.order (slice m p 2))) := by
  let n := number here.order (slice m p 2)
  obtain ⟨most, length⟩ : ∃ most, ushort (dscLength + 65534) = most := ⟨_, rfl⟩
  rw [length] at fits
  have room := inMessage_iff.mp inside
  have counter : inMessage size p 2 = true := inMessage_iff.mpr (by omega)
  have text : inMessage size (p + 2) n = true := inMessage_iff.mpr (by omega)
  intro before
  obtain ⟨bytes, sent, received⟩ := xdrShort_travels here there (m := m) counter before
  obtain ⟨bytes', sent', received'⟩ :=
    xdrOpaque_travels here there (m := m) text (before ++ bytes)
  have minimum : min most n = n := Nat.min_eq_right fits
  refine ⟨bytes ++ bytes', ?_, fun rest m' => ?_⟩
  · simp only [xdrVarying, length, sent, xdr_bind]
    rw [minimum, sent', List.append_assoc]
  · have read : number there.order
        (slice (write m' p (numberBytes there.order 2 n)) p 2) = n :=
      (holds_numberBytes (number_slice_lt here.order m p 2)).mp (holds_write m' p _)
    simp only [xdrVarying, length, List.append_assoc, received, xdr_bind]
    rw [read, minimum, received', write_append, length_numberBytes]

theorem strlen_le (m : Nat → UInt8) (p k : Nat) : strlen m p k ≤ k := by
  induction k generalizing p with
  | zero => exact Nat.le_refl 0
  | succ k ih =>
    unfold strlen
    split
    next => exact Nat.zero_le _
    next => exact Nat.succ_le_succ (ih (p + 1))

theorem strlen_eq_iff {t k : Nat} (h : t < k) :
    strlen m p k = t ↔ 0 ∉ slice m p t ∧ m (p + t) = 0 := by
  induction t generalizing p k with
  | zero =>
    obtain ⟨k, rfl⟩ : ∃ j, k = j + 1 := ⟨k - 1, by omega⟩
    unfold strlen
    split
    next zero => simpa [slice] using zero
    next more => simpa [slice] using more
  | succ t ih =>
    obtain ⟨k, rfl⟩ : ∃ j, k = j + 1 := ⟨k - 1, by omega⟩
    unfold strlen
    split
    next zero => simp [slice, zero]
    next more =>
      have later := ih (p := p + 1) (k := k) (by omega)
      rw [Nat.succ_inj, later, slice, Nat.add_assoc, Nat.add_comm 1 t, List.mem_cons]
      simp [Ne.symm more]

theorem strlen_eq_limit {j : Nat} (none : 0 ∉ slice m p j) : strlen m p j = j := by
  have most := strlen_le m p j
  rcases Nat.lt_or_eq_of_le most with less | eq
  · have zero := ((strlen_eq_iff less).mp rfl).2
    have mem : m (p + strlen m p j) ∈ slice m p j := List.mem_of_getElem? (getElem?_slice m less)
    rw [zero] at mem
    exact absurd mem none
  · exact eq

/-- The scan for the terminator, which goes on to the end of the message at most. -/
theorem strlen_scan {k : Nat} (fits : strlen m p k < k) :
    strlen m p (size - p) = min (strlen m p k) (size - p) := by
  obtain ⟨text, zero⟩ := (strlen_eq_iff fits).mp rfl
  rcases Nat.lt_or_ge (strlen m p k) (size - p) with inside | outside
  · rw [Nat.min_eq_left inside.le]
    exact (strlen_eq_iff inside).mpr ⟨text, zero⟩
  · rw [Nat.min_eq_right outside]
    refine strlen_eq_limit fun mem => text ?_
    rw [← take_slice m outside] at mem
    exact List.mem_of_mem_take mem

theorem terminated_count {dscLength : Nat} (small : dscLength < 65536)
    (fits : strlen m p dscLength < dscLength) :
    ushort (min (strlen m p dscLength) (ulong (dscLength + 4294967295))) = strlen m p dscLength := by
  unfold ushort ulong
  omega

theorem xdrTerminated_encode {dscLength : Nat} {before : List UInt8} (small : dscLength < 65536)
    (fits : strlen m p dscLength < dscLength) :
    xdrTerminated here size p dscLength ⟨.encode, before, m⟩ =
      if p + strlen m p dscLength < size then
        xdrOpaque here size p (signExtend (strlen m p dscLength))
          ⟨.encode, before ++ bigEndian 4 (signExtend (strlen m p dscLength)), m⟩
      else .error .outside := by
  have scan : strlen m p (size - p) = min (strlen m p dscLength) (size - p) := strlen_scan fits
  simp only [xdrTerminated]
  rw [scan]
  by_cases inside : p + strlen m p dscLength < size
  · rw [Nat.min_eq_left (show strlen m p dscLength ≤ size - p by omega), if_pos inside, if_pos inside,
      terminated_count small fits]
    rfl
  · rw [Nat.min_eq_right (show size - p ≤ strlen m p dscLength by omega), if_neg (by omega),
      if_neg inside]

theorem xdrTerminated_travels {dscLength : Nat} (small : dscLength < 65536)
    (fits : strlen m p dscLength < dscLength) (inside : p + strlen m p dscLength < size)
    (short : strlen m p dscLength < 32768) :
    Travels (xdrTerminated here size p dscLength) (xdrTerminated there size p dscLength) m p
      (slice m p (strlen m p dscLength) ++ [0]) := by
  let n := strlen m p dscLength
  have extended : signExtend n = n := if_pos short
  have text : inMessage size p n = true := inMessage_iff.mpr (by omega)
  have terminator : inMessage size (p + n) 1 = true := inMessage_iff.mpr (by omega)
  intro before
  obtain ⟨bytes, sent, received⟩ :=
    xdrOpaque_travels here there (m := m) text (before ++ bigEndian 4 n)
  refine ⟨bigEndian 4 n ++ bytes, ?_, fun rest m' => ?_⟩
  · rw [xdrTerminated_encode small fits, if_pos inside, extended, sent, List.append_assoc]
  · simp only [xdrTerminated, List.append_assoc]
    rw [getlong_bigEndian (bytes ++ rest) (show n < 4294967296 by omega), xdr_bind]
    simp only [ushort_of_lt (show n < 65536 by omega), extended, received, xdr_bind]
    rw [store_ok rfl terminator, write_append, length_slice]

end

end InterBase
