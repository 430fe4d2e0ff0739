import InterBase.XdrRoundTrip

namespace InterBase

open Memory BigEndian

/-- A number as one machine stores it, from the bytes that the other one holds. -/
def recode (here there : ByteOrder) (m : Nat → UInt8) (p k : Nat) : List UInt8 :=
  numberBytes there k (number here (slice m p k))

/-- The bytes that a field is received as. -/
def XdrDsc.image (here there : ByteOrder) (desc : XdrDsc) (m : Nat → UInt8) : List UInt8 :=
  let p := desc.dscAddress
  match desc.dscDtype with
  | .text => slice m p desc.dscLength
  | .varying => recode here there m p 2 ++ slice m (p + 2) (number here (slice m p 2))
  | .cstring => slice m p (strlen m p desc.dscLength) ++ [0]
  | .short => recode here there m p 2
  | .sqlTime | .sqlDate | .long | .real => recode here there m p 4
  | .double | .int64 => recode here there m p 8
  | .timestamp | .array | .quad | .blob =>
    recode here there m p 4 ++ recode here there m (p + 4) 4

section

variable {here there : ByteOrder} {held m : Nat → UInt8} {p k : Nat}

@[simp] theorem length_recode : (recode here there m p k).length = k := length_numberBytes there k _

theorem holds_recode :
    Holds held p (recode here there m p k) ↔
      number there (slice held p k) = number here (slice m p k) :=
  holds_numberBytes (number_slice_lt here m p k)

theorem holds_slice_iff : Holds held p (slice m p k) ↔ slice held p k = slice m p k := by
  unfold Holds
  rw [length_slice]

theorem map_toNat_inj {xs ys : List UInt8} : xs.map UInt8.toNat = ys.map UInt8.toNat ↔ xs = ys :=
  List.map_inj_right fun _ _ => UInt8.toNat_inj.mp

theorem holds_text : (slice held p k).map UInt8.toNat = (slice m p k).map UInt8.toNat ↔
    Holds held p (slice m p k) := map_toNat_inj.trans holds_slice_iff.symm

theorem holds_varying :
    (slice held (p + 2) (number there (slice held p 2))).map UInt8.toNat =
        (slice m (p + 2) (number here (slice m p 2))).map UInt8.toNat ↔
      Holds held p (recode here there m p 2 ++ slice m (p + 2) (number here (slice m p 2))) := by
  rw [holds_append, holds_recode, length_recode, map_toNat_inj, holds_slice_iff]
  constructor
  · intro same
    have lengths := congrArg List.length same
    rw [length_slice, length_slice] at lengths
    rw [lengths] at same
    exact ⟨lengths, same⟩
  · rintro ⟨lengths, same⟩
    rw [lengths, same]

theorem holds_terminated (fits : strlen m p k < k) :
    (slice held p (strlen held p k)).map UInt8.toNat = (slice m p (strlen m p k)).map UInt8.toNat ↔
      Holds held p (slice m p (strlen m p k) ++ [0]) := by
  obtain ⟨text, -⟩ := (strlen_eq_iff fits).mp rfl
  rw [holds_append, map_toNat_inj, holds_slice_iff, length_slice, holds_cons]
  constructor
  · intro same
    have lengths := congrArg List.length same
    rw [length_slice, length_slice] at lengths
    rw [lengths] at same
    exact ⟨same, ((strlen_eq_iff fits).mp lengths).2, holds_nil held _⟩
  · rintro ⟨same, zero, -⟩
    have lengths : strlen held p k = strlen m p k :=
      (strlen_eq_iff fits).mpr ⟨by rwa [same], zero⟩
    rw [lengths, same]

theorem holds_longs :
    [number there (slice held p 4), number there (slice held (p + 4) 4)] =
        [number here (slice m p 4), number here (slice m (p + 4) 4)] ↔
      Holds held p (recode here there m p 4 ++ recode here there m (p + 4) 4) := by
  rw [holds_append, holds_recode, length_recode, holds_recode]
  simp

theorem holds_single : [number there (slice held p k)] = [number here (slice m p k)] ↔
    Holds held p (recode here there m p k) := by
  rw [holds_recode]
  simp

/-- A memory says what `m` says in a field when it holds the image of the field. -/
theorem XdrDsc.value_eq_iff {desc : XdrDsc} (fits : desc.Fits here m) :
    desc.value there held = desc.value here m ↔
      Holds held desc.dscAddress (desc.image here there m) := by
  unfold XdrDsc.Fits at fits
  unfold XdrDsc.value XdrDsc.image
  cases dtype : desc.dscDtype with
  | text => exact holds_text
  | varying => exact holds_varying
  | cstring =>
    rw [dtype] at fits
    exact holds_terminated fits
  | short | sqlTime | sqlDate | long | real | double | int64 => exact holds_single
  | timestamp | array | quad | blob => exact holds_longs

end

section

variable {here there : XdrPort} {size : Nat} {m : Nat → UInt8} {desc : XdrDsc}

theorem xdrQuad_travels {p : Nat} (inside : inMessage size p 8 = true) :
    Travels (xdrQuad here size p) (xdrQuad there size p) m p
      (recode here.order there.order m p 4 ++ recode here.order there.order m (p + 4) 4) := by
  have room := inMessage_iff.mp inside
  exact Travels.bind (xdrLong_travels here there (inMessage_iff.mpr (by omega)))
    (xdrLong_travels here there (inMessage_iff.mpr (by omega))) (by simp)

theorem xdrDatum_travels (agree : here.highFirst = there.highFirst)
    (fits : desc.Fits here.order m) (carried : desc.Carried here.order size m) :
    Travels (xdrDatum here size desc) (xdrDatum there size desc) m desc.dscAddress
      (desc.image here.order there.order m) := by
  obtain ⟨dtype, length, p, small⟩ := desc
  obtain ⟨inside, short⟩ := carried
  cases dtype with
  | text => exact xdrOpaque_travels here there inside
  | varying => exact xdrVarying_travels fits inside
  | cstring =>
    have room := inMessage_iff.mp inside
    change strlen m p length + 1 = 0 ∨ p + (strlen m p length + 1) ≤ size at room
    exact xdrTerminated_travels small fits (show p + strlen m p length < size by omega) (short rfl)
  | short => exact xdrShort_travels here there inside
  | sqlTime | sqlDate | long | real => exact xdrLong_travels here there inside
  | double => exact xdrTempLongs_travels agree inside
  | int64 => exact xdrTempLongs_travels (by simp) inside
  | timestamp | array | quad | blob => exact xdrQuad_travels inside

theorem xdrOpaque_outside {op : XdrOp} {stream : List UInt8} {p len : Nat}
    (outside : ¬inMessage size p len = true) :
    xdrOpaque here size p len ⟨op, stream, m⟩ = .error .outside := by
  cases op with
  | encode => simp only [xdrOpaque, fetch_outside outside, xdr_bind_error]
  | decode => simp only [xdrOpaque, if_neg outside]

theorem xdrLong_outside {stream : List UInt8} {p : Nat} (outside : ¬inMessage size p 4 = true) :
    xdrLong here size p ⟨.encode, stream, m⟩ = .error .outside := by
  simp only [xdrLong, fetch_outside outside, xdr_bind_error]

theorem xdrShort_outside {stream : List UInt8} {p : Nat} (outside : ¬inMessage size p 2 = true) :
    xdrShort here size p ⟨.encode, stream, m⟩ = .error .outside := by
  simp only [xdrShort, fetch_outside outside, xdr_bind_error]

theorem xdrQuad_outside {stream : List UInt8} {p : Nat} (outside : ¬inMessage size p 8 = true) :
    xdrQuad here size p ⟨.encode, stream, m⟩ = .error .outside := by
  unfold xdrQuad
  by_cases first : inMessage size p 4 = true
  · obtain ⟨bytes, sent, -⟩ := xdrLong_travels here here (m := m) first stream
    have second : ¬inMessage size (p + 4) 4 = true := by
      rw [inMessage_iff] at outside ⊢
      omega
    rw [sent, xdr_bind, xdrLong_outside second]
  · rw [xdrLong_outside first, xdr_bind_error]

theorem xdrTempLongs_outside {swap : Bool} {stream : List UInt8} {p : Nat}
    (outside : ¬inMessage size p 8 = true) :
    xdrTempLongs here size swap p ⟨.encode, stream, m⟩ = .error .outside := by
  simp only [xdrTempLongs, fetch_outside outside, xdr_bind_error]

theorem xdrVarying_outside {stream : List UInt8} {p dscLength : Nat}
    (fits : number here.order (slice m p 2) ≤ ushort (dscLength + 65534))
    (outside : ¬inMessage size p (2 + number here.order (slice m p 2)) = true) :
    xdrVarying here size p dscLength ⟨.encode, stream, m⟩ = .error .outside := by
  unfold xdrVarying
  by_cases first : inMessage size p 2 = true
  · obtain ⟨bytes, sent, -⟩ := xdrShort_travels here here (m := m) first stream
    have second : ¬inMessage size (p + 2) (number here.order (slice m p 2)) = true := by
      rw [inMessage_iff] at first outside ⊢
      omega
    rw [sent, xdr_bind]
    simp only [Nat.min_eq_right fits]
    exact xdrOpaque_outside second
  · rw [xdrShort_outside first, xdr_bind_error]

/-- A string of more than 32767 bytes counts as one of `2 ^ 32` bytes and less. -/
theorem xdrTerminated_outside {stream : List UInt8} {p dscLength : Nat} (bound : size < 65536)
    (small : dscLength < 65536) (fits : strlen m p dscLength < dscLength)
    (outside : ¬(p + strlen m p dscLength < size ∧ strlen m p dscLength < 32768)) :
    xdrTerminated here size p dscLength ⟨.encode, stream, m⟩ = .error .outside := by
  rw [xdrTerminated_encode small fits]
  by_cases inside : p + strlen m p dscLength < size
  · have long : ¬strlen m p dscLength < 32768 := fun short => outside ⟨inside, short⟩
    have negative : signExtend (strlen m p dscLength) = strlen m p dscLength + 4294901760 :=
      if_neg long
    rw [if_pos inside, negative]
    refine xdrOpaque_outside ?_
    rw [inMessage_iff]
    omega
  · exact if_neg inside

theorem xdrDatum_outside {stream : List UInt8} (bound : size < 65536)
    (fits : desc.Fits here.order m) (outside : ¬desc.Carried here.order size m) :
    xdrDatum here size desc ⟨.encode, stream, m⟩ = .error .outside := by
  obtain ⟨dtype, length, p, small⟩ := desc
  have beyond (other : dtype ≠ .cstring) : ¬inMessage size p
      (XdrDsc.used here.order ⟨dtype, length, p, small⟩ m) = true :=
    fun inside => outside ⟨inside, fun cstring => absurd cstring other⟩
  cases dtype with
  | cstring =>
    refine xdrTerminated_outside bound small fits fun carried => outside ⟨?_, fun _ => carried.2⟩
    exact inMessage_iff.mpr (.inr carried.1)
  | text =>
    have outside : ¬inMessage size p length = true := beyond (by decide)
    show xdrOpaque here size p length ⟨.encode, stream, m⟩ = _
    exact xdrOpaque_outside outside
  | varying => exact xdrVarying_outside fits (beyond (by decide))
  | short => exact xdrShort_outside (beyond (by decide))
  | sqlTime | sqlDate | long | real => exact xdrLong_outside (beyond (by decide))
  | double | int64 => exact xdrTempLongs_outside (beyond (by decide))
  | timestamp | array | quad | blob => exact xdrQuad_outside (beyond (by decide))

/-- The receiver's memory after the fields of a message. -/
def receive (here there : ByteOrder) (m : Nat → UInt8) (descs : List XdrDsc) (m' : Nat → UInt8) :
    Nat → UInt8 :=
  descs.foldl (fun m' desc => write m' desc.dscAddress (desc.image here there m)) m'

theorem xdrData_travels {descs : List XdrDsc} (agree : here.highFirst = there.highFirst)
    (fits : ∀ desc ∈ descs, desc.Fits here.order m)
    (carried : ∀ desc ∈ descs, desc.Carried here.order size m) (before : List UInt8) :
    ∃ bytes, xdrData here size descs ⟨.encode, before, m⟩ = .ok ⟨.encode, before ++ bytes, m⟩ ∧
      ∀ rest m', xdrData there size descs ⟨.decode, bytes ++ rest, m'⟩ =
        .ok ⟨.decode, rest, receive here.order there.order m descs m'⟩ := by
  induction descs generalizing before with
  | nil => exact ⟨[], by rw [List.append_nil]; rfl, fun rest m' => rfl⟩
  | cons desc descs ih =>
    obtain ⟨bytes, sent, received⟩ :=
      xdrDatum_travels agree (fits desc (by simp)) (carried desc (by simp)) before
    obtain ⟨bytes', sent', received'⟩ := ih (fun other mem => fits other (by simp [mem]))
      (fun other mem => carried other (by simp [mem])) (before ++ bytes)
    refine ⟨bytes ++ bytes', ?_, fun rest m' => ?_⟩
    · rw [xdrData, sent, xdr_bind, sent', List.append_assoc]
    · rw [xdrData, List.append_assoc, received, xdr_bind, received']
      rfl

theorem xdrData_carried {descs : List XdrDsc} (bound : size < 65536)
    (fits : ∀ desc ∈ descs, desc.Fits here.order m) {before : List UInt8} {xdrs : Xdr}
    (sent : xdrData here size descs ⟨.encode, before, m⟩ = .ok xdrs) :
    ∀ desc ∈ descs, desc.Carried here.order size m := by
  induction descs generalizing before with
  | nil =>
    intro desc mem
    cases mem
  | cons desc descs ih =>
    by_cases carried : desc.Carried here.order size m
    · obtain ⟨bytes, first, -⟩ :=
        xdrDatum_travels (Eq.refl here.highFirst) (fits desc (by simp)) carried before
      rw [xdrData, first, xdr_bind] at sent
      intro other mem
      rcases List.mem_cons.mp mem with rfl | later
      · exact carried
      · exact ih (fun other mem => fits other (by simp [mem])) sent other later
    · rw [xdrData, xdrDatum_outside bound (fits desc (by simp)) carried, xdr_bind_error] at sent
      cases sent

theorem holds_receive {here there : ByteOrder} {held m' : Nat → UInt8} {descs : List XdrDsc}
    (holds : ∀ desc ∈ descs, Holds held desc.dscAddress (desc.image here there m)) :
    (∀ a xs, Holds held a xs → Holds m' a xs → Holds (receive here there m descs m') a xs) ∧
      ∀ desc ∈ descs,
        Holds (receive here there m descs m') desc.dscAddress (desc.image here there m) := by
  induction descs generalizing m' with
  | nil =>
    refine ⟨fun a xs _ before => before, fun desc mem => ?_⟩
    cases mem
  | cons desc descs ih =>
    have head := holds desc (by simp)
    obtain ⟨keeps, later⟩ := @ih (write m' desc.dscAddress (desc.image here there m))
      fun other mem => holds other (by simp [mem])
    refine ⟨fun a xs source before => keeps a xs source (source.write_common head before),
      fun other mem => ?_⟩
    rcases List.mem_cons.mp mem with rfl | behind
    · exact keeps _ _ head (holds_write m' _ _)
    · exact later other behind

theorem roundTrips_iff {format : Fmt} (asymmetricHere : here.portSymmetric = false)
    (asymmetricThere : there.portSymmetric = false) (agree : here.highFirst = there.highFirst)
    (fits : ∀ desc ∈ format.fmtDesc, desc.Fits here.order m) :
    RoundTrips here there format m ↔
      (∀ desc ∈ format.fmtDesc, desc.Carried here.order format.fmtLength m) ∧
        ∃ held, ∀ desc ∈ format.fmtDesc, desc.value there.order held = desc.value here.order m := by
  have sends (xdrs : Xdr) : xdrMessage here format xdrs =
      xdrData here format.fmtLength format.fmtDesc xdrs := by
    simp [xdrMessage, asymmetricHere]
  have receives (xdrs : Xdr) : xdrMessage there format xdrs =
      xdrData there format.fmtLength format.fmtDesc xdrs := by
    simp [xdrMessage, asymmetricThere]
  constructor
  · intro trips
    obtain ⟨bytes, sent, received⟩ := trips []
    obtain ⟨held, -, same⟩ := received [] m
    rw [sends] at sent
    exact ⟨xdrData_carried format.length_lt fits sent, held, same⟩
  · rintro ⟨carried, held, same⟩ before
    obtain ⟨bytes, sent, received⟩ := xdrData_travels agree fits carried before
    refine ⟨bytes, (sends _).trans sent, fun rest m' => ?_⟩
    refine ⟨_, (receives _).trans (received rest m'), fun desc mem => ?_⟩
    have holds : ∀ desc ∈ format.fmtDesc, Holds held desc.dscAddress
        (desc.image here.order there.order m) :=
      fun desc mem => (XdrDsc.value_eq_iff (fits desc mem)).mp (same desc mem)
    exact (XdrDsc.value_eq_iff (fits desc mem)).mpr ((holds_receive holds).2 desc mem)

end

theorem padding_eq {n : Nat} : (List.replicate (padding n) (0 : UInt8)).length = padding n :=
  List.length_replicate

/-- After `alloc_cstring` the block has room. -/
theorem allocCstring_spec (port : XdrPort) {cstring : CString}
    (ready : cstring.Ready cstring.cstrLength) :
    (allocCstring port cstring).cstrLength = cstring.cstrLength ∧
      cstring.cstrLength ≤ ((allocCstring port cstring).cstrAddress.getD []).length ∧
      (cstring.cstrLength ≠ 0 → (allocCstring port cstring).cstrAddress.isSome) := by
  obtain ⟨length, allocated, address⟩ := cstring
  unfold allocCstring
  by_cases empty : length = 0
  · rw [if_pos empty]
    exact ⟨rfl, empty ▸ Nat.zero_le _, fun more => absurd empty more⟩
  · rw [if_neg empty]
    by_cases small : allocated < length ∧ allocated ≠ 0
    · simp [small, freeCstring]
    · simp only [if_neg small]
      cases address with
      | none => simp
      | some block =>
        refine ⟨rfl, ?_, fun _ => rfl⟩
        unfold CString.Ready at ready
        simp only at ready
        split at ready
        next none => exact ready
        next more =>
          have large : ¬allocated < length := fun less => small ⟨less, more⟩
          exact Nat.le_trans (Nat.not_lt.mp large) ready

theorem cstringRoundTrips (here there : XdrPort) : CstringRoundTrips here there := by
  intro cstring small whole receiver ready before m
  have block : cstring.cstrLength ≤ (cstring.cstrAddress.getD []).length := by
    unfold CString.text at whole
    rw [List.length_take] at whole
    omega
  let pad := List.replicate (padding cstring.cstrLength) (0 : UInt8)
  refine ⟨bigEndian 4 (signExtend cstring.cstrLength) ++ cstring.text ++ pad, ?_, fun rest m' => ?_⟩
  · simp only [xdrCstring, if_pos block]
    simp only [Xdr.putlong, Xdr.putbytes, List.append_assoc]
    rfl
  · obtain ⟨length, room, address⟩ := @allocCstring_spec there
      { receiver with cstrLength := cstring.cstrLength } ready
    simp only [xdrCstring, List.append_assoc]
    rw [getlong_bigEndian _ (signExtend_lt small), xdr_bind]
    simp only [ushort_signExtend small]
    generalize allocCstring there { receiver with cstrLength := cstring.cstrLength } = allocated at *
    simp only at length room address
    rw [← length] at room
    rw [if_pos room, length, getbytes_append whole, xdr_bind]
    simp only [getbytes_append (show pad.length = padding cstring.cstrLength from padding_eq),
      xdr_bind]
    refine ⟨_, rfl, rfl, ?_⟩
    show ((allocated.cstrAddress.map _).getD []).take cstring.cstrLength = cstring.text
    cases known : allocated.cstrAddress with
    | none =>
      have empty : cstring.cstrLength = 0 := by
        by_contra more
        have some := address more
        rw [known] at some
        cases some
      rw [empty] at whole ⊢
      rw [List.eq_nil_of_length_eq_zero whole]
      rfl
    | some block =>
      show (cstring.text ++ block.drop cstring.cstrLength).take cstring.cstrLength = cstring.text
      rw [← whole, List.take_left]

/-- Messages and counted strings round trip just when every field lies in the message, no C string
has more than 32767 bytes, and the receiver's memory can hold what the fields say at once. -/
theorem xdrMessage_round_trips_iff {here there : XdrPort} {format : Fmt} {m : Nat → UInt8}
    (asymmetricHere : here.portSymmetric = false) (asymmetricThere : there.portSymmetric = false)
    (agree : here.highFirst = there.highFirst)
    (fits : ∀ desc ∈ format.fmtDesc, desc.Fits here.order m) :
    RoundTrips here there format m ∧ CstringRoundTrips here there ↔
      (∀ desc ∈ format.fmtDesc, desc.Carried here.order format.fmtLength m) ∧
        ∃ held, ∀ desc ∈ format.fmtDesc, desc.value there.order held = desc.value here.order m := by
  rw [and_iff_left (cstringRoundTrips here there)]
  exact roundTrips_iff asymmetricHere asymmetricThere agree fits

/-- A C string of 40000 bytes and a varying one of 16. -/
def nameFormat : Fmt :=
  { fmtLength := 40018
    fmtDesc := [⟨.cstring, 40000, 0, by decide⟩, ⟨.varying, 18, 40000, by decide⟩]
    length_lt := by decide }

def intelPort : XdrPort := ⟨.vax, true, false, fun _ => 0⟩

def sparcPort : XdrPort := ⟨.nonVax, false, false, fun _ => 0⟩

/-- The bytes `x` up to a terminator at `n`, and an empty varying string after them. -/
def nameMessage (n : Nat) : Nat → UInt8 := fun a => if a < n then 120 else 0

theorem nameMessage_strlen {n k : Nat} (h : n < k) : strlen (nameMessage n) 0 k = n := by
  refine (strlen_eq_iff h).mpr ⟨fun mem => ?_, by simp [nameMessage]⟩
  obtain ⟨i, found⟩ := List.mem_iff_getElem?.mp mem
  obtain ⟨inside, -⟩ := List.getElem?_eq_some_iff.mp found
  rw [length_slice] at inside
  rw [getElem?_slice _ inside] at found
  simp [nameMessage, inside] at found

theorem nameFormat_fits {n : Nat} (h : n < 40000) (order : ByteOrder) :
    ∀ desc ∈ nameFormat.fmtDesc, desc.Fits order (nameMessage n) := by
  have zero : number order (slice (nameMessage n) 40000 2) = 0 := by
    have first : ¬40000 < n := by omega
    have second : ¬40001 < n := by omega
    cases order <;> simp [slice, nameMessage, number, value, first, second]
  intro desc mem
  simp only [nameFormat, List.mem_cons, List.not_mem_nil, or_false] at mem
  rcases mem with rfl | rfl
  · show strlen (nameMessage n) 0 40000 < 40000
    rw [nameMessage_strlen h]
    exact h
  · exact (Nat.le_of_eq zero).trans (Nat.zero_le _)

theorem xdrMessage_round_trips_short : RoundTrips intelPort sparcPort nameFormat (nameMessage 3) ∧
    CstringRoundTrips intelPort sparcPort := by
  refine (@xdrMessage_round_trips_iff intelPort sparcPort nameFormat (nameMessage 3) rfl rfl rfl
    (nameFormat_fits (by decide) .vax)).mpr ⟨?_, ?_⟩
  · intro desc mem
    simp only [nameFormat, List.mem_cons, List.not_mem_nil, or_false] at mem
    rcases mem with rfl | rfl
    · have length := nameMessage_strlen (show 3 < 40000 by decide)
      refine ⟨inMessage_iff.mpr (.inr ?_), fun _ => ?_⟩
      · show 0 + (strlen (nameMessage 3) 0 40000 + 1) ≤ 40018
        omega
      · show strlen (nameMessage 3) 0 40000 < 32768
        omega
    · exact ⟨by decide, by decide⟩
  · refine ⟨nameMessage 3, fun desc mem => ?_⟩
    simp only [nameFormat, List.mem_cons, List.not_mem_nil, or_false] at mem
    rcases mem with rfl | rfl <;> rfl

/-- A C string of 35000 bytes in a field of 40000 does not get through. -/
theorem xdrMessage_long_cstring :
    (∀ desc ∈ nameFormat.fmtDesc, desc.Fits .vax (nameMessage 35000)) ∧
      xdrMessage intelPort nameFormat ⟨.encode, [], nameMessage 35000⟩ = .error .outside ∧
      ¬RoundTrips intelPort intelPort nameFormat (nameMessage 35000) := by
  have fits := nameFormat_fits (show 35000 < 40000 by decide) .vax
  have length := nameMessage_strlen (show 35000 < 40000 by decide)
  have fails : xdrMessage intelPort nameFormat ⟨.encode, [], nameMessage 35000⟩ =
      .error .outside := by
    have first : xdrTerminated intelPort 40018 0 40000 ⟨.encode, [], nameMessage 35000⟩ =
        .error .outside :=
      xdrTerminated_outside nameFormat.length_lt (by decide) (by omega)
        fun carried => absurd carried.2 (by omega)
    exact congrArg (· >>= xdrData intelPort 40018 [⟨.varying, 18, 40000, by decide⟩]) first
  refine ⟨fits, fails, fun trips => ?_⟩
  obtain ⟨bytes, sent, -⟩ := trips []
  rw [fails] at sent
  cases sent

end InterBase
