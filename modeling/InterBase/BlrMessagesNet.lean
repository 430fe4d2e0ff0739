import InterBase.BlrMessagesLayout

namespace InterBase.Blr

open Memory BigEndian

/-- A length rounded up to whole longs. -/
def roundUp (n : Nat) : Nat := (n + 3) / 4 * 4

/-- The most bytes that `xdr_datum` sends of a field. The length of a `cstring` goes into an
`SSHORT`. -/
def mostBytes (desc : XdrDsc) : Nat :=
  match desc.dscDtype with
  | .text => roundUp desc.dscLength
  | .varying => 4 + roundUp (desc.dscLength - 2)
  | .cstring => 4 + roundUp (min (desc.dscLength - 1) 32767)
  | .short | .sqlTime | .sqlDate | .long | .real => 4
  | .double | .timestamp | .int64 | .array | .quad | .blob => 8

/-- A string has room for its count or its terminator. -/
def Plain (desc : XdrDsc) : Prop :=
  (desc.dscDtype = .varying → 2 ≤ desc.dscLength) ∧ (desc.dscDtype = .cstring → 1 ≤ desc.dscLength)

/-- How much more is counted for a field than it can send. -/
def excess (desc : XdrDsc) : Int :=
  if desc.dscDtype = .cstring then
    if 32768 < desc.dscLength then (roundUp desc.dscLength : Int) - 32772
    else if desc.dscLength % 4 = 1 then 0
    else -4
  else 0

def mostTotal (descs : List XdrDsc) : Nat := (descs.map mostBytes).sum

def excessTotal (descs : List XdrDsc) : Int := (descs.map excess).sum

/-- What was counted for the messages before is made up for, modulo 65536, by what the strings of
this one are counted wrong; and so on. -/
def MadeUp : Nat → List ParMsg → Prop
  | _, [] => True
  | before, m :: ms =>
    ((before : Int) + excessTotal m.format.fmtDesc) % 65536 = 0 ∧
      mostTotal m.format.fmtDesc < 65536 ∧ MadeUp (before + netTotal m.format.fmtDesc) ms

/-- `fmt_net_length` is the largest number of bytes that `xdr_message` produces for the message. -/
def NetExact (message : RemoteMsg) : Prop :=
  ∀ port : XdrPort, port.portSymmetric = false →
    IsGreatest {n | ∃ m xdrs, xdrMessage port message.format ⟨.encode, [], m⟩ = .ok xdrs ∧
      xdrs.stream.length = n} message.fmtNetLength

section

variable {port : XdrPort} {size p k : Nat} {m : Nat → UInt8} {desc : XdrDsc}

/-- Whenever it succeeds, it sends that many bytes. -/
def Produces (send : Xdr → Except XdrFault Xdr) (m : Nat → UInt8) (n : Nat) : Prop :=
  ∀ before xdrs, send ⟨.encode, before, m⟩ = .ok xdrs →
    ∃ bytes, xdrs = ⟨.encode, before ++ bytes, m⟩ ∧ bytes.length = n

theorem Produces.bind {send send' : Xdr → Except XdrFault Xdr} {j : Nat} (first : Produces send m j)
    (second : Produces send' m k) : Produces (fun xdrs => send xdrs >>= send') m (j + k) := by
  intro before xdrs sent
  dsimp only at sent
  cases start : send ⟨.encode, before, m⟩ with
  | error fault =>
    rw [start] at sent
    cases sent
  | ok xdrs₁ =>
    rw [start, xdr_bind] at sent
    obtain ⟨bytes, rfl, length⟩ := first before xdrs₁ start
    obtain ⟨bytes', rfl, length'⟩ := second _ xdrs sent
    refine ⟨bytes ++ bytes', by rw [List.append_assoc], ?_⟩
    rw [List.length_append, length, length']

theorem xdrLong_produces : Produces (xdrLong port size p) m 4 := by
  intro before xdrs sent
  by_cases inside : inMessage size p 4 = true
  · simp only [xdrLong, fetch_ok inside, xdr_bind] at sent
    obtain rfl := Except.ok.inj sent
    exact ⟨_, rfl, length_bigEndian 4 _⟩
  · rw [xdrLong_outside inside] at sent
    cases sent

theorem xdrShort_produces : Produces (xdrShort port size p) m 4 := by
  intro before xdrs sent
  by_cases inside : inMessage size p 2 = true
  · simp only [xdrShort, fetch_ok inside, xdr_bind] at sent
    obtain rfl := Except.ok.inj sent
    exact ⟨_, rfl, length_bigEndian 4 _⟩
  · rw [xdrShort_outside inside] at sent
    cases sent

theorem length_wireLongs (high : Bool) (v : Nat) : (wireLongs high v).length = 8 := by
  unfold wireLongs
  split <;> rw [List.length_append, length_bigEndian, length_bigEndian]

theorem xdrTempLongs_produces {swap : Bool} : Produces (xdrTempLongs port size swap p) m 8 := by
  intro before xdrs sent
  by_cases inside : inMessage size p 8 = true
  · rw [xdrTempLongs_encode inside] at sent
    obtain rfl := Except.ok.inj sent
    exact ⟨_, rfl, length_wireLongs _ _⟩
  · rw [xdrTempLongs_outside inside] at sent
    cases sent

theorem xdrQuad_produces : Produces (xdrQuad port size p) m 8 :=
  xdrLong_produces.bind xdrLong_produces

theorem padding_roundUp {len : Nat} (small : len < 65536) : len + padding len = roundUp len := by
  unfold padding roundUp
  omega

theorem xdrOpaque_produces {len : Nat} : Produces (xdrOpaque port size p len) m (len + padding len) := by
  intro before xdrs sent
  by_cases inside : inMessage size p len = true
  · simp only [xdrOpaque, fetch_ok inside, xdr_bind] at sent
    by_cases none : padding len = 0
    · rw [if_neg (by simpa using none)] at sent
      obtain rfl := Except.ok.inj sent
      exact ⟨slice m p len, rfl, by rw [length_slice, none, Nat.add_zero]⟩
    · rw [if_pos none] at sent
      obtain rfl := Except.ok.inj sent
      refine ⟨slice m p len ++ (List.range (padding len)).map fun i =>
        port.trash ((before ++ slice m p len).length + i), ?_, by simp⟩
      simp [Xdr.putbytes]
  · rw [xdrOpaque_outside inside] at sent
    cases sent

/-- How many bytes a string has that is sent. -/
def sentLength (order : ByteOrder) (size : Nat) (desc : XdrDsc) (m : Nat → UInt8) : Nat :=
  match desc.dscDtype with
  | .varying => min (desc.dscLength - 2) (number order (slice m desc.dscAddress 2))
  | .cstring => min (strlen m desc.dscAddress (size - desc.dscAddress)) (desc.dscLength - 1)
  | _ => 0

/-- What `xdr_datum` sends of a field. -/
def wireBytes (order : ByteOrder) (size : Nat) (desc : XdrDsc) (m : Nat → UInt8) : Nat :=
  match desc.dscDtype with
  | .varying | .cstring => 4 + roundUp (sentLength order size desc m)
  | _ => mostBytes desc

theorem xdrVarying_produces {dscLength : Nat} (plain : 2 ≤ dscLength) (small : dscLength < 65536) :
    Produces (xdrVarying port size p dscLength) m
      (4 + roundUp (min (dscLength - 2) (number port.order (slice m p 2)))) := by
  have count : ushort (dscLength + 65534) = dscLength - 2 := by
    unfold ushort
    omega
  intro before xdrs sent
  unfold xdrVarying at sent
  cases start : xdrShort port size p ⟨.encode, before, m⟩ with
  | error fault =>
    rw [start] at sent
    cases sent
  | ok xdrs₁ =>
    obtain ⟨bytes, rfl, length⟩ := xdrShort_produces before xdrs₁ start
    rw [start, xdr_bind] at sent
    dsimp only at sent
    rw [count] at sent
    obtain ⟨bytes', rfl, length'⟩ := xdrOpaque_produces _ xdrs sent
    refine ⟨bytes ++ bytes', by rw [List.append_assoc], ?_⟩
    rw [List.length_append, length, length', padding_roundUp (by omega)]

/-- A `cstring` whose length does not fit an `SSHORT` is not sent. -/
theorem xdrTerminated_produces {dscLength : Nat} (plain : 1 ≤ dscLength) (small : dscLength < 65536)
    (bound : size < 65536) {before : List UInt8} {xdrs : Xdr}
    (sent : xdrTerminated port size p dscLength ⟨.encode, before, m⟩ = .ok xdrs) :
    min (strlen m p (size - p)) (dscLength - 1) < 32768 ∧
      ∃ bytes, xdrs = ⟨.encode, before ++ bytes, m⟩ ∧
        bytes.length = 4 + roundUp (min (strlen m p (size - p)) (dscLength - 1)) := by
  have count : ushort (min (strlen m p (size - p)) (ulong (dscLength + 4294967295))) =
      min (strlen m p (size - p)) (dscLength - 1) := by
    unfold ushort ulong
    omega
  simp only [xdrTerminated] at sent
  rw [count] at sent
  generalize min (strlen m p (size - p)) (dscLength - 1) = n at sent ⊢
  split at sent
  · by_cases short : n < 32768
    · rw [show signExtend n = n from if_pos short] at sent
      obtain ⟨bytes, rfl, length⟩ := xdrOpaque_produces _ xdrs sent
      refine ⟨short, bigEndian 4 n ++ bytes, ?_, ?_⟩
      · simp
      · rw [List.length_append, length_bigEndian, length, padding_roundUp (by omega)]
    · have outside : ¬inMessage size p (signExtend n) = true := by
        rw [inMessage_iff]
        unfold signExtend
        rw [if_neg short]
        omega
      have failed : xdrOpaque port size p (signExtend n)
          ⟨.encode, before ++ bigEndian 4 (signExtend n), m⟩ = .error .outside :=
        xdrOpaque_outside outside
      exact absurd (failed.symm.trans sent) (by simp)
  · cases sent

theorem xdrDatum_produces (bound : size < 65536) (plain : Plain desc) {before : List UInt8}
    {xdrs : Xdr} (sent : xdrDatum port size desc ⟨.encode, before, m⟩ = .ok xdrs) :
    (desc.dscDtype = .cstring → sentLength port.order size desc m < 32768) ∧
      ∃ bytes, xdrs = ⟨.encode, before ++ bytes, m⟩ ∧
        bytes.length = wireBytes port.order size desc m := by
  obtain ⟨dtype, length, p, small⟩ := desc
  cases dtype with
  | text =>
    obtain ⟨bytes, rfl, count⟩ := xdrOpaque_produces _ xdrs sent
    exact ⟨nofun, bytes, rfl, count.trans (padding_roundUp small)⟩
  | varying => exact ⟨nofun, xdrVarying_produces (plain.1 rfl) small _ xdrs sent⟩
  | cstring =>
    obtain ⟨short, produced⟩ := xdrTerminated_produces (plain.2 rfl) small bound sent
    exact ⟨fun _ => short, produced⟩
  | short => exact ⟨nofun, xdrShort_produces _ xdrs sent⟩
  | sqlTime | sqlDate | long | real => exact ⟨nofun, xdrLong_produces _ xdrs sent⟩
  | double => exact ⟨nofun, xdrTempLongs_produces _ xdrs sent⟩
  | int64 => exact ⟨nofun, xdrTempLongs_produces _ xdrs sent⟩
  | timestamp | array | quad | blob => exact ⟨nofun, xdrQuad_produces _ xdrs sent⟩

theorem roundUp_mono {j k : Nat} (h : j ≤ k) : roundUp j ≤ roundUp k := by
  unfold roundUp
  omega

theorem wireBytes_le {order : ByteOrder}
    (short : desc.dscDtype = .cstring → sentLength order size desc m < 32768) :
    wireBytes order size desc m ≤ mostBytes desc := by
  unfold wireBytes mostBytes
  cases dtype : desc.dscDtype with
  | varying =>
    refine Nat.add_le_add_left (roundUp_mono ?_) 4
    simp only [sentLength, dtype]
    exact Nat.min_le_left _ _
  | cstring =>
    refine Nat.add_le_add_left (roundUp_mono ?_) 4
    have fits := short dtype
    simp only [sentLength, dtype] at fits ⊢
    omega
  | _ => exact Nat.le_refl _

/-- No message of the format is larger. -/
theorem xdrData_most {descs : List XdrDsc} (bound : size < 65536)
    (plain : ∀ desc ∈ descs, Plain desc) {before : List UInt8} {xdrs : Xdr}
    (sent : xdrData port size descs ⟨.encode, before, m⟩ = .ok xdrs) :
    xdrs.stream.length ≤ before.length + mostTotal descs := by
  induction descs generalizing before with
  | nil =>
    obtain rfl := Except.ok.inj sent
    exact Nat.le_refl _
  | cons desc descs ih =>
    rw [xdrData] at sent
    cases first : xdrDatum port size desc ⟨.encode, before, m⟩ with
    | error fault =>
      rw [first] at sent
      cases sent
    | ok xdrs₁ =>
      obtain ⟨short, bytes, rfl, length⟩ :=
        xdrDatum_produces bound (plain desc List.mem_cons_self) first
      rw [first, xdr_bind] at sent
      have most := wireBytes_le short
      have later := ih (fun d mem => plain d (List.mem_cons_of_mem _ mem)) sent
      rw [List.length_append, length] at later
      unfold mostTotal at later ⊢
      rw [List.map_cons, List.sum_cons]
      omega

/-- What makes a string as long as it can be sent. -/
def fullest (order : ByteOrder) (desc : XdrDsc) : List UInt8 :=
  match desc.dscDtype with
  | .varying => numberBytes order 2 (desc.dscLength - 2)
  | .cstring => List.replicate (min (desc.dscLength - 1) 32767) 1 ++ [0]
  | _ => []

theorem length_fullest (order : ByteOrder) (plain : Plain desc) :
    (fullest order desc).length ≤ desc.dscLength := by
  unfold fullest
  cases dtype : desc.dscDtype with
  | varying => exact (length_numberBytes order 2 _).le.trans (plain.1 dtype)
  | cstring =>
    have some := plain.2 dtype
    rw [List.length_append, List.length_replicate, List.length_singleton]
    omega
  | _ => exact Nat.zero_le _

/-- Such a field can be sent, and takes all that is possible. -/
theorem full_spec {order : ByteOrder} (plain : Plain desc) (sized : Sized desc)
    (holds : Holds m desc.dscAddress (fullest order desc))
    (inside : desc.dscAddress + desc.dscLength ≤ size) :
    desc.Fits order m ∧ desc.Carried order size m ∧
      wireBytes order size desc m = mostBytes desc := by
  obtain ⟨dtype, length, p, small⟩ := desc
  dsimp only at inside holds
  cases dtype with
  | varying =>
    have two : 2 ≤ length := plain.1 rfl
    have number : number order (slice m p 2) = length - 2 :=
      (holds_numberBytes (by omega)).mp holds
    have count : ushort (length + 65534) = length - 2 := by
      unfold ushort
      omega
    refine ⟨?_, ⟨inMessage_iff.mpr (.inr ?_), nofun⟩, ?_⟩
    · show InterBase.number order (slice m p 2) ≤ ushort (length + 65534)
      rw [number, count]
    · show p + (2 + InterBase.number order (slice m p 2)) ≤ size
      rw [number]
      omega
    · show 4 + roundUp (min (length - 2) (InterBase.number order (slice m p 2))) = _
      rw [number, Nat.min_self]
      rfl
  | cstring =>
    have one : 1 ≤ length := plain.2 rfl
    let k := min (length - 1) 32767
    have text : slice m p k = List.replicate k 1 := by
      have front := (holds_append.mp holds).1
      unfold Holds at front
      rwa [List.length_replicate] at front
    have zero : m (p + k) = 0 := by
      have back := (holds_append.mp holds).2
      rw [List.length_replicate, holds_cons] at back
      exact back.1
    have scan : ∀ limit, k < limit → strlen m p limit = k := by
      intro limit less
      refine (strlen_eq_iff less).mpr ⟨?_, zero⟩
      rw [text]
      simp
    have less : k < length := by omega
    refine ⟨?_, ⟨inMessage_iff.mpr (.inr ?_), fun _ => ?_⟩, ?_⟩
    · show strlen m p length < length
      rw [scan length less]
      exact less
    · show p + (strlen m p length + 1) ≤ size
      rw [scan length less]
      omega
    · show strlen m p length < 32768
      rw [scan length less]
      omega
    · show 4 + roundUp (min (strlen m p (size - p)) (length - 1)) = 4 + roundUp k
      rw [scan _ (by omega), Nat.min_eq_left (by omega)]
  | text =>
    exact ⟨trivial, ⟨inMessage_iff.mpr (.inr inside), nofun⟩, rfl⟩
  | short | sqlTime | sqlDate | long | real | double | int64 | timestamp | array | quad | blob =>
    have exact_length := sized _ rfl
    dsimp only at exact_length
    subst exact_length
    exact ⟨trivial, ⟨inMessage_iff.mpr (.inr inside), nofun⟩, rfl⟩

/-- A message with the longest strings. -/
def fullMessage (order : ByteOrder) : List XdrDsc → Nat → UInt8
  | [], _ => 0
  | desc :: descs, a => write (fullMessage order descs) desc.dscAddress (fullest order desc) a

theorem fullMessage_holds {order : ByteOrder} {descs : List XdrDsc} {offset last : Nat}
    (laid : Laid offset last descs) (plain : ∀ desc ∈ descs, Plain desc) :
    ∀ desc ∈ descs, Holds (fullMessage order descs) desc.dscAddress (fullest order desc) ∧
      offset ≤ desc.dscAddress ∧ desc.dscAddress + desc.dscLength ≤ last := by
  induction descs generalizing offset with
  | nil => exact fun desc mem => absurd mem List.not_mem_nil
  | cons first descs ih =>
    obtain ⟨here, later⟩ := laid
    have short := length_fullest order (plain first List.mem_cons_self)
    intro desc mem
    rcases List.mem_cons.mp mem with rfl | mem
    · exact ⟨holds_write _ _ _, here, later.le⟩
    · obtain ⟨holds, behind, inside⟩ :=
        ih later (fun d h => plain d (List.mem_cons_of_mem _ h)) desc mem
      exact ⟨holds.write _ (.inr (by omega)), by omega, inside⟩

theorem xdrData_full {order : ByteOrder} {descs : List XdrDsc} (bound : size < 65536)
    (plain : ∀ desc ∈ descs, Plain desc) (sized : ∀ desc ∈ descs, Sized desc)
    (ordered : port.order = order)
    (holds : ∀ desc ∈ descs, Holds m desc.dscAddress (fullest order desc) ∧
      desc.dscAddress + desc.dscLength ≤ size) (before : List UInt8) :
    ∃ xdrs, xdrData port size descs ⟨.encode, before, m⟩ = .ok xdrs ∧
      xdrs.stream.length = before.length + mostTotal descs := by
  induction descs generalizing before with
  | nil => exact ⟨_, rfl, rfl⟩
  | cons desc descs ih =>
    have mem : desc ∈ desc :: descs := List.mem_cons_self
    obtain ⟨fits, carried, all⟩ := full_spec (plain desc mem) (sized desc mem) (holds desc mem).1
      (holds desc mem).2
    rw [← ordered] at fits carried all
    obtain ⟨bytes, sent, -⟩ := xdrDatum_travels (Eq.refl port.highFirst) fits carried before
    obtain ⟨-, bytes', equal, length⟩ := xdrDatum_produces bound (plain desc mem) sent
    obtain rfl : bytes = bytes' := by
      have same := congrArg Xdr.stream equal
      exact List.append_cancel_left same
    obtain ⟨xdrs, rest, total⟩ := ih (fun d h => plain d (List.mem_cons_of_mem _ h))
      (fun d h => sized d (List.mem_cons_of_mem _ h))
      (fun d h => holds d (List.mem_cons_of_mem _ h)) (before ++ bytes)
    refine ⟨xdrs, ?_, ?_⟩
    · rw [xdrData, sent, xdr_bind, rest]
    · rw [total, List.length_append, length, all]
      unfold mostTotal
      rw [List.map_cons, List.sum_cons]
      omega

/-- The largest message of a format. -/
theorem mostTotal_greatest {format : Fmt} (asymmetric : port.portSymmetric = false)
    (wellLaid : WellLaid format) (plain : ∀ desc ∈ format.fmtDesc, Plain desc) :
    IsGreatest {n | ∃ m xdrs, xdrMessage port format ⟨.encode, [], m⟩ = .ok xdrs ∧
      xdrs.stream.length = n} (mostTotal format.fmtDesc) := by
  have sends (xdrs : Xdr) : xdrMessage port format xdrs =
      xdrData port format.fmtLength format.fmtDesc xdrs := by
    simp [xdrMessage, asymmetric]
  constructor
  · obtain ⟨xdrs, sent, length⟩ := xdrData_full format.length_lt plain wellLaid.sized rfl
      (fun desc mem => by
        obtain ⟨holds, -, inside⟩ := fullMessage_holds wellLaid.laid plain desc mem
        exact ⟨holds, inside⟩) []
    refine ⟨_, xdrs, (sends _).trans sent, ?_⟩
    rw [length, List.length_nil, Nat.zero_add]
  · rintro n ⟨m, xdrs, sent, rfl⟩
    rw [sends] at sent
    have most := xdrData_most format.length_lt plain sent
    rwa [List.length_nil, Nat.zero_add] at most

theorem netLength_eq (plain : Plain desc) (sized : Sized desc) :
    (netLength desc : Int) = mostBytes desc + excess desc := by
  obtain ⟨dtype, length, p, small⟩ := desc
  cases dtype with
  | text => simp [netLength, mostBytes, excess, roundUp]
  | varying =>
    have two : 2 ≤ length := plain.1 rfl
    simp only [netLength, mostBytes, excess, roundUp, if_true, reduceCtorEq, if_false]
    omega
  | cstring =>
    have one : 1 ≤ length := plain.2 rfl
    simp only [netLength, mostBytes, excess, roundUp, if_true, reduceCtorEq, if_false]
    split_ifs <;> omega
  | short | sqlTime | sqlDate | long | real | double | int64 | timestamp | array | quad | blob =>
    have exact_length := sized _ rfl
    dsimp only at exact_length
    subst exact_length
    simp [netLength, mostBytes, excess]

theorem netTotal_eq {descs : List XdrDsc} (plain : ∀ desc ∈ descs, Plain desc)
    (sized : ∀ desc ∈ descs, Sized desc) :
    (netTotal descs : Int) = mostTotal descs + excessTotal descs := by
  induction descs with
  | nil => rfl
  | cons desc descs ih =>
    have rest := ih (fun d h => plain d (List.mem_cons_of_mem _ h))
      (fun d h => sized d (List.mem_cons_of_mem _ h))
    have first := netLength_eq (plain desc List.mem_cons_self) (sized desc List.mem_cons_self)
    unfold netTotal mostTotal excessTotal at rest ⊢
    simp only [List.map_cons, List.sum_cons]
    push_cast at rest ⊢
    omega

theorem netExact_iff {message : RemoteMsg} (wellLaid : WellLaid message.format)
    (plain : ∀ desc ∈ message.format.fmtDesc, Plain desc) :
    NetExact message ↔ message.fmtNetLength = mostTotal message.format.fmtDesc := by
  constructor
  · intro net
    let port : XdrPort := ⟨.vax, true, false, fun _ => 0⟩
    exact (net port rfl).unique (mostTotal_greatest rfl wellLaid plain)
  · intro equal port asymmetric
    rw [equal]
    exact mostTotal_greatest asymmetric wellLaid plain

theorem remoteMsgs_exact {ms : List ParMsg} {net before : Nat}
    (wellLaid : ∀ m ∈ ms, WellLaid m.format)
    (plain : ∀ m ∈ ms, ∀ desc ∈ m.format.fmtDesc, Plain desc) (counted : net = ushort before) :
    (∀ message ∈ remoteMsgs net ms, NetExact message) ↔ MadeUp before ms := by
  induction ms generalizing net before with
  | nil => exact iff_of_true (fun message mem => absurd mem List.not_mem_nil) trivial
  | cons m ms ih =>
    have laid := wellLaid m List.mem_cons_self
    have total := netTotal_eq (plain m List.mem_cons_self) laid.sized
    have next : ushort (net + netTotal m.format.fmtDesc) =
        ushort (before + netTotal m.format.fmtDesc) := by
      rw [counted]
      unfold ushort
      omega
    have rest := ih (fun m' h => wellLaid m' (List.mem_cons_of_mem _ h))
      (fun m' h => plain m' (List.mem_cons_of_mem _ h)) next
    have exact_iff : NetExact
        ⟨m.msgNumber, m.format, ushort (net + netTotal m.format.fmtDesc)⟩ ↔ _ :=
      netExact_iff laid (plain m List.mem_cons_self)
    have first : ushort (net + netTotal m.format.fmtDesc) = mostTotal m.format.fmtDesc ↔
        ((before : Int) + excessTotal m.format.fmtDesc) % 65536 = 0 ∧
          mostTotal m.format.fmtDesc < 65536 := by
      rw [counted]
      unfold ushort
      omega
    unfold remoteMsgs MadeUp
    rw [List.forall_mem_cons, exact_iff, rest, first, and_assoc]

end

/-- The same messages with the same fields, offsets and lengths. -/
def SameMessages (ms : List ParMsg) (messages : List RemoteMsg) : Prop :=
  List.Forall₂ (fun m message => message.msgNumber = m.msgNumber ∧ message.format = m.format) ms
    messages.reverse

theorem remoteMsgs_same (net : Nat) (ms : List ParMsg) :
    SameMessages ms (remoteMsgs net ms).reverse := by
  unfold SameMessages
  rw [List.reverse_reverse]
  induction ms generalizing net with
  | nil => exact .nil
  | cons m ms ih => exact .cons ⟨rfl, rfl⟩ (ih _)

/-- Where no field is counted wrong, only the last message may have any bytes. -/
theorem madeUp_iff_silent {ms : List ParMsg} {before : Nat} (start : before % 65536 = 0)
    (right : ∀ m ∈ ms, excessTotal m.format.fmtDesc = 0 ∧
      netTotal m.format.fmtDesc = mostTotal m.format.fmtDesc) :
    MadeUp before ms ↔ (∀ m ∈ ms, mostTotal m.format.fmtDesc < 65536) ∧
      ∀ m ∈ ms.dropLast, mostTotal m.format.fmtDesc = 0 := by
  induction ms generalizing before with
  | nil => simp [MadeUp]
  | cons m ms ih =>
    obtain ⟨none, same⟩ := right m List.mem_cons_self
    unfold MadeUp
    rw [none, same]
    cases ms with
    | nil =>
      simp only [MadeUp, List.dropLast_singleton, List.not_mem_nil, List.mem_singleton, forall_eq]
      constructor
      · exact fun h => ⟨h.2.1, fun _ h => h.elim⟩
      · exact fun h => ⟨by omega, h.1, trivial⟩
    | cons m' ms =>
      rw [List.dropLast_cons_cons]
      have rest := fun (h : (before + mostTotal m.format.fmtDesc) % 65536 = 0) =>
        ih h fun d mem => right d (List.mem_cons_of_mem _ mem)
      constructor
      · rintro ⟨-, small, later⟩
        have next : (before + mostTotal m.format.fmtDesc) % 65536 = 0 := by
          have made := later.1
          rw [(right m' (by simp)).1] at made
          omega
        obtain ⟨all, silent⟩ := (rest next).mp later
        exact ⟨List.forall_mem_cons.mpr ⟨small, all⟩, List.forall_mem_cons.mpr ⟨by omega, silent⟩⟩
      · rintro ⟨all, silent⟩
        obtain ⟨small, all⟩ := List.forall_mem_cons.mp all
        obtain ⟨zero, silent⟩ := List.forall_mem_cons.mp silent
        exact ⟨by omega, small, (rest (by omega)).mpr ⟨all, silent⟩⟩

/-- Both layers lay out every message list in the same way. Where every string has room for its
count or terminator, the lengths on the line are right if and only if what was counted before is
made up for in every message. -/
theorem parseMessages_iff {wide : Bool} {blr : List UInt8} {ms : List ParMsg}
    (accepted : parMessages wide blr = some ms) :
    ∃ messages, parseMessages wide blr = some messages ∧ SameMessages ms messages ∧
      ((∀ m ∈ ms, ∀ desc ∈ m.format.fmtDesc, Plain desc) →
        ((∀ message ∈ messages, NetExact message) ↔ MadeUp 0 ms)) := by
  obtain ⟨wellLaid, parsed⟩ := parMessages_spec accepted
  refine ⟨_, parsed, remoteMsgs_same 0 ms, fun plain => ?_⟩
  rw [← remoteMsgs_exact wellLaid plain (show 0 = ushort 0 from rfl)]
  exact forall_congr' fun message => by rw [List.mem_reverse]

/-- A number and a name of ten bytes, then a number, a code of three bytes and a flag. -/
def orderMsgs : List ParMsg :=
  [⟨0, ⟨14, [dsc .short 2, { dsc .varying 12 with dscAddress := 2 }], by decide⟩⟩,
    ⟨1, ⟨10, [dsc .long 4, { dsc .text 3 with dscAddress := 4 },
      { dsc .short 2 with dscAddress := 8 }], by decide⟩⟩]

def orderBlr : List UInt8 :=
  [5, 2, 4, 0, 2, 0, 7, 0, 37, 10, 0, 4, 1, 3, 0, 8, 0, 14, 3, 0, 7, 0, 255]

set_option maxRecDepth 2000 in
theorem parMessages_order : parMessages false orderBlr = some orderMsgs := rfl

theorem parseMessages_iff_order :
    ∃ messages, parseMessages false orderBlr = some messages ∧
      SameMessages orderMsgs messages ∧
      ((∀ m ∈ orderMsgs, ∀ desc ∈ m.format.fmtDesc, Plain desc) →
        ((∀ message ∈ messages, NetExact message) ↔ MadeUp 0 orderMsgs)) :=
  parseMessages_iff parMessages_order

/-- A message of one `SSHORT`. -/
def shortMsg (number : Nat) : ParMsg := ⟨number, ⟨2, [dsc .short 2], by decide⟩⟩

set_option maxRecDepth 2000 in
theorem parMessages_shorts :
    parMessages false [5, 2, 4, 0, 1, 0, 7, 0, 4, 1, 1, 0, 7, 0, 255] =
      some [shortMsg 0, shortMsg 1] := rfl

/-- The net length of the second message is that of both. -/
theorem parseMessages_adds_up :
    parMessages false [5, 2, 4, 0, 1, 0, 7, 0, 4, 1, 1, 0, 7, 0, 255] =
      some [shortMsg 0, shortMsg 1] ∧
    ¬∃ messages, parseMessages false [5, 2, 4, 0, 1, 0, 7, 0, 4, 1, 1, 0, 7, 0, 255] =
      some messages ∧ ∀ message ∈ messages, NetExact message := by
  refine ⟨parMessages_shorts, ?_⟩
  rintro ⟨messages, parsed, all⟩
  obtain ⟨wellLaid, parsed'⟩ := parMessages_spec parMessages_shorts
  obtain rfl := Option.some.inj (parsed.symm.trans parsed')
  have plain : ∀ m ∈ [shortMsg 0, shortMsg 1], ∀ desc ∈ m.format.fmtDesc, Plain desc := by
    simp [shortMsg, dsc, Plain]
  have madeUp := (remoteMsgs_exact wellLaid plain (show 0 = ushort 0 from rfl)).mp fun message mem =>
    all message (List.mem_reverse.mpr mem)
  exact absurd madeUp.2.2.1 (by decide)

end InterBase.Blr
