import InterBase.XdrMessage
import Mathlib.Order.Bounds.Basic

namespace InterBase.Blr

/-- The types that the fields of a message can have. -/
inductive BlrType where
  | text
  | text2
  | short
  | long
  | quad
  | float
  | double
  | dFloat
  | timestamp
  | varying
  | varying2
  | cstring
  | cstring2
  | sqlDate
  | sqlTime
  | int64
deriving Repr, DecidableEq

def blrType : Nat → Option BlrType
  | 7 => some .short
  | 8 => some .long
  | 9 => some .quad
  | 10 => some .float
  | 11 => some .dFloat
  | 12 => some .sqlDate
  | 13 => some .sqlTime
  | 14 => some .text
  | 15 => some .text2
  | 16 => some .int64
  | 27 => some .double
  | 35 => some .timestamp
  | 37 => some .varying
  | 38 => some .varying2
  | 40 => some .cstring
  | 41 => some .cstring2
  | _ => none

/-- `DOUBLE_ALIGN` of the machine. -/
def doubleAlign (wide : Bool) : Nat := if wide then 8 else 4

def typeAlignments (wide : Bool) : XdrDtype → Nat
  | .text => 0
  | .cstring => 0
  | .varying => 2
  | .short => 2
  | .long => 4
  | .quad => 4
  | .real => 4
  | .double => doubleAlign wide
  | .sqlDate => 4
  | .sqlTime => 4
  | .timestamp => 4
  | .blob => 4
  | .array => 4
  | .int64 => 8

/-- `(n + b - 1) & ~(b - 1)`, for a power of two. -/
def fbAlign (n b : Nat) : Nat := (n + b - 1) / b * b

/-- The next byte; nothing is promised about what lies behind the last one. -/
def blrByte : List UInt8 → Option (Nat × List UInt8)
  | [] => none
  | b :: blr => some (b.toNat, blr)

def blrWord (blr : List UInt8) : Option (Nat × List UInt8) :=
  (blrByte blr).bind fun (low, blr) => (blrByte blr).map fun (high, blr) => (low + high * 256, blr)

/-- A descriptor without an address; its length is a `USHORT`. -/
def dsc (dtype : XdrDtype) (length : Nat) : XdrDsc := ⟨dtype, ushort length, 0, ushort_lt length⟩

def parFields : BlrType → List UInt8 → Option (XdrDsc × List UInt8)
  | .text, blr => (blrWord blr).map fun (length, blr) => (dsc .text length, blr)
  | .cstring, blr => (blrWord blr).map fun (length, blr) => (dsc .cstring length, blr)
  | .varying, blr => (blrWord blr).map fun (length, blr) => (dsc .varying (length + 2), blr)
  | .text2, blr => (blrWord blr).bind fun (_, blr) =>
    (blrWord blr).map fun (length, blr) => (dsc .text length, blr)
  | .cstring2, blr => (blrWord blr).bind fun (_, blr) =>
    (blrWord blr).map fun (length, blr) => (dsc .cstring length, blr)
  | .varying2, blr => (blrWord blr).bind fun (_, blr) =>
    (blrWord blr).map fun (length, blr) => (dsc .varying (length + 2), blr)
  | .short, blr => (blrByte blr).map fun (_, blr) => (dsc .short 2, blr)
  | .long, blr => (blrByte blr).map fun (_, blr) => (dsc .long 4, blr)
  | .int64, blr => (blrByte blr).map fun (_, blr) => (dsc .int64 8, blr)
  | .quad, blr => (blrByte blr).map fun (_, blr) => (dsc .quad 8, blr)
  | .float, blr => some (dsc .real 4, blr)
  | .timestamp, blr => some (dsc .timestamp 8, blr)
  | .sqlDate, blr => some (dsc .sqlDate 4, blr)
  | .sqlTime, blr => some (dsc .sqlTime 4, blr)
  | .double, blr => some (dsc .double 8, blr)
  | .dFloat, blr => some (dsc .double 8, blr)

/-- Parse a BLR descriptor. A byte is never `blr_blob`, which is 261. -/
def parDesc (blr : List UInt8) : Option (XdrDsc × List UInt8) :=
  (blrByte blr).bind fun (dtype, blr) => (blrType dtype).bind fun type => parFields type blr

/-- The loop of `par_message` over `n` parameters. -/
def parDescs (wide : Bool) : Nat → Nat → List UInt8 → Option (List XdrDsc × Nat × List UInt8)
  | 0, offset, blr => some ([], offset, blr)
  | n + 1, offset, blr =>
    (parDesc blr).bind fun (desc, blr) =>
      let alignment := typeAlignments wide desc.dscDtype
      let offset := if alignment ≠ 0 then ulong (fbAlign offset alignment) else offset
      (parDescs wide n (ulong (offset + desc.dscLength)) blr).map fun (descs, last, blr) =>
        ({ desc with dscAddress := offset } :: descs, last, blr)

structure ParMsg where
  msgNumber : Nat
  format : Fmt

/-- Parse a message declaration; the length is at most `MAX_FORMAT_SIZE`. -/
def parMessage (wide : Bool) (blr : List UInt8) : Option (ParMsg × List UInt8) :=
  (blrByte blr).bind fun (n, blr) => (blrWord blr).bind fun (count, blr) =>
    (parDescs wide count 0 blr).bind fun (descs, offset, blr) =>
      if small : offset < 65536 then some (⟨n, ⟨offset, descs, small⟩⟩, blr) else none

/-- The messages up to the first verb that is not `blr_message`. -/
def parLoop (wide : Bool) : Nat → List UInt8 → Option (List ParMsg)
  | 0, _ => none
  | fuel + 1, blr =>
    (blrByte blr).bind fun (verb, blr) =>
      if verb = 4 then
        (parMessage wide blr).bind fun (message, blr) =>
          (parLoop wide fuel blr).map fun messages => message :: messages
      else some []

/-- The message list of a request: the version, `blr_begin`, and the messages. -/
def parMessages (wide : Bool) (blr : List UInt8) : Option (List ParMsg) :=
  (blrByte blr).bind fun (version, blr) =>
    if version = 4 ∨ version = 5 then
      (blrByte blr).bind fun (verb, blr) =>
        if verb = 2 then parLoop wide blr.length blr else none
    else none

def parseFields : BlrType → List UInt8 → Option (XdrDsc × List UInt8)
  | .text, blr => (blrByte blr).bind fun (low, blr) =>
    (blrByte blr).map fun (high, blr) => (dsc .text (low + high * 256), blr)
  | .varying, blr => (blrByte blr).bind fun (low, blr) =>
    (blrByte blr).map fun (high, blr) => (dsc .varying (ushort (low + 2) + high * 256), blr)
  | .cstring, blr => (blrByte blr).bind fun (low, blr) =>
    (blrByte blr).map fun (high, blr) => (dsc .cstring (low + high * 256), blr)
  | .text2, blr => (blrByte blr).bind fun (_, blr) => (blrByte blr).bind fun (_, blr) =>
    (blrByte blr).bind fun (low, blr) =>
      (blrByte blr).map fun (high, blr) => (dsc .text (low + high * 256), blr)
  | .varying2, blr => (blrByte blr).bind fun (_, blr) => (blrByte blr).bind fun (_, blr) =>
    (blrByte blr).bind fun (low, blr) =>
      (blrByte blr).map fun (high, blr) => (dsc .varying (ushort (low + 2) + high * 256), blr)
  | .cstring2, blr => (blrByte blr).bind fun (_, blr) => (blrByte blr).bind fun (_, blr) =>
    (blrByte blr).bind fun (low, blr) =>
      (blrByte blr).map fun (high, blr) => (dsc .cstring (low + high * 256), blr)
  | .short, blr => (blrByte blr).map fun (_, blr) => (dsc .short 2, blr)
  | .long, blr => (blrByte blr).map fun (_, blr) => (dsc .long 4, blr)
  | .int64, blr => (blrByte blr).map fun (_, blr) => (dsc .int64 8, blr)
  | .quad, blr => (blrByte blr).map fun (_, blr) => (dsc .quad 8, blr)
  | .float, blr => some (dsc .real 4, blr)
  | .double, blr => some (dsc .double 8, blr)
  | .dFloat, blr => some (dsc .double 8, blr)
  | .timestamp, blr => some (dsc .timestamp 8, blr)
  | .sqlDate, blr => some (dsc .sqlDate 4, blr)
  | .sqlTime, blr => some (dsc .sqlTime 4, blr)

def parseDesc (blr : List UInt8) : Option (XdrDsc × List UInt8) :=
  (blrByte blr).bind fun (dtype, blr) => (blrType dtype).bind fun type => parseFields type blr

/-- What a field adds to `net_length`. -/
def netLength (desc : XdrDsc) : Nat :=
  if desc.dscDtype = .varying then 4 + (desc.dscLength + 1) / 4 * 4
  else (desc.dscLength + 3) / 4 * 4

/-- The loop of `PARSE_messages` over the fields of one message. -/
def parseDescs (wide : Bool) :
    Nat → Nat → Nat → List UInt8 → Option (List XdrDsc × Nat × Nat × List UInt8)
  | 0, offset, net, blr => some ([], offset, net, blr)
  | count + 1, offset, net, blr =>
    (parseDesc blr).bind fun (desc, blr) =>
      let align := typeAlignments wide desc.dscDtype
      let net := ushort (net + netLength desc)
      let offset := if 1 < align then ushort (fbAlign offset align) else offset
      (parseDescs wide count (ushort (offset + desc.dscLength)) net blr).map
        fun (descs, last, net, blr) =>
          ({ desc with dscAddress := offset } :: descs, last, net, blr)

structure RemoteMsg where
  msgNumber : Nat
  format : Fmt
  fmtNetLength : Nat

/-- One message; `net_length` goes on from where it stands. -/
def parseMessage (wide : Bool) (net : Nat) (blr : List UInt8) : Option (RemoteMsg × List UInt8) :=
  (blrByte blr).bind fun (number, blr) =>
    (blrByte blr).bind fun (low, blr) => (blrByte blr).bind fun (high, blr) =>
      (parseDescs wide (ushort (low + high * 256)) 0 net blr).map fun (descs, offset, net, blr) =>
        (⟨number, ⟨ushort offset, descs, ushort_lt offset⟩, net⟩, blr)

/-- Every message goes in front of the ones before it. -/
def parseLoop (wide : Bool) :
    Nat → List RemoteMsg → Nat → List UInt8 → Option (List RemoteMsg)
  | 0, _, _, _ => none
  | fuel + 1, message, net, blr =>
    (blrByte blr).bind fun (verb, blr) =>
      if verb = 4 then
        (parseMessage wide net blr).bind fun (next, blr) =>
          parseLoop wide fuel (next :: message) next.fmtNetLength blr
      else some message

/-- Parse the messages of a blr request. The result -1 is none here. -/
def parseMessages (wide : Bool) (blr : List UInt8) : Option (List RemoteMsg) :=
  (blrByte blr).bind fun (version, blr) =>
    if version = 4 ∨ version = 5 then
      (blrByte blr).bind fun (verb, blr) =>
        if verb = 2 then parseLoop wide blr.length [] 0 blr else some []
    else none

section

variable {wide : Bool} {blr rest : List UInt8} {desc : XdrDsc} {descs : List XdrDsc}
  {n offset last net : Nat}

theorem dsc_varying (low high : Nat) :
    dsc .varying (ushort (low + 2) + high * 256) = dsc .varying (low + high * 256 + 2) := by
  have same : ushort (ushort (low + 2) + high * 256) = ushort (low + high * 256 + 2) := by
    unfold ushort
    omega
  unfold dsc
  simp only [same]

theorem parseFields_eq (type : BlrType) (blr : List UInt8) :
    parseFields type blr = parFields type blr := by
  cases type <;> unfold parseFields parFields <;> try rfl
  all_goals
    rcases blr with _ | ⟨a, _ | ⟨b, _ | ⟨c, _ | ⟨d, blr⟩⟩⟩⟩ <;>
      simp [blrByte, blrWord, dsc_varying]

theorem parseDesc_eq (blr : List UInt8) : parseDesc blr = parDesc blr := by
  unfold parseDesc parDesc
  simp only [parseFields_eq]

/-- The length of a type that is not a string. -/
def fixedLength : XdrDtype → Option Nat
  | .text => none
  | .varying => none
  | .cstring => none
  | .short => some 2
  | .sqlTime => some 4
  | .sqlDate => some 4
  | .long => some 4
  | .real => some 4
  | .double => some 8
  | .timestamp => some 8
  | .int64 => some 8
  | .array => some 8
  | .quad => some 8
  | .blob => some 8

def Sized (desc : XdrDsc) : Prop := ∀ l, fixedLength desc.dscDtype = some l → desc.dscLength = l

theorem sized_dsc {dtype : XdrDtype} {length : Nat}
    (h : ∀ l, fixedLength dtype = some l → ushort length = l) : Sized (dsc dtype length) := h

theorem parFields_sized {type : BlrType} (h : parFields type blr = some (desc, rest)) :
    Sized desc := by
  cases type <;> simp only [parFields, Option.map_eq_some_iff, Option.bind_eq_some_iff,
    Option.some.injEq, Prod.mk.injEq, Prod.exists] at h
  case text | cstring | varying | text2 | cstring2 | varying2 =>
    obtain ⟨_, _, _, h⟩ := h
    first
      | obtain ⟨rfl, -⟩ := h
        exact sized_dsc fun l none => absurd none (by simp [fixedLength])
      | obtain ⟨_, _, _, rfl, -⟩ := h
        exact sized_dsc fun l none => absurd none (by simp [fixedLength])
  case short | long | int64 | quad =>
    obtain ⟨_, _, _, rfl, -⟩ := h
    exact sized_dsc fun l fixed => Option.some.inj fixed
  case float | double | dFloat | timestamp | sqlDate | sqlTime =>
    obtain ⟨rfl, -⟩ := h
    exact sized_dsc fun l fixed => Option.some.inj fixed

theorem parDesc_sized (h : parDesc blr = some (desc, rest)) : Sized desc := by
  unfold parDesc at h
  obtain ⟨⟨dtype, blr'⟩, -, h⟩ := Option.bind_eq_some_iff.mp h
  obtain ⟨type, -, h⟩ := Option.bind_eq_some_iff.mp h
  exact parFields_sized h

end

end InterBase.Blr
