import InterBase.XdrRoundTrip

namespace InterBase.Response

open Memory BigEndian

/-- An entry of a status vector: a number, a pointer to characters with a zero byte behind them, or
a pointer into the buffer of `send_response`. -/
inductive Status where
  | number (n : UInt32)
  | text (characters : List UInt8)
  | buffer (offset : Nat)
deriving Repr, DecidableEq

/-- Translate a status code to network form. -/
def gdsDecode (code : UInt32) : UInt32 :=
  if code = 0 then 0
  else if code &&& 335544320 ≠ 335544320 then code
  else code &&& 65535

/-- What `send_response` has put into `new_vector` and `buffer`. -/
structure Sending where
  newVector : List Status
  buffer : Nat → UInt8
  p : Nat

/-- `*v++ = status`. -/
def Sending.put (s : Sending) (status : Status) : Option Sending :=
  if s.newVector.length < 20 then some { s with newVector := s.newVector ++ [status] } else none

def Sending.store (s : Sending) (bytes : List UInt8) : Option Sending :=
  if s.p + bytes.length ≤ 1024 then
    some { s with buffer := write s.buffer s.p bytes, p := s.p + bytes.length }
  else none

/-- The loop over the arguments of a code. -/
def sendArguments : List Status → Sending → Option (List Status × Sending)
  | .number tag :: rest, s =>
    if tag = 2 ∨ tag = 4 then
      match rest with
      | argument :: rest =>
        ((s.put (.number tag)).bind fun s => s.put argument).bind (sendArguments rest)
      | [] => none
    else if tag = 3 then
      match rest with
      | .number length :: .text characters :: rest =>
        let l := length.toNat % 65536
        if l ≤ characters.length then
          ((s.put (.number 2)).bind fun s => s.put (.buffer s.p)).bind fun s =>
            (s.store (characters.take l ++ [0])).bind (sendArguments rest)
        else none
      | _ => none
    else some (.number tag :: rest, s)
  | _, _ => none

/-- The outer loop. The text that `gds__interprete` makes of other entries is the last one. -/
def sendLoop (protocol : Nat) (interprete : List Status → Option (List UInt8)) :
    Nat → List Status → Sending → Option Sending
  | fuel + 1, .number tag :: rest, s =>
    if tag = 0 then some s
    else if tag.toNat % 65536 = 18 ∨ tag.toNat % 65536 = 1 then
      -- older clients get no warnings
      if tag = 18 ∧ protocol < 10 then some s
      else
        match rest with
        | .number code :: rest =>
          ((s.put (.number tag)).bind fun s =>
            s.put (.number (if protocol < 10 then gdsDecode code else code))).bind fun s =>
              (sendArguments rest s).bind fun (rest, s) => sendLoop protocol interprete fuel rest s
        | _ => none
    else if tag.toNat % 65536 = 5 then
      match rest with
      | argument :: rest =>
        ((s.put (.number tag)).bind fun s => s.put argument).bind
          (sendLoop protocol interprete fuel rest)
      | [] => none
    else
      match interprete (.number tag :: rest) with
      | none => some s
      | some text =>
        ((s.put (.number 5)).bind fun s => s.put (.buffer s.p)).bind fun s => s.store (text ++ [0])
  | _, _, _ => none

/-- Send a response packet: the status vector in its generic form. -/
def sendResponse (protocol : Nat) (interprete : List Status → Option (List UInt8))
    (stack : Nat → UInt8) (vector : List Status) : Option Sending :=
  (sendLoop protocol interprete vector.length vector ⟨[], stack, 0⟩).bind fun s =>
    s.put (.number 0)

/-- The string at a pointer. -/
def pointed (buffer : Nat → UInt8) : Status → Option (List UInt8)
  | .text characters => some (characters.takeWhile (· ≠ 0))
  | .buffer offset =>
    let length := strlen buffer offset (1024 - offset)
    if offset + length < 1024 then some (slice buffer offset length) else none
  | .number _ => none

def xdrStringEncode (trash : Nat → UInt8) (characters : List UInt8) (xdrs : Xdr) : Option Xdr :=
  if characters.length ≤ 65535 then
    let xdrs := (xdrs.putlong characters.length).putbytes characters
    some (xdrs.putbytes ((List.range (padding characters.length)).map trash))
  else none

def xdrStringDecode (xdrs : Xdr) : Option (List UInt8 × Xdr) :=
  xdrs.getlong.toOption.bind fun (length, xdrs) =>
    if length ≤ 65535 then
      (xdrs.getbytes length).toOption.bind fun (characters, xdrs) =>
        (xdrs.getbytes (padding length)).toOption.map fun (_, xdrs) => (characters, xdrs)
    else none

/-- `xdr_status_vector` as it encodes. -/
def xdrStatusEncode (trash buffer : Nat → UInt8) : List Status → Xdr → Option Xdr
  | .number vec :: rest, xdrs =>
    let xdrs := xdrs.putlong vec.toNat
    if vec.toNat % 65536 = 0 then some xdrs
    else if vec.toNat % 65536 = 5 ∨ vec.toNat % 65536 = 2 then
      match rest with
      | string :: rest =>
        (pointed buffer string).bind fun characters =>
          (xdrStringEncode trash characters xdrs).bind (xdrStatusEncode trash buffer rest)
      | [] => none
    else
      match rest with
      | .number n :: rest => xdrStatusEncode trash buffer rest (xdrs.putlong n.toNat)
      | _ => none
  | _, _ => none

/-- `xdr_status_vector` as it decodes, with what is left of the strings table and of the vector. A
string that a slot of the table still holds is freed. -/
def xdrStatusDecode : Nat → Nat → Nat → Xdr → Option (List Status × Xdr)
  | fuel + 1, strings, room + 1, xdrs =>
    xdrs.getlong.toOption.bind fun (vec, xdrs) =>
      if vec % 65536 = 0 then some ([.number (UInt32.ofNat vec)], xdrs)
      else if vec % 65536 = 5 ∨ vec % 65536 = 2 then
        if strings = 0 ∨ room = 0 then none
        else
          (xdrStringDecode xdrs).bind fun (characters, xdrs) =>
            (xdrStatusDecode fuel (strings - 1) (room - 1) xdrs).map fun (vector, xdrs) =>
              (.number (UInt32.ofNat vec) :: .text characters :: vector, xdrs)
      else if room = 0 then none
      else
        xdrs.getlong.toOption.bind fun (n, xdrs) =>
          (xdrStatusDecode fuel strings (room - 1) xdrs).map fun (vector, xdrs) =>
            (.number (UInt32.ofNat vec) :: .number (UInt32.ofNat n) :: vector, xdrs)
  | _, _, _, _ => none

inductive Argument where
  | string (characters : List UInt8)
  | cstring (characters : List UInt8)
  | number (n : UInt32)
deriving Repr, DecidableEq

structure Cluster where
  warning : Bool
  code : UInt32
  arguments : List Argument
deriving Repr, DecidableEq

def Argument.entries : Argument → List Status
  | string characters => [.number 2, .text characters]
  | cstring characters => [.number 3, .number (UInt32.ofNat characters.length), .text characters]
  | number n => [.number 4, .number n]

def Cluster.tag (c : Cluster) : UInt32 := if c.warning then 18 else 1

def Cluster.entries (c : Cluster) : List Status :=
  .number c.tag :: .number c.code :: c.arguments.flatMap Argument.entries

/-- A well-formed status vector: a string has no zero byte, a count fits its entry, and there are at
most 20 entries. -/
structure StatusVector where
  clusters : List Cluster
  terminated : ∀ c ∈ clusters, ∀ xs, .string xs ∈ c.arguments → 0 ∉ xs
  counts : ∀ c ∈ clusters, ∀ xs, .cstring xs ∈ c.arguments → xs.length < 4294967296
  short : (clusters.flatMap Cluster.entries ++ [Status.number 0]).length ≤ 20

def StatusVector.entries (v : StatusVector) : List Status :=
  v.clusters.flatMap Cluster.entries ++ [.number 0]

/-- What is said to a client of the given protocol: to an older one, nothing from a warning on. -/
def said (protocol : Nat) (clusters : List Cluster) : List Cluster :=
  if protocol < 10 then clusters.takeWhile fun c => !c.warning else clusters

def clientCode (protocol : Nat) (code : UInt32) : UInt32 :=
  if protocol < 10 then gdsDecode code else code

/-- The argument as the client has it. -/
def Argument.received : Argument → List Status
  | string characters => [.number 2, .text characters]
  | cstring characters => [.number 2, .text characters]
  | number n => [.number 4, .number n]

/-- The vector as the client has it. -/
def StatusVector.received (protocol : Nat) (v : StatusVector) : List Status :=
  (said protocol v.clusters).flatMap (fun c => .number c.tag ::
    .number (clientCode protocol c.code) :: c.arguments.flatMap Argument.received) ++ [.number 0]

/-- The response is made within the vector and the buffer, and what is sent of it is read back as
the same vector, with ten slots for strings and twenty entries. -/
def Survives (protocol : Nat) (interprete : List Status → Option (List UInt8)) (v : StatusVector) :
    Prop :=
  ∀ stack trash m, ∃ sent, sendResponse protocol interprete stack v.entries = some sent ∧
    ∀ before, ∃ bytes, xdrStatusEncode trash sent.buffer sent.newVector ⟨.encode, before, m⟩ =
        some ⟨.encode, before ++ bytes, m⟩ ∧
      ∀ rest, xdrStatusDecode (bytes ++ rest).length 10 20 ⟨.decode, bytes ++ rest, m⟩ =
        some (v.received protocol, ⟨.decode, rest, m⟩)

/-- What a counted string takes of the buffer. -/
def Argument.room : Argument → Nat
  | string _ => 0
  | cstring characters => characters.length + 1
  | number _ => 0

/-- The counted strings fit the buffer and have no zero byte; the others have at most 65535
characters. -/
structure Carried (protocol : Nat) (v : StatusVector) : Prop where
  room : ((said protocol v.clusters).flatMap fun c => c.arguments.map Argument.room).sum ≤ 1024
  whole : ∀ c ∈ said protocol v.clusters, ∀ xs, .cstring xs ∈ c.arguments → 0 ∉ xs
  short : ∀ c ∈ said protocol v.clusters, ∀ xs, .string xs ∈ c.arguments → xs.length ≤ 65535

end InterBase.Response
