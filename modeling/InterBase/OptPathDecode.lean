import InterBase.OptPath

namespace InterBase.AccessPath

/-- What an access path says of an rsb: its name, its type, its index if the type has one, the number
of its streams if the type has one, and the rsbs below it. -/
inductive Desc where
  | mk (name : Option (List UInt8)) (type : UInt8) (index : Option Inversion) (count : Option Nat)
      (subs : List Desc)

def Inversion.encode : Inversion → List UInt8
  | .bitAnd a b => infoAnd :: (a.encode ++ b.encode)
  | .bitOr a b => infoOr :: (a.encode ++ b.encode)
  | .bitDbkey => [infoDbkey]
  | .index name => infoIndex :: counted name.bytes

/-- The name with its item, if there is one. -/
def encodeName (name : Option (List UInt8)) : List UInt8 :=
  name.elim [] fun name => rsbRelation :: counted name

def encodeIndex (index : Option Inversion) : List UInt8 := index.elim [] Inversion.encode

def encodeCount (count : Option Nat) : List UInt8 := count.elim [] fun count => [UInt8.ofNat count]

mutual

def Desc.encode : Desc → List UInt8
  | .mk name type index count subs =>
    rsbBegin :: (encodeName name ++ rsbType :: type :: (encodeIndex index ++ encodeCount count ++
      encodeAll subs ++ [rsbEnd]))

def encodeAll : List Desc → List UInt8
  | [] => []
  | d :: ds => d.encode ++ encodeAll ds

end

/-- Whether an index follows a type. -/
def hasIndex (type : UInt8) : Bool := type = infoIndexed || type = infoNavigate

/-- Whether the number of streams follows a type. -/
def hasCount (type : UInt8) : Bool :=
  type = JoinType.cross.info || type = JoinType.union.info || type = JoinType.merge.info ||
    type = infoLeftCross

mutual

/-- The index and the number of streams are there if the type has them; names and numbers fit into
their bytes. -/
def Desc.Valid : Desc → Prop
  | .mk name type index count subs =>
    (∀ n ∈ name, n.length < 256) ∧ index.isSome = hasIndex type ∧ count.isSome = hasCount type ∧
      (∀ n ∈ count, n < 256) ∧ AllValid subs

def AllValid : List Desc → Prop
  | [] => True
  | d :: ds => d.Valid ∧ AllValid ds

end

def decodeCounted : List UInt8 → Option (List UInt8 × List UInt8)
  | [] => none
  | n :: bytes =>
    if n.toNat ≤ bytes.length then some (bytes.take n.toNat, bytes.drop n.toNat) else none

def decodeInversion : Nat → List UInt8 → Option (Inversion × List UInt8)
  | 0, _ => none
  | _ + 1, [] => none
  | fuel + 1, b :: bytes =>
    if b = infoAnd then do
      let (left, bytes) ← decodeInversion fuel bytes
      let (right, bytes) ← decodeInversion fuel bytes
      some (.bitAnd left right, bytes)
    else if b = infoOr then do
      let (left, bytes) ← decodeInversion fuel bytes
      let (right, bytes) ← decodeInversion fuel bytes
      some (.bitOr left right, bytes)
    else if b = infoDbkey then some (.bitDbkey, bytes)
    else if b = infoIndex then do
      let (name, bytes) ← decodeCounted bytes
      if h : name.length ≤ 31 then some (.index ⟨name, h⟩, bytes) else none
    else none

def decodeName (bytes : List UInt8) : Option (Option (List UInt8) × List UInt8) :=
  match bytes with
  | b :: bytes' =>
    if b = rsbRelation then (decodeCounted bytes').map fun (name, bytes) => (some name, bytes)
    else some (none, bytes)
  | [] => none

def decodeIndex (fuel : Nat) (type : UInt8) (bytes : List UInt8) :
    Option (Option Inversion × List UInt8) :=
  if hasIndex type then (decodeInversion fuel bytes).map fun (index, bytes) => (some index, bytes)
  else some (none, bytes)

def decodeCount (type : UInt8) (bytes : List UInt8) : Option (Option Nat × List UInt8) :=
  if hasCount type then
    match bytes with
    | [] => none
    | n :: bytes => some (some n.toNat, bytes)
  else some (none, bytes)

def expect (b : UInt8) : List UInt8 → Option (List UInt8)
  | [] => none
  | c :: bytes => if c = b then some bytes else none

mutual

/-- An rsb from its begin to its end. -/
def decodeRsb : Nat → List UInt8 → Option (Desc × List UInt8)
  | 0, _ => none
  | fuel + 1, bytes => do
    let bytes ← expect rsbBegin bytes
    let (name, bytes) ← decodeName bytes
    let bytes ← expect rsbType bytes
    match bytes with
    | [] => none
    | type :: bytes =>
      let (index, bytes) ← decodeIndex fuel type bytes
      let (count, bytes) ← decodeCount type bytes
      let (subs, bytes) ← decodeRsbs fuel bytes
      let bytes ← expect rsbEnd bytes
      some (.mk name type index count subs, bytes)

/-- As many rsbs as there are. -/
def decodeRsbs : Nat → List UInt8 → Option (List Desc × List UInt8)
  | 0, _ => none
  | fuel + 1, bytes =>
    if bytes.head? = some rsbBegin then do
      let (d, bytes) ← decodeRsb fuel bytes
      let (ds, bytes) ← decodeRsbs fuel bytes
      some (d :: ds, bytes)
    else some ([], bytes)

end

/-- An access path is nothing but rsbs. -/
def decodePath (bytes : List UInt8) : Option (List Desc) :=
  match decodeRsbs (bytes.length + 1) bytes with
  | some (ds, []) => some ds
  | _ => none

section

variable {rest bytes : List UInt8} {fuel : Nat} {type : UInt8}

theorem decodeCounted_counted (short : bytes.length < 256) :
    decodeCounted (counted bytes ++ rest) = some (bytes, rest) := by
  have length : (UInt8.ofNat bytes.length).toNat = bytes.length := by
    rw [UInt8.toNat_ofNat']
    exact Nat.mod_eq_of_lt short
  unfold counted
  rw [List.cons_append, decodeCounted, length, if_pos (by simp), List.take_left, List.drop_left]

theorem decodeCounted_short {name : List UInt8} (h : decodeCounted bytes = some (name, rest)) :
    name.length < 256 := by
  cases bytes with
  | nil => exact absurd h (by simp [decodeCounted])
  | cons n bytes =>
    rw [decodeCounted] at h
    split at h
    next =>
      obtain ⟨rfl, -⟩ := Prod.mk.inj (Option.some.inj h)
      rw [List.length_take]
      have := n.toNat_lt
      omega
    next => exact absurd h (by simp)

theorem Inversion.encode_pos (v : Inversion) : 0 < v.encode.length := by
  cases v <;> simp [Inversion.encode]

/-- Inversions are read back, in front of whatever follows. -/
theorem decodeInversion_encode (v : Inversion) {fuel : Nat} (enough : v.encode.length ≤ fuel) :
    decodeInversion fuel (v.encode ++ rest) = some (v, rest) := by
  induction v generalizing fuel rest with
  | bitAnd a b iha ihb =>
    rw [Inversion.encode] at enough ⊢
    simp only [List.length_cons, List.length_append] at enough
    obtain ⟨fuel, rfl⟩ : ∃ f, fuel = f + 1 := ⟨fuel - 1, by omega⟩
    rw [List.cons_append, decodeInversion, if_pos rfl, List.append_assoc, iha (by omega)]
    simp only [Option.bind_eq_bind, Option.bind_some]
    rw [ihb (by omega)]
    rfl
  | bitOr a b iha ihb =>
    rw [Inversion.encode] at enough ⊢
    simp only [List.length_cons, List.length_append] at enough
    obtain ⟨fuel, rfl⟩ : ∃ f, fuel = f + 1 := ⟨fuel - 1, by omega⟩
    rw [List.cons_append, decodeInversion, if_neg (by decide), if_pos rfl, List.append_assoc,
      iha (by omega)]
    simp only [Option.bind_eq_bind, Option.bind_some]
    rw [ihb (by omega)]
    rfl
  | bitDbkey =>
    rw [Inversion.encode] at enough ⊢
    obtain ⟨fuel, rfl⟩ : ∃ f, fuel = f + 1 := ⟨fuel - 1, by simp at enough; omega⟩
    rfl
  | index name =>
    rw [Inversion.encode] at enough ⊢
    obtain ⟨fuel, rfl⟩ : ∃ f, fuel = f + 1 := ⟨fuel - 1, by simp at enough; omega⟩
    have short := name.short
    rw [List.cons_append, decodeInversion, if_neg (by decide), if_neg (by decide),
      if_neg (by decide), if_pos rfl, decodeCounted_counted (by omega)]
    simp only [Option.bind_eq_bind, Option.bind_some]
    rw [dif_pos short]

theorem decodeName_encode {name : Option (List UInt8)} (short : ∀ n ∈ name, n.length < 256) :
    decodeName (encodeName name ++ rsbType :: rest) = some (name, rsbType :: rest) := by
  cases name with
  | none => rfl
  | some name =>
    unfold encodeName
    rw [Option.elim_some, List.cons_append, decodeName, if_pos rfl,
      decodeCounted_counted (short name rfl)]
    rfl

theorem decodeIndex_encode {index : Option Inversion} (same : index.isSome = hasIndex type)
    (enough : (encodeIndex index).length ≤ fuel) :
    decodeIndex fuel type (encodeIndex index ++ rest) = some (index, rest) := by
  unfold decodeIndex
  cases index with
  | none =>
    rw [← same, if_neg (by simp)]
    rfl
  | some index =>
    rw [← same, if_pos Option.isSome_some]
    unfold encodeIndex at enough ⊢
    rw [Option.elim_some] at enough ⊢
    rw [decodeInversion_encode index enough]
    rfl

theorem decodeCount_encode {count : Option Nat} (same : count.isSome = hasCount type)
    (small : ∀ n ∈ count, n < 256) :
    decodeCount type (encodeCount count ++ rest) = some (count, rest) := by
  unfold decodeCount
  cases count with
  | none =>
    rw [← same, if_neg (by simp)]
    rfl
  | some count =>
    have back : (UInt8.ofNat count).toNat = count := by
      rw [UInt8.toNat_ofNat']
      exact Nat.mod_eq_of_lt (small count rfl)
    rw [← same, if_pos Option.isSome_some]
    show some (some (UInt8.ofNat count).toNat, rest) = _
    rw [back]

mutual

/-- What is valid is read back, in front of whatever follows. -/
theorem decodeRsb_encode : (d : Desc) → {rest : List UInt8} → {fuel : Nat} → d.Valid →
    d.encode.length ≤ fuel → decodeRsb fuel (d.encode ++ rest) = some (d, rest)
  | .mk name type index count subs, rest, fuel, valid, enough => by
    obtain ⟨short, sameIndex, sameCount, small, below⟩ := valid
    rw [Desc.encode] at enough ⊢
    simp only [List.length_cons, List.length_append] at enough
    obtain ⟨fuel, rfl⟩ : ∃ f, fuel = f + 1 := ⟨fuel - 1, by omega⟩
    simp only [List.cons_append, List.append_assoc]
    rw [decodeRsb, expect, if_pos rfl]
    simp only [Option.bind_eq_bind, Option.bind_some]
    rw [decodeName_encode short]
    simp only [Option.bind_some, expect, if_true]
    rw [decodeIndex_encode sameIndex (by omega)]
    simp only [Option.bind_some]
    rw [decodeCount_encode sameCount small]
    simp only [Option.bind_some]
    rw [decodeRsbs_encode subs below (by omega) (by simp [rsbEnd, rsbBegin])]
    simp only [Option.bind_some, List.nil_append, if_true]

theorem decodeRsbs_encode : (ds : List Desc) → {rest : List UInt8} → {fuel : Nat} → AllValid ds →
    (encodeAll ds).length < fuel → rest.head? ≠ some rsbBegin →
    decodeRsbs fuel (encodeAll ds ++ rest) = some (ds, rest)
  | [], rest, fuel, _, enough, ends => by
    obtain ⟨fuel, rfl⟩ : ∃ f, fuel = f + 1 := ⟨fuel - 1, by omega⟩
    rw [encodeAll, List.nil_append, decodeRsbs, if_neg ends]
  | d :: ds, rest, fuel, valid, enough, ends => by
    obtain ⟨first, others⟩ := valid
    rw [encodeAll, List.length_append] at enough
    obtain ⟨fuel, rfl⟩ : ∃ f, fuel = f + 1 := ⟨fuel - 1, by omega⟩
    have begins : (d.encode ++ (encodeAll ds ++ rest)).head? = some rsbBegin := by
      cases d
      rw [Desc.encode]
      rfl
    have least : 0 < d.encode.length := by
      cases d
      rw [Desc.encode]
      exact Nat.succ_pos _
    rw [encodeAll, List.append_assoc, decodeRsbs, if_pos begins, decodeRsb_encode d first (by omega)]
    simp only [Option.bind_eq_bind, Option.bind_some]
    rw [decodeRsbs_encode ds others (by omega) ends]
    rfl

end

theorem decodeName_short {name : Option (List UInt8)} (h : decodeName bytes = some (name, rest)) :
    ∀ n ∈ name, n.length < 256 := by
  rintro n rfl
  cases bytes with
  | nil => exact absurd h (by simp [decodeName])
  | cons b bytes =>
    rw [decodeName] at h
    split at h
    next =>
      obtain ⟨⟨read, others⟩, hread, same⟩ := Option.map_eq_some_iff.mp h
      obtain ⟨eq, -⟩ := Prod.mk.inj same
      obtain rfl := Option.some.inj eq
      exact decodeCounted_short hread
    next => exact absurd (congrArg Prod.fst (Option.some.inj h)) (by simp)

theorem decodeIndex_isSome {index : Option Inversion}
    (h : decodeIndex fuel type bytes = some (index, rest)) : index.isSome = hasIndex type := by
  unfold decodeIndex at h
  split at h
  next has =>
    obtain ⟨⟨read, others⟩, -, same⟩ := Option.map_eq_some_iff.mp h
    obtain ⟨rfl, -⟩ := Prod.mk.inj same
    exact has.symm
  next has =>
    obtain ⟨rfl, -⟩ := Prod.mk.inj (Option.some.inj h)
    exact (Bool.not_eq_true _ ▸ has).symm

theorem decodeCount_valid {count : Option Nat} (h : decodeCount type bytes = some (count, rest)) :
    count.isSome = hasCount type ∧ ∀ n ∈ count, n < 256 := by
  unfold decodeCount at h
  split at h
  next has =>
    cases bytes with
    | nil => exact absurd h (by simp)
    | cons n bytes =>
      obtain ⟨rfl, -⟩ := Prod.mk.inj (Option.some.inj h)
      refine ⟨has.symm, ?_⟩
      rintro m hm
      obtain rfl := Option.some.inj hm
      exact n.toNat_lt
  next has =>
    obtain ⟨rfl, -⟩ := Prod.mk.inj (Option.some.inj h)
    exact ⟨(Bool.not_eq_true _ ▸ has).symm, by simp⟩

mutual

/-- What is read is valid. -/
theorem decodeRsb_valid : (fuel : Nat) → {bytes rest : List UInt8} → {d : Desc} →
    decodeRsb fuel bytes = some (d, rest) → d.Valid
  | 0, _, _, _, h => absurd h (by simp [decodeRsb])
  | fuel + 1, bytes, rest, d, h => by
    rw [decodeRsb] at h
    simp only [Option.bind_eq_bind] at h
    obtain ⟨bytes₁, -, h⟩ := Option.bind_eq_some_iff.mp h
    obtain ⟨⟨name, bytes₂⟩, hname, h⟩ := Option.bind_eq_some_iff.mp h
    obtain ⟨bytes₃, -, h⟩ := Option.bind_eq_some_iff.mp h
    cases bytes₃ with
    | nil => exact absurd h (by simp)
    | cons type bytes₃ =>
      obtain ⟨⟨index, bytes₄⟩, hindex, h⟩ := Option.bind_eq_some_iff.mp h
      obtain ⟨⟨count, bytes₅⟩, hcount, h⟩ := Option.bind_eq_some_iff.mp h
      obtain ⟨⟨subs, bytes₆⟩, hsubs, h⟩ := Option.bind_eq_some_iff.mp h
      obtain ⟨bytes₇, -, h⟩ := Option.bind_eq_some_iff.mp h
      obtain ⟨rfl, -⟩ := Prod.mk.inj (Option.some.inj h)
      obtain ⟨same, small⟩ := decodeCount_valid hcount
      exact ⟨decodeName_short hname, decodeIndex_isSome hindex, same, small,
        decodeRsbs_valid fuel hsubs⟩

theorem decodeRsbs_valid : (fuel : Nat) → {bytes rest : List UInt8} → {ds : List Desc} →
    decodeRsbs fuel bytes = some (ds, rest) → AllValid ds
  | 0, _, _, _, h => absurd h (by simp [decodeRsbs])
  | fuel + 1, bytes, rest, ds, h => by
    rw [decodeRsbs] at h
    split at h
    next =>
      simp only [Option.bind_eq_bind] at h
      obtain ⟨⟨d, bytes₁⟩, hd, h⟩ := Option.bind_eq_some_iff.mp h
      obtain ⟨⟨others, bytes₂⟩, hothers, h⟩ := Option.bind_eq_some_iff.mp h
      obtain ⟨rfl, -⟩ := Prod.mk.inj (Option.some.inj h)
      exact ⟨decodeRsb_valid fuel hd, decodeRsbs_valid fuel hothers⟩
    next =>
      obtain ⟨rfl, -⟩ := Prod.mk.inj (Option.some.inj h)
      trivial

end

/-- An access path is read back exactly if it is valid. -/
theorem decodePath_encodeAll_iff (ds : List Desc) :
    decodePath (encodeAll ds) = some ds ↔ AllValid ds := by
  unfold decodePath
  constructor
  · intro h
    split at h
    next read hread =>
      obtain rfl := Option.some.inj h
      exact decodeRsbs_valid _ hread
    next => exact absurd h (by simp)
  · intro valid
    have read := decodeRsbs_encode ds valid (Nat.lt_succ_self _)
      (show ([] : List UInt8).head? ≠ some rsbBegin by simp)
    rw [List.append_nil] at read
    rw [read]

end

end InterBase.AccessPath
