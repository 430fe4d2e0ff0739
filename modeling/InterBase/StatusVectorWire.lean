import InterBase.StatusVector

namespace InterBase.Response

open Memory BigEndian

/-- Two entries of a vector as they are sent. -/
inductive Item where
  | number (tag n : UInt32)
  | string (tag : UInt32) (characters : List UInt8)
deriving Repr, DecidableEq

def Item.entries : Item → List Status
  | number tag n => [.number tag, .number n]
  | string tag characters => [.number tag, .text characters]

/-- The tag tells the kind of the item. -/
def Item.Tagged : Item → Prop
  | number tag _ => tag.toNat % 65536 ≠ 0 ∧ tag.toNat % 65536 ≠ 5 ∧ tag.toNat % 65536 ≠ 2
  | string tag _ => tag.toNat % 65536 = 5 ∨ tag.toNat % 65536 = 2

def Item.Short : Item → Prop
  | number _ _ => True
  | string _ characters => characters.length ≤ 65535

/-- The slots of the strings table that items take. -/
def slots : List Item → Nat
  | [] => 0
  | .number _ _ :: items => slots items
  | .string _ _ :: items => slots items + 1

/-- A pointer to a string that lies outside of the buffer, or in its first `p` bytes. -/
inductive Points (buffer : Nat → UInt8) (p : Nat) : Status → List UInt8 → Prop where
  | text (characters : List UInt8) :
    Points buffer p (.text characters) (characters.takeWhile (· ≠ 0))
  | buffer (offset : Nat) (characters : List UInt8) (clean : 0 ∉ characters)
    (holds : Holds buffer offset (characters ++ [0])) (inside : offset + characters.length < p) :
    Points buffer p (.buffer offset) characters

/-- A vector that says the items. -/
inductive SentAs (buffer : Nat → UInt8) (p : Nat) : List Status → List Item → Prop where
  | nil : SentAs buffer p [] []
  | number {vector : List Status} {items : List Item} (tag n : UInt32)
    (rest : SentAs buffer p vector items) :
    SentAs buffer p (.number tag :: .number n :: vector) (.number tag n :: items)
  | string {vector : List Status} {items : List Item} {pointer : Status} {characters : List UInt8}
    (tag : UInt32) (points : Points buffer p pointer characters)
    (rest : SentAs buffer p vector items) :
    SentAs buffer p (.number tag :: pointer :: vector) (.string tag characters :: items)

section

variable {buffer buffer' trash m : Nat → UInt8} {p p' : Nat} {vector vector' : List Status}
  {items items' : List Item} {pointer : Status} {characters : List UInt8}

theorem Points.pointed (h : Points buffer p pointer characters) (bound : p ≤ 1024) :
    Response.pointed buffer pointer = some characters := by
  cases h with
  | text characters => rfl
  | buffer offset characters clean holds inside =>
    rw [holds_append, holds_cons] at holds
    obtain ⟨text, zero, -⟩ := holds
    have scan : strlen buffer offset (1024 - offset) = characters.length :=
      (strlen_eq_iff (by omega)).mpr ⟨by rwa [text], zero⟩
    show (if offset + strlen buffer offset (1024 - offset) < 1024 then
      some (slice buffer offset (strlen buffer offset (1024 - offset))) else none) = _
    rw [scan, if_pos (by omega), text]

theorem Points.mono (h : Points buffer p pointer characters) (le : p ≤ p')
    (same : ∀ i < p, buffer' i = buffer i) : Points buffer' p' pointer characters := by
  cases h with
  | text characters => exact .text characters
  | buffer offset characters clean holds inside =>
    refine .buffer offset characters clean (holds.congr fun i _ high => same i ?_) (by omega)
    rw [List.length_append, List.length_singleton] at high
    omega

theorem SentAs.mono (h : SentAs buffer p vector items) (le : p ≤ p')
    (same : ∀ i < p, buffer' i = buffer i) : SentAs buffer' p' vector items := by
  induction h with
  | nil => exact .nil
  | number tag n rest ih => exact .number tag n ih
  | string tag points rest ih => exact .string tag (points.mono le same) ih

theorem SentAs.append (h : SentAs buffer p vector items) (h' : SentAs buffer p vector' items') :
    SentAs buffer p (vector ++ vector') (items ++ items') := by
  induction h with
  | nil => exact h'
  | number tag n rest ih => exact .number tag n ih
  | string tag points rest ih => exact .string tag points ih

theorem SentAs.length (h : SentAs buffer p vector items) : vector.length = 2 * items.length := by
  induction h with
  | nil => rfl
  | number tag n rest ih | string tag points rest ih =>
    simp only [List.length_cons, ih]
    omega

theorem getlong_putlong {n : Nat} (rest : List UInt8) (small : n < 4294967296) :
    (Xdr.getlong ⟨.decode, bigEndian 4 n ++ rest, m⟩).toOption = some (n, ⟨.decode, rest, m⟩) := by
  rw [getlong_bigEndian rest small]
  rfl

theorem getbytes_front {bytes rest : List UInt8} {n : Nat} (length : bytes.length = n) :
    (Xdr.getbytes n ⟨.decode, bytes ++ rest, m⟩).toOption = some (bytes, ⟨.decode, rest, m⟩) := by
  rw [getbytes_append length]
  rfl

/-- What a string is sent as. -/
def stringBytes (trash : Nat → UInt8) (characters : List UInt8) : List UInt8 :=
  bigEndian 4 characters.length ++ (characters ++
    (List.range (padding characters.length)).map trash)

theorem xdrStringEncode_eq (short : characters.length ≤ 65535) (before : List UInt8) :
    xdrStringEncode trash characters ⟨.encode, before, m⟩ =
      some ⟨.encode, before ++ stringBytes trash characters, m⟩ := by
  unfold xdrStringEncode stringBytes
  rw [if_pos short]
  simp [Xdr.putlong, Xdr.putbytes]

theorem xdrStringDecode_eq (short : characters.length ≤ 65535) (rest : List UInt8) :
    xdrStringDecode ⟨.decode, stringBytes trash characters ++ rest, m⟩ =
      some (characters, ⟨.decode, rest, m⟩) := by
  unfold xdrStringDecode stringBytes
  rw [List.append_assoc, List.append_assoc, getlong_putlong _ (by omega), Option.bind_some]
  dsimp only
  rw [if_pos short, getbytes_front rfl, Option.bind_some]
  dsimp only
  rw [getbytes_front (by simp)]
  rfl

def itemBytes (trash : Nat → UInt8) : Item → List UInt8
  | .number tag n => bigEndian 4 tag.toNat ++ bigEndian 4 n.toNat
  | .string tag characters => bigEndian 4 tag.toNat ++ stringBytes trash characters

def itemsBytes (trash : Nat → UInt8) (items : List Item) : List UInt8 :=
  items.flatMap (itemBytes trash) ++ bigEndian 4 0

theorem xdrStatusEncode_eq (sent : SentAs buffer p vector items) (bound : p ≤ 1024)
    (tagged : ∀ item ∈ items, item.Tagged) (short : ∀ item ∈ items, item.Short)
    (before : List UInt8) :
    xdrStatusEncode trash buffer (vector ++ [.number 0]) ⟨.encode, before, m⟩ =
      some ⟨.encode, before ++ itemsBytes trash items, m⟩ := by
  induction sent generalizing before with
  | nil => rfl
  | number tag n rest ih =>
    obtain ⟨other, not5, not2⟩ : Item.Tagged (.number tag n) := tagged _ List.mem_cons_self
    have later := ih (fun item h => tagged item (List.mem_cons_of_mem _ h))
      (fun item h => short item (List.mem_cons_of_mem _ h))
      (before ++ bigEndian 4 tag.toNat ++ bigEndian 4 n.toNat)
    rw [List.cons_append, List.cons_append, xdrStatusEncode]
    dsimp only
    rw [if_neg other, if_neg (by omega)]
    refine later.trans ?_
    simp [itemsBytes, itemBytes]
  | @string vector items pointer characters tag points rest ih =>
    have kind : tag.toNat % 65536 = 5 ∨ tag.toNat % 65536 = 2 := tagged _ List.mem_cons_self
    have fits : Item.Short (.string tag characters) := short _ List.mem_cons_self
    have other : tag.toNat % 65536 ≠ 0 := by
      rcases kind with five | two <;> omega
    have later := ih (fun item h => tagged item (List.mem_cons_of_mem _ h))
      (fun item h => short item (List.mem_cons_of_mem _ h))
      (before ++ bigEndian 4 tag.toNat ++ stringBytes trash characters)
    rw [List.cons_append, List.cons_append, xdrStatusEncode]
    rw [if_neg other, if_pos kind, points.pointed bound, Option.bind_some]
    refine (congrArg (Option.bind · _) (xdrStringEncode_eq fits _)).trans ?_
    rw [Option.bind_some]
    refine later.trans ?_
    simp [itemsBytes, itemBytes]

theorem xdrStatusEncode_short (sent : SentAs buffer p vector items) (bound : p ≤ 1024)
    (tagged : ∀ item ∈ items, item.Tagged) {xdrs xdrs' : Xdr}
    (run : xdrStatusEncode trash buffer (vector ++ [.number 0]) xdrs = some xdrs') :
    ∀ item ∈ items, item.Short := by
  induction sent generalizing xdrs with
  | nil => exact fun item h => absurd h List.not_mem_nil
  | number tag n rest ih =>
    obtain ⟨other, not5, not2⟩ : Item.Tagged (.number tag n) := tagged _ List.mem_cons_self
    rw [List.cons_append, List.cons_append, xdrStatusEncode] at run
    dsimp only at run
    rw [if_neg other, if_neg (by omega)] at run
    have later := ih (fun item h => tagged item (List.mem_cons_of_mem _ h)) run
    exact List.forall_mem_cons.mpr ⟨trivial, later⟩
  | @string vector items pointer characters tag points rest ih =>
    have kind : tag.toNat % 65536 = 5 ∨ tag.toNat % 65536 = 2 := tagged _ List.mem_cons_self
    have other : tag.toNat % 65536 ≠ 0 := by
      rcases kind with five | two <;> omega
    rw [List.cons_append, List.cons_append, xdrStatusEncode] at run
    rw [if_neg other, if_pos kind, points.pointed bound, Option.bind_some] at run
    obtain ⟨xdrs₁, first, run⟩ := Option.bind_eq_some_iff.mp run
    have later := ih (fun item h => tagged item (List.mem_cons_of_mem _ h)) run
    refine List.forall_mem_cons.mpr ⟨?_, later⟩
    show characters.length ≤ 65535
    by_contra long
    unfold xdrStringEncode at first
    rw [if_neg long] at first
    exact absurd first (by simp)

theorem xdrStatusDecode_eq (tagged : ∀ item ∈ items, item.Tagged)
    (short : ∀ item ∈ items, item.Short) {fuel strings room : Nat} (enough : items.length < fuel)
    (table : slots items ≤ strings) (fits : 2 * items.length < room) (rest : List UInt8) :
    xdrStatusDecode fuel strings room ⟨.decode, itemsBytes trash items ++ rest, m⟩ =
      some (items.flatMap Item.entries ++ [.number 0], ⟨.decode, rest, m⟩) := by
  induction items generalizing fuel strings room with
  | nil =>
    obtain ⟨fuel, rfl⟩ : ∃ k, fuel = k + 1 := ⟨fuel - 1, by simp at enough; omega⟩
    obtain ⟨room, rfl⟩ : ∃ k, room = k + 1 := ⟨room - 1, by omega⟩
    rw [xdrStatusDecode]
    show ((Xdr.getlong ⟨.decode, bigEndian 4 0 ++ rest, m⟩).toOption.bind _) = _
    rw [getlong_putlong rest (by omega)]
    rfl
  | cons item items ih =>
    rw [List.length_cons] at enough fits
    obtain ⟨fuel, rfl⟩ : ∃ k, fuel = k + 1 := ⟨fuel - 1, by omega⟩
    obtain ⟨room, rfl⟩ : ∃ k, room = k + 2 := ⟨room - 2, by omega⟩
    have kind := tagged item List.mem_cons_self
    have length := short item List.mem_cons_self
    have later := fun strings (table : slots items ≤ strings) =>
      ih (fun item h => tagged item (List.mem_cons_of_mem _ h))
        (fun item h => short item (List.mem_cons_of_mem _ h)) (show items.length < fuel by omega)
        table (show 2 * items.length < room by omega)
    cases item with
    | number tag n =>
      obtain ⟨other, not5, not2⟩ := kind
      have bytes : itemsBytes trash (.number tag n :: items) ++ rest = bigEndian 4 tag.toNat ++
          (bigEndian 4 n.toNat ++ (itemsBytes trash items ++ rest)) := by
        simp [itemsBytes, itemBytes]
      rw [bytes, xdrStatusDecode, getlong_putlong _ tag.toNat_lt, Option.bind_some]
      dsimp only
      rw [if_neg other, if_neg (by omega), if_neg (by omega), getlong_putlong _ n.toNat_lt,
        Option.bind_some]
      dsimp only
      rw [Nat.add_sub_cancel, later strings table]
      simp [Item.entries]
    | string tag characters =>
      replace kind : tag.toNat % 65536 = 5 ∨ tag.toNat % 65536 = 2 := kind
      have other : tag.toNat % 65536 ≠ 0 := by
        rcases kind with five | two <;> omega
      have bytes : itemsBytes trash (.string tag characters :: items) ++ rest =
          bigEndian 4 tag.toNat ++
            (stringBytes trash characters ++ (itemsBytes trash items ++ rest)) := by
        simp [itemsBytes, itemBytes]
      have some_slot : slots items + 1 ≤ strings := table
      rw [bytes, xdrStatusDecode, getlong_putlong _ tag.toNat_lt, Option.bind_some]
      dsimp only
      rw [if_neg other, if_pos kind, if_neg (by omega), xdrStringDecode_eq length,
        Option.bind_some]
      dsimp only
      rw [Nat.add_sub_cancel, later (strings - 1) (by omega)]
      simp [Item.entries]

theorem length_itemsBytes (trash : Nat → UInt8) (items : List Item) :
    items.length < (itemsBytes trash items).length := by
  unfold itemsBytes
  rw [List.length_append, length_bigEndian]
  have each : ∀ items : List Item, items.length ≤ (items.flatMap (itemBytes trash)).length := by
    intro items
    induction items with
    | nil => exact Nat.le_refl 0
    | cons item items ih =>
      have one : 1 ≤ (itemBytes trash item).length := by
        cases item <;> simp [itemBytes, length_bigEndian]
        omega
      rw [List.flatMap_cons, List.length_append, List.length_cons]
      omega
  have le := each items
  omega

end

end InterBase.Response
