import InterBase.Library.LexCompare
import InterBase.SortKey

namespace InterBase

open Memory BigEndian

/-- A number as its bytes lie in a record. -/
def number (order : ByteOrder) (bytes : List UInt8) : Nat :=
  match order with
  | .vax => value bytes.reverse
  | .nonVax => value bytes

/-- A two's complement number of `bytes` bytes. -/
def signed (bytes v : Nat) : Int :=
  if v < 2 ^ (8 * bytes - 1) then v else (v : Int) - 2 ^ (8 * bytes)

/-- The place of a floating number among those of its size: its pattern as sign and magnitude. -/
def signMagnitude (bytes v : Nat) : Int :=
  if v < 2 ^ (8 * bytes - 1) then v else 2 ^ (8 * bytes - 1) - 1 - v

def padded (size : Nat) (fill : UInt8) (text : List UInt8) : List Int :=
  (text ++ List.replicate (size - text.length) fill).map fun c => (c.toNat : Int)

/-- How many characters a field holds, and from where on. -/
def Skd.text (order : ByteOrder) (key : Skd) (field : List UInt8) : List UInt8 :=
  match key.skdDtype with
  | .varying => (field.drop 2).take (number order (field.take 2))
  | .cstring => field.takeWhile (· ≠ 0)
  | _ => field

/-- The value of a field, as the typed comparison sees it. -/
def Skd.values (order : ByteOrder) (key : Skd) (field : List UInt8) : List Int :=
  match key.skdDtype with
  | .long | .sqlDate => [signed 4 (number order field)]
  | .short => [signed 2 (number order field)]
  | .ulong | .ushort | .sqlTime => [number order field]
  | .quad | .int64 => [signed 8 (number order field)]
  | .timestamp1 | .timestamp2 =>
    [signed 4 (number order (field.take 4)), number order (field.drop 4)]
  | .float => [signMagnitude 4 (number order field)]
  | .double | .dFloat => [signMagnitude 8 (number order field)]
  | .text | .bytes | .cstring => padded key.skdLength key.fillChar (key.text order field)
  | .varying => padded (key.skdLength - 2) key.fillChar (key.text order field)

/-- The length of a field whose type has only one. -/
def SkdDtype.fixedLength : SkdDtype → Option Nat
  | .short | .ushort => some 2
  | .long | .ulong | .float | .sqlTime | .sqlDate => some 4
  | .double | .quad | .timestamp1 | .timestamp2 | .dFloat | .int64 => some 8
  | .text | .bytes | .varying | .cstring => none

/-- A key that the variant of `diddle_key` supports, within the longest sort record. -/
structure Skd.Supported (order : ByteOrder) (key : Skd) : Prop where
  fixed : ∀ n, key.skdDtype.fixedLength = some n → key.skdLength = n
  varying : key.skdDtype = .varying → 2 ≤ key.skdLength
  aligned : order = .vax → 4 ∣ key.skdOffset
  ieee : order = .vax → key.skdDtype ≠ .dFloat
  short : roundupLong key.skdLength < 65536

/-- Bytes in the order in which the comparison of longwords looks at them. -/
def inOrder (order : ByteOrder) (field : List UInt8) : List UInt8 :=
  match order with
  | .vax => reverseLongs field
  | .nonVax => field

/-- What flipping the sign bit and complementing make of a byte. -/
theorem flipped_byte : ∀ b : Fin 256,
    ~~~(UInt8.ofNat b ^^^ 128) = ~~~(UInt8.ofNat b) ^^^ 128 ∧
      UInt8.ofNat b ^^^ 128 ^^^ 128 = UInt8.ofNat b ∧
      (UInt8.ofNat b ^^^ 128).toNat = (if b.val < 128 then b.val + 128 else b.val - 128) ∧
      (~~~(UInt8.ofNat b)).toNat = 255 - b.val := by
  decide +kernel

theorem not_xor_sign (b : Fin 256) : ~~~(UInt8.ofNat b ^^^ 128) = ~~~(UInt8.ofNat b) ^^^ 128 :=
  (flipped_byte b).1

theorem xor_sign_sign (b : Fin 256) : UInt8.ofNat b ^^^ 128 ^^^ 128 = UInt8.ofNat b :=
  (flipped_byte b).2.1

theorem toNat_xor_sign (b : Fin 256) :
    (UInt8.ofNat b ^^^ 128).toNat = if b.val < 128 then b.val + 128 else b.val - 128 :=
  (flipped_byte b).2.2.1

theorem toNat_not (b : Fin 256) : (~~~(UInt8.ofNat b)).toNat = 255 - b.val :=
  (flipped_byte b).2.2.2

section

variable (c : UInt8)

theorem complement_flip : ~~~(c ^^^ 128) = ~~~c ^^^ 128 := by
  have bits := not_xor_sign ⟨c.toNat, c.toNat_lt⟩
  simpa only [UInt8.ofNat_toNat] using bits

theorem flip_flip : c ^^^ 128 ^^^ 128 = c := by
  have bits := xor_sign_sign ⟨c.toNat, c.toNat_lt⟩
  simpa only [UInt8.ofNat_toNat] using bits

theorem toNat_flip : (c ^^^ 128).toNat = if c.toNat < 128 then c.toNat + 128 else c.toNat - 128 := by
  have bits := toNat_xor_sign ⟨c.toNat, c.toNat_lt⟩
  simpa only [UInt8.ofNat_toNat] using bits

theorem toNat_complement : (~~~c).toNat = 255 - c.toNat := by
  have bits := toNat_not ⟨c.toNat, c.toNat_lt⟩
  simpa only [UInt8.ofNat_toNat] using bits

end

@[simp] theorem complement_comp : (fun c : UInt8 => ~~~c) ∘ (fun c => ~~~c) = id := by
  funext c
  exact UInt8.not_not

@[simp] theorem length_flipSign (i : Nat) (field : List UInt8) :
    (flipSign i field).length = field.length := by
  unfold flipSign
  rw [List.length_modify]

@[simp] theorem flipSign_flipSign (i : Nat) (field : List UInt8) :
    flipSign i (flipSign i field) = field := by
  unfold flipSign
  rw [List.modify_modify_eq]
  have same : (fun c : UInt8 => c ^^^ 128) ∘ (fun c => c ^^^ 128) = id := by
    funext c
    exact flip_flip c
  rw [same, List.modify_id]

theorem flipSign_complement (i : Nat) (field : List UInt8) :
    (flipSign i field).map (~~~ ·) = flipSign i (field.map (~~~ ·)) := by
  induction field generalizing i with
  | nil => cases i <;> rfl
  | cons c field ih =>
    cases i with
    | zero => exact congrArg (· :: _) (complement_flip c)
    | succ i => exact congrArg (_ :: ·) (ih i)

@[simp] theorem length_reverseLongs (field : List UInt8) :
    (reverseLongs field).length = field.length := by
  fun_induction reverseLongs field with
  | case1 c0 c1 c2 c3 rest ih => simp [ih]
  | case2 => rfl

@[simp] theorem reverseLongs_reverseLongs (field : List UInt8) :
    reverseLongs (reverseLongs field) = field := by
  fun_induction reverseLongs field with
  | case1 c0 c1 c2 c3 rest ih => rw [reverseLongs, ih]
  | case2 rest short => exact reverseLongs.eq_2 rest short

theorem reverseLongs_complement (field : List UInt8) :
    (reverseLongs field).map (~~~ ·) = reverseLongs (field.map (~~~ ·)) := by
  fun_induction reverseLongs field with
  | case1 c0 c1 c2 c3 rest ih => simp [reverseLongs, ih]
  | case2 rest short =>
    rw [reverseLongs.eq_2]
    intro c0 c1 c2 c3 tail eq
    obtain ⟨d0, rest, rfl, -, eq⟩ := List.map_eq_cons_iff.mp eq
    obtain ⟨d1, rest, rfl, -, eq⟩ := List.map_eq_cons_iff.mp eq
    obtain ⟨d2, rest, rfl, -, eq⟩ := List.map_eq_cons_iff.mp eq
    obtain ⟨d3, rest, rfl, -, -⟩ := List.map_eq_cons_iff.mp eq
    exact short d0 d1 d2 d3 rest rfl

theorem reverseLongs_append {xs : List UInt8} (h : 4 ∣ xs.length) (ys : List UInt8) :
    reverseLongs (xs ++ ys) = reverseLongs xs ++ reverseLongs ys := by
  fun_induction reverseLongs xs with
  | case1 c0 c1 c2 c3 rest ih =>
    have whole : 4 ∣ rest.length := by
      simp only [List.length_cons] at h
      omega
    simp only [List.cons_append, reverseLongs, ih whole]
  | case2 rest short =>
    have empty : rest = [] := by
      rcases rest with _ | ⟨c0, _ | ⟨c1, _ | ⟨c2, _ | ⟨c3, rest⟩⟩⟩⟩
      · rfl
      · simp at h
      · simp at h
      · simp at h
      · exact (short c0 c1 c2 c3 rest rfl).elim
    rw [empty]
    rfl

@[simp] theorem length_swapLongs (field : List UInt8) :
    (swapLongs field).length = field.length := by
  simp only [swapLongs, List.length_append, List.length_take, List.length_drop]
  omega

theorem exists_four {field : List UInt8} (h : field.length = 4) :
    ∃ c0 c1 c2 c3, field = [c0, c1, c2, c3] := by
  rcases field with _ | ⟨c0, _ | ⟨c1, _ | ⟨c2, _ | ⟨c3, rest⟩⟩⟩⟩
  case cons.cons.cons.cons =>
    have empty : rest = [] := List.eq_nil_of_length_eq_zero (by simpa using h)
    exact ⟨c0, c1, c2, c3, by rw [empty]⟩
  all_goals simp at h

theorem exists_eight {field : List UInt8} (h : field.length = 8) :
    ∃ c0 c1 c2 c3 c4 c5 c6 c7, field = [c0, c1, c2, c3, c4, c5, c6, c7] := by
  obtain ⟨c0, c1, c2, c3, low⟩ := exists_four (show (field.take 4).length = 4 by simp [h])
  obtain ⟨c4, c5, c6, c7, high⟩ := exists_four (show (field.drop 4).length = 4 by simp [h])
  refine ⟨c0, c1, c2, c3, c4, c5, c6, c7, ?_⟩
  rw [← List.take_append_drop 4 field, low, high]
  rfl

theorem swapLongs_swapLongs {field : List UInt8} (h : field.length = 8) :
    swapLongs (swapLongs field) = field := by
  obtain ⟨c0, c1, c2, c3, c4, c5, c6, c7, rfl⟩ := exists_eight h
  rfl

theorem swapLongs_complement (field : List UInt8) :
    (swapLongs field).map (~~~ ·) = swapLongs (field.map (~~~ ·)) := by
  simp [swapLongs]

theorem signAt_flipSign {i : Nat} {field : List UInt8} (h : i < field.length) :
    signAt i (flipSign i field) = !signAt i field := by
  unfold signAt flipSign
  rw [List.getD_eq_getElem?_getD, List.getElem?_modify_eq, List.getElem?_eq_getElem h,
    List.getD_eq_getElem?_getD, List.getElem?_eq_getElem h]
  have bit := toNat_flip field[i]
  have := (field[i]).toNat_lt
  simp only [Option.map_eq_map, Option.map_some, Option.getD_some, bit, ← decide_not,
    decide_eq_decide]
  split <;> omega

theorem signAt_complement {i : Nat} {field : List UInt8} (h : i < field.length) :
    signAt i (field.map (~~~ ·)) = !signAt i field := by
  unfold signAt
  rw [List.getD_eq_getElem?_getD, List.getElem?_map, List.getElem?_eq_getElem h,
    List.getD_eq_getElem?_getD, List.getElem?_eq_getElem h]
  have bit := toNat_complement field[i]
  have := (field[i]).toNat_lt
  simp only [Option.map_some, Option.getD_some, bit, ← decide_not, decide_eq_decide]
  omega

/-- A floating number in ascending order. -/
def floatField (i : Nat) (field : List UInt8) : List UInt8 :=
  if signAt i field then field.map (~~~ ·) else flipSign i field

@[simp] theorem length_floatField (i : Nat) (field : List UInt8) :
    (floatField i field).length = field.length := by
  unfold floatField
  split
  · exact List.length_map _
  · exact length_flipSign i field

theorem diddleFloat_encodes (complement : Bool) (i : Nat) (field : List UInt8) :
    complemented (diddleFloat true complement i field) =
      if complement then (floatField i field).map (~~~ ·) else floatField i field := by
  unfold complemented diddleFloat floatField
  cases sign : signAt i field with
  | true => cases complement <;> simp
  | false => cases complement <;> simp

theorem diddleFloat_decodes (complement : Bool) {i : Nat} {field : List UInt8}
    (h : i < field.length) :
    complemented (diddleFloat false complement i
      (complemented (diddleFloat true complement i field))) = field := by
  rw [diddleFloat_encodes]
  unfold complemented diddleFloat floatField
  have flipped := signAt_flipSign h
  have h' : i < (flipSign i field).length := by rwa [length_flipSign]
  cases sign : signAt i field with
  | true => cases complement <;> simp [sign, signAt_complement h]
  | false =>
    rw [sign] at flipped
    cases complement
    · simp [flipped]
    · have encoded := signAt_complement h'
      rw [flipped, flipSign_complement] at encoded
      simp [encoded, flipSign_complement]

end InterBase
