import InterBase.SortKeyField

namespace InterBase

open Memory BigEndian

/-- What one key becomes in ascending order. -/
def ascendingField (order : ByteOrder) (key : Skd) (field : List UInt8) : List UInt8 :=
  match order, key.skdDtype with
  | .vax, .timestamp1 | .vax, .timestamp2 | .vax, .sqlTime | .vax, .sqlDate | .vax, .long =>
    flipSign 3 field
  | .vax, .ulong | .vax, .ushort | .vax, .dFloat => field
  | .vax, .text | .vax, .bytes | .vax, .cstring | .vax, .varying => reverseLongs field
  | .vax, .short => flipSign 1 field
  | .vax, .quad => flipSign 7 field
  | .vax, .int64 => swapLongs (flipSign 7 field)
  | .vax, .double => swapLongs (floatField 7 field)
  | .vax, .float => floatField 3 field
  | .nonVax, .ulong | .nonVax, .ushort | .nonVax, .bytes | .nonVax, .sqlTime | .nonVax, .varying
  | .nonVax, .cstring | .nonVax, .text => field
  | .nonVax, .dFloat | .nonVax, .float | .nonVax, .double => floatField 0 field
  | .nonVax, _ => flipSign 0 field

theorem complemented_swapLongs (switched : List UInt8 × Bool) :
    complemented (swapLongs switched.1, switched.2) = swapLongs (complemented switched) := by
  unfold complemented
  split
  · exact swapLongs_complement _
  · rfl

theorem diddleField_encodes (order : ByteOrder) (key : Skd) (field : List UInt8) :
    diddleField order true key field =
      if key.skdDescending then (ascendingField order key field).map (~~~ ·)
      else ascendingField order key field := by
  cases order with
  | vax =>
    unfold diddleField diddleVax ascendingField
    cases key.skdDtype
    case double =>
      simp only [if_true, complemented_swapLongs, diddleFloat_encodes]
      split
      · exact (swapLongs_complement _).symm
      · rfl
    case float => exact diddleFloat_encodes _ _ _
    all_goals rfl
  | nonVax =>
    unfold diddleField diddleNonVax ascendingField
    cases key.skdDtype
    case float => exact diddleFloat_encodes _ _ _
    case double => exact diddleFloat_encodes _ _ _
    case dFloat => exact diddleFloat_encodes _ _ _
    all_goals rfl

/-- Decoding undoes a step of the encoding that leaves the complement alone. -/
theorem complemented_inverse (encode decode : List UInt8 → List UInt8) {field : List UInt8}
    (commutes : ∀ xs, (decode xs).map (~~~ ·) = decode (xs.map (~~~ ·)))
    (inverse : decode (encode field) = field) (complement : Bool) :
    complemented (decode (complemented (encode field, complement)), complement) = field := by
  unfold complemented
  cases complement
  · simpa using inverse
  · simpa [commutes] using inverse

theorem flipSign_decodes (i : Nat) (field : List UInt8) (complement : Bool) :
    complemented (flipSign i (complemented (flipSign i field, complement)), complement) = field :=
  complemented_inverse (flipSign i) (flipSign i) (flipSign_complement i)
    (flipSign_flipSign i field) complement

theorem complemented_decodes (field : List UInt8) (complement : Bool) :
    complemented (complemented (field, complement), complement) = field :=
  complemented_inverse id id (fun _ => rfl) rfl complement

theorem roundupLong_dvd (n : Nat) : 4 ∣ roundupLong n := Nat.dvd_mul_left 4 _

theorem le_roundupLong (n : Nat) : n ≤ roundupLong n := by
  unfold roundupLong
  omega

theorem Skd.Supported.size_vax {key : Skd} (h : key.Supported .vax) :
    key.size .vax = roundupLong key.skdLength := ushort_of_lt h.short

theorem Skd.Supported.le_size {order : ByteOrder} {key : Skd} (h : key.Supported order) :
    key.skdLength ≤ key.size order := by
  cases order with
  | vax => exact h.size_vax ▸ le_roundupLong _
  | nonVax => exact Nat.le_refl _

theorem Skd.Supported.size_eight {order : ByteOrder} {key : Skd} (h : key.Supported order)
    (eight : key.skdDtype.fixedLength = some 8) : key.size order = 8 := by
  have length := h.fixed 8 eight
  cases order with
  | vax => rw [h.size_vax, length, roundupLong]
  | nonVax => exact length

theorem length_floatEncoded (complement : Bool) (i : Nat) (field : List UInt8) :
    (complemented (diddleFloat true complement i field)).length = field.length := by
  rw [diddleFloat_encodes]
  split
  · rw [List.length_map, length_floatField]
  · exact length_floatField i field

@[simp] theorem length_ascendingField (order : ByteOrder) (key : Skd) (field : List UInt8) :
    (ascendingField order key field).length = field.length := by
  unfold ascendingField
  split <;> simp

@[simp] theorem length_diddleField_true (order : ByteOrder) (key : Skd) (field : List UInt8) :
    (diddleField order true key field).length = field.length := by
  rw [diddleField_encodes]
  split <;> simp

theorem diddleField_decodes {order : ByteOrder} {key : Skd} (supported : key.Supported order)
    {field : List UInt8} (h : field.length = key.size order) :
    diddleField order false key (diddleField order true key field) = field := by
  have four : key.skdDtype.fixedLength = some 4 → 4 ≤ field.length := by
    intro four
    rw [h, ← supported.fixed 4 four]
    exact supported.le_size
  have eight : key.skdDtype.fixedLength = some 8 → field.length = 8 := by
    intro eight
    rw [h, supported.size_eight eight]
  cases order with
  | vax =>
    unfold diddleField diddleVax
    cases type : key.skdDtype
    case ulong => exact complemented_decodes _ _
    case ushort => exact complemented_decodes _ _
    case dFloat => exact complemented_decodes _ _
    case int64 =>
      have inverse : flipSign 7 (swapLongs (swapLongs (flipSign 7 field))) = field := by
        rw [swapLongs_swapLongs (by rw [length_flipSign, eight (by rw [type]; rfl)]),
          flipSign_flipSign]
      exact complemented_inverse (fun xs => swapLongs (flipSign 7 xs))
        (fun xs => flipSign 7 (swapLongs xs))
        (fun xs => by rw [flipSign_complement, swapLongs_complement]) inverse _
    case double =>
      have whole := eight (by rw [type]; rfl)
      have back := swapLongs_swapLongs ((length_floatEncoded key.skdDescending 7 field).trans whole)
      simp only [if_true, Bool.false_eq_true, if_false, complemented_swapLongs, back]
      exact diddleFloat_decodes _ (by omega)
    case float =>
      have whole := four (by rw [type]; rfl)
      exact diddleFloat_decodes _ (by omega)
    case text =>
      exact complemented_inverse _ _ reverseLongs_complement (reverseLongs_reverseLongs _) _
    case bytes =>
      exact complemented_inverse _ _ reverseLongs_complement (reverseLongs_reverseLongs _) _
    case varying =>
      exact complemented_inverse _ _ reverseLongs_complement (reverseLongs_reverseLongs _) _
    case cstring =>
      exact complemented_inverse _ _ reverseLongs_complement (reverseLongs_reverseLongs _) _
    all_goals exact flipSign_decodes _ _ _
  | nonVax =>
    unfold diddleField diddleNonVax
    cases type : key.skdDtype
    case float =>
      have whole := four (by rw [type]; rfl)
      exact diddleFloat_decodes _ (by omega)
    case double =>
      have whole := eight (by rw [type]; rfl)
      exact diddleFloat_decodes _ (by omega)
    case dFloat =>
      have whole := eight (by rw [type]; rfl)
      exact diddleFloat_decodes _ (by omega)
    case long | short | quad | timestamp1 | timestamp2 | sqlDate | int64 =>
      exact flipSign_decodes _ _ _
    all_goals exact complemented_decodes _ _

theorem pow_bytes (k : Nat) :
    2 ^ (8 * (k + 1) - 1) = 128 * 256 ^ k ∧ 2 ^ (8 * (k + 1)) = 256 * 256 ^ k := by
  have bytes : (256 : Nat) ^ k = 2 ^ (8 * k) := by
    rw [pow_mul]
    rfl
  rw [bytes]
  constructor
  · rw [show 8 * (k + 1) - 1 = 8 * k + 7 by omega, pow_add]
    ring
  · rw [show 8 * (k + 1) = 8 * k + 8 by omega, pow_add]
    ring

/-- The leading byte decides whether a number lies in the upper half of its range. -/
theorem value_lt_half (x : UInt8) (xs : List UInt8) :
    value (x :: xs) < 2 ^ (8 * (xs.length + 1) - 1) ↔ x.toNat < 128 := by
  have low := value_lt xs
  rw [(pow_bytes xs.length).1, value]
  constructor
  · intro half
    by_contra sign
    have := Nat.mul_le_mul_right (256 ^ xs.length) (not_lt.mp sign)
    omega
  · intro sign
    have := Nat.mul_le_mul_right (256 ^ xs.length) (show x.toNat + 1 ≤ 128 from sign)
    rw [Nat.add_mul] at this
    omega

theorem value_flipped (x : UInt8) (xs : List UInt8) :
    (value ((x ^^^ 128) :: xs) : Int) =
      signed (xs.length + 1) (value (x :: xs)) + 2 ^ (8 * (xs.length + 1) - 1) := by
  obtain ⟨half, whole⟩ := pow_bytes xs.length
  have half' : (2 : Int) ^ (8 * (xs.length + 1) - 1) = 128 * 256 ^ xs.length := by
    exact_mod_cast half
  have whole' : (2 : Int) ^ (8 * (xs.length + 1)) = 256 * 256 ^ xs.length := by
    exact_mod_cast whole
  unfold signed
  simp only [value_lt_half, half', whole']
  rw [value, value, toNat_flip]
  split
  · push_cast
    ring
  · push_cast [show 128 ≤ x.toNat by omega]
    ring

theorem value_floatField (x : UInt8) (xs : List UInt8) :
    (value (floatField 0 (x :: xs)) : Int) =
      signMagnitude (xs.length + 1) (value (x :: xs)) + 2 ^ (8 * (xs.length + 1) - 1) := by
  obtain ⟨half, whole⟩ := pow_bytes xs.length
  have half' : (2 : Int) ^ (8 * (xs.length + 1) - 1) = 128 * 256 ^ xs.length := by
    exact_mod_cast half
  have complement := value_complement (x :: xs)
  rw [List.length_cons, pow_succ] at complement
  unfold signMagnitude floatField signAt
  simp only [value_lt_half, half', List.getD_cons_zero, decide_eq_true_eq]
  split
  next sign =>
    have complement' : (value ((x :: xs).map (~~~ ·)) : Int) + value (x :: xs) + 1 =
        256 ^ xs.length * 256 := by exact_mod_cast complement
    rw [if_neg (by omega)]
    linarith
  next sign =>
    have flipped := value_flipped x xs
    unfold signed at flipped
    rw [if_pos ((value_lt_half x xs).mpr (by omega)), half'] at flipped
    rw [if_pos (by omega)]
    exact flipped

section

variable {x y : UInt8} {xs ys : List UInt8}

theorem cmp_number (xs ys : List UInt8) :
    cmp (value xs) (value ys) = cmp [(value xs : Int)] [(value ys : Int)] := by
  rw [cmp_singleton]
  exact (Nat.strictMono_cast.cmp_map_eq _ _).symm

theorem cmp_signed {n : Nat} (hx : xs.length + 1 = n) (hy : ys.length + 1 = n) :
    cmp (value ((x ^^^ 128) :: xs)) (value ((y ^^^ 128) :: ys)) =
      cmp [signed n (value (x :: xs))] [signed n (value (y :: ys))] := by
  rw [cmp_number, value_flipped, value_flipped, hx, hy, cmp_singleton, cmp_singleton,
    cmp_add_right]

theorem cmp_signMagnitude {n : Nat} (hx : xs.length + 1 = n) (hy : ys.length + 1 = n) :
    cmp (value (floatField 0 (x :: xs))) (value (floatField 0 (y :: ys))) =
      cmp [signMagnitude n (value (x :: xs))] [signMagnitude n (value (y :: ys))] := by
  rw [cmp_number, value_floatField, value_floatField, hx, hy, cmp_singleton, cmp_singleton,
    cmp_add_right]

/-- A signed longword and an unsigned one behind it. -/
theorem cmp_timestamp {xs' ys' : List UInt8} {n : Nat} (hx : xs.length + 1 = n)
    (hy : ys.length + 1 = n) (h : xs'.length = ys'.length) :
    cmp (value ((x ^^^ 128) :: xs ++ xs')) (value ((y ^^^ 128) :: ys ++ ys')) =
      cmp [signed n (value (x :: xs)), (value xs' : Int)]
        [signed n (value (y :: ys)), (value ys' : Int)] := by
  rw [cmp_value_append h, cmp_signed hx hy, cmp_number xs', cmp_singleton]
  exact (cmp_cons _ _ _ _).symm

end

/-- The types of one length whose fields compare as longwords once they are encoded, whatever
their values. -/
def Skd.Numeric (order : ByteOrder) (key : Skd) : Prop :=
  key.skdDtype.fixedLength ≠ none ∧
    (order = .vax → key.skdDtype ≠ .quad ∧ key.skdDtype ≠ .sqlTime)

def Skd.ZeroPadded (key : Skd) (field : List UInt8) : Prop :=
  ∀ c ∈ field.drop key.skdLength, c = 0

section

variable (c0 c1 c2 c3 c4 c5 c6 c7 : UInt8)

theorem reversed_flipSign_four :
    reverseLongs (flipSign 3 [c0, c1, c2, c3]) = (c3 ^^^ 128) :: [c2, c1, c0] := rfl

theorem reversed_flipSign_eight : reverseLongs (flipSign 3 [c0, c1, c2, c3, c4, c5, c6, c7]) =
    (c3 ^^^ 128) :: [c2, c1, c0] ++ [c7, c6, c5, c4] := rfl

theorem reversed_swapped : reverseLongs (swapLongs (flipSign 7 [c0, c1, c2, c3, c4, c5, c6, c7])) =
    (c7 ^^^ 128) :: [c6, c5, c4, c3, c2, c1, c0] := rfl

theorem reversed_floatField_four : reverseLongs (floatField 3 [c0, c1, c2, c3]) =
    floatField 0 (c3 :: [c2, c1, c0]) := by
  unfold floatField
  rw [show signAt 3 [c0, c1, c2, c3] = signAt 0 [c3, c2, c1, c0] from rfl]
  split
  · rfl
  · rfl

theorem reversed_floatField_eight :
    reverseLongs (swapLongs (floatField 7 [c0, c1, c2, c3, c4, c5, c6, c7])) =
      floatField 0 (c7 :: [c6, c5, c4, c3, c2, c1, c0]) := by
  unfold floatField
  rw [show signAt 7 [c0, c1, c2, c3, c4, c5, c6, c7] =
    signAt 0 [c7, c6, c5, c4, c3, c2, c1, c0] from rfl]
  split
  · rfl
  · rfl

end

theorem vax_eight {key : Skd} (supported : key.Supported .vax) (numeric : key.Numeric .vax)
    (eight : key.skdDtype.fixedLength = some 8) {f g : List UInt8} (hf : f.length = 8)
    (hg : g.length = 8) :
    cmp (value (inOrder .vax (ascendingField .vax key f)))
        (value (inOrder .vax (ascendingField .vax key g))) =
      cmp (key.values .vax f) (key.values .vax g) := by
  obtain ⟨a0, a1, a2, a3, a4, a5, a6, a7, rfl⟩ := exists_eight hf
  obtain ⟨b0, b1, b2, b3, b4, b5, b6, b7, rfl⟩ := exists_eight hg
  have ieee := supported.ieee rfl
  have quad := (numeric.2 rfl).1
  unfold ascendingField Skd.values inOrder
  cases type : key.skdDtype
  case quad => exact absurd type quad
  case dFloat => exact absurd type ieee
  case double =>
    simp only [reversed_floatField_eight]
    exact cmp_signMagnitude rfl rfl
  case int64 =>
    simp only [reversed_swapped]
    exact cmp_signed rfl rfl
  case timestamp1 =>
    simp only [reversed_flipSign_eight]
    exact cmp_timestamp rfl rfl rfl
  case timestamp2 =>
    simp only [reversed_flipSign_eight]
    exact cmp_timestamp rfl rfl rfl
  all_goals
    rw [type] at eight
    cases eight

theorem vax_four {key : Skd} (numeric : key.Numeric .vax)
    (four : key.skdDtype.fixedLength = some 4) {f g : List UInt8} (hf : f.length = 4)
    (hg : g.length = 4) :
    cmp (value (inOrder .vax (ascendingField .vax key f)))
        (value (inOrder .vax (ascendingField .vax key g))) =
      cmp (key.values .vax f) (key.values .vax g) := by
  obtain ⟨a0, a1, a2, a3, rfl⟩ := exists_four hf
  obtain ⟨b0, b1, b2, b3, rfl⟩ := exists_four hg
  have time := (numeric.2 rfl).2
  unfold ascendingField Skd.values inOrder
  cases type : key.skdDtype
  case sqlTime => exact absurd type time
  case float =>
    simp only [reversed_floatField_four]
    exact cmp_signMagnitude rfl rfl
  case long =>
    simp only [reversed_flipSign_four]
    exact cmp_signed rfl rfl
  case sqlDate =>
    simp only [reversed_flipSign_four]
    exact cmp_signed rfl rfl
  case ulong => exact cmp_number _ _
  all_goals
    rw [type] at four
    cases four

theorem value_zero_cons (xs : List UInt8) : value (0 :: xs) = value xs := by
  simp [value]

/-- A short number is followed by the two bytes that fill its longword. -/
theorem vax_two {key : Skd} (two : key.skdDtype.fixedLength = some 2) {f g : List UInt8}
    (hf : f.length = 2) (hg : g.length = 2) :
    cmp (value (inOrder .vax (ascendingField .vax key (f ++ [0, 0]))))
        (value (inOrder .vax (ascendingField .vax key (g ++ [0, 0])))) =
      cmp (key.values .vax f) (key.values .vax g) := by
  obtain ⟨a0, a1, rfl⟩ := List.length_eq_two.mp hf
  obtain ⟨b0, b1, rfl⟩ := List.length_eq_two.mp hg
  have flipped : ∀ c0 c1 : UInt8,
      reverseLongs (flipSign 1 ([c0, c1] ++ [0, 0])) = 0 :: 0 :: (c1 ^^^ 128) :: [c0] :=
    fun _ _ => rfl
  have plain : ∀ c0 c1 : UInt8, reverseLongs ([c0, c1] ++ [0, 0]) = 0 :: 0 :: [c1, c0] :=
    fun _ _ => rfl
  unfold ascendingField Skd.values inOrder
  cases type : key.skdDtype
  case short =>
    simp only [flipped, value_zero_cons]
    exact cmp_signed rfl rfl
  case ushort =>
    simp only [plain, value_zero_cons]
    exact cmp_number _ _
  all_goals
    rw [type] at two
    cases two

theorem nonVax_numeric {key : Skd} {n : Nat} (fixed : key.skdDtype.fixedLength = some n)
    {f g : List UInt8} (hf : f.length = n) (hg : g.length = n) :
    cmp (value (inOrder .nonVax (ascendingField .nonVax key f)))
        (value (inOrder .nonVax (ascendingField .nonVax key g))) =
      cmp (key.values .nonVax f) (key.values .nonVax g) := by
  have pos : 4 ≤ n ∨ n = 2 := by
    cases type : key.skdDtype <;> rw [type] at fixed <;> cases fixed <;> simp
  obtain ⟨x, xs, rfl⟩ : ∃ x xs, f = x :: xs := List.exists_cons_of_length_pos (by omega)
  obtain ⟨y, ys, rfl⟩ : ∃ y ys, g = y :: ys := List.exists_cons_of_length_pos (by omega)
  have flipped : ∀ (c : UInt8) (cs : List UInt8), flipSign 0 (c :: cs) = (c ^^^ 128) :: cs :=
    fun _ _ => rfl
  unfold ascendingField Skd.values inOrder
  cases type : key.skdDtype
  case ulong => exact cmp_number _ _
  case ushort => exact cmp_number _ _
  case sqlTime => exact cmp_number _ _
  case float =>
    rw [type] at fixed
    cases fixed
    exact cmp_signMagnitude hf hg
  case double | dFloat =>
    rw [type] at fixed
    cases fixed
    exact cmp_signMagnitude hf hg
  case long | sqlDate =>
    rw [type] at fixed
    cases fixed
    exact cmp_signed hf hg
  case short =>
    rw [type] at fixed
    cases fixed
    exact cmp_signed hf hg
  case quad | int64 =>
    rw [type] at fixed
    cases fixed
    exact cmp_signed hf hg
  case timestamp1 | timestamp2 =>
    rw [type] at fixed
    cases fixed
    have hxs : xs.length = 7 := by simpa using hf
    have hys : ys.length = 7 := by simpa using hg
    have whole : ∀ c : UInt8, ∀ cs : List UInt8,
        (c ^^^ 128) :: cs = (c ^^^ 128) :: cs.take 3 ++ cs.drop 3 := by
      intro c cs
      rw [List.cons_append, List.take_append_drop]
    simp only [flipped]
    rw [whole x, whole y]
    exact cmp_timestamp (n := 4) (by simp [hxs]) (by simp [hys]) (by simp [hxs, hys])
  all_goals
    rw [type] at fixed
    cases fixed

theorem cmp_pad {f g : List UInt8} (pad : List UInt8) :
    cmp (value (f ++ pad)) (value (g ++ pad)) = cmp (value f) (value g) := by
  rw [cmp_value_append rfl, cmp_self_eq_eq, Ordering.then_eq]

/-- Texts that are filled up compare alike, however far beyond the longer one they are. -/
theorem cmp_padded {size n : Nat} (fits : size ≤ n) (fill : UInt8) {t u : List UInt8}
    (ht : t.length ≤ size) (hu : u.length ≤ size) :
    cmp (value (t ++ List.replicate (n - t.length) fill))
        (value (u ++ List.replicate (n - u.length) fill)) =
      cmp (padded size fill t) (padded size fill u) := by
  have filled : ∀ v : List UInt8, v.length ≤ size →
      v ++ List.replicate (n - v.length) fill =
        (v ++ List.replicate (size - v.length) fill) ++ List.replicate (n - size) fill := by
    intro v hv
    rw [List.append_assoc, ← List.replicate_add, show size - v.length + (n - size) =
      n - v.length by omega]
  rw [filled t ht, filled u hu, cmp_pad]
  apply cmp_value_bytes
  simp only [List.length_append, List.length_replicate]
  omega

/-- The field of a text, a varying text or a null-terminated text once its control info is out of
the way. -/
def Skd.stashed (order : ByteOrder) (key : Skd) (field : List UInt8) : List UInt8 :=
  let text := key.text order field
  match key.skdDtype with
  | .varying => [0, 0] ++ (text ++ List.replicate (field.length - 2 - text.length) key.fillChar)
  | .cstring => text ++ List.replicate (field.length - text.length) key.fillChar
  | _ => field

/-- The control info of a field lies within the field. -/
def Skd.Content (order : ByteOrder) (key : Skd) (field : List UInt8) : Prop :=
  (key.skdDtype = .varying → number order (field.take 2) + 2 ≤ key.skdLength) ∧
    (key.skdDtype = .cstring → 0 ∈ field.take key.skdLength)

section

variable {order : ByteOrder} {key : Skd} {f g : List UInt8}

theorem Skd.ZeroPadded.eq_append (zero : key.ZeroPadded f) :
    f = f.take key.skdLength ++ List.replicate (f.length - key.skdLength) 0 := by
  have pad : f.drop key.skdLength = List.replicate (f.length - key.skdLength) 0 := by
    rw [List.eq_replicate_iff, List.length_drop]
    exact ⟨rfl, zero⟩
  rw [← pad, List.take_append_drop]

theorem numeric_compares (supported : key.Supported order) (numeric : key.Numeric order)
    (hf : f.length = key.size order) (hg : g.length = key.size order) (zf : key.ZeroPadded f)
    (zg : key.ZeroPadded g) :
    cmp (value (inOrder order (ascendingField order key f)))
        (value (inOrder order (ascendingField order key g))) =
      cmp (key.values order (f.take key.skdLength)) (key.values order (g.take key.skdLength)) := by
  obtain ⟨n, fixed⟩ := Option.ne_none_iff_exists'.mp numeric.1
  have length := supported.fixed n fixed
  cases order with
  | nonVax =>
    rw [show key.size .nonVax = n from length] at hf hg
    rw [length, List.take_of_length_le (by omega), List.take_of_length_le (by omega)]
    exact nonVax_numeric fixed hf hg
  | vax =>
    rw [supported.size_vax, length] at hf hg
    have cases : n = 2 ∨ n = 4 ∨ n = 8 := by
      cases type : key.skdDtype <;> rw [type] at fixed <;> cases fixed <;> simp
    rcases cases with rfl | rfl | rfl
    · have padded : ∀ {h : List UInt8}, h.length = 4 → key.ZeroPadded h →
          h = h.take 2 ++ [0, 0] := by
        intro h four zero
        have split := zero.eq_append
        rw [length, four] at split
        exact split
      have hf' : (f.take 2).length = 2 := by
        rw [List.length_take, hf]
        rfl
      have hg' : (g.take 2).length = 2 := by
        rw [List.length_take, hg]
        rfl
      have two := vax_two fixed hf' hg'
      rwa [← padded hf zf, ← padded hg zg, ← length] at two
    · rw [length, List.take_of_length_le (by rw [hf]; decide),
        List.take_of_length_le (by rw [hg]; decide)]
      exact vax_four numeric fixed hf hg
    · rw [length, List.take_of_length_le (by rw [hf]; decide),
        List.take_of_length_le (by rw [hg]; decide)]
      exact vax_eight supported numeric fixed hf hg

theorem takeWhile_of_zero {t : List UInt8} (zero : 0 ∈ t) (u : List UInt8) :
    (t ++ u).takeWhile (· ≠ 0) = t.takeWhile (· ≠ 0) ∧
      (t.takeWhile (· ≠ 0)).length < t.length := by
  induction t with
  | nil => cases zero
  | cons c t ih =>
    by_cases last : c = 0
    · simp [last]
    · obtain ⟨same, shorter⟩ := ih ((List.mem_cons.mp zero).resolve_left (Ne.symm last))
      simp only [List.cons_append, List.takeWhile_cons, ne_eq, last, not_false_eq_true,
        decide_true, if_true, List.length_cons]
      exact ⟨congrArg (c :: ·) same, by simpa using shorter⟩

/-- The text of a field ends within the field. -/
theorem Skd.Content.length_text (content : key.Content order f)
    (string : key.skdDtype = .varying ∨ key.skdDtype = .cstring) (hf : key.skdLength ≤ f.length) :
    (key.skdDtype = .varying → (key.text order f).length = number order (f.take 2)) ∧
      (key.skdDtype = .varying → (key.text order f).length ≤ key.skdLength - 2) ∧
      (key.skdDtype = .cstring → (key.text order f).length < key.skdLength) ∧
      key.text order (f.take key.skdLength) = key.text order f := by
  unfold Skd.text
  rcases string with type | type
  · have inside := content.1 type
    simp only [type, List.length_take, List.length_drop]
    refine ⟨fun _ => by omega, fun _ => by omega, fun h => (by cases h), ?_⟩
    rw [List.take_take, Nat.min_eq_left (by omega), List.drop_take, List.take_take,
      Nat.min_eq_left (by omega)]
  · have zero := content.2 type
    simp only [type]
    obtain ⟨same, shorter⟩ := takeWhile_of_zero zero (f.drop key.skdLength)
    rw [List.take_append_drop] at same
    rw [List.length_take, Nat.min_eq_left hf] at shorter
    exact ⟨fun h => (by cases h), fun h => (by cases h), fun _ => by rw [same]; exact shorter,
      same.symm⟩

theorem text_compares (supported : key.Supported order)
    (type : key.skdDtype = .text ∨ key.skdDtype = .bytes)
    (hf : f.length = key.size order) (hg : g.length = key.size order) (zf : key.ZeroPadded f)
    (zg : key.ZeroPadded g) :
    cmp (value f) (value g) =
      cmp (key.values order (f.take key.skdLength)) (key.values order (g.take key.skdLength)) := by
  have fits := supported.le_size
  have first : ∀ {h : List UInt8}, h.length = key.size order →
      (h.take key.skdLength).length = key.skdLength := by
    intro h size
    rw [List.length_take]
    omega
  have whole : ∀ {h : List UInt8}, h.length = key.size order →
      key.values order (h.take key.skdLength) =
        padded key.skdLength key.fillChar (h.take key.skdLength) := by
    intro h size
    unfold Skd.values Skd.text
    rcases type with type | type
    · rw [type]
    · rw [type]
  rw [whole hf, whole hg, ← cmp_padded (le_refl _) _ (first hf).le (first hg).le, first hf, first hg,
    Nat.sub_self, List.replicate_zero, List.append_nil, List.append_nil]
  conv_lhs => rw [zf.eq_append, zg.eq_append, hf, hg]
  exact cmp_pad _

theorem string_compares (supported : key.Supported order)
    (string : key.skdDtype = .varying ∨ key.skdDtype = .cstring)
    (hf : f.length = key.size order) (hg : g.length = key.size order)
    (cf : key.Content order f) (cg : key.Content order g) :
    cmp (value (key.stashed order f)) (value (key.stashed order g)) =
      cmp (key.values order (f.take key.skdLength)) (key.values order (g.take key.skdLength)) := by
  have fits := supported.le_size
  obtain ⟨-, varyingF, cstringF, sameF⟩ := cf.length_text string (by omega)
  obtain ⟨-, varyingG, cstringG, sameG⟩ := cg.length_text string (by omega)
  rcases string with type | type
  · have stashed : ∀ h : List UInt8, key.stashed order h =
        [0, 0] ++ (key.text order h ++
          List.replicate (h.length - 2 - (key.text order h).length) key.fillChar) := by
      intro h
      unfold Skd.stashed
      rw [type]
    have values : ∀ h : List UInt8, key.values order h =
        padded (key.skdLength - 2) key.fillChar (key.text order h) := by
      intro h
      unfold Skd.values
      rw [type]
    have control : ∀ xs : List UInt8, value ([0, 0] ++ xs) = value xs := by
      intro xs
      exact (value_zero_cons _).trans (value_zero_cons _)
    rw [stashed, stashed, values, values, sameF, sameG, control, control, hf, hg]
    exact cmp_padded (by omega) _ (varyingF type) (varyingG type)
  · have stashed : ∀ h : List UInt8, key.stashed order h =
        key.text order h ++
          List.replicate (h.length - (key.text order h).length) key.fillChar := by
      intro h
      unfold Skd.stashed
      rw [type]
    have values : ∀ h : List UInt8, key.values order h =
        padded key.skdLength key.fillChar (key.text order h) := by
      intro h
      unfold Skd.values
      rw [type]
    rw [stashed, stashed, values, values, sameF, sameG, hf, hg]
    exact cmp_padded fits _ (cstringF type).le (cstringG type).le

theorem inOrder_complement (order : ByteOrder) (field : List UInt8) :
    inOrder order (field.map (~~~ ·)) = (inOrder order field).map (~~~ ·) := by
  cases order with
  | vax => exact (reverseLongs_complement field).symm
  | nonVax => rfl

@[simp] theorem length_inOrder (order : ByteOrder) (field : List UInt8) :
    (inOrder order field).length = field.length := by
  cases order with
  | vax => exact length_reverseLongs field
  | nonVax => rfl

/-- A text is already in the order of the comparison when its longwords are reversed. -/
theorem inOrder_string (none : key.skdDtype.fixedLength = none) (field : List UInt8) :
    inOrder order (ascendingField order key field) = field := by
  unfold inOrder ascendingField
  cases type : key.skdDtype
  case text | bytes | varying | cstring =>
    cases order with
    | vax => exact reverseLongs_reverseLongs field
    | nonVax => rfl
  all_goals
    rw [type] at none
    cases none

theorem ascending_compares (supported : key.Supported order)
    (ordered : key.skdDtype.fixedLength ≠ none → key.Numeric order)
    (hf : f.length = key.size order) (hg : g.length = key.size order) (zf : key.ZeroPadded f)
    (zg : key.ZeroPadded g) (cf : key.Content order f) (cg : key.Content order g) :
    cmp (value (inOrder order (ascendingField order key (key.stashed order f))))
        (value (inOrder order (ascendingField order key (key.stashed order g)))) =
      cmp (key.values order (f.take key.skdLength)) (key.values order (g.take key.skdLength)) := by
  by_cases fixed : key.skdDtype.fixedLength = none
  · rw [inOrder_string fixed, inOrder_string fixed]
    by_cases string : key.skdDtype = .varying ∨ key.skdDtype = .cstring
    · exact string_compares supported string hf hg cf cg
    · have type : key.skdDtype = .text ∨ key.skdDtype = .bytes := by
        cases h : key.skdDtype <;> simp [h, SkdDtype.fixedLength] at fixed string ⊢
      have stashed : ∀ h : List UInt8, key.stashed order h = h := by
        intro h
        unfold Skd.stashed
        rcases type with type | type
        · rw [type]
        · rw [type]
      rw [stashed, stashed]
      exact text_compares supported type hf hg zf zg
  · have stashed : ∀ h : List UInt8, key.stashed order h = h := by
      intro h
      unfold Skd.stashed
      cases type : key.skdDtype
      case varying => exact absurd (by rw [type]; rfl) fixed
      case cstring => exact absurd (by rw [type]; rfl) fixed
      all_goals rfl
    rw [stashed, stashed]
    exact numeric_compares supported (ordered fixed) hf hg zf zg

/-- Where the VAX variant compares two quads or two times as their types do. The longwords of a
quad are not swapped, so the low ones are compared first; a time is taken as signed. -/
def Skd.Agrees (key : Skd) (f g : List UInt8) : Prop :=
  match key.skdDtype with
  | .quad =>
    signed 4 (number .vax (f.drop 4)) = signed 4 (number .vax (g.drop 4)) ∨
      number .vax (f.take 4) = number .vax (g.take 4) ∨
      (number .vax (f.take 4) < number .vax (g.take 4) ↔
        signed 4 (number .vax (f.drop 4)) < signed 4 (number .vax (g.drop 4)))
  | .sqlTime => number .vax f < 2 ^ 31 ↔ number .vax g < 2 ^ 31
  | _ => True

theorem signed_quad (c0 c1 c2 c3 : UInt8) (low : List UInt8) (h : low.length = 4) :
    signed 8 (value (c3 :: [c2, c1, c0] ++ low)) =
      signed 4 (value (c3 :: [c2, c1, c0])) * 2 ^ 32 + value low := by
  have split := value_append (c3 :: [c2, c1, c0]) low
  have bound := value_lt low
  rw [h] at split bound
  have top : value (c3 :: [c2, c1, c0] ++ low) < 2 ^ 63 ↔ value (c3 :: [c2, c1, c0]) < 2 ^ 31 := by
    omega
  unfold signed
  rw [split] at top ⊢
  simp only [Nat.reduceMul, Nat.reduceSub, top]
  split
  · push_cast
    ring
  · push_cast
    ring

end

theorem then_comm_iff {o p : Ordering} :
    o.then p = p.then o ↔ p = .eq ∨ o = .eq ∨ o = p := by
  cases o <;> cases p <;> decide

theorem cmp_eq_iff {α β : Type*} [LinearOrder α] [LinearOrder β] {a b : α} {c d : β}
    (ne : a ≠ b) (ne' : c ≠ d) : cmp a b = cmp c d ↔ (a < b ↔ c < d) := by
  rcases lt_trichotomy a b with lt | eq | gt
  · rw [(cmp_eq_lt_iff a b).mpr lt, eq_comm, cmp_eq_lt_iff]
    simp [lt]
  · exact absurd eq ne
  · rw [(cmp_eq_gt_iff a b).mpr gt, eq_comm, cmp_eq_gt_iff]
    simp only [gt.not_gt, false_iff, not_lt]
    exact ⟨le_of_lt, fun le => lt_of_le_of_ne le (Ne.symm ne')⟩

theorem quad_compares_iff {f g : List UInt8} (hf : f.length = 8) (hg : g.length = 8) :
    cmp (value (reverseLongs (flipSign 7 f))) (value (reverseLongs (flipSign 7 g))) =
        cmp [signed 8 (number .vax f)] [signed 8 (number .vax g)] ↔
      signed 4 (number .vax (f.drop 4)) = signed 4 (number .vax (g.drop 4)) ∨
      number .vax (f.take 4) = number .vax (g.take 4) ∨
      (number .vax (f.take 4) < number .vax (g.take 4) ↔
        signed 4 (number .vax (f.drop 4)) < signed 4 (number .vax (g.drop 4))) := by
  obtain ⟨a0, a1, a2, a3, a4, a5, a6, a7, rfl⟩ := exists_eight hf
  obtain ⟨b0, b1, b2, b3, b4, b5, b6, b7, rfl⟩ := exists_eight hg
  have encoded : ∀ c0 c1 c2 c3 c4 c5 c6 c7 : UInt8,
      reverseLongs (flipSign 7 [c0, c1, c2, c3, c4, c5, c6, c7]) =
        [c3, c2, c1, c0] ++ (c7 ^^^ 128) :: [c6, c5, c4] := fun _ _ _ _ _ _ _ _ => rfl
  have native : ∀ c0 c1 c2 c3 c4 c5 c6 c7 : UInt8,
      number .vax [c0, c1, c2, c3, c4, c5, c6, c7] =
        value (c7 :: [c6, c5, c4] ++ [c3, c2, c1, c0]) := fun _ _ _ _ _ _ _ _ => rfl
  have first : ∀ c0 c1 c2 c3 c4 c5 c6 c7 : UInt8,
      number .vax ([c0, c1, c2, c3, c4, c5, c6, c7].take 4) = value [c3, c2, c1, c0] :=
    fun _ _ _ _ _ _ _ _ => rfl
  have second : ∀ c0 c1 c2 c3 c4 c5 c6 c7 : UInt8,
      number .vax ([c0, c1, c2, c3, c4, c5, c6, c7].drop 4) = value (c7 :: [c6, c5, c4]) :=
    fun _ _ _ _ _ _ _ _ => rfl
  have lowA := value_lt [a3, a2, a1, a0]
  have lowB := value_lt [b3, b2, b1, b0]
  simp only [encoded, native, first, second]
  rw [cmp_value_append (show [a7 ^^^ 128, a6, a5, a4].length = [b7 ^^^ 128, b6, b5, b4].length from
      rfl), cmp_signed (show [a6, a5, a4].length + 1 = 4 from rfl)
    (show [b6, b5, b4].length + 1 = 4 from rfl), signed_quad _ _ _ _ _ rfl,
    signed_quad _ _ _ _ _ rfl, cmp_singleton, cmp_singleton]
  generalize value [a3, a2, a1, a0] = lowA' at *
  generalize value [b3, b2, b1, b0] = lowB' at *
  generalize signed 4 (value (a7 :: [a6, a5, a4])) = highA
  generalize signed 4 (value (b7 :: [b6, b5, b4])) = highB
  have order : cmp (highA * 2 ^ 32 + lowA') (highB * 2 ^ 32 + (lowB' : Int)) =
      (cmp highA highB).then (cmp lowA' lowB') := by
    rcases lt_trichotomy highA highB with lt | rfl | gt
    · rw [(cmp_eq_lt_iff highA highB).mpr lt]
      apply (cmp_eq_lt_iff _ _).mpr
      simp only [List.length_cons, List.length_nil] at lowA lowB
      omega
    · rw [cmp_self_eq_eq, Ordering.then, cmp_add_left]
      exact Nat.strictMono_cast.cmp_map_eq _ _
    · rw [(cmp_eq_gt_iff highA highB).mpr gt]
      apply (cmp_eq_gt_iff _ _).mpr
      simp only [List.length_cons, List.length_nil] at lowA lowB
      omega
  rw [order, then_comm_iff, cmp_eq_eq_iff, cmp_eq_eq_iff]
  by_cases high : highA = highB
  · simp [high]
  · by_cases low : lowA' = lowB'
    · simp [low]
    · simp only [high, low, false_or]
      exact cmp_eq_iff low high

theorem time_compares_iff {f g : List UInt8} (hf : f.length = 4) (hg : g.length = 4) :
    cmp (value (reverseLongs (flipSign 3 f))) (value (reverseLongs (flipSign 3 g))) =
        cmp [(number .vax f : Int)] [(number .vax g : Int)] ↔
      (number .vax f < 2 ^ 31 ↔ number .vax g < 2 ^ 31) := by
  obtain ⟨a0, a1, a2, a3, rfl⟩ := exists_four hf
  obtain ⟨b0, b1, b2, b3, rfl⟩ := exists_four hg
  have native : ∀ c0 c1 c2 c3 : UInt8,
      number .vax [c0, c1, c2, c3] = value (c3 :: [c2, c1, c0]) := fun _ _ _ _ => rfl
  have lowA := value_lt (a3 :: [a2, a1, a0])
  have lowB := value_lt (b3 :: [b2, b1, b0])
  simp only [reversed_flipSign_four, native]
  rw [cmp_signed (show [a2, a1, a0].length + 1 = 4 from rfl)
    (show [b2, b1, b0].length + 1 = 4 from rfl), cmp_singleton, cmp_singleton]
  generalize value (a3 :: [a2, a1, a0]) = a at *
  generalize value (b3 :: [b2, b1, b0]) = b at *
  simp only [List.length_cons, List.length_nil] at lowA lowB
  by_cases same : a = b
  · simp [same]
  · have differ : signed 4 a ≠ signed 4 b := by
      unfold signed
      split <;> split <;> omega
    have signed_four : ∀ v, signed 4 v = if v < 2 ^ 31 then (v : Int) else v - 2 ^ 32 := fun _ => rfl
    rw [cmp_eq_iff differ (by omega), signed_four, signed_four]
    split <;> split <;> omega

/-- The typed comparison of one key. -/
def Skd.compare (order : ByteOrder) (key : Skd) (f g : List UInt8) : Ordering :=
  if key.skdDescending then cmp (key.values order g) (key.values order f)
  else cmp (key.values order f) (key.values order g)

/-- A key in the order of the comparison, when it is encoded. -/
def Skd.encoded (order : ByteOrder) (key : Skd) (field : List UInt8) : List UInt8 :=
  inOrder order (diddleField order true key (key.stashed order field))

theorem Skd.Agrees.symm {key : Skd} {f g : List UInt8} (h : key.Agrees f g) : key.Agrees g f := by
  unfold Skd.Agrees at h ⊢
  cases type : key.skdDtype
  case quad =>
    simp only [type] at h ⊢
    omega
  case sqlTime =>
    simp only [type] at h ⊢
    exact h.symm
  all_goals trivial

section

variable {order : ByteOrder} {key : Skd} {f g : List UInt8}

theorem length_stashed (content : key.Content order f) (supported : key.Supported order)
    (hf : f.length = key.size order) : (key.stashed order f).length = f.length := by
  have fits := supported.le_size
  unfold Skd.stashed
  cases type : key.skdDtype
  case varying =>
    have := (content.length_text (.inl type) (by omega)).2.1 type
    have := supported.varying type
    simp only [List.length_append, List.length_cons, List.length_nil, List.length_replicate]
    omega
  case cstring =>
    have := (content.length_text (.inr type) (by omega)).2.2.1 type
    simp only [List.length_append, List.length_replicate]
    omega
  all_goals rfl

theorem ascending_compares_iff (supported : key.Supported order)
    (hf : f.length = key.size order) (hg : g.length = key.size order) (zf : key.ZeroPadded f)
    (zg : key.ZeroPadded g) (cf : key.Content order f) (cg : key.Content order g) :
    cmp (value (inOrder order (ascendingField order key (key.stashed order f))))
          (value (inOrder order (ascendingField order key (key.stashed order g)))) =
        cmp (key.values order (f.take key.skdLength)) (key.values order (g.take key.skdLength)) ↔
      (order = .vax → key.Agrees f g) := by
  by_cases plain : key.skdDtype.fixedLength ≠ none → key.Numeric order
  · refine iff_of_true (ascending_compares supported plain hf hg zf zg cf cg) ?_
    intro vax
    unfold Skd.Agrees
    cases type : key.skdDtype
    case quad =>
      have numeric := plain (by rw [type]; simp [SkdDtype.fixedLength])
      exact absurd type (numeric.2 vax).1
    case sqlTime =>
      have numeric := plain (by rw [type]; simp [SkdDtype.fixedLength])
      exact absurd type (numeric.2 vax).2
    all_goals trivial
  · unfold Skd.Numeric at plain
    push Not at plain
    obtain ⟨fixed, special⟩ := plain
    obtain ⟨rfl, time⟩ := special fixed
    rw [forall_prop_of_true rfl]
    have length : ∀ n, key.skdDtype.fixedLength = some n → key.skdLength = n := supported.fixed
    have sized := supported.size_vax
    have whole : ∀ {h : List UInt8} {n : Nat}, h.length = n → h.take n = h := by
      intro h n size
      exact List.take_of_length_le (le_of_eq size)
    unfold Skd.Agrees ascendingField Skd.values Skd.stashed inOrder
    by_cases quad : key.skdDtype = .quad
    · have eight := length 8 (by rw [quad]; rfl)
      rw [eight] at sized
      have hf' : f.length = 8 := hf.trans sized
      have hg' : g.length = 8 := hg.trans sized
      rw [eight, whole hf', whole hg']
      simp only [quad]
      exact quad_compares_iff hf' hg'
    · have four := length 4 (by rw [time quad]; rfl)
      rw [four] at sized
      have hf' : f.length = 4 := hf.trans sized
      have hg' : g.length = 4 := hg.trans sized
      rw [four, whole hf', whole hg']
      simp only [time quad]
      exact time_compares_iff hf' hg'

theorem encoded_eq (order : ByteOrder) (key : Skd) (f : List UInt8) :
    key.encoded order f =
      if key.skdDescending then
        (inOrder order (ascendingField order key (key.stashed order f))).map (~~~ ·)
      else inOrder order (ascendingField order key (key.stashed order f)) := by
  unfold Skd.encoded
  rw [diddleField_encodes]
  split
  · exact inOrder_complement order _
  · rfl

theorem length_encoded (content : key.Content order f) (supported : key.Supported order)
    (hf : f.length = key.size order) : (key.encoded order f).length = key.size order := by
  unfold Skd.encoded
  rw [length_inOrder, length_diddleField_true, length_stashed content supported hf, hf]

theorem encoded_compares_iff (supported : key.Supported order)
    (hf : f.length = key.size order) (hg : g.length = key.size order) (zf : key.ZeroPadded f)
    (zg : key.ZeroPadded g) (cf : key.Content order f) (cg : key.Content order g) :
    cmp (value (key.encoded order f)) (value (key.encoded order g)) =
        key.compare order (f.take key.skdLength) (g.take key.skdLength) ↔
      (order = .vax → key.Agrees f g) := by
  have ascending := ascending_compares_iff supported hf hg zf zg cf cg
  have reversed := ascending_compares_iff supported hg hf zg zf cg cf
  have alike : (inOrder order (ascendingField order key (key.stashed order f))).length =
      (inOrder order (ascendingField order key (key.stashed order g))).length := by
    rw [length_inOrder, length_inOrder, length_ascendingField, length_ascendingField,
      length_stashed cf supported hf, length_stashed cg supported hg, hf, hg]
  unfold Skd.compare
  rw [encoded_eq, encoded_eq]
  by_cases descending : key.skdDescending = true
  · rw [if_pos descending, if_pos descending, if_pos descending, cmp_value_complement alike,
      reversed]
    exact ⟨fun h vax => (h vax).symm, fun h vax => (h vax).symm⟩
  · rw [if_neg descending, if_neg descending, if_neg descending]
    exact ascending

theorem inOrder_inOrder (order : ByteOrder) (field : List UInt8) :
    inOrder order (inOrder order field) = field := by
  cases order with
  | vax => exact reverseLongs_reverseLongs field
  | nonVax => rfl

theorem encoded_inj (supported : key.Supported order) (hf : f.length = key.size order)
    (hg : g.length = key.size order) (cf : key.Content order f) (cg : key.Content order g)
    (same : value (key.encoded order f) = value (key.encoded order g)) :
    key.stashed order f = key.stashed order g := by
  have lengths : (key.encoded order f).length = (key.encoded order g).length := by
    rw [length_encoded cf supported hf, length_encoded cg supported hg]
  have eq := congrArg (inOrder order) ((eq_iff_value_eq lengths).mpr same)
  unfold Skd.encoded at eq
  rw [inOrder_inOrder, inOrder_inOrder] at eq
  have decoded := congrArg (diddleField order false key) eq
  rwa [diddleField_decodes supported ((length_stashed cf supported hf).trans hf),
    diddleField_decodes supported ((length_stashed cg supported hg).trans hg)] at decoded

theorem number_inj (length : f.length = g.length) (same : number .vax f = number .vax g) :
    f = g := by
  have reversed : f.reverse.length = g.reverse.length := by
    rw [List.length_reverse, List.length_reverse, length]
  exact List.reverse_injective ((eq_iff_value_eq reversed).mpr same)

theorem number_lt_quad (h : f.length = 8) : number .vax f < 2 ^ 64 := by
  have bound := value_lt f.reverse
  rw [List.length_reverse, h] at bound
  exact bound

/-- Quads and times that the VAX variant takes in another order differ. -/
theorem differ_of_not_agrees (supported : key.Supported .vax) (hf : f.length = key.size .vax)
    (hg : g.length = key.size .vax) (disagree : ¬key.Agrees f g) :
    key.stashed .vax f ≠ key.stashed .vax g ∧
      key.values .vax (f.take key.skdLength) ≠ key.values .vax (g.take key.skdLength) := by
  have ne : f ≠ g := by
    intro same
    apply disagree
    rw [same]
    unfold Skd.Agrees
    split
    · exact .inl rfl
    · exact Iff.rfl
    · trivial
  have sized := supported.size_vax
  have whole : ∀ {h : List UInt8} {n : Nat}, h.length = n → h.take n = h := by
    intro h n size
    exact List.take_of_length_le (le_of_eq size)
  unfold Skd.Agrees at disagree
  unfold Skd.stashed Skd.values
  cases type : key.skdDtype
  case quad =>
    have eight := supported.fixed 8 (by rw [type]; rfl)
    rw [eight] at sized
    have hf' : f.length = 8 := hf.trans sized
    have hg' : g.length = 8 := hg.trans sized
    refine ⟨ne, fun same => ne (number_inj (hf'.trans hg'.symm) ?_)⟩
    rw [eight, whole hf', whole hg'] at same
    have signs := (List.cons.inj same).1
    have boundF := number_lt_quad hf'
    have boundG := number_lt_quad hg'
    unfold signed at signs
    simp only [Nat.reduceMul, Nat.reduceSub] at signs
    split at signs <;> split at signs <;> omega
  case sqlTime =>
    have four := supported.fixed 4 (by rw [type]; rfl)
    rw [four] at sized
    have hf' : f.length = 4 := hf.trans sized
    have hg' : g.length = 4 := hg.trans sized
    refine ⟨ne, fun same => ne (number_inj (hf'.trans hg'.symm) ?_)⟩
    rw [four, whole hf', whole hg'] at same
    exact_mod_cast (List.cons.inj same).1
  all_goals
    rw [type] at disagree
    exact (disagree trivial).elim

/-- Two keys are encoded alike exactly if they are equal. -/
theorem encoded_eq_iff (supported : key.Supported order)
    (hf : f.length = key.size order) (hg : g.length = key.size order) (zf : key.ZeroPadded f)
    (zg : key.ZeroPadded g) (cf : key.Content order f) (cg : key.Content order g) :
    cmp (value (key.encoded order f)) (value (key.encoded order g)) = .eq ↔
      key.compare order (f.take key.skdLength) (g.take key.skdLength) = .eq := by
  have compares := encoded_compares_iff supported hf hg zf zg cf cg
  by_cases agrees : order = .vax → key.Agrees f g
  · rw [compares.mpr agrees]
  · push Not at agrees
    obtain ⟨rfl, disagree⟩ := agrees
    obtain ⟨stashes, values⟩ := differ_of_not_agrees supported hf hg disagree
    refine iff_of_false (fun same => ?_) (fun same => ?_)
    · exact stashes (encoded_inj supported hf hg cf cg ((cmp_eq_eq_iff _ _).mp same))
    · unfold Skd.compare at same
      split at same
      · exact values ((cmp_lists_eq_iff _ _).mp same).symm
      · exact values ((cmp_lists_eq_iff _ _).mp same)

end

end InterBase
