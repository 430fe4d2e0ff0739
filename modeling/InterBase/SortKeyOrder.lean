import InterBase.SortKeyRecord

namespace InterBase

open Memory BigEndian

/-- A description as the optimizer lays it out: the keys behind each other, what is stashed behind
them. -/
structure Laid (order : ByteOrder) (description : List Skd) : Prop where
  supported : ∀ key ∈ description, key.Supported order
  fields : description.Pairwise fun key next => key.skdOffset + key.size order ≤ next.skdOffset
  behind : ∀ key ∈ description, key.Stashes → 4 * scbKeyLength description ≤ key.skdVaryOffset
  stashes : description.Pairwise fun key next => key.Stashes → next.Stashes →
    key.skdVaryOffset + 2 ≤ next.skdVaryOffset ∨ next.skdVaryOffset + 2 ≤ key.skdVaryOffset

/-- The field of a key, without what fills its last longword. -/
def Skd.field (key : Skd) (record : Nat → UInt8) : List UInt8 :=
  slice record key.skdOffset key.skdLength

/-- A record as it is put into a sort: every length within its field, and zero between the keys. -/
structure Puts (order : ByteOrder) (description : List Skd) (record : Nat → UInt8) : Prop where
  content : ∀ key ∈ description, key.Content order (key.field record)
  clear : ∀ i < 4 * scbKeyLength description,
    (∀ key ∈ description, ¬(key.skdOffset ≤ i ∧ i < key.skdOffset + key.skdLength)) → record i = 0

/-- The typed comparison of two records. -/
def typedCompare (order : ByteOrder) (r1 r2 : Nat → UInt8) : List Skd → Ordering
  | [] => .eq
  | key :: rest =>
    (key.compare order (key.field r1) (key.field r2)).then (typedCompare order r1 r2 rest)

/-- The first key in which two records differ. -/
def firstDifference (order : ByteOrder) (description : List Skd) (r1 r2 : Nat → UInt8) :
    Option Skd :=
  description.find? fun key => key.compare order (key.field r1) (key.field r2) ≠ .eq

/-- A record that was put and then handed out and taken back any number of times. -/
inductive Diddled (order : ByteOrder) (description : List Skd) (record : Nat → UInt8) :
    (Nat → UInt8) → Prop
  | put : Diddled order description record (diddleKey order description false true record)
  | again {e : Nat → UInt8} (sortedBefore scbSorted : Bool) (h : Diddled order description record e) :
    Diddled order description record
      (diddleKey order description scbSorted true (diddleKey order description sortedBefore false e))

/-- The length of a field and its characters, as far as they are part of its value. -/
def Skd.contents (order : ByteOrder) (key : Skd) (record : Nat → UInt8) : Nat × List UInt8 :=
  (match key.skdDtype with
    | .varying => number order ((key.field record).take 2)
    | _ => (key.text order (key.field record)).length,
    key.text order (key.field record))

/-- Decoding restores every key value and string length. -/
def RestoresKeys (order : ByteOrder) (description : List Skd) (record : Nat → UInt8) : Prop :=
  ∀ e, Diddled order description record e → ∀ scbSorted, ∀ key ∈ description,
    key.contents order (diddleKey order description scbSorted false e) = key.contents order record

/-- The encoded records compare as unsigned longwords as the records compare key by key. -/
def ComparesAlike (order : ByteOrder) (description : List Skd) (r1 r2 : Nat → UInt8) : Prop :=
  cmp (keyLongs order description (diddleKey order description false true r1))
      (keyLongs order description (diddleKey order description false true r2)) =
    typedCompare order r1 r2 description

section

variable {order : ByteOrder} {description : List Skd} {record : Nat → UInt8}

/-- Every key ends within the longwords that are compared. -/
theorem Laid.le_keyLength (laid : Laid order description) {key : Skd} (mem : key ∈ description) :
    key.skdOffset + key.size order ≤ 4 * scbKeyLength description := by
  have within : ∀ last ∈ description, last.skdOffset + last.size order ≤
      roundupLong (last.skdOffset + last.skdLength) := by
    intro last mem
    have supported := laid.supported last mem
    cases order with
    | vax =>
      have aligned := supported.aligned rfl
      rw [supported.size_vax]
      unfold roundupLong
      omega
    | nonVax => exact le_roundupLong _
  have whole : ∀ n, 4 * (roundupLong n / 4) = roundupLong n := fun n =>
    Nat.mul_div_cancel' (roundupLong_dvd n)
  obtain ⟨front, last, rfl⟩ : ∃ front last, description = front ++ [last] := by
    refine ⟨description.dropLast, description.getLast (List.ne_nil_of_mem mem), ?_⟩
    exact (List.dropLast_append_getLast _).symm
  have ends : scbKeyLength (front ++ [last]) =
      roundupLong (last.skdOffset + last.skdLength) / 4 := by
    unfold scbKeyLength
    rw [List.getLast?_concat]
  have end_last := within last (by simp)
  rw [ends, whole]
  rcases List.mem_append.mp mem with earlier | same
  · have before := (List.pairwise_append.mp laid.fields).2.2 key earlier last (by simp)
    omega
  · rw [List.mem_singleton.mp same]
    exact end_last

theorem Laid.apart (laid : Laid order description) {key : Skd} (mem : key ∈ description) :
    key.Apart order := by
  intro stashes
  have inside := laid.le_keyLength mem
  have behind := laid.behind key mem stashes
  exact .inr (by omega)

/-- No byte belongs to two keys. -/
theorem Laid.disjoint (laid : Laid order description) :
    description.Pairwise fun key next => ∀ i, key.Owns order i → ¬next.Owns order i := by
  have mems : description.Pairwise fun key next => key ∈ description ∧ next ∈ description :=
    List.pairwise_of_forall_mem_list fun key mem next mem' => ⟨mem, mem'⟩
  have both := (laid.fields.and laid.stashes).and mems
  refine both.imp ?_
  intro key next h i owns owns'
  obtain ⟨⟨fields, stashes⟩, mem, mem'⟩ := h
  have inside := laid.le_keyLength mem
  have inside' := laid.le_keyLength mem'
  have behind := laid.behind key mem
  have behind' := laid.behind next mem'
  rcases owns with ⟨low, high⟩ | ⟨key_stashes, low, high⟩
  · rcases owns' with ⟨low', high'⟩ | ⟨next_stashes, low', high'⟩
    · omega
    · have := behind' next_stashes
      omega
  · have := behind key_stashes
    rcases owns' with ⟨low', high'⟩ | ⟨next_stashes, low', high'⟩
    · omega
    · have := stashes key_stashes next_stashes
      omega

/-- Keys that own different bytes are processed independently: what one step does to the bytes of
its own key is what the loop does to them. -/
theorem foldl_holds {keys : List Skd} (step : (Nat → UInt8) → Skd → Nat → UInt8) (l : Skd → Nat)
    (field : Skd → List UInt8) (Before : Skd → (Nat → UInt8) → Prop)
    (disjoint : keys.Pairwise fun key next => ∀ i, key.Owns order i → ¬next.Owns order i)
    (apart : ∀ key ∈ keys, key.Apart order)
    (sized : ∀ key ∈ keys, (field key).length = key.size order)
    (looks : ∀ key ∈ keys, ∀ r r' : Nat → UInt8, (∀ i, key.Owns order i → r' i = r i) →
      Before key r → Before key r')
    (steps : ∀ key ∈ keys, ∀ r, Before key r → step r key = key.put order (l key) (field key) r)
    (before : ∀ key ∈ keys, Before key record) :
    (∀ key ∈ keys, key.Holds order (l key) (field key) (keys.foldl step record)) ∧
      ∀ i, (∀ key ∈ keys, ¬key.Owns order i) → keys.foldl step record i = record i := by
  induction keys generalizing record with
  | nil => exact ⟨fun key mem => (by cases mem), fun i _ => rfl⟩
  | cons key keys ih =>
    obtain ⟨others, disjoint'⟩ := List.pairwise_cons.mp disjoint
    have first := steps key (by simp) record (before key (by simp))
    have size := sized key (by simp)
    have later : ∀ next ∈ keys, Before next (step record key) := by
      intro next mem
      refine looks next (by simp [mem]) record _ (fun i owns => ?_) (before next (by simp [mem]))
      rw [first]
      exact put_other size fun owns' => others next mem i owns' owns
    obtain ⟨holds, same⟩ := ih disjoint' (fun k mem => apart k (by simp [mem]))
      (fun k mem => sized k (by simp [mem])) (fun k mem => looks k (by simp [mem]))
      (fun k mem => steps k (by simp [mem])) later
    refine ⟨fun k mem => ?_, fun i free => ?_⟩
    · rcases List.mem_cons.mp mem with rfl | mem
      · refine (Skd.Holds.put record (l k) (apart k (by simp)) size).congr fun i owns => ?_
        rw [List.foldl_cons, same i fun next mem => others next mem i owns, first]
      · exact holds k mem
    · rw [List.foldl_cons, same i fun k mem => free k (by simp [mem]), first]
      exact put_other size (free key (by simp))

/-- What is in the record before its keys are encoded. -/
def Skd.bytes (order : ByteOrder) (key : Skd) (record : Nat → UInt8) : List UInt8 :=
  slice record key.skdOffset (key.size order)

theorem take_bytes (supported : ∀ key ∈ description, key.Supported order) {key : Skd}
    (mem : key ∈ description) (record : Nat → UInt8) :
    (key.bytes order record).take key.skdLength = key.field record :=
  take_slice record (supported key mem).le_size

theorem Puts.sound (puts : Puts order description record) (laid : Laid order description)
    {key : Skd} (mem : key ∈ description) : key.Sound order (key.bytes order record) := by
  have supported := laid.supported key mem
  have content := puts.content key mem
  have whole := take_bytes laid.supported mem record
  refine ⟨supported, length_slice _ _ _, fun type => ?_, fun type => ?_⟩
  · have two := content.1 type
    rw [← whole, List.take_take, Nat.min_eq_left (supported.varying type)] at two
    exact two
  · have zero := content.2 type
    rw [whole]
    exact List.mem_of_mem_take zero

theorem Laid.ordered (laid : Laid order description) {key other : Skd} (mem : key ∈ description)
    (mem' : other ∈ description) (ne : key ≠ other) :
    key.skdOffset + key.size order ≤ other.skdOffset ∨
      other.skdOffset + other.size order ≤ key.skdOffset := by
  let Either (k k' : Skd) : Prop :=
    k.skdOffset + k.size order ≤ k'.skdOffset ∨ k'.skdOffset + k'.size order ≤ k.skdOffset
  have symmetric : Std.Symm Either := ⟨fun _ _ => Or.symm⟩
  have either : description.Pairwise Either := laid.fields.imp .inl
  exact either.forall mem mem' ne

theorem Puts.zeroPadded (puts : Puts order description record) (laid : Laid order description)
    {key : Skd} (mem : key ∈ description) : key.ZeroPadded (key.bytes order record) := by
  have inside := laid.le_keyLength mem
  intro c hc
  obtain ⟨i, hi⟩ := List.mem_iff_getElem?.mp hc
  rw [List.getElem?_drop] at hi
  have within : key.skdLength + i < key.size order := by
    have bound := (List.getElem?_eq_some_iff.mp hi).1
    unfold Skd.bytes at bound
    rwa [length_slice] at bound
  unfold Skd.bytes at hi
  rw [getElem?_slice record within, Option.some.injEq] at hi
  rw [← hi]
  apply puts.clear _ (by omega)
  rintro other mem' ⟨low, high⟩
  have fits := (laid.supported other mem').le_size
  by_cases same : key = other
  · rw [← same] at high
    omega
  · have apart := laid.ordered mem mem' same
    omega

/-- A key as it is encoded in a record that has been put. -/
def Skd.encodedBytes (order : ByteOrder) (key : Skd) (record : Nat → UInt8) : List UInt8 :=
  diddleField order true key (key.stashed order (key.bytes order record))

/-- What the encoded record of `record` holds: the keys and, apart from them, what `record` does. -/
structure EncodesTo (order : ByteOrder) (description : List Skd) (record e : Nat → UInt8) : Prop where
  keys : ∀ key ∈ description, key.Holds order (key.text order (key.bytes order record)).length
    (key.encodedBytes order record) e
  rest : ∀ i, (∀ key ∈ description, ¬key.Owns order i) → e i = record i

/-- What the decoded record holds. -/
structure DecodesTo (order : ByteOrder) (description : List Skd) (record d : Nat → UInt8) : Prop where
  keys : ∀ key ∈ description, key.Holds order (key.text order (key.bytes order record)).length
    (key.restored order (key.bytes order record)) d
  rest : ∀ i, (∀ key ∈ description, ¬key.Owns order i) → d i = record i

theorem length_encodedBytes {key : Skd} (sound : key.Sound order (key.bytes order record)) :
    (key.encodedBytes order record).length = key.size order := by
  unfold Skd.encodedBytes
  rw [length_diddleField_true, length_stashed sound.content sound.supported sound.length,
    sound.length]

theorem diddleKey_encodes (laid : Laid order description) (puts : Puts order description record) :
    EncodesTo order description record (diddleKey order description false true record) := by
  have looks : ∀ key ∈ description, ∀ r r' : Nat → UInt8, (∀ i, key.Owns order i → r' i = r i) →
      key.bytes order r = key.bytes order record → key.bytes order r' = key.bytes order record := by
    intro key mem r r' same field
    rw [← field]
    exact slice_congr fun i low high => same i (.inl ⟨low, high⟩)
  obtain ⟨keys, rest⟩ := foldl_holds (diddleOne order false true)
    (fun key => (key.text order (key.bytes order record)).length)
    (fun key => key.encodedBytes order record)
    (fun key r => key.bytes order r = key.bytes order record)
    laid.disjoint (fun key mem => laid.apart mem)
    (fun key mem => length_encodedBytes (puts.sound laid mem)) looks
    (fun key mem r field => diddleOne_encodes (puts.sound laid mem) (laid.apart mem) field)
    (fun key mem => rfl)
  exact ⟨keys, rest⟩

theorem diddleKey_decodes (laid : Laid order description) (puts : Puts order description record)
    {e : Nat → UInt8} (encodes : EncodesTo order description record e) (scbSorted : Bool) :
    DecodesTo order description record (diddleKey order description scbSorted false e) := by
  obtain ⟨keys, rest⟩ := foldl_holds (diddleOne order scbSorted false)
    (fun key => (key.text order (key.bytes order record)).length)
    (fun key => key.restored order (key.bytes order record))
    (fun key r => key.Holds order (key.text order (key.bytes order record)).length
      (key.encodedBytes order record) r)
    laid.disjoint (fun key mem => laid.apart mem)
    (fun key mem => (length_restored (puts.sound laid mem)).trans (puts.sound laid mem).length)
    (fun key mem r r' same h => h.congr same)
    (fun key mem r h => diddleOne_decodes (puts.sound laid mem) (laid.apart mem) scbSorted h)
    encodes.keys
  exact ⟨keys, fun i free => (rest i free).trans (encodes.rest i free)⟩

theorem diddleKey_again (laid : Laid order description) (puts : Puts order description record)
    {d : Nat → UInt8} (decodes : DecodesTo order description record d) (scbSorted : Bool) :
    EncodesTo order description record (diddleKey order description scbSorted true d) := by
  obtain ⟨keys, rest⟩ := foldl_holds (diddleOne order scbSorted true)
    (fun key => (key.text order (key.bytes order record)).length)
    (fun key => key.encodedBytes order record)
    (fun key r => key.Holds order (key.text order (key.bytes order record)).length
      (key.restored order (key.bytes order record)) r)
    laid.disjoint (fun key mem => laid.apart mem)
    (fun key mem => length_encodedBytes (puts.sound laid mem))
    (fun key mem r r' same h => h.congr same)
    (fun key mem r h => diddleOne_again (puts.sound laid mem) (laid.apart mem) scbSorted h)
    decodes.keys
  exact ⟨keys, fun i free => (rest i free).trans (decodes.rest i free)⟩

theorem Diddled.encodes {e : Nat → UInt8} (h : Diddled order description record e)
    (laid : Laid order description) (puts : Puts order description record) :
    EncodesTo order description record e := by
  induction h with
  | put => exact diddleKey_encodes laid puts
  | again sortedBefore scbSorted _ ih =>
    exact diddleKey_again laid puts (diddleKey_decodes laid puts ih sortedBefore) scbSorted

/-- Taking back what has been handed out gives the record that was handed out. -/
theorem Diddled.eq {e : Nat → UInt8} (h : Diddled order description record e)
    (laid : Laid order description) (puts : Puts order description record) :
    e = diddleKey order description false true record := by
  have encodes := h.encodes laid puts
  have first := diddleKey_encodes laid puts
  funext i
  by_cases owned : ∃ key ∈ description, key.Owns order i
  · obtain ⟨key, mem, owns⟩ := owned
    exact (first.keys key mem).unique (encodes.keys key mem) owns
  · push Not at owned
    rw [encodes.rest i owned, first.rest i owned]

theorem restoresKeys (laid : Laid order description) (puts : Puts order description record) :
    RestoresKeys order description record := by
  intro e diddled scbSorted key mem
  have sound := puts.sound laid mem
  have fits := sound.le_length
  have decodes := diddleKey_decodes laid puts (diddled.encodes laid puts) scbSorted
  have field : key.bytes order (diddleKey order description scbSorted false e) =
      key.restored order (key.bytes order record) := (decodes.keys key mem).1
  obtain ⟨control, text, content⟩ := restored_text sound
  have lengths := length_restored sound
  unfold Skd.contents
  rw [← take_bytes laid.supported mem, ← take_bytes laid.supported mem, field]
  cases type : key.skdDtype
  case varying =>
    have room := sound.supported.varying type
    have first := (sound.content.length_text (.inl type) fits).2.2.2
    have second := (content.length_text (.inl type) (lengths ▸ fits)).2.2.2
    simp only [List.take_take, Nat.min_eq_left room]
    rw [control type, first, second, text]
  case cstring =>
    have first := (sound.content.length_text (.inr type) fits).2.2.2
    have second := (content.length_text (.inr type) (lengths ▸ fits)).2.2.2
    simp only
    rw [first, second, text]
  all_goals
    have plain : key.restored order (key.bytes order record) = key.bytes order record := by
      unfold Skd.restored
      simp only [type]
    rw [plain]

theorem inOrder_append {xs : List UInt8} (whole : order = .vax → 4 ∣ xs.length)
    (ys : List UInt8) : inOrder order (xs ++ ys) = inOrder order xs ++ inOrder order ys := by
  cases order with
  | vax => exact reverseLongs_append (whole rfl) ys
  | nonVax => rfl

theorem longword_eq (order : ByteOrder) (record : Nat → UInt8) (k : Nat) :
    longword order record k = value (inOrder order (slice record (4 * k) 4)) := by
  cases order <;> rfl

/-- Comparing longwords is comparing the bytes in their order. -/
theorem cmp_longwords (order : ByteOrder) (r1 r2 : Nat → UInt8) (n : Nat) :
    cmp ((List.range n).map (longword order r1)) ((List.range n).map (longword order r2)) =
      cmp (value (inOrder order (slice r1 0 (4 * n)))) (value (inOrder order (slice r2 0 (4 * n)))) := by
  induction n with
  | zero =>
    have empty : ∀ r : Nat → UInt8, slice r 0 (4 * 0) = [] := fun _ => rfl
    rw [empty, empty, cmp_self_eq_eq, List.range_zero, List.map_nil, List.map_nil, cmp_nil]
  | succ n ih =>
    have split : ∀ r : Nat → UInt8, inOrder order (slice r 0 (4 * (n + 1))) =
        inOrder order (slice r 0 (4 * n)) ++ inOrder order (slice r (4 * n) 4) := by
      intro r
      rw [Nat.mul_succ, slice_append, Nat.zero_add]
      exact inOrder_append (fun _ => by rw [length_slice]; exact Nat.dvd_mul_right 4 n) _
    rw [split, split, cmp_value_append (by simp), ← ih, List.range_succ, List.map_append,
      List.map_append, cmp_append (by simp)]
    simp only [List.map_cons, List.map_nil, cmp_singleton, longword_eq]

/-- Going through the keys from the offset `a` on, with nothing but zeros between them. -/
theorem cmp_fields {keys : List Skd} {e1 e2 : Nat → UInt8} {a : Nat} (stop : Nat)
    (aligned : order = .vax → 4 ∣ a ∧ ∀ key ∈ keys, 4 ∣ key.skdOffset ∧ 4 ∣ key.size order)
    (ordered : keys.Pairwise fun key next => key.skdOffset + key.size order ≤ next.skdOffset)
    (inside : ∀ key ∈ keys, a ≤ key.skdOffset ∧ key.skdOffset + key.size order ≤ stop)
    (start : a ≤ stop)
    (between : ∀ i, a ≤ i → i < stop →
      (∀ key ∈ keys, ¬(key.skdOffset ≤ i ∧ i < key.skdOffset + key.size order)) → e1 i = e2 i) :
    cmp (value (inOrder order (slice e1 a (stop - a))))
        (value (inOrder order (slice e2 a (stop - a)))) =
      keys.foldr (fun key rest => (cmp (value (inOrder order (key.bytes order e1)))
        (value (inOrder order (key.bytes order e2)))).then rest) .eq := by
  induction keys generalizing a with
  | nil =>
    have same : slice e1 a (stop - a) = slice e2 a (stop - a) :=
      slice_congr fun i low high => between i low (by omega) fun key mem => (by cases mem)
    rw [same, cmp_self_eq_eq]
    rfl
  | cons key keys ih =>
    obtain ⟨before, ordered'⟩ := List.pairwise_cons.mp ordered
    obtain ⟨first, last⟩ := inside key (by simp)
    have parts : ∀ e : Nat → UInt8, slice e a (stop - a) =
        slice e a (key.skdOffset - a) ++ (key.bytes order e ++
          slice e (key.skdOffset + key.size order) (stop - (key.skdOffset + key.size order))) := by
      intro e
      unfold Skd.bytes
      rw [show stop - a = key.skdOffset - a + (key.size order +
        (stop - (key.skdOffset + key.size order))) by omega, slice_append, slice_append,
        show a + (key.skdOffset - a) = key.skdOffset by omega]
    have gap : slice e1 a (key.skdOffset - a) = slice e2 a (key.skdOffset - a) := by
      refine slice_congr fun i low high => between i low (by omega) fun other mem => ?_
      rcases List.mem_cons.mp mem with rfl | mem
      · omega
      · have := before other mem
        omega
    have bytes : ∀ e : Nat → UInt8, inOrder order (slice e a (stop - a)) =
        inOrder order (slice e a (key.skdOffset - a)) ++ (inOrder order (key.bytes order e) ++
          inOrder order (slice e (key.skdOffset + key.size order)
            (stop - (key.skdOffset + key.size order)))) := by
      intro e
      rw [parts, inOrder_append, inOrder_append]
      · intro vax
        unfold Skd.bytes
        rw [length_slice]
        exact ((aligned vax).2 key (by simp)).2
      · intro vax
        obtain ⟨at_a, keys_aligned⟩ := aligned vax
        have := (keys_aligned key (by simp)).1
        rw [length_slice]
        omega
    have later := ih (a := key.skdOffset + key.size order)
      (fun vax => by
        obtain ⟨-, keys_aligned⟩ := aligned vax
        have := keys_aligned key (by simp)
        exact ⟨by omega, fun k mem => keys_aligned k (by simp [mem])⟩)
      ordered' (fun k mem => ⟨before k mem, (inside k (by simp [mem])).2⟩) last
      (fun i low high free => between i (by omega) high fun k mem => by
        rcases List.mem_cons.mp mem with rfl | mem
        · omega
        · exact free k mem)
    rw [bytes, bytes, gap, cmp_value_append (by simp [Skd.bytes]), cmp_self_eq_eq, Ordering.then,
      cmp_value_append (by simp), later, List.foldr_cons]

theorem then_foldr_eq_iff (keys : List Skd) (o t : Skd → Ordering)
    (same : ∀ key ∈ keys, o key = .eq ↔ t key = .eq) :
    keys.foldr (fun key rest => (o key).then rest) .eq =
        keys.foldr (fun key rest => (t key).then rest) .eq ↔
      ∀ key, keys.find? (fun key => t key ≠ .eq) = some key → o key = t key := by
  induction keys with
  | nil => simp
  | cons key keys ih =>
    have ih := ih fun k mem => same k (by simp [mem])
    rw [List.foldr_cons, List.foldr_cons]
    by_cases equal : t key = .eq
    · rw [List.find?_cons_of_neg (by simpa using equal), (same key (by simp)).mpr equal, equal]
      exact ih
    · have differ : o key ≠ .eq := fun h => equal ((same key (by simp)).mp h)
      have decided : ∀ {p q : Ordering}, p ≠ .eq → p.then q = p := by
        intro p q ne
        cases p
        · rfl
        · exact absurd rfl ne
        · rfl
      rw [List.find?_cons_of_pos (by simpa using equal), decided equal, decided differ]
      simp

theorem typedCompare_eq (order : ByteOrder) (r1 r2 : Nat → UInt8) (keys : List Skd) :
    typedCompare order r1 r2 keys =
      keys.foldr (fun key rest =>
        (key.compare order (key.field r1) (key.field r2)).then rest) .eq := by
  induction keys with
  | nil => rfl
  | cons key keys ih => rw [typedCompare, ih, List.foldr_cons]

/-- Quads and times take up their whole longwords. -/
theorem agrees_field {key : Skd} (supported : key.Supported .vax) (r1 r2 : Nat → UInt8) :
    key.Agrees (key.bytes .vax r1) (key.bytes .vax r2) ↔ key.Agrees (key.field r1) (key.field r2) := by
  have whole : key.skdDtype = .quad ∨ key.skdDtype = .sqlTime →
      ∀ r : Nat → UInt8, key.bytes .vax r = key.field r := by
    intro type r
    unfold Skd.bytes Skd.field
    rw [supported.size_vax]
    rcases type with type | type
    · rw [supported.fixed 8 (by rw [type]; rfl)]
      rfl
    · rw [supported.fixed 4 (by rw [type]; rfl)]
      rfl
  cases type : key.skdDtype
  case quad => rw [whole (.inl type), whole (.inl type)]
  case sqlTime => rw [whole (.inr type), whole (.inr type)]
  all_goals
    unfold Skd.Agrees
    simp only [type]

/-- The two records differ first in a key that the variant compares as its type does. -/
def DiffersInOrder (order : ByteOrder) (description : List Skd) (r1 r2 : Nat → UInt8) : Prop :=
  ∀ key, firstDifference order description r1 r2 = some key → order = .vax →
    key.Agrees (key.field r1) (key.field r2)

theorem comparesAlike_iff {r1 r2 : Nat → UInt8} (laid : Laid order description)
    (puts1 : Puts order description r1) (puts2 : Puts order description r2) :
    ComparesAlike order description r1 r2 ↔ DiffersInOrder order description r1 r2 := by
  have encodes1 := diddleKey_encodes laid puts1
  have encodes2 := diddleKey_encodes laid puts2
  have compares : ∀ key ∈ description,
      (cmp (value (key.encoded order (key.bytes order r1)))
          (value (key.encoded order (key.bytes order r2))) =
        key.compare order (key.field r1) (key.field r2) ↔
          (order = .vax → key.Agrees (key.bytes order r1) (key.bytes order r2))) ∧
      (cmp (value (key.encoded order (key.bytes order r1)))
          (value (key.encoded order (key.bytes order r2))) = .eq ↔
        key.compare order (key.field r1) (key.field r2) = .eq) := by
    intro key mem
    have sound1 := puts1.sound laid mem
    have sound2 := puts2.sound laid mem
    have supported := laid.supported key mem
    have zero1 := puts1.zeroPadded laid mem
    have zero2 := puts2.zeroPadded laid mem
    rw [← take_bytes laid.supported mem, ← take_bytes laid.supported mem]
    exact ⟨encoded_compares_iff supported sound1.length sound2.length zero1 zero2 sound1.content
        sound2.content,
      encoded_eq_iff supported sound1.length sound2.length zero1 zero2 sound1.content
        sound2.content⟩
  have clear : ∀ {r e : Nat → UInt8}, EncodesTo order description r e → Puts order description r →
      ∀ i < 4 * scbKeyLength description,
        (∀ key ∈ description, ¬(key.skdOffset ≤ i ∧ i < key.skdOffset + key.size order)) →
          e i = 0 := by
    intro r e encodes puts i high free
    rw [encodes.rest i fun key mem owns => ?_]
    · refine puts.clear i high fun key mem inside => free key mem ⟨inside.1, ?_⟩
      have := (laid.supported key mem).le_size
      omega
    · rcases owns with inside | ⟨stashes, low, -⟩
      · exact free key mem inside
      · have := laid.behind key mem stashes
        omega
  have longs : cmp (keyLongs order description (diddleKey order description false true r1))
      (keyLongs order description (diddleKey order description false true r2)) =
      description.foldr (fun key rest => (cmp (value (key.encoded order (key.bytes order r1)))
        (value (key.encoded order (key.bytes order r2)))).then rest) .eq := by
    have aligned : order = .vax →
        4 ∣ 0 ∧ ∀ key ∈ description, 4 ∣ key.skdOffset ∧ 4 ∣ key.size order := by
      rintro rfl
      refine ⟨Nat.dvd_zero 4, fun key mem => ⟨(laid.supported key mem).aligned rfl, ?_⟩⟩
      rw [(laid.supported key mem).size_vax]
      exact roundupLong_dvd _
    have fields := cmp_fields (4 * scbKeyLength description) aligned laid.fields
      (fun key mem => ⟨Nat.zero_le _, laid.le_keyLength mem⟩) (Nat.zero_le _)
      (fun i _ high free =>
        (clear encodes1 puts1 i high free).trans (clear encodes2 puts2 i high free).symm)
    unfold keyLongs
    rw [cmp_longwords]
    refine fields.trans (List.foldr_ext _ _ _ fun key mem rest => ?_)
    rw [show key.bytes order (diddleKey order description false true r1) =
        key.encodedBytes order r1 from (encodes1.keys key mem).1,
      show key.bytes order (diddleKey order description false true r2) =
        key.encodedBytes order r2 from (encodes2.keys key mem).1]
    rfl
  unfold ComparesAlike DiffersInOrder firstDifference
  rw [longs, typedCompare_eq, then_foldr_eq_iff description _ _ fun key mem => (compares key mem).2]
  refine forall_congr' fun key => ?_
  constructor
  · intro alike found vax
    have mem := List.mem_of_find?_eq_some found
    have agrees := (compares key mem).1.mp (alike found) vax
    subst vax
    exact (agrees_field (laid.supported key mem) r1 r2).mp agrees
  · intro agrees found
    have mem := List.mem_of_find?_eq_some found
    refine (compares key mem).1.mpr fun vax => ?_
    subst vax
    exact (agrees_field (laid.supported key mem) r1 r2).mpr (agrees found rfl)

end

/-- The encoded records sort as the records do, and are restored, exactly if the key that decides
is not one of those that the VAX variant takes in another order. -/
theorem diddleKey_sorts_iff {order : ByteOrder} {description : List Skd} {r1 r2 : Nat → UInt8}
    (laid : Laid order description) (puts1 : Puts order description r1)
    (puts2 : Puts order description r2) :
    (ComparesAlike order description r1 r2 ∧ RestoresKeys order description r1 ∧
        RestoresKeys order description r2) ↔ DiffersInOrder order description r1 r2 := by
  rw [comparesAlike_iff laid puts1 puts2]
  exact and_iff_left ⟨restoresKeys laid puts1, restoresKeys laid puts2⟩

def quadKey : Skd := ⟨.quad, false, false, 8, 0, 0⟩

/-- The quad with the longwords `low` and `high`, each below 256. -/
def quadRecord (low high : UInt8) : Nat → UInt8 := write (fun _ => 0) 0 [low, 0, 0, 0, high, 0, 0, 0]

theorem quadKey_laid : Laid .vax [quadKey] where
  supported := by
    intro key mem
    rw [List.mem_singleton.mp mem]
    refine ⟨fun n fixed => Option.some.inj fixed, fun type => ?_, fun _ => ⟨0, rfl⟩, fun _ type => ?_,
      by decide⟩
    · cases type
    · cases type
  fields := List.pairwise_singleton _ _
  behind := by
    intro key mem stashes
    rw [List.mem_singleton.mp mem] at stashes
    rcases stashes with type | type
    · cases type
    · cases type
  stashes := List.pairwise_singleton _ _

theorem quadRecord_puts (low high : UInt8) : Puts .vax [quadKey] (quadRecord low high) where
  content := by
    intro key mem
    rw [List.mem_singleton.mp mem]
    refine ⟨fun type => ?_, fun type => ?_⟩
    · cases type
    · cases type
  clear := by
    intro i within free
    have outside := free quadKey (List.mem_singleton_self _)
    exact absurd ⟨Nat.zero_le i, within⟩ outside

theorem diddleKey_sorts_iff_low : ComparesAlike .vax [quadKey] (quadRecord 1 7) (quadRecord 2 7) ∧
    RestoresKeys .vax [quadKey] (quadRecord 1 7) ∧ RestoresKeys .vax [quadKey] (quadRecord 2 7) := by
  refine (diddleKey_sorts_iff quadKey_laid (quadRecord_puts 1 7) (quadRecord_puts 2 7)).mpr ?_
  intro key found _
  have same : key = quadKey := List.mem_singleton.mp (List.mem_of_find?_eq_some found)
  rw [same]
  exact .inl (by decide)

theorem diddleKey_misorders : Laid .vax [quadKey] ∧ Puts .vax [quadKey] (quadRecord 1 0) ∧
    Puts .vax [quadKey] (quadRecord 0 1) ∧
    ¬ComparesAlike .vax [quadKey] (quadRecord 1 0) (quadRecord 0 1) := by
  refine ⟨quadKey_laid, quadRecord_puts 1 0, quadRecord_puts 0 1, ?_⟩
  unfold ComparesAlike
  decide

end InterBase
