import InterBase.SortKeyCompare

namespace InterBase

open Memory BigEndian

/-- The types whose control info is stashed. -/
def Skd.Stashes (key : Skd) : Prop := key.skdDtype = .varying ∨ key.skdDtype = .cstring

instance (key : Skd) : Decidable key.Stashes := inferInstanceAs (Decidable (_ ∨ _))

/-- A record with the field and the stashed length of a key. -/
def Skd.put (order : ByteOrder) (key : Skd) (l : Nat) (field : List UInt8)
    (record : Nat → UInt8) : Nat → UInt8 :=
  write (if key.Stashes then write record key.skdVaryOffset (ushortBytes order l) else record)
    key.skdOffset field

/-- The stashed length lies outside of the key. -/
def Skd.Apart (order : ByteOrder) (key : Skd) : Prop :=
  key.Stashes →
    key.skdVaryOffset + 2 ≤ key.skdOffset ∨ key.skdOffset + key.size order ≤ key.skdVaryOffset

@[simp] theorem length_ushortBytes (order : ByteOrder) (n : Nat) :
    (ushortBytes order n).length = 2 := by
  cases order <;> rfl

theorem number_ushortBytes (order : ByteOrder) {n : Nat} (h : n < 65536) :
    number order (ushortBytes order n) = n := by
  cases order
  · simp only [number, ushortBytes, List.reverse_cons, List.reverse_nil, List.nil_append,
      List.cons_append, value, List.length_cons, List.length_nil, UInt8.toNat_ofNat']
    omega
  · simp only [number, ushortBytes, value, List.length_cons, List.length_nil, UInt8.toNat_ofNat']
    omega

theorem readUshort_eq (order : ByteOrder) (record : Nat → UInt8) (a : Nat) :
    readUshort order record a = number order (slice record a 2) := by
  cases order
  · simp only [readUshort, number, slice, List.reverse_cons, List.reverse_nil, List.nil_append,
      List.cons_append, value, List.length_cons, List.length_nil]
    omega
  · simp only [readUshort, number, slice, value, List.length_cons, List.length_nil]
    omega

section

variable {order : ByteOrder} {key : Skd} {record : Nat → UInt8} {l : Nat}
  {f g : List UInt8}

theorem slice_put : slice (key.put order l f record) key.skdOffset f.length = f :=
  slice_write_self _ _ f

theorem write_put (same : g.length = f.length) :
    write (key.put order l f record) key.skdOffset g = key.put order l g record := by
  unfold Skd.put
  have inner := @write_inner _ (if key.Stashes then write record key.skdVaryOffset
    (ushortBytes order l) else record) key.skdOffset 0 f g (by omega)
  rw [Nat.add_zero, List.take_zero, List.nil_append, Nat.zero_add, same, List.drop_length,
    List.append_nil] at inner
  exact inner

/-- Writing over a part of the field. -/
theorem write_put_at {a b c g : List UInt8} {k : Nat} (ha : a.length = k)
    (hb : g.length = b.length) :
    write (key.put order l (a ++ b ++ c) record) (key.skdOffset + k) g =
      key.put order l (a ++ g ++ c) record := by
  have fits : k + g.length ≤ (a ++ b ++ c).length := by
    simp only [List.length_append]
    omega
  have first : (a ++ b ++ c).take k = a := by
    rw [List.append_assoc, ← ha, List.take_left]
  have last : (a ++ b ++ c).drop (k + g.length) = c := by
    rw [← ha, hb, ← List.length_append, List.drop_left]
  unfold Skd.put
  rw [write_inner _ fits, first, last]

theorem slice_stash (apart : key.Apart order) (stashes : key.Stashes)
    (hf : f.length = key.size order) :
    slice (key.put order l f record) key.skdVaryOffset 2 = ushortBytes order l := by
  unfold Skd.put
  have disjoint := apart stashes
  rw [if_pos stashes, slice_write_disjoint _ _ (by omega)]
  have self := slice_write_self record key.skdVaryOffset (ushortBytes order l)
  rwa [length_ushortBytes] at self

theorem readUshort_put (record : Nat → UInt8) (apart : key.Apart order) (stashes : key.Stashes)
    (hf : f.length = key.size order) (small : l < 65536) :
    readUshort order (key.put order l f record) key.skdVaryOffset = l := by
  rw [readUshort_eq, slice_stash apart stashes hf, number_ushortBytes order small]

theorem put_put (apart : key.Apart order) (hf : f.length = key.size order)
    (hg : g.length = key.size order) :
    key.put order l g (key.put order l f record) = key.put order l g record := by
  by_cases stashes : key.Stashes
  · have same : write (key.put order l f record) key.skdVaryOffset (ushortBytes order l) =
        key.put order l f record := by
      have self := write_slice_self (key.put order l f record) key.skdVaryOffset 2
      rwa [slice_stash apart stashes hf] at self
    have again : key.put order l g (key.put order l f record) =
        write (key.put order l f record) key.skdOffset g := by
      conv_lhs => unfold Skd.put
      rw [if_pos stashes]
      exact congrArg (fun r => write r key.skdOffset g) same
    rw [again, write_put (hg.trans hf.symm)]
  · have again : key.put order l g (key.put order l f record) =
        write (key.put order l f record) key.skdOffset g := by
      conv_lhs => unfold Skd.put
      rw [if_neg stashes]
      rfl
    rw [again, write_put (hg.trans hf.symm)]

/-- A record is what it is with its own field and, where there is one, its length stashed. -/
theorem put_slice (record : Nat → UInt8) (l : Nat) (apart : key.Apart order) :
    (if key.Stashes then write record key.skdVaryOffset (ushortBytes order l) else record) =
      key.put order l (slice record key.skdOffset (key.size order)) record := by
  have kept : slice (if key.Stashes then write record key.skdVaryOffset (ushortBytes order l)
      else record) key.skdOffset (key.size order) = slice record key.skdOffset (key.size order) := by
    split
    next stashes =>
      have disjoint := apart stashes
      exact slice_write_disjoint _ _ (by rw [length_ushortBytes]; omega)
    next => rfl
  unfold Skd.put
  rw [← kept]
  exact (write_slice_self _ _ _).symm

theorem strlen_eq (record : Nat → UInt8) (p n : Nat) {limit : Nat} (h : n ≤ limit)
    (zero : 0 ∈ slice record p n) :
    strlen record p limit = ((slice record p n).takeWhile (· ≠ 0)).length := by
  induction n generalizing p limit with
  | zero => cases zero
  | succ n ih =>
    obtain ⟨limit, rfl⟩ : ∃ k, limit = k + 1 := ⟨limit - 1, by omega⟩
    unfold strlen
    by_cases first : record p = 0
    · simp [slice, first]
    · have later := (List.mem_cons.mp zero).resolve_left (Ne.symm first)
      rw [if_neg first, ih (p + 1) (by omega) later]
      simp [slice, first]

/-- Stashing for the first time: the length goes out of the field and the rest is filled. -/
theorem stash_unsorted (supported : key.Supported order) (apart : key.Apart order)
    (content : key.Content order (slice record key.skdOffset (key.size order))) :
    stash order false key record =
      key.put order (key.text order (slice record key.skdOffset (key.size order))).length
        (key.stashed order (slice record key.skdOffset (key.size order))) record := by
  have fits := supported.le_size
  have size : key.size order < 65536 := by
    cases order with
    | vax => exact supported.size_vax ▸ supported.short
    | nonVax => exact (le_roundupLong _).trans_lt supported.short
  generalize hf : slice record key.skdOffset (key.size order) = f at content ⊢
  have length : f.length = key.size order := by rw [← hf, length_slice]
  have put := put_slice record (key.text order f).length apart
  rw [hf] at put
  cases type : key.skdDtype
  case varying =>
    obtain ⟨control, inside, -, -⟩ := content.length_text (.inl type) (by omega)
    have control := control type
    have inside := inside type
    have room := supported.varying type
    have stashes : key.Stashes := .inl type
    rw [if_pos stashes] at put
    have text : key.text order f = (f.drop 2).take (number order (f.take 2)) := by
      unfold Skd.text
      rw [type]
    have read : readUshort order record key.skdOffset = (key.text order f).length := by
      rw [readUshort_eq, control, ← hf, take_slice _ (by omega)]
    have fill : ushort (key.size order + 131072 - 2 - (key.text order f).length) =
        key.size order - 2 - (key.text order f).length := by
      unfold ushort
      omega
    have zero : ushortBytes order 0 = [0, 0] := by
      cases order <;> rfl
    have parts : f = f.take 2 ++ key.text order f ++ f.drop (2 + (key.text order f).length) := by
      have rest : (f.drop 2).drop (key.text order f).length =
          f.drop (2 + (key.text order f).length) := List.drop_drop
      have second : (f.drop 2).take (key.text order f).length = key.text order f := by
        rw [control, ← text]
      have joined := List.take_append_drop (key.text order f).length (f.drop 2)
      rw [second] at joined
      rw [← rest, List.append_assoc, joined, List.take_append_drop]
    have two : (f.take 2).length = 2 := by
      rw [List.length_take]
      omega
    have tail : (f.drop (2 + (key.text order f).length)).length =
        key.size order - 2 - (key.text order f).length := by
      rw [List.length_drop, length]
      omega
    have stashed : key.stashed order f = [0, 0] ++ (key.text order f ++
        List.replicate (key.size order - 2 - (key.text order f).length) key.fillChar) := by
      unfold Skd.stashed
      simp only [type, length]
    unfold stash
    simp only [type, Bool.false_eq_true, if_false]
    rw [read, put, fill, zero, stashed, Nat.add_assoc]
    generalize key.text order f = t at *
    generalize f.drop (2 + t.length) = rest at *
    rw [parts, ← List.append_nil rest, ← List.append_assoc,
      write_put_at (by rw [List.length_append, two]) (by rw [List.length_replicate, tail]),
      List.append_nil, List.append_assoc]
    exact write_put_at (a := []) (k := 0) rfl two.symm
  case cstring =>
    obtain ⟨-, -, inside, -⟩ := content.length_text (.inr type) (by omega)
    have inside := inside type
    have stashes : key.Stashes := .inr type
    rw [if_pos stashes] at put
    have text : key.text order f = f.takeWhile (· ≠ 0) := by
      unfold Skd.text
      rw [type]
    have read : strlen record key.skdOffset 65535 = (key.text order f).length := by
      have zero : 0 ∈ slice record key.skdOffset (key.size order) := by
        rw [hf]
        exact List.mem_of_mem_take (content.2 type)
      rw [strlen_eq record key.skdOffset (key.size order) (by omega) zero, hf, text]
    have fill : ushort (key.size order + 65536 - (key.text order f).length) =
        key.size order - (key.text order f).length := by
      unfold ushort
      omega
    have parts : f = key.text order f ++ f.drop (key.text order f).length := by
      have first : f.take (key.text order f).length = key.text order f := by
        rw [text]
        exact (List.prefix_iff_eq_take.mp (List.takeWhile_prefix _)).symm
      have joined := List.take_append_drop (key.text order f).length f
      rw [first] at joined
      exact joined.symm
    have tail : (f.drop (key.text order f).length).length =
        key.size order - (key.text order f).length := by
      rw [List.length_drop, length]
    have stashed : key.stashed order f = key.text order f ++
        List.replicate (key.size order - (key.text order f).length) key.fillChar := by
      unfold Skd.stashed
      simp only [type, length]
    unfold stash
    simp only [type, Bool.false_eq_true, if_false]
    rw [read, put, fill, stashed]
    generalize key.text order f = t at *
    generalize f.drop t.length = rest at *
    rw [parts, ← List.append_nil (t ++ rest), write_put_at rfl (by rw [List.length_replicate, tail]),
      List.append_nil]
  all_goals
    have plain : ¬key.Stashes := by
      unfold Skd.Stashes
      simp [type]
    rw [if_neg plain] at put
    unfold stash Skd.stashed
    simp only [type]
    exact put

/-- The field once its length is back in place. -/
def Skd.restored (order : ByteOrder) (key : Skd) (field : List UInt8) : List UInt8 :=
  let text := key.text order field
  match key.skdDtype with
  | .varying => ushortBytes order text.length ++
      (text ++ List.replicate (field.length - 2 - text.length) key.fillChar)
  | .cstring => text ++ [0] ++ List.replicate (field.length - text.length - 1) key.fillChar
  | _ => field

/-- The field of a null-terminated text has room for the terminator. -/
theorem stashed_cstring (type : key.skdDtype = .cstring)
    (inside : (key.text order f).length < f.length) :
    key.stashed order f = key.text order f ++ [key.fillChar] ++
      List.replicate (f.length - (key.text order f).length - 1) key.fillChar := by
  unfold Skd.stashed
  simp only [type]
  rw [List.append_assoc, List.singleton_append, ← List.replicate_succ,
    show f.length - (key.text order f).length - 1 + 1 =
      f.length - (key.text order f).length by omega]

theorem text_no_zero (order : ByteOrder) (f : List UInt8) (type : key.skdDtype = .cstring) : ∀ c ∈ key.text order f, c ≠ 0 := by
  intro c mem
  unfold Skd.text at mem
  simp only [type] at mem
  simpa using List.mem_takeWhile_imp mem

structure Skd.Sound (order : ByteOrder) (key : Skd) (field : List UInt8) : Prop where
  supported : key.Supported order
  length : field.length = key.size order
  content : key.Content order field

theorem Skd.Sound.le_length (sound : key.Sound order f) : key.skdLength ≤ f.length :=
  sound.length ▸ sound.supported.le_size

theorem Skd.Sound.size_lt (sound : key.Sound order f) : key.size order < 65536 := by
  have short := sound.supported.short
  cases order with
  | vax => exact sound.supported.size_vax ▸ short
  | nonVax => exact (le_roundupLong _).trans_lt short

theorem length_restored (sound : key.Sound order f) : (key.restored order f).length = f.length := by
  have fits := sound.le_length
  unfold Skd.restored
  cases type : key.skdDtype
  case varying =>
    have := (sound.content.length_text (.inl type) fits).2.1 type
    have := sound.supported.varying type
    simp only [List.length_append, length_ushortBytes, List.length_replicate]
    omega
  case cstring =>
    have := (sound.content.length_text (.inr type) fits).2.2.1 type
    simp only [List.length_append, List.length_replicate, List.length_singleton]
    omega
  all_goals rfl

theorem unstash_put (sound : key.Sound order f) (apart : key.Apart order) :
    unstash order key (key.put order (key.text order f).length (key.stashed order f) record) =
      key.put order (key.text order f).length (key.restored order f) record := by
  have fits := sound.le_length
  have size := sound.size_lt
  have length := sound.length
  have stashedLength := length_stashed sound.content sound.supported length
  unfold unstash Skd.restored
  cases type : key.skdDtype
  case varying =>
    have := (sound.content.length_text (.inl type) fits).2.1 type
    have read := readUshort_put record apart (.inl type) (stashedLength.trans length)
      (show (key.text order f).length < 65536 by omega)
    simp only [read]
    unfold Skd.stashed
    simp only [type]
    exact write_put_at (a := []) (k := 0) rfl (length_ushortBytes order _)
  case cstring =>
    have inside := (sound.content.length_text (.inr type) fits).2.2.1 type
    have read := readUshort_put record apart (.inr type) (stashedLength.trans length)
      (show (key.text order f).length < 65536 by omega)
    simp only [read]
    rw [stashed_cstring type (by omega)]
    exact write_put_at rfl rfl
  all_goals
    unfold Skd.stashed
    simp only [type]

/-- A restored field has its control info and its text back, and is stashed the same way again. -/
theorem restored_text (sound : key.Sound order f) :
    (key.skdDtype = .varying →
        number order ((key.restored order f).take 2) = number order (f.take 2)) ∧
      key.text order (key.restored order f) = key.text order f ∧
      key.Content order (key.restored order f) := by
  have fits := sound.le_length
  have size := sound.size_lt
  have length := sound.length
  cases type : key.skdDtype
  case varying =>
    obtain ⟨control, inside, -, -⟩ := sound.content.length_text (.inl type) fits
    have control := control type
    have inside := inside type
    have room := sound.supported.varying type
    have shape : key.restored order f = ushortBytes order (key.text order f).length ++
        (key.text order f ++
          List.replicate (f.length - 2 - (key.text order f).length) key.fillChar) := by
      unfold Skd.restored
      simp only [type]
    have first : (key.restored order f).take 2 = ushortBytes order (key.text order f).length := by
      rw [shape, List.take_append_of_le_length (length_ushortBytes _ _).ge,
        List.take_of_length_le (length_ushortBytes _ _).le]
    have rest : (key.restored order f).drop 2 = key.text order f ++
        List.replicate (f.length - 2 - (key.text order f).length) key.fillChar := by
      rw [shape]
      exact List.drop_left' (length_ushortBytes _ _)
    have read : number order ((key.restored order f).take 2) = (key.text order f).length := by
      rw [first, number_ushortBytes order (by omega)]
    refine ⟨fun _ => by rw [read, control], ?_, ?_⟩
    · have again : key.text order (key.restored order f) =
          ((key.restored order f).drop 2).take (number order ((key.restored order f).take 2)) := by
        conv_lhs => unfold Skd.text
        rw [type]
      rw [again, read, rest, List.take_left]
    · exact ⟨fun _ => by rw [read]; omega, fun h => by rw [type] at h; cases h⟩
  case cstring =>
    have inside := (sound.content.length_text (.inr type) fits).2.2.1 type
    have shape : key.restored order f = key.text order f ++ [0] ++
        List.replicate (f.length - (key.text order f).length - 1) key.fillChar := by
      unfold Skd.restored
      simp only [type]
    refine ⟨fun h => (by cases h), ?_, ?_⟩
    · have again : key.text order (key.restored order f) =
          (key.restored order f).takeWhile (· ≠ 0) := by
        conv_lhs => unfold Skd.text
        rw [type]
      rw [again, shape, List.append_assoc, List.takeWhile_append_of_pos (by
        simpa using text_no_zero order f type)]
      simp
    · refine ⟨fun h => (by rw [type] at h; cases h), fun _ => ?_⟩
      have early : (key.text order f ++ [0]).length ≤ key.skdLength := by
        rw [List.length_append, List.length_singleton]
        exact inside
      rw [shape, List.take_append, List.take_of_length_le early]
      simp
  all_goals
    have plain : key.restored order f = f := by
      unfold Skd.restored
      simp only [type]
    rw [plain]
    exact ⟨fun _ => rfl, rfl, sound.content⟩

theorem stashed_restored (sound : key.Sound order f) :
    key.stashed order (key.restored order f) = key.stashed order f := by
  have text := (restored_text sound).2.1
  have lengths := length_restored sound
  cases type : key.skdDtype
  case varying =>
    unfold Skd.stashed
    simp only [type]
    rw [text, lengths]
  case cstring =>
    unfold Skd.stashed
    simp only [type]
    rw [text, lengths]
  all_goals
    unfold Skd.stashed Skd.restored
    simp only [type]

/-- Stashing again what has been restored, whether the length is taken from the field or from
where it was stashed. -/
theorem stash_restored (sound : key.Sound order f) (apart : key.Apart order) (scbSorted : Bool) :
    stash order scbSorted key
        (key.put order (key.text order f).length (key.restored order f) record) =
      key.put order (key.text order f).length (key.stashed order f) record := by
  have fits := sound.le_length
  have size := sound.size_lt
  have length := sound.length
  obtain ⟨-, text, content⟩ := restored_text sound
  have lengths := (length_restored sound).trans length
  have stashedLength := (length_stashed sound.content sound.supported length).trans length
  have field : slice (key.put order (key.text order f).length (key.restored order f) record)
      key.skdOffset (key.size order) = key.restored order f := by
    rw [← lengths]
    exact slice_put
  cases scbSorted with
  | false =>
    rw [stash_unsorted sound.supported apart (by rw [field]; exact content), field, text,
      stashed_restored sound, put_put apart lengths stashedLength]
  | true =>
    unfold stash
    cases type : key.skdDtype
    case varying =>
      have zero : ushortBytes order 0 = [0, 0] := by
        cases order <;> rfl
      simp only [if_true, zero]
      unfold Skd.restored Skd.stashed
      simp only [type]
      exact write_put_at (a := []) (k := 0) rfl (length_ushortBytes order _).symm
    case cstring =>
      have inside := (sound.content.length_text (.inr type) fits).2.2.1 type
      have read := readUshort_put record apart (.inr type) lengths
        (show (key.text order f).length < 65536 by omega)
      simp only [if_true, read]
      rw [stashed_cstring type (by omega)]
      unfold Skd.restored
      simp only [type]
      exact write_put_at rfl rfl
    all_goals
      unfold Skd.restored Skd.stashed
      simp only [type]

/-- A record in which the field and the stashed length of a key are these. -/
def Skd.Holds (order : ByteOrder) (key : Skd) (l : Nat) (field : List UInt8)
    (record : Nat → UInt8) : Prop :=
  slice record key.skdOffset (key.size order) = field ∧
    (key.Stashes → slice record key.skdVaryOffset 2 = ushortBytes order l)

theorem Skd.Holds.put_self (h : key.Holds order l f record) : key.put order l f record = record := by
  have length : f.length = key.size order := by
    rw [← h.1, length_slice]
  unfold Skd.put
  split
  next stashes =>
    have same := write_slice_self record key.skdVaryOffset 2
    rw [h.2 stashes] at same
    rw [same, ← h.1]
    exact write_slice_self record _ _
  next =>
    rw [← h.1]
    exact write_slice_self record _ _

theorem Skd.Holds.put (record : Nat → UInt8) (l : Nat) (apart : key.Apart order) (hf : f.length = key.size order) :
    key.Holds order l f (key.put order l f record) :=
  ⟨by rw [← hf]; exact slice_put, fun stashes => slice_stash apart stashes hf⟩

theorem diddleOne_encodes (sound : key.Sound order f) (apart : key.Apart order)
    (field : slice record key.skdOffset (key.size order) = f) :
    diddleOne order false true record key =
      key.put order (key.text order f).length
        (diddleField order true key (key.stashed order f)) record := by
  have length := (length_stashed sound.content sound.supported sound.length).trans sound.length
  unfold diddleOne
  simp only [if_true]
  rw [stash_unsorted sound.supported apart (by rw [field]; exact sound.content), field]
  have stashed := (Skd.Holds.put record (key.text order f).length apart length).1
  rw [stashed]
  exact write_put (length_diddleField_true _ _ _)

theorem diddleOne_decodes (sound : key.Sound order f) (apart : key.Apart order)
    (scbSorted : Bool)
    (h : key.Holds order (key.text order f).length
      (diddleField order true key (key.stashed order f)) record) :
    diddleOne order scbSorted false record key =
      key.put order (key.text order f).length (key.restored order f) record := by
  have length := (length_stashed sound.content sound.supported sound.length).trans sound.length
  unfold diddleOne
  simp only [Bool.false_eq_true, if_false]
  rw [h.1, diddleField_decodes sound.supported length]
  conv_lhs => rw [← h.put_self]
  rw [write_put (length_diddleField_true _ _ _).symm, unstash_put sound apart]

theorem diddleOne_again (sound : key.Sound order f) (apart : key.Apart order) (scbSorted : Bool)
    (h : key.Holds order (key.text order f).length (key.restored order f) record) :
    diddleOne order scbSorted true record key =
      key.put order (key.text order f).length
        (diddleField order true key (key.stashed order f)) record := by
  have length := (length_stashed sound.content sound.supported sound.length).trans sound.length
  have stashed : stash order scbSorted key record =
      key.put order (key.text order f).length (key.stashed order f) record := by
    conv_lhs => rw [← h.put_self]
    exact stash_restored sound apart scbSorted
  unfold diddleOne
  simp only [if_true]
  rw [stashed, (Skd.Holds.put record (key.text order f).length apart length).1]
  exact write_put (length_diddleField_true _ _ _)

/-- The bytes of a record that a key reads and writes. -/
def Skd.Owns (order : ByteOrder) (key : Skd) (i : Nat) : Prop :=
  key.skdOffset ≤ i ∧ i < key.skdOffset + key.size order ∨
    key.Stashes ∧ key.skdVaryOffset ≤ i ∧ i < key.skdVaryOffset + 2

theorem put_other (hf : f.length = key.size order) {i : Nat} (other : ¬key.Owns order i) :
    key.put order l f record i = record i := by
  unfold Skd.Owns at other
  push Not at other
  have field : write (if key.Stashes then write record key.skdVaryOffset (ushortBytes order l)
      else record) key.skdOffset f i = (if key.Stashes then
        write record key.skdVaryOffset (ushortBytes order l) else record) i := by
    by_cases below : i < key.skdOffset
    · exact write_below _ _ below
    · exact write_above _ _ (by have := other.1; omega)
  unfold Skd.put
  rw [field]
  split
  next stashes =>
    by_cases below : i < key.skdVaryOffset
    · exact write_below _ _ below
    · exact write_above _ _ (by
        have := other.2 stashes
        rw [length_ushortBytes]
        omega)
  next => rfl

theorem Skd.Holds.congr {record' : Nat → UInt8} (h : key.Holds order l f record)
    (same : ∀ i, key.Owns order i → record' i = record i) : key.Holds order l f record' := by
  refine ⟨?_, fun stashes => ?_⟩
  · rw [← h.1]
    exact slice_congr fun i low high => same i (.inl ⟨low, high⟩)
  · rw [← h.2 stashes]
    exact slice_congr fun i low high => same i (.inr ⟨stashes, low, high⟩)

/-- Two records that hold the same field and stashed length agree where the key looks. -/
theorem Skd.Holds.unique {record' : Nat → UInt8} (h : key.Holds order l f record)
    (h' : key.Holds order l f record') {i : Nat} (owns : key.Owns order i) :
    record' i = record i := by
  have at_slice : ∀ {a n : Nat}, slice record' a n = slice record a n → a ≤ i → i < a + n →
      record' i = record i := by
    intro a n same low high
    have first := getElem?_slice record' (a := a) (l := n) (i := i - a) (by omega)
    have second := getElem?_slice record (a := a) (l := n) (i := i - a) (by omega)
    rw [same, second, Option.some.injEq, Nat.add_sub_of_le low] at first
    exact first.symm
  rcases owns with ⟨low, high⟩ | ⟨stashes, low, high⟩
  · exact at_slice (h'.1.trans h.1.symm) low high
  · exact at_slice ((h'.2 stashes).trans (h.2 stashes).symm) low high

end

end InterBase
