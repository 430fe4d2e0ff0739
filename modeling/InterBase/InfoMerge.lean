import InterBase.CvtScale

namespace InterBase.InfoMerge

open Cvt

/-- What the server or the remote interface puts into an information packet. -/
structure Added where
  impl : UInt16
  dbClass : UInt16
  baseLevel : UInt16
  version : List UInt8
  id : List UInt8

/-- `PUT_WORD`. -/
def putWord (value : Nat) : List UInt8 :=
  [UInt8.ofNat (value % 256), UInt8.ofNat (value / 256 % 256)]

/-- `do *out++ = *in++; while (--length);` with a counter of 16 bits. -/
def copyLoop (length : Nat) : List UInt8 → List UInt8 → Option (List UInt8 × List UInt8)
  | [], _ => none
  | c :: ins, out =>
    let out := out ++ [c]
    let length := (length + 65535) % 65536
    if length = 0 then some (ins, out) else copyLoop length ins out

/-- What an item leaves: the output that ends as truncated, or the rest of both buffers. -/
inductive Step where
  | truncated (out : List UInt8)
  | next (ins out : List UInt8)
deriving Repr, DecidableEq

/-- `out [-1] = gds__info_truncated`. -/
def setTruncated (out : List UInt8) : List UInt8 := out.dropLast ++ [2]

/-- Picks up the length and the count, puts them back raised and copies what is already there. -/
def mergeSetup (outLength deltaLength : Nat) (ins out : List UInt8) : Option Step :=
  match ins with
  | lo :: hi :: ins =>
    let length := lo.toNat + 256 * hi.toNat
    let newLength := (length + deltaLength) % 65536
    if outLength ≤ out.length + newLength + 2 then some (.truncated (setTruncated out))
    else
      match ins with
      | count :: ins =>
        let out := out ++ putWord newLength ++ [UInt8.ofNat (1 + count.toNat)]
        let length := (length + 65535) % 65536
        if length = 0 then some (.next ins out)
        else (copyLoop length ins out).map fun p => .next p.1 p.2
      | [] => none
  | _ => none

/-- What is put behind the data that is already there. -/
def putEntry (entry : List UInt8) : Step → Step
  | .truncated out => .truncated out
  | .next ins out => .next ins (out ++ entry)

/-- `if ((*out++ = l) != NULL) do *out++ = *p++; while (--l);` with the length of `p` in `l`. -/
def countedString (p : List UInt8) : List UInt8 :=
  UInt8.ofNat p.length :: if p.length % 256 = 0 then [] else p

/-- An item of another kind is copied; its length is an `SSHORT`. -/
def copyItem (outLength : Nat) (ins out : List UInt8) : Option Step :=
  match ins with
  | lo :: hi :: ins =>
    let length := lo.toNat + 256 * hi.toNat
    if (outLength : Int) ≤ out.length + toSshort length + 2 then
      some (.truncated (setTruncated out))
    else
      let out := out ++ putWord length
      if length = 0 then some (.next ins out)
      else (copyLoop length ins out).map fun p => .next p.1 p.2
  | _ => none

/-- The cases of the switch behind the two that end a buffer. -/
def mergeItem (a : Added) (outLength : Nat) (tag : UInt8) (ins out : List UInt8) : Option Step :=
  if tag = 12 then
    (mergeSetup outLength ((a.version.length + 1) % 65536) ins out).map
      (putEntry (countedString a.version))
  else if tag = 4 then
    (mergeSetup outLength ((a.id.length + 1) % 65536) ins out).map
      (putEntry (countedString a.id))
  else if tag = 11 then
    (mergeSetup outLength 2 ins out).map
      (putEntry [a.impl.toUInt8, a.dbClass.toUInt8])
  else if tag = 13 then
    (mergeSetup outLength 1 ins out).map (putEntry [a.baseLevel.toUInt8])
  else copyItem outLength ins out

/-- The loop over the items returns the length and leaves what it has written from `start` on. -/
def mergeLoop (a : Added) (outLength : Nat) :
    Nat → List UInt8 → List UInt8 → Option (Nat × List UInt8)
  | 0, _, _ => none
  | _ + 1, [], _ => none
  | turns + 1, tag :: ins, out =>
    let out := out ++ [tag]
    if tag = 1 ∨ tag = 2 then some (out.length % 65536, out)
    else
      match mergeItem a outLength tag ins out with
      | none => none
      | some (.truncated out) => some (0, out)
      | some (.next ins out) => mergeLoop a outLength turns ins out

/-- Every turn reads a byte. -/
def mergeDatabaseInfo (a : Added) (outLength : UInt16) (ins : List UInt8) :
    Option (Nat × List UInt8) :=
  mergeLoop a outLength.toNat ins.length ins []

structure InfoItem where
  tag : UInt8
  data : List UInt8
  tag_item : tag ≠ 1 ∧ tag ≠ 2
  short : data.length ≤ 65535

def encodeItem (tag : UInt8) (data : List UInt8) : List UInt8 :=
  tag :: (putWord data.length ++ data)

def InfoItem.encode (i : InfoItem) : List UInt8 := encodeItem i.tag i.data

/-- A packet ends with `gds__info_end` or `gds__info_truncated`. -/
def packet (items : List InfoItem) (truncated : Bool) : List UInt8 :=
  items.flatMap InfoItem.encode ++ [if truncated then 2 else 1]

/-- The entry that is added to an item, if one is. -/
def Added.entry (a : Added) (tag : UInt8) : Option (List UInt8) :=
  if tag = 12 then some (UInt8.ofNat a.version.length :: a.version)
  else if tag = 4 then some (UInt8.ofNat a.id.length :: a.id)
  else if tag = 11 then some [a.impl.toUInt8, a.dbClass.toUInt8]
  else if tag = 13 then some [a.baseLevel.toUInt8]
  else none

/-- The count is raised by one and the entry placed last. -/
def addLast (data entry : List UInt8) : List UInt8 :=
  match data with
  | [] => []
  | count :: entries => (count + 1) :: (entries ++ entry)

/-- The count is raised by one and the entry placed first. -/
def addFirst (data entry : List UInt8) : List UInt8 :=
  match data with
  | [] => []
  | count :: entries => (count + 1) :: (entry ++ entries)

def Added.merged (a : Added) (add : List UInt8 → List UInt8 → List UInt8) (i : InfoItem) :
    List UInt8 :=
  encodeItem i.tag ((a.entry i.tag).elim i.data (add i.data))

def Added.mergedPacket (a : Added) (add : List UInt8 → List UInt8 → List UInt8)
    (items : List InfoItem) (truncated : Bool) : List UInt8 :=
  items.flatMap (a.merged add) ++ [if truncated then 2 else 1]

/-- The strings have a length that one byte holds. -/
def Added.Strings (a : Added) : Prop := a.version.length ≤ 255 ∧ a.id.length ≤ 255

/-- An item that gets an entry has a count and room for it. -/
def Added.Mergeable (a : Added) (i : InfoItem) : Prop :=
  ∀ entry, a.entry i.tag = some entry →
    (∃ count entries, i.data = count :: entries ∧ count ≠ 255) ∧
      i.data.length + entry.length ≤ 65535

/-- The length of an item that is copied is a positive `SSHORT`. -/
def Added.Short (a : Added) (i : InfoItem) : Prop :=
  a.entry i.tag = none → i.data.length < 32768

section

variable {a : Added} {L n : Nat} {xs ins out : List UInt8} {i : InfoItem}

theorem putWord_value (h : n ≤ 65535) :
    (UInt8.ofNat (n % 256)).toNat + 256 * (UInt8.ofNat (n / 256 % 256)).toNat = n := by
  rw [UInt8.toNat_ofNat', UInt8.toNat_ofNat']
  omega

theorem putWord_length (n : Nat) : (putWord n).length = 2 := rfl

theorem copyLoop_eq (hn : xs.length = n) (pos : 0 < n) (short : n ≤ 65535) :
    copyLoop n (xs ++ ins) out = some (ins, out ++ xs) := by
  induction xs generalizing n out with
  | nil => exact absurd hn (Nat.ne_of_lt pos)
  | cons c xs ih =>
    rw [List.length_cons] at hn
    have less : (n + 65535) % 65536 = xs.length := by omega
    rw [List.cons_append, copyLoop, less]
    cases xs with
    | nil => rfl
    | cons d xs =>
      rw [if_neg (by simp), ih rfl (by simp) (by omega), List.append_assoc,
        List.singleton_append]

theorem putWord_cons (n : Nat) (xs : List UInt8) : putWord n ++ xs =
    UInt8.ofNat (n % 256) :: UInt8.ofNat (n / 256 % 256) :: xs := rfl

/-- The item is written with the raised length and count, or cut off where it does not fit. -/
theorem mergeSetup_eq {count : UInt8} {entries entry : List UInt8}
    (room : (count :: entries).length + entry.length ≤ 65535) :
    (mergeSetup L entry.length (putWord (count :: entries).length ++ (count :: entries) ++ ins)
      out).map (putEntry entry) =
    some (if L ≤ out.length + ((count :: entries).length + entry.length) + 2 then
        .truncated (setTruncated out)
      else .next ins (out ++ (putWord ((count :: entries).length + entry.length) ++
        addLast (count :: entries) entry))) := by
  have value := putWord_value (n := (count :: entries).length) (by omega)
  have sum : ((count :: entries).length + entry.length) % 65536 =
      (count :: entries).length + entry.length := Nat.mod_eq_of_lt (by omega)
  have raised : UInt8.ofNat (1 + count.toNat) = count + 1 := by
    rw [UInt8.ofNat_add, UInt8.ofNat_toNat, UInt8.add_comm]
    rfl
  rw [List.append_assoc, putWord_cons, List.cons_append]
  unfold mergeSetup
  dsimp only
  rw [value, sum]
  by_cases full : L ≤ out.length + ((count :: entries).length + entry.length) + 2
  · rw [if_pos full, if_pos full]
    rfl
  · have less : ((count :: entries).length + 65535) % 65536 = entries.length := by
      rw [List.length_cons] at room ⊢
      omega
    rw [if_neg full, if_neg full, less, raised]
    by_cases none : entries.length = 0
    · obtain rfl := List.length_eq_zero_iff.mp none
      rw [if_pos none]
      simp [putEntry, addLast]
    · rw [if_neg none, copyLoop_eq rfl (Nat.pos_of_ne_zero none) (by
        rw [List.length_cons] at room
        omega)]
      simp [putEntry, addLast]

/-- An item of another kind is copied, or cut off where it does not fit. -/
theorem copyItem_eq (short : xs.length ≤ 65535)
    (fits : xs.length < 32768 ∨ out.length + xs.length + 2 < L) :
    copyItem L (putWord xs.length ++ xs ++ ins) out =
    some (if L ≤ out.length + xs.length + 2 then .truncated (setTruncated out)
      else .next ins (out ++ (putWord xs.length ++ xs))) := by
  have value := putWord_value short
  have test : (L : Int) ≤ out.length + toSshort xs.length + 2 ↔ L ≤ out.length + xs.length + 2 := by
    by_cases positive : xs.length < 32768
    · have kept : toSshort xs.length = xs.length := by
        refine bmod_of_mem ?_ ?_
        · norm_num
        · norm_num
          omega
      rw [kept]
      omega
    · have wrapped : toSshort xs.length ≤ xs.length := by
        unfold toSshort
        have := Int.bmod_le (x := (xs.length : Int)) (m := 65536) (by norm_num)
        omega
      omega
  rw [List.append_assoc, putWord_cons]
  unfold copyItem
  dsimp only
  rw [value, if_congr test rfl rfl]
  by_cases full : L ≤ out.length + xs.length + 2
  · rw [if_pos full, if_pos full]
  · rw [if_neg full, if_neg full]
    by_cases none : xs.length = 0
    · obtain rfl := List.length_eq_zero_iff.mp none
      simp
    · rw [if_neg none, copyLoop_eq rfl (Nat.pos_of_ne_zero none) short]
      simp

theorem countedString_eq (short : xs.length ≤ 255) :
    countedString xs = UInt8.ofNat xs.length :: xs := by
  unfold countedString
  split
  · obtain rfl : xs = [] := List.length_eq_zero_iff.mp (by omega)
    rfl
  · rfl

/-- The switch sets up the packet for the entry and puts it. -/
theorem mergeItem_entry {tag : UInt8} {entry : List UInt8} (strings : a.Strings)
    (h : a.entry tag = some entry) :
    mergeItem a L tag ins out = (mergeSetup L entry.length ins out).map (putEntry entry) := by
  unfold Added.entry at h
  unfold mergeItem
  split_ifs at h ⊢ with version id implementation baseLevel
  · obtain rfl := Option.some.inj h
    rw [countedString_eq strings.1, Nat.mod_eq_of_lt (Nat.lt_of_le_of_lt
      (Nat.succ_le_succ strings.1) (by norm_num)), List.length_cons]
  · obtain rfl := Option.some.inj h
    rw [countedString_eq strings.2, Nat.mod_eq_of_lt (Nat.lt_of_le_of_lt
      (Nat.succ_le_succ strings.2) (by norm_num)), List.length_cons]
  · obtain rfl := Option.some.inj h
    rfl
  · obtain rfl := Option.some.inj h
    rfl

theorem mergeItem_other {tag : UInt8} (h : a.entry tag = none) :
    mergeItem a L tag ins out = copyItem L ins out := by
  unfold Added.entry at h
  unfold mergeItem
  split_ifs at h ⊢
  rfl

/-- One item. -/
theorem mergeItem_eq (ins : List UInt8) (strings : a.Strings) (mergeable : a.Mergeable i)
    (small : a.Short i ∨ (out ++ a.merged addLast i).length < L) :
    mergeItem a L i.tag (putWord i.data.length ++ i.data ++ ins) (out ++ [i.tag]) =
    some (if L ≤ (out ++ a.merged addLast i).length then
        .truncated (setTruncated (out ++ [i.tag]))
      else .next ins (out ++ a.merged addLast i)) := by
  cases h : a.entry i.tag with
  | none =>
    have merged : a.merged addLast i = i.tag :: (putWord i.data.length ++ i.data) := by
      unfold Added.merged
      rw [h]
      rfl
    have length : (out ++ a.merged addLast i).length =
        (out ++ [i.tag]).length + i.data.length + 2 := by
      rw [merged]
      simp only [List.length_append, List.length_cons, putWord_length, List.length_nil]
      omega
    rw [mergeItem_other h, copyItem_eq i.short (small.imp (fun short => short h) fun fits => by
      rwa [length] at fits), length, merged, List.append_assoc, List.singleton_append]
  | some entry =>
    obtain ⟨⟨count, entries, data, -⟩, room⟩ := mergeable entry h
    have size : (addLast (count :: entries) entry).length =
        (count :: entries).length + entry.length := by
      simp only [addLast, List.length_cons, List.length_append]
      omega
    have merged : a.merged addLast i =
        i.tag :: (putWord ((count :: entries).length + entry.length) ++
          addLast (count :: entries) entry) := by
      unfold Added.merged encodeItem
      rw [h, Option.elim_some, data, size]
    have length : (out ++ a.merged addLast i).length =
        (out ++ [i.tag]).length + ((count :: entries).length + entry.length) + 2 := by
      rw [merged, List.length_append, List.length_append, List.length_cons, List.length_append,
        putWord_length, size, List.length_singleton]
      omega
    rw [mergeItem_entry strings h, length, merged, data, mergeSetup_eq (data ▸ room),
      List.append_assoc, List.singleton_append]

/-- The loop writes the merged items, or cuts the output off when they do not fit. -/
theorem mergeLoop_eq {items : List InfoItem} {truncated : Bool} {turns : Nat}
    (strings : a.Strings) (mergeable : ∀ i ∈ items, a.Mergeable i)
    (small : (∀ i ∈ items, a.Short i) ∨
      (out ++ a.mergedPacket addLast items truncated).length ≤ L)
    (room : out.length < L) (short : L ≤ 65535)
    (enough : items.length < turns) :
    ∃ n written, mergeLoop a L turns (packet items truncated) out = some (n, written) ∧
      written.length ≤ L ∧
      ((out ++ a.mergedPacket addLast items truncated).length ≤ L →
        n = written.length ∧ written = out ++ a.mergedPacket addLast items truncated) ∧
      (L < (out ++ a.mergedPacket addLast items truncated).length →
        n = 0 ∧ written.getLast? = some 2) := by
  induction items generalizing out turns with
  | nil =>
    obtain ⟨turns, rfl⟩ := Nat.exists_eq_succ_of_ne_zero (Nat.ne_of_gt enough)
    have length : (out ++ [if truncated then (2 : UInt8) else 1]).length = out.length + 1 := by
      simp
    refine ⟨_, _, by
      unfold packet mergeLoop
      rw [List.flatMap_nil, List.nil_append]
      dsimp only
      rw [if_pos (by cases truncated <;> simp)], ?_, ?_, ?_⟩
    · rw [length]
      exact room
    · intro _
      exact ⟨Nat.mod_eq_of_lt (by omega), rfl⟩
    · intro long
      unfold Added.mergedPacket at long
      rw [List.flatMap_nil, List.nil_append, length] at long
      omega
  | cons i items ih =>
    obtain ⟨turns, rfl⟩ := Nat.exists_eq_succ_of_ne_zero (Nat.ne_of_gt (Nat.zero_lt_of_lt enough))
    have whole : out ++ a.mergedPacket addLast (i :: items) truncated =
        (out ++ a.merged addLast i) ++ a.mergedPacket addLast items truncated := by
      simp [Added.mergedPacket]
    have pos : 1 ≤ (a.mergedPacket addLast items truncated).length := by
      simp [Added.mergedPacket]
    have small' : a.Short i ∨ (out ++ a.merged addLast i).length < L := by
      refine small.imp (fun h => h i List.mem_cons_self) fun fits => ?_
      rw [whole, List.length_append] at fits
      omega
    have item := mergeItem_eq (packet items truncated) strings
      (mergeable i List.mem_cons_self) small'
    have start : packet (i :: items) truncated =
        i.tag :: (putWord i.data.length ++ i.data ++ packet items truncated) := by
      simp [packet, InfoItem.encode, encodeItem]
    rw [whole, start]
    unfold mergeLoop
    dsimp only
    rw [if_neg (not_or.mpr i.tag_item), item]
    by_cases full : L ≤ (out ++ a.merged addLast i).length
    · rw [if_pos full]
      refine ⟨_, _, rfl, ?_, ?_, ?_⟩
      · simp only [setTruncated, List.dropLast_concat, List.length_append, List.length_singleton]
        omega
      · intro fits
        rw [List.length_append] at fits
        omega
      · intro _
        exact ⟨rfl, by simp [setTruncated]⟩
    · rw [if_neg full]
      dsimp only
      refine ih (fun i hi => mergeable i (List.mem_cons_of_mem _ hi)) ?_ (not_le.mp full)
        (by simpa using enough)
      rw [← whole]
      exact small.imp_left fun h i hi => h i (List.mem_cons_of_mem _ hi)

/-- The output is the merged packet when that fits, and else is cut off inside the buffer. -/
theorem mergeDatabaseInfo_merges (a : Added) (strings : a.Strings) (items : List InfoItem)
    (truncated : Bool) (outLength : UInt16) (pos : 0 < outLength.toNat)
    (mergeable : ∀ i ∈ items, a.Mergeable i)
    (small : (∀ i ∈ items, a.Short i) ∨
      (a.mergedPacket addLast items truncated).length ≤ outLength.toNat) :
    ∃ n written, mergeDatabaseInfo a outLength (packet items truncated) = some (n, written) ∧
      written.length ≤ outLength.toNat ∧
      (n = 0 ↔ outLength.toNat < (a.mergedPacket addLast items truncated).length) ∧
      (n = 0 → written.getLast? = some 2) ∧
      (n ≠ 0 → n = written.length ∧ written = a.mergedPacket addLast items truncated) := by
  have turns : items.length < (packet items truncated).length := by
    have each : ∀ items : List InfoItem, items.length ≤ (items.flatMap InfoItem.encode).length := by
      intro items
      induction items with
      | nil => exact le_refl 0
      | cons i items ih =>
        rw [List.flatMap_cons, List.length_cons, List.length_append]
        have : 1 ≤ i.encode.length := by simp [InfoItem.encode, encodeItem]
        omega
    unfold packet
    rw [List.length_append, List.length_singleton]
    exact Nat.lt_succ_of_le (each items)
  obtain ⟨n, written, run, inside, fits, cut⟩ := mergeLoop_eq strings mergeable
    (by simpa using small) (show ([] : List UInt8).length < _ from pos) (Nat.le_of_lt_succ outLength.toNat_lt) turns
  rw [List.nil_append] at fits cut
  have some : 1 ≤ (a.mergedPacket addLast items truncated).length := by
    simp [Added.mergedPacket]
  refine ⟨n, written, run, inside, ?_, ?_, ?_⟩
  · constructor
    · intro zero
      by_contra le
      obtain ⟨length, same⟩ := fits (not_lt.mp le)
      rw [← same] at some
      omega
    · exact fun long => (cut long).1
  · intro zero
    by_cases le : (a.mergedPacket addLast items truncated).length ≤ outLength.toNat
    · obtain ⟨length, same⟩ := fits le
      rw [← same] at some
      omega
    · exact (cut (not_le.mp le)).2
  · intro nonzero
    refine fits (not_lt.mp fun long => nonzero (cut long).1)

/-- A version item that holds the string A, to which the string B is added. -/
def versionItem : InfoItem := ⟨12, [1, 1, 65], by decide, by decide⟩

def addedB : Added := ⟨1, 2, 3, [66], [67]⟩

/-- A page size, which is copied, and three items to which an entry is added. -/
def databaseItems : List InfoItem :=
  [⟨14, [0, 4, 0, 0], by decide, by decide⟩, versionItem,
    ⟨11, [1, 28, 6], by decide, by decide⟩, ⟨13, [1, 4], by decide, by decide⟩]

theorem mergeDatabaseInfo_merges_items : ∃ n written,
    mergeDatabaseInfo addedB 100 (packet databaseItems false) = some (n, written) ∧
      written.length ≤ 100 ∧
      (n = 0 ↔ 100 < (addedB.mergedPacket addLast databaseItems false).length) ∧
      (n = 0 → written.getLast? = some 2) ∧
      (n ≠ 0 → n = written.length ∧ written = addedB.mergedPacket addLast databaseItems false) := by
  refine mergeDatabaseInfo_merges addedB ⟨by decide, by decide⟩ databaseItems false 100 (by decide)
    ?_ (.inr (by decide))
  intro i hi entry h
  simp only [databaseItems, List.mem_cons, List.not_mem_nil, or_false] at hi
  obtain rfl | rfl | rfl | rfl := hi
  · exact absurd (show none = some entry from h) (Option.some_ne_none entry).symm
  · obtain rfl := Option.some.inj h
    exact ⟨⟨1, [1, 65], rfl, by decide⟩, by decide⟩
  · obtain rfl := Option.some.inj h
    exact ⟨⟨1, [28, 6], rfl, by decide⟩, by decide⟩
  · obtain rfl := Option.some.inj h
    exact ⟨⟨1, [4], rfl, by decide⟩, by decide⟩

/-- The new entry is not placed first. -/
theorem mergeDatabaseInfo_not_first : ¬ ∀ (a : Added) (items : List InfoItem) (truncated : Bool)
    (outLength : UInt16) (n : Nat) (written : List UInt8),
    mergeDatabaseInfo a outLength (packet items truncated) = some (n, written) → n ≠ 0 →
      written = a.mergedPacket addFirst items truncated := by
  intro first
  have run : mergeDatabaseInfo addedB 100 (packet [versionItem] false) =
      some (9, [12, 5, 0, 2, 1, 65, 1, 66, 1]) := by decide
  exact absurd (first addedB [versionItem] false 100 9 _ run (by decide)) (by decide)

end

end InterBase.InfoMerge
