import InterBase.Library.Memory
import InterBase.Machine

namespace InterBase

open Memory

/-- A data item of a header or log page: its type byte is not the one that ends the list, and its
length fits the length byte. -/
@[ext]
structure Clumplet where
  type : UInt8
  value : List UInt8
  named : type ≠ 0
  short : value.length < 256

/-- A header page with `hdr_end`, or a log page with `log_end`. -/
structure ClumpPage where
  hdrEnd : Nat
  bytes : Nat → UInt8

inductive ClumpMode where
  | add
  | replace
  | replaceOnly
deriving DecidableEq

namespace Clump

def hdrEnd : UInt8 := 0

/-- `for (; (*p != HDR_end); p += 2 + p [1]) if (*p == type) q = p`, for so many steps at most. -/
def scan (m : Nat → UInt8) (type : UInt8) : Nat → Nat → Option Nat → Option (Option Nat × Nat)
  | 0, _, _ => none
  | fuel + 1, p, q =>
    if m p = hdrEnd then some (q, p)
    else scan m type fuel (p + 2 + (m (p + 1)).toNat) (if m p = type then some p else q)

section

/- The size of a page, and where `hdr_data` or `log_data` begins on it. -/
variable (dbbPageSize hdrSize : Nat)

/-- The place of the page in its chain, with `entry_p` and `clump_end`. -/
def findType (type : UInt8) : List ClumpPage → Option (Nat × Nat × Nat)
  | [] => none
  | page :: rest =>
    match scan page.bytes type dbbPageSize hdrSize none with
    | some (some q, p) => some (0, q, p)
    | _ => (findType type rest).map fun (i, q, p) => (i + 1, q, p)

/-- Type, length and data go to `p`, with the end of the list behind them. -/
def putClump (page : ClumpPage) (p : Nat) (entry : Clumplet) : ClumpPage where
  hdrEnd := ushort (p + 2 + entry.value.length)
  bytes := write page.bytes p
    (entry.type :: UInt8.ofNat entry.value.length :: entry.value ++ [hdrEnd])

/-- `fresh` is what the page holds that `DPM_allocate` returns. -/
def findClumpSpace (fresh : Nat → UInt8) (entry : Clumplet) : List ClumpPage → List ClumpPage
  | [] => [putClump ⟨hdrSize, write fresh hdrSize [hdrEnd]⟩ hdrSize entry]
  | page :: rest =>
    if dbbPageSize > page.hdrEnd + 2 + entry.value.length then
      putClump page page.hdrEnd entry :: rest
    else page :: findClumpSpace fresh entry rest

/-- `*end_addr -= (2 + entry_p [1])`. -/
def shorten (length : Nat) (page : ClumpPage) : ClumpPage :=
  { page with hdrEnd := ushort (page.hdrEnd + 65536 - (2 + length)) }

/-- `do *entry_p++ = *r++; while (--l)`. -/
def closeUp (entryP clumpEnd : Nat) (page : ClumpPage) : ClumpPage :=
  let r := entryP + 2 + (page.bytes (entryP + 1)).toNat
  { page with bytes := copyUp page.bytes r entryP (clumpEnd - r + 1) }

/-- The length byte of the entry that has been found. -/
def lengthAt (chain : List ClumpPage) (i entryP : Nat) : Nat :=
  (chain[i]?).elim 0 fun page => (page.bytes (entryP + 1)).toNat

/-- The search for room after one for an entry that is not there, which has handed the window on to
the last page. -/
def findClumpSpaceLast (fresh : Nat → UInt8) (entry : Clumplet) (chain : List ClumpPage) :
    List ClumpPage :=
  chain.take (chain.length - 1) ++
    findClumpSpace dbbPageSize hdrSize fresh entry (chain.drop (chain.length - 1))

/-- `PAG_add_clump`. When it has followed the chain, `end_addr` is still that of the first page. -/
def pagAddClump (fresh : Nat → UInt8) (entry : Clumplet) (mode : ClumpMode)
    (chain : List ClumpPage) : List ClumpPage :=
  if mode = .add then findClumpSpace dbbPageSize hdrSize fresh entry chain
  else
    match findType dbbPageSize hdrSize entry.type chain with
    | none =>
      if mode = .replaceOnly then chain
      else findClumpSpaceLast dbbPageSize hdrSize fresh entry chain
    | some (i, entryP, clumpEnd) =>
      let length := lengthAt chain i entryP
      if length = entry.value.length then
        chain.modify i fun page => { page with bytes := write page.bytes (entryP + 2) entry.value }
      else
        findClumpSpace dbbPageSize hdrSize fresh entry
          ((chain.modify 0 (shorten length)).modify i (closeUp entryP clumpEnd))

def pagDeleteClumpEntry (type : UInt8) (chain : List ClumpPage) : List ClumpPage :=
  match findType dbbPageSize hdrSize type chain with
  | none => chain
  | some (i, entryP, clumpEnd) =>
    chain.modify i fun page => closeUp entryP clumpEnd (shorten (lengthAt chain i entryP) page)

end

/-- The bytes of a list of entries without its end. -/
def area (entries : List Clumplet) : List UInt8 :=
  entries.flatMap fun e => e.type :: UInt8.ofNat e.value.length :: e.value

section

variable {dbbPageSize hdrSize : Nat}

theorem area_append (xs ys : List Clumplet) : area (xs ++ ys) = area xs ++ area ys :=
  List.flatMap_append

theorem area_cons (e : Clumplet) (es : List Clumplet) :
    area (e :: es) = e.type :: UInt8.ofNat e.value.length :: e.value ++ area es := rfl

theorem length_area_cons (e : Clumplet) (es : List Clumplet) :
    (area (e :: es)).length = 2 + e.value.length + (area es).length := by
  rw [area_cons]
  simp only [List.length_append, List.length_cons]
  omega

theorem lengthByte (e : Clumplet) : (UInt8.ofNat e.value.length).toNat = e.value.length := by
  rw [UInt8.toNat_ofNat']
  exact Nat.mod_eq_of_lt e.short

theorem length_le_area (es : List Clumplet) : 2 * es.length ≤ (area es).length := by
  induction es with
  | nil => exact Nat.le_refl _
  | cons e es ih =>
    rw [length_area_cons, List.length_cons]
    omega

/-- One entry is passed. -/
theorem scan_cons {m : Nat → UInt8} {p : Nat} {e : Clumplet} {rest : List UInt8}
    (h : Holds m p (e.type :: UInt8.ofNat e.value.length :: e.value ++ rest)) (type : UInt8)
    (fuel : Nat) (q : Option Nat) : scan m type (fuel + 1) p q =
      scan m type fuel (p + 2 + e.value.length) (if e.type = type then some p else q) := by
  rw [List.cons_append, List.cons_append, holds_cons, holds_cons] at h
  obtain ⟨first, second, -⟩ := h
  have named : ¬ m p = hdrEnd := by
    rw [first]
    exact e.named
  show (if m p = hdrEnd then some (q, p)
    else scan m type fuel (p + 2 + (m (p + 1)).toNat) (if m p = type then some p else q)) = _
  rw [if_neg named, first, second, lengthByte]

/-- Where the last entry of the type begins, as `q` has it when the list has been followed. -/
def lastAt (type : UInt8) : Nat → List Clumplet → Option Nat → Option Nat
  | _, [], q => q
  | p, e :: es, q => lastAt type (p + 2 + e.value.length) es (if e.type = type then some p else q)

theorem scan_area {m : Nat → UInt8} (type : UInt8) (es : List Clumplet) :
    ∀ {p fuel : Nat} (q : Option Nat), Holds m p (area es ++ [hdrEnd]) → es.length < fuel →
      scan m type fuel p q = some (lastAt type p es q, p + (area es).length) := by
  induction es with
  | nil =>
    intro p fuel q h enough
    rw [List.length_nil] at enough
    obtain ⟨fuel, rfl⟩ : ∃ k, fuel = k + 1 := ⟨fuel - 1, by omega⟩
    have ends : m p = hdrEnd := (holds_cons.mp h).1
    show (if m p = hdrEnd then _ else _) = _
    rw [if_pos ends]
    rfl
  | cons e es ih =>
    intro p fuel q h enough
    rw [List.length_cons] at enough
    obtain ⟨fuel, rfl⟩ : ∃ k, fuel = k + 1 := ⟨fuel - 1, by omega⟩
    have behind : Holds m (p + 2 + e.value.length) (area es ++ [hdrEnd]) := by
      rw [area_cons, List.append_assoc, holds_append] at h
      have := h.2
      simp only [List.length_cons] at this
      rwa [show p + (e.value.length + 1 + 1) = p + 2 + e.value.length by omega] at this
    rw [area_cons, List.append_assoc] at h
    rw [scan_cons h, ih _ behind (by omega), length_area_cons]
    show some (_, _) = some (lastAt type (p + 2 + e.value.length) es _, _)
    rw [show p + 2 + e.value.length + (area es).length = p + (2 + e.value.length + (area es).length)
      by omega]

theorem lastAt_none {type : UInt8} {es : List Clumplet} :
    ∀ (p : Nat) (q : Option Nat), (∀ e ∈ es, e.type ≠ type) → lastAt type p es q = q := by
  induction es with
  | nil =>
    intro p q other
    rfl
  | cons e es ih =>
    intro p q other
    unfold lastAt
    rw [if_neg (other e List.mem_cons_self), ih _ _ fun x hx => other x (List.mem_cons_of_mem _ hx)]

theorem lastAt_last {type : UInt8} {e : Clumplet} {post : List Clumplet} (is : e.type = type)
    (other : ∀ x ∈ post, x.type ≠ type) (pre : List Clumplet) : ∀ (p : Nat) (q : Option Nat),
      lastAt type p (pre ++ e :: post) q = some (p + (area pre).length) := by
  induction pre with
  | nil =>
    intro p q
    show lastAt type _ post (if e.type = type then some p else q) = _
    rw [if_pos is, lastAt_none _ _ other]
    rfl
  | cons x pre ih =>
    intro p q
    rw [List.cons_append]
    unfold lastAt
    rw [ih, length_area_cons]
    congr 1
    omega

/-- A list has no entry of the type, or a last one. -/
theorem exists_last (type : UInt8) (es : List Clumplet) : (∀ e ∈ es, e.type ≠ type) ∨
    ∃ pre e post, es = pre ++ e :: post ∧ e.type = type ∧ ∀ x ∈ post, x.type ≠ type := by
  induction es with
  | nil => exact .inl fun e he => absurd he List.not_mem_nil
  | cons e es ih =>
    obtain other | ⟨pre, x, post, rfl, is, other⟩ := ih
    · by_cases is : e.type = type
      · exact .inr ⟨[], e, es, rfl, is, other⟩
      · refine .inl fun x hx => ?_
        obtain rfl | hx := List.mem_cons.mp hx
        · exact is
        · exact other x hx
    · exact .inr ⟨e :: pre, x, post, rfl, is, other⟩

end

end Clump

/-- The page holds these entries with the end behind them, and `hdr_end` says where. -/
structure ClumpPage.Has (dbbPageSize hdrSize : Nat) (page : ClumpPage) (es : List Clumplet) :
    Prop where
  holds : Holds page.bytes hdrSize (Clump.area es ++ [Clump.hdrEnd])
  ends : page.hdrEnd = hdrSize + (Clump.area es).length
  inside : page.hdrEnd < dbbPageSize

instance (dbbPageSize hdrSize : Nat) (page : ClumpPage) (es : List Clumplet) :
    Decidable (page.Has dbbPageSize hdrSize es) :=
  decidable_of_iff (slice page.bytes hdrSize (Clump.area es ++ [Clump.hdrEnd]).length =
      Clump.area es ++ [Clump.hdrEnd] ∧ page.hdrEnd = hdrSize + (Clump.area es).length ∧
        page.hdrEnd < dbbPageSize)
    ⟨fun h => ⟨h.1, h.2.1, h.2.2⟩, fun h => ⟨h.holds, h.ends, h.inside⟩⟩

namespace Clump

section

variable {dbbPageSize hdrSize : Nat}

theorem scan_page {page : ClumpPage} {es : List Clumplet} (has : page.Has dbbPageSize hdrSize es)
    (type : UInt8) : scan page.bytes type dbbPageSize hdrSize none =
      some (lastAt type hdrSize es none, page.hdrEnd) := by
  have few : es.length < dbbPageSize := by
    have := length_le_area es
    have := has.ends
    have := has.inside
    omega
  rw [scan_area type es none has.holds few, has.ends]

theorem area_pick (pre : List Clumplet) (e : Clumplet) (post : List Clumplet) :
    area (pre ++ e :: post) =
      area pre ++ (e.type :: UInt8.ofNat e.value.length :: e.value) ++ area post := by
  rw [area_append, area_cons, List.append_assoc]

theorem length_area_pick (pre : List Clumplet) (e : Clumplet) (post : List Clumplet) :
    (area (pre ++ e :: post)).length =
      (area pre).length + (2 + e.value.length) + (area post).length := by
  rw [area_append, List.length_append, length_area_cons]
  omega

/-- The length byte of an entry, and the bytes behind it up to the end. -/
theorem holds_pick {m : Nat → UInt8} {p : Nat} (pre : List Clumplet) {e : Clumplet}
    {post : List Clumplet}
    (h : Holds m p (area (pre ++ e :: post) ++ [hdrEnd])) :
    Holds m p (area pre) ∧ (m (p + (area pre).length + 1)).toNat = e.value.length ∧
      Holds m (p + (area pre).length + 2 + e.value.length) (area post ++ [hdrEnd]) := by
  rw [area_pick, List.append_assoc, List.append_assoc, holds_append] at h
  obtain ⟨before, h⟩ := h
  rw [holds_append] at h
  obtain ⟨h, behind⟩ := h
  rw [holds_cons, holds_cons] at h
  refine ⟨before, ?_, ?_⟩
  · rw [h.2.1, lengthByte]
  · simp only [List.length_cons] at behind
    rwa [show p + (area pre).length + 2 + e.value.length =
      p + (area pre).length + (e.value.length + 1 + 1) by omega]

/-- The bytes of a page have one reading. -/
theorem holds_unique {m : Nat → UInt8} (es : List Clumplet) : ∀ {p : Nat} {es' : List Clumplet},
    Holds m p (area es ++ [hdrEnd]) → Holds m p (area es' ++ [hdrEnd]) → es = es' := by
  induction es with
  | nil =>
    intro p es' h h'
    cases es' with
    | nil => rfl
    | cons e' es' =>
      rw [area_cons, List.cons_append, List.cons_append, holds_cons] at h'
      exact absurd (h'.1.symm.trans (holds_cons.mp h).1) e'.named
  | cons e es ih =>
    intro p es' h h'
    cases es' with
    | nil =>
      rw [area_cons, List.cons_append, List.cons_append, holds_cons] at h
      exact absurd (h.1.symm.trans (holds_cons.mp h').1) e.named
    | cons e' es' =>
      obtain ⟨-, length, behind⟩ := holds_pick [] h
      obtain ⟨-, length', behind'⟩ := holds_pick [] h'
      have long : e.value.length = e'.value.length := length.symm.trans length'
      rw [long] at behind
      rw [area_cons, List.append_assoc, holds_append, holds_cons, holds_cons] at h h'
      obtain ⟨⟨type, -, value⟩, -⟩ := h
      obtain ⟨⟨type', -, value'⟩, -⟩ := h'
      unfold Holds at value value'
      rw [long] at value
      have same : e = e' := Clumplet.ext (type.symm.trans type') (value.symm.trans value')
      rw [same, ih behind behind']

/-- What lies behind an entry travels down to where it began. -/
theorem closeUp_holds {page : ClumpPage} {pre post : List Clumplet} {e : Clumplet}
    (h : Holds page.bytes hdrSize (area (pre ++ e :: post) ++ [hdrEnd])) :
    Holds (closeUp (hdrSize + (area pre).length)
      (hdrSize + (area (pre ++ e :: post)).length) page).bytes hdrSize
        (area (pre ++ post) ++ [hdrEnd]) := by
  obtain ⟨before, length, behind⟩ := holds_pick pre h
  have much : hdrSize + (area (pre ++ e :: post)).length -
      (hdrSize + (area pre).length + 2 + e.value.length) + 1 = (area post ++ [hdrEnd]).length := by
    rw [length_area_pick, List.length_append, List.length_singleton]
    omega
  unfold closeUp
  simp only [length, much]
  rw [copyUp_eq_move _ (by omega), area_append, List.append_assoc, holds_append]
  refine ⟨?_, behind.move⟩
  unfold move
  exact before.write _ (.inl (Nat.le_refl _))

theorem closeUp_hdrEnd (entryP clumpEnd : Nat) (page : ClumpPage) :
    (closeUp entryP clumpEnd page).hdrEnd = page.hdrEnd := rfl

theorem closeUp_shorten (entryP clumpEnd n : Nat) (page : ClumpPage) :
    (closeUp entryP clumpEnd (shorten n page)).bytes = (closeUp entryP clumpEnd page).bytes := by
  unfold closeUp shorten
  dsimp only

/-- An entry is taken off the page it is on. -/
theorem closeUp_has {page : ClumpPage} {pre post : List Clumplet} {e : Clumplet}
    (wide : dbbPageSize < 65536) (has : page.Has dbbPageSize hdrSize (pre ++ e :: post)) :
    (closeUp (hdrSize + (area pre).length) page.hdrEnd
      (shorten e.value.length page)).Has dbbPageSize hdrSize (pre ++ post) := by
  have length := length_area_pick pre e post
  have ends := has.ends
  have inside := has.inside
  have short : (shorten e.value.length page).hdrEnd = hdrSize + (area (pre ++ post)).length := by
    unfold shorten
    dsimp only
    rw [area_append, List.length_append]
    unfold ushort
    omega
  constructor
  · rw [ends, closeUp_shorten]
    exact closeUp_holds has.holds
  · rw [closeUp_hdrEnd, short]
  · rw [closeUp_hdrEnd, short, area_append, List.length_append]
    omega

/-- An entry is put behind the others. -/
theorem putClump_has {page : ClumpPage} (es : List Clumplet) {e : Clumplet}
    (wide : dbbPageSize < 65536) (holds : Holds page.bytes hdrSize (area es))
    (room : hdrSize + (area es).length + 2 + e.value.length < dbbPageSize) :
    (putClump page (hdrSize + (area es).length) e).Has dbbPageSize hdrSize (es ++ [e]) := by
  have length : (area (es ++ [e])).length = (area es).length + 2 + e.value.length := by
    rw [length_area_pick]
    simp only [area, List.flatMap_nil, List.length_nil]
    omega
  have put : (putClump page (hdrSize + (area es).length) e).hdrEnd =
      hdrSize + (area es).length + 2 + e.value.length := ushort_of_lt (by omega)
  constructor
  · rw [area_append, List.append_assoc, holds_append]
    refine ⟨holds.write _ (.inl (Nat.le_refl _)), ?_⟩
    have written := holds_write page.bytes (hdrSize + (area es).length)
      (e.type :: UInt8.ofNat e.value.length :: e.value ++ [hdrEnd])
    have one : area [e] = e.type :: UInt8.ofNat e.value.length :: e.value := by
      rw [area_cons]
      exact List.append_nil _
    rw [one]
    exact written
  · rw [put, length]
    omega
  · rw [put]
    exact room

/-- An entry of the type and length is written over. -/
theorem overwrite_has {page : ClumpPage} {pre post : List Clumplet} {e entry : Clumplet}
    (has : page.Has dbbPageSize hdrSize (pre ++ e :: post)) (type : e.type = entry.type)
    (length : e.value.length = entry.value.length) :
    ({ page with bytes := write page.bytes (hdrSize + (area pre).length + 2) entry.value }
      : ClumpPage).Has dbbPageSize hdrSize (pre ++ entry :: post) := by
  have same : (area (pre ++ entry :: post)).length = (area (pre ++ e :: post)).length := by
    rw [length_area_pick, length_area_pick, length]
  have holds := has.holds
  rw [area_pick, List.append_assoc, List.append_assoc, holds_append, holds_append, holds_cons,
    holds_cons] at holds
  obtain ⟨before, ⟨first, second, -⟩, behind⟩ := holds
  simp only [List.length_cons] at behind
  constructor
  · show Holds (write page.bytes _ _) _ _
    rw [area_pick, List.append_assoc, List.append_assoc, holds_append, holds_append, holds_cons,
      holds_cons]
    refine ⟨before.write _ (.inl (by omega)), ⟨?_, ?_, holds_write _ _ _⟩, ?_⟩
    · rw [write_below _ _ (by omega), first, type]
    · rw [write_below _ _ (by omega), second, length]
    · simp only [List.length_cons]
      rw [← length]
      exact behind.write _ (.inr (by omega))
  · rw [same]
    exact has.ends
  · exact has.inside

end

end Clump

end InterBase
