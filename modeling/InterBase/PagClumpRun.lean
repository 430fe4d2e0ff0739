import Mathlib.Data.List.Forall2
import InterBase.PagClump

namespace InterBase

open Memory

namespace Clump

inductive Op where
  | add (fresh : Nat → UInt8) (entry : Clumplet) (mode : ClumpMode)
  | delete (type : UInt8)

/-- What an operation does to the entries of a chain, of which the first of a type is the one that
is replaced or deleted. -/
def specified : Op → List Clumplet → List Clumplet
  | .add _ entry .add, entries => entry :: entries
  | .add _ entry .replace, entries => entry :: entries.eraseP (·.type = entry.type)
  | .add _ entry .replaceOnly, entries =>
    if entries.any (·.type = entry.type) then entry :: entries.eraseP (·.type = entry.type)
    else entries
  | .delete type, entries => entries.eraseP (·.type = type)

/-- The first page of the chain that has entries of the type, by its place, and these entries. -/
def firstFound (type : UInt8) : List (List Clumplet) → Option (Nat × List Clumplet)
  | [] => none
  | es :: ess =>
    if es.any (·.type = type) then some (0, es.filter (·.type = type))
    else (firstFound type ess).map fun (i, found) => (i + 1, found)

/-- Where a page has several entries of the type, the first is no other than the last; and a
replacement that changes the length finds its entry on the first page. -/
def Harmless : Op → List (List Clumplet) → Prop
  | .add _ _ .add, _ => True
  | .add _ entry _, ess => ∀ i found, firstFound entry.type ess = some (i, found) →
    found.head? = found.getLast? ∧
      (i = 0 ∨ ∀ e, found.getLast? = some e → e.value.length = entry.value.length)
  | .delete type, ess => ∀ i found, firstFound type ess = some (i, found) →
    found.head? = found.getLast?

section

variable (dbbPageSize hdrSize : Nat)

def Op.apply : Op → List ClumpPage → List ClumpPage
  | .add fresh entry mode => pagAddClump dbbPageSize hdrSize fresh entry mode
  | .delete type => pagDeleteClumpEntry dbbPageSize hdrSize type

def Op.Fits : Op → Prop
  | .add _ entry _ => hdrSize + 2 + entry.value.length < dbbPageSize
  | .delete _ => True

/-- Each page of the chain holds its entries, and its `hdr_end` is the place of the end of them. -/
def ChainHas (chain : List ClumpPage) (ess : List (List Clumplet)) : Prop :=
  List.Forall₂ (ClumpPage.Has dbbPageSize hdrSize) chain ess

instance (chain : List ClumpPage) (ess : List (List Clumplet)) :
    Decidable (ChainHas dbbPageSize hdrSize chain ess) :=
  inferInstanceAs (Decidable (List.Forall₂ _ _ _))

/-- Every operation of the run changes the entries as specified. -/
def Specified : List ClumpPage → List Op → Prop
  | _, [] => True
  | chain, op :: ops =>
    (∃ ess ess', ChainHas dbbPageSize hdrSize chain ess ∧
      ChainHas dbbPageSize hdrSize (op.apply dbbPageSize hdrSize chain) ess' ∧
        ess'.flatten.Perm (specified op ess.flatten)) ∧
      Specified (op.apply dbbPageSize hdrSize chain) ops

/-- Every operation of the run meets its condition where it is made. -/
def Careful : List ClumpPage → List Op → Prop
  | _, [] => True
  | chain, op :: ops =>
    (∀ ess, ChainHas dbbPageSize hdrSize chain ess → Harmless op ess) ∧
      Careful (op.apply dbbPageSize hdrSize chain) ops

end

section

variable {dbbPageSize hdrSize : Nat}

/-- An entry that `find_type` has found: on `page`, behind `before` and `pre`. -/
structure Found (dbbPageSize hdrSize : Nat) (type : UInt8) (before : List ClumpPage)
    (page : ClumpPage) (after : List ClumpPage) (front : List (List Clumplet))
    (pre : List Clumplet) (e : Clumplet) (post : List Clumplet) (back : List (List Clumplet)) :
    Prop where
  hasBefore : ChainHas dbbPageSize hdrSize before front
  has : page.Has dbbPageSize hdrSize (pre ++ e :: post)
  hasAfter : ChainHas dbbPageSize hdrSize after back
  other : ∀ es ∈ front, ∀ x ∈ es, x.type ≠ type
  is : e.type = type
  last : ∀ x ∈ post, x.type ≠ type

/-- The search stops on the first page with an entry of the type, at the last of them there. -/
theorem findType_spec (type : UInt8) {chain : List ClumpPage} {ess : List (List Clumplet)}
    (has : ChainHas dbbPageSize hdrSize chain ess) :
    (findType dbbPageSize hdrSize type chain = none ∧ ∀ es ∈ ess, ∀ x ∈ es, x.type ≠ type) ∨
      ∃ before page after front pre e post back,
        Found dbbPageSize hdrSize type before page after front pre e post back ∧
          chain = before ++ page :: after ∧ ess = front ++ (pre ++ e :: post) :: back ∧
            findType dbbPageSize hdrSize type chain =
              some (before.length, hdrSize + (area pre).length, page.hdrEnd) := by
  induction has with
  | nil => exact .inl ⟨rfl, fun es he => absurd he List.not_mem_nil⟩
  | @cons page es chain ess first rest ih =>
    have scanned := scan_page first type
    obtain other | ⟨pre, e, post, rfl, is, last⟩ := exists_last type es
    · rw [lastAt_none _ _ other] at scanned
      obtain ⟨none, others⟩ |
        ⟨before, page', after, front, pre, e, post, back, found, rfl, rfl, at'⟩ := ih
      · refine .inl ⟨?_, fun es' he => ?_⟩
        · unfold findType
          rw [scanned, none]
          rfl
        · obtain rfl | he := List.mem_cons.mp he
          · exact other
          · exact others es' he
      · refine .inr
          ⟨page :: before, page', after, es :: front, pre, e, post, back, ?_, rfl, rfl, ?_⟩
        · refine { found with hasBefore := .cons first found.hasBefore, other := ?_ }
          intro es' he
          obtain rfl | he := List.mem_cons.mp he
          · exact other
          · exact found.other es' he
        · unfold findType
          rw [scanned, at']
          rfl
    · refine .inr ⟨[], page, chain, [], pre, e, post, ess, ?_, rfl, rfl, ?_⟩
      · exact ⟨.nil, first, rest, fun es he => absurd he List.not_mem_nil, is, last⟩
      · rw [lastAt_last is last] at scanned
        unfold findType
        rw [scanned]
        rfl

/-- The new entry is found room for, on a page of the chain or on a new one behind it. -/
theorem findClumpSpace_has (wide : dbbPageSize < 65536) (fresh : Nat → UInt8) {entry : Clumplet}
    (fits : hdrSize + 2 + entry.value.length < dbbPageSize) {chain : List ClumpPage}
    {ess : List (List Clumplet)} (has : ChainHas dbbPageSize hdrSize chain ess) :
    ∃ ess', ChainHas dbbPageSize hdrSize
        (findClumpSpace dbbPageSize hdrSize fresh entry chain) ess' ∧
      ess'.flatten.Perm (entry :: ess.flatten) := by
  induction has with
  | nil =>
    refine ⟨[[entry]], .cons ?_ .nil, .refl _⟩
    exact putClump_has [] wide (holds_nil _ _) (by
      show hdrSize + 0 + 2 + entry.value.length < dbbPageSize
      omega)
  | @cons page es chain ess first rest ih =>
    unfold findClumpSpace
    split
    next room =>
      refine ⟨(es ++ [entry]) :: ess, .cons ?_ rest, ?_⟩
      · rw [first.ends] at room ⊢
        exact putClump_has es wide (holds_append.mp first.holds).1 (by omega)
      · rw [List.flatten_cons, List.flatten_cons, List.append_assoc]
        exact List.perm_middle
    next full =>
      obtain ⟨ess', has', perm⟩ := ih
      refine ⟨es :: ess', .cons first has', ?_⟩
      rw [List.flatten_cons, List.flatten_cons]
      exact (perm.append_left es).trans List.perm_middle

theorem findClumpSpaceLast_has (wide : dbbPageSize < 65536) (fresh : Nat → UInt8)
    {entry : Clumplet} (fits : hdrSize + 2 + entry.value.length < dbbPageSize)
    {chain : List ClumpPage} {ess : List (List Clumplet)}
    (has : ChainHas dbbPageSize hdrSize chain ess) :
    ∃ ess', ChainHas dbbPageSize hdrSize
        (findClumpSpaceLast dbbPageSize hdrSize fresh entry chain) ess' ∧
      ess'.flatten.Perm (entry :: ess.flatten) := by
  obtain ⟨ess', last, perm⟩ := findClumpSpace_has wide fresh fits
    (List.forall₂_drop (chain.length - 1) has)
  refine ⟨ess.take (chain.length - 1) ++ ess',
    List.rel_append (List.forall₂_take (chain.length - 1) has) last, ?_⟩
  rw [List.flatten_append]
  refine (perm.append_left _).trans (List.perm_middle.trans ?_)
  rw [← List.flatten_append, List.take_append_drop]

theorem filter_last {type : UInt8} {pre post : List Clumplet} {e : Clumplet} (is : e.type = type)
    (last : ∀ x ∈ post, x.type ≠ type) : (pre ++ e :: post).filter (·.type = type) =
      pre.filter (·.type = type) ++ [e] := by
  have none : post.filter (·.type = type) = [] := by
    apply List.filter_eq_nil_iff.mpr
    intro x hx
    rw [decide_eq_true_eq]
    exact last x hx
  rw [List.filter_append, List.filter_cons_of_pos (by rw [is]; exact decide_eq_true rfl), none]

theorem firstFound_eq {type : UInt8} {front : List (List Clumplet)} (pre : List Clumplet)
    {e : Clumplet} {post : List Clumplet} (back : List (List Clumplet))
    (other : ∀ es ∈ front, ∀ x ∈ es, x.type ≠ type)
    (is : e.type = type) (last : ∀ x ∈ post, x.type ≠ type) :
    firstFound type (front ++ (pre ++ e :: post) :: back) =
      some (front.length, pre.filter (·.type = type) ++ [e]) := by
  induction front with
  | nil =>
    have any : (pre ++ e :: post).any (·.type = type) = true := by
      apply List.any_eq_true.mpr
      exact ⟨e, List.mem_append_right _ List.mem_cons_self, decide_eq_true is⟩
    rw [List.nil_append]
    unfold firstFound
    rw [if_pos any, filter_last is last]
    rfl
  | cons es front ih =>
    have not : es.any (·.type = type) = false := by
      apply List.any_eq_false.mpr
      intro x hx
      rw [decide_eq_true_eq]
      exact other es List.mem_cons_self x hx
    rw [List.cons_append]
    unfold firstFound
    rw [not, if_neg Bool.false_ne_true, ih fun es he => other es (List.mem_cons_of_mem _ he)]
    rfl

theorem not_flatten {type : UInt8} {ess : List (List Clumplet)}
    (other : ∀ es ∈ ess, ∀ x ∈ es, x.type ≠ type) (x : Clumplet) (hx : x ∈ ess.flatten) :
    ¬ decide (x.type = type) = true := by
  obtain ⟨es, he, hx⟩ := List.mem_flatten.mp hx
  rw [decide_eq_true_eq]
  exact other es he x hx

theorem flatten_pick (front : List (List Clumplet)) (pre : List Clumplet) (e : Clumplet)
    (post : List Clumplet) (back : List (List Clumplet)) :
    (front ++ (pre ++ e :: post) :: back).flatten.Perm
      (e :: (front ++ (pre ++ post) :: back).flatten) := by
  simp only [List.flatten_append, List.flatten_cons, List.append_assoc, List.cons_append]
  refine (List.Perm.append_left _ List.perm_middle).trans ?_
  exact List.perm_middle

/-- The first entry of a type that a chain holds is the first on the first page that has any. -/
theorem erase_first {type : UInt8} {front : List (List Clumplet)} {pre post : List Clumplet}
    {e : Clumplet} (back : List (List Clumplet)) (other : ∀ es ∈ front, ∀ x ∈ es, x.type ≠ type)
    (is : e.type = type) (last : ∀ x ∈ post, x.type ≠ type)
    (same : (pre.filter (·.type = type) ++ [e]).head? =
      (pre.filter (·.type = type) ++ [e]).getLast?) :
    ((front ++ (pre ++ e :: post) :: back).flatten.eraseP (·.type = type)).Perm
      (front ++ (pre ++ post) :: back).flatten := by
  have mem : e ∈ (front ++ (pre ++ e :: post) :: back).flatten :=
    (flatten_pick front pre e post back).mem_iff.mpr List.mem_cons_self
  obtain ⟨first, before, behind, none, isFirst, whole, erased⟩ :=
    List.exists_of_eraseP (p := fun x => decide (x.type = type)) mem (decide_eq_true is)
  have quiet : front.flatten.filter (·.type = type) = [] :=
    List.filter_eq_nil_iff.mpr (not_flatten other)
  have found : (front ++ (pre ++ e :: post) :: back).flatten.filter (·.type = type) =
      (pre.filter (·.type = type) ++ [e]) ++ back.flatten.filter (·.type = type) := by
    rw [List.flatten_append, List.flatten_cons, List.filter_append, List.filter_append,
      filter_last is last, quiet, List.nil_append]
  have beginning : before.filter (·.type = type) = [] := List.filter_eq_nil_iff.mpr none
  have start : (first :: behind).filter (·.type = type) = first :: behind.filter (·.type = type) :=
    List.filter_cons_of_pos isFirst
  rw [whole, List.filter_append, beginning, List.nil_append, start] at found
  have head := congrArg List.head? found
  rw [List.head?_cons, List.head?_append, same, List.getLast?_concat] at head
  obtain rfl : first = e := Option.some.inj head
  rw [erased]
  have picked := flatten_pick front pre first post back
  rw [whole] at picked
  exact (List.perm_middle.symm.trans picked).cons_inv

theorem modify_length {α : Type*} (before : List α) (x : α) (after : List α) (f : α → α) :
    (before ++ x :: after).modify before.length f = before ++ f x :: after := by
  induction before with
  | nil => rfl
  | cons y before ih =>
    rw [List.cons_append, List.length_cons, List.modify_succ_cons, ih]
    rfl

section

variable {type : UInt8} {before : List ClumpPage} {page : ClumpPage} {after : List ClumpPage}
  {front : List (List Clumplet)} {pre : List Clumplet} {e : Clumplet} {post : List Clumplet}
  {back : List (List Clumplet)}

theorem Found.lengthAt_eq
    (found : Found dbbPageSize hdrSize type before page after front pre e post back) :
    lengthAt (before ++ page :: after) before.length (hdrSize + (area pre).length) =
      e.value.length := by
  unfold lengthAt
  rw [List.getElem?_append_right (Nat.le_refl _), Nat.sub_self]
  exact (holds_pick pre found.has.holds).2.1

theorem Found.chain (found : Found dbbPageSize hdrSize type before page after front pre e post back)
    {page' : ClumpPage} {es : List Clumplet} (has : page'.Has dbbPageSize hdrSize es) :
    ChainHas dbbPageSize hdrSize (before ++ page' :: after) (front ++ es :: back) :=
  List.rel_append found.hasBefore (.cons has found.hasAfter)

theorem Found.length
    (found : Found dbbPageSize hdrSize type before page after front pre e post back) :
    before.length = front.length :=
  List.Forall₂.length_eq found.hasBefore

/-- An entry is deleted from the page it is on. -/
theorem pagDeleteClumpEntry_has (wide : dbbPageSize < 65536) {chain : List ClumpPage}
    {ess : List (List Clumplet)} (has : ChainHas dbbPageSize hdrSize chain ess)
    (harmless : Harmless (.delete type) ess) :
    ∃ ess', ChainHas dbbPageSize hdrSize (pagDeleteClumpEntry dbbPageSize hdrSize type chain) ess' ∧
      ess'.flatten.Perm (specified (.delete type) ess.flatten) := by
  unfold pagDeleteClumpEntry
  obtain ⟨none, others⟩ | ⟨before, page, after, front, pre, e, post, back, found, rfl, rfl, at'⟩ :=
    findType_spec type has
  · rw [none]
    refine ⟨ess, has, ?_⟩
    show ess.flatten.Perm (ess.flatten.eraseP (·.type = type))
    rw [List.eraseP_of_forall_not (not_flatten others)]
  · rw [at']
    have same := harmless _ _ (firstFound_eq pre back found.other found.is found.last)
    have erased := erase_first back found.other found.is found.last same
    refine ⟨front ++ (pre ++ post) :: back, ?_, erased.symm⟩
    show ChainHas dbbPageSize hdrSize ((before ++ page :: after).modify before.length _) _
    rw [modify_length, found.lengthAt_eq]
    exact found.chain (closeUp_has wide found.has)

theorem Found.any (found : Found dbbPageSize hdrSize type before page after front pre e post back) :
    (front ++ (pre ++ e :: post) :: back).flatten.any (·.type = type) = true := by
  apply List.any_eq_true.mpr
  exact ⟨e, (flatten_pick front pre e post back).mem_iff.mpr List.mem_cons_self,
    decide_eq_true found.is⟩

/-- The entry is written over where it is, or taken off the first page and put in again. -/
theorem Found.replaced {entry : Clumplet} (wide : dbbPageSize < 65536) (fresh : Nat → UInt8)
    (fits : hdrSize + 2 + entry.value.length < dbbPageSize)
    (found : Found dbbPageSize hdrSize entry.type before page after front pre e post back)
    (same : (pre.filter (·.type = entry.type) ++ [e]).head? =
      (pre.filter (·.type = entry.type) ++ [e]).getLast?)
    (here : front.length = 0 ∨ e.value.length = entry.value.length) :
    ∃ ess', ChainHas dbbPageSize hdrSize
        (if lengthAt (before ++ page :: after) before.length (hdrSize + (area pre).length) =
            entry.value.length then
          (before ++ page :: after).modify before.length fun page =>
            { page with bytes := write page.bytes (hdrSize + (area pre).length + 2) entry.value }
        else
          findClumpSpace dbbPageSize hdrSize fresh entry
            (((before ++ page :: after).modify 0
              (shorten (lengthAt (before ++ page :: after) before.length
                (hdrSize + (area pre).length)))).modify before.length
                  (closeUp (hdrSize + (area pre).length) page.hdrEnd))) ess' ∧
      ess'.flatten.Perm (entry ::
        (front ++ (pre ++ e :: post) :: back).flatten.eraseP (·.type = entry.type)) := by
  have erased := erase_first back found.other found.is found.last same
  rw [found.lengthAt_eq]
  split
  next length =>
    rw [modify_length]
    refine ⟨_, found.chain (overwrite_has found.has found.is length), ?_⟩
    exact (flatten_pick front pre entry post back).trans (erased.symm.cons entry)
  next differs =>
    have first : front = [] := List.length_eq_zero_iff.mp (here.resolve_right differs)
    have start : before = [] := by
      apply List.length_eq_zero_iff.mp
      rw [found.length, first]
      rfl
    subst first
    subst start
    show ∃ ess', ChainHas dbbPageSize hdrSize (findClumpSpace dbbPageSize hdrSize fresh entry
      (closeUp (hdrSize + (area pre).length) page.hdrEnd (shorten e.value.length page) :: after))
        ess' ∧ _
    obtain ⟨ess', has', perm⟩ := findClumpSpace_has wide fresh fits
      (found.chain (closeUp_has wide found.has))
    exact ⟨ess', has', perm.trans (erased.symm.cons entry)⟩

end

/-- An addition, or a replacement of an entry that its condition allows. -/
theorem pagAddClump_has (wide : dbbPageSize < 65536) (fresh : Nat → UInt8) {entry : Clumplet}
    (fits : hdrSize + 2 + entry.value.length < dbbPageSize) (mode : ClumpMode)
    {chain : List ClumpPage} {ess : List (List Clumplet)}
    (has : ChainHas dbbPageSize hdrSize chain ess)
    (harmless : Harmless (.add fresh entry mode) ess) :
    ∃ ess', ChainHas dbbPageSize hdrSize
        (pagAddClump dbbPageSize hdrSize fresh entry mode chain) ess' ∧
      ess'.flatten.Perm (specified (.add fresh entry mode) ess.flatten) := by
  obtain ⟨ess', has', perm⟩ := findClumpSpace_has wide fresh fits has
  obtain ⟨none, others⟩ | ⟨before, page, after, front, pre, e, post, back, found, rfl, rfl, at'⟩ :=
    findType_spec entry.type has
  · have whole : ess.flatten.eraseP (·.type = entry.type) = ess.flatten :=
      List.eraseP_of_forall_not (not_flatten others)
    have not : ess.flatten.any (·.type = entry.type) = false :=
      List.any_eq_false.mpr (not_flatten others)
    unfold pagAddClump
    rw [none]
    cases mode with
    | add => exact ⟨ess', has', perm⟩
    | replace =>
      obtain ⟨ess', has', perm⟩ := findClumpSpaceLast_has wide fresh fits has
      refine ⟨ess', has', ?_⟩
      show ess'.flatten.Perm (entry :: ess.flatten.eraseP (·.type = entry.type))
      rwa [whole]
    | replaceOnly =>
      refine ⟨ess, has, ?_⟩
      show ess.flatten.Perm (if ess.flatten.any (·.type = entry.type) then _ else ess.flatten)
      rw [not]
      exact .refl _
  · have first := firstFound_eq pre back found.other found.is found.last
    have last : (pre.filter (·.type = entry.type) ++ [e]).getLast? = some e := List.getLast?_concat
    unfold pagAddClump
    rw [at']
    cases mode with
    | add => exact ⟨ess', has', perm⟩
    | replace =>
      obtain ⟨same, here⟩ := harmless _ _ first
      exact found.replaced wide fresh fits same (here.imp_right fun h => h e last)
    | replaceOnly =>
      obtain ⟨same, here⟩ := harmless _ _ first
      obtain ⟨ess', has', perm⟩ :=
        found.replaced wide fresh fits same (here.imp_right fun h => h e last)
      refine ⟨ess', has', ?_⟩
      show ess'.flatten.Perm
        (if (front ++ (pre ++ e :: post) :: back).flatten.any (·.type = entry.type) then _ else _)
      rwa [found.any, if_pos rfl]

theorem Op.apply_has (wide : dbbPageSize < 65536) {op : Op} (fits : op.Fits dbbPageSize hdrSize)
    {chain : List ClumpPage} {ess : List (List Clumplet)}
    (has : ChainHas dbbPageSize hdrSize chain ess) (harmless : Harmless op ess) :
    ∃ ess', ChainHas dbbPageSize hdrSize (op.apply dbbPageSize hdrSize chain) ess' ∧
      ess'.flatten.Perm (specified op ess.flatten) := by
  cases op with
  | add fresh entry mode => exact pagAddClump_has wide fresh fits mode has harmless
  | delete type => exact pagDeleteClumpEntry_has wide has harmless

/-- In every run whose operations meet the condition, each changes the entries of the chain as
specified, and every `hdr_end` stays the place of the end on its page. -/
theorem clumps_specified (wide : dbbPageSize < 65536) (ops : List Op)
    (fits : ∀ op ∈ ops, op.Fits dbbPageSize hdrSize) {chain : List ClumpPage}
    {ess : List (List Clumplet)} (has : ChainHas dbbPageSize hdrSize chain ess)
    (careful : Careful dbbPageSize hdrSize chain ops) :
    Specified dbbPageSize hdrSize chain ops := by
  induction ops generalizing chain ess with
  | nil => trivial
  | cons op ops ih =>
    obtain ⟨harmless, careful⟩ := careful
    obtain ⟨ess', has', perm⟩ :=
      Op.apply_has wide (fits op List.mem_cons_self) has (harmless ess has)
    refine ⟨⟨ess, ess', has, has', perm⟩, ?_⟩
    exact ih (fun op h => fits op (List.mem_cons_of_mem _ h)) has' careful

theorem ChainHas.unique {chain : List ClumpPage} {ess : List (List Clumplet)}
    (has : ChainHas dbbPageSize hdrSize chain ess) : ∀ {ess' : List (List Clumplet)},
      ChainHas dbbPageSize hdrSize chain ess' → ess = ess' := by
  induction has with
  | nil =>
    intro ess' has'
    cases has'
    rfl
  | cons first rest ih =>
    intro ess' has'
    cases has' with
    | cons first' rest' => rw [holds_unique _ first.holds first'.holds, ih rest']

/-- A chain has one reading, in which the condition is looked at. -/
theorem careful_cons {chain : List ClumpPage} (ess : List (List Clumplet)) {op : Op}
    {ops : List Op} (has : ChainHas dbbPageSize hdrSize chain ess) (harmless : Harmless op ess)
    (careful : Careful dbbPageSize hdrSize (op.apply dbbPageSize hdrSize chain) ops) :
    Careful dbbPageSize hdrSize chain (op :: ops) :=
  ⟨fun _ other => has.unique other ▸ harmless, careful⟩

end

/-- A page that holds one entry. -/
def onePage (e : Clumplet) : ClumpPage := putClump ⟨96, fun _ => 0⟩ 96 e

theorem onePage_has {e : Clumplet} (short : e.value.length < 900) : (onePage e).Has 1024 96 [e] :=
  putClump_has [] (by omega) (holds_nil _ _) (by
    show 96 + 0 + 2 + e.value.length < 1024
    omega)

/-- Two pages of two entries each. -/
def twoPages : List ClumpPage :=
  [putClump (onePage ⟨3, [1], by decide, by decide⟩) 99 ⟨4, [5, 6], by decide, by decide⟩,
    putClump (onePage ⟨5, [7], by decide, by decide⟩) 99 ⟨3, [9], by decide, by decide⟩]

/-- An entry that goes to the second page, one that is replaced by a shorter one, one that is
written over, one that is not there and comes on a third page, and one that is deleted. -/
def twoPagesOps : List Op :=
  [.add (fun _ => 0) ⟨6, [8, 8, 8], by decide, by decide⟩ .add,
    .add (fun _ => 0) ⟨4, [6], by decide, by decide⟩ .replace,
    .add (fun _ => 0) ⟨5, [2], by decide, by decide⟩ .replaceOnly,
    .add (fun _ => 0) ⟨7, [1, 2, 3, 4], by decide, by decide⟩ .replace,
    .delete 3]

theorem clumps_specified_twoPages : Specified 108 96 twoPages twoPagesOps := by
  have first : ChainHas 108 96 twoPages
      [[⟨3, [1], by decide, by decide⟩, ⟨4, [5, 6], by decide, by decide⟩],
        [⟨5, [7], by decide, by decide⟩, ⟨3, [9], by decide, by decide⟩]] := by
    decide +kernel
  refine clumps_specified (by decide) _ ?_ first (careful_cons _ first trivial ?_)
  · intro op h
    fin_cases h
    all_goals first | trivial | (show _ < _; decide)
  refine careful_cons
    [[⟨3, [1], by decide, by decide⟩, ⟨4, [5, 6], by decide, by decide⟩],
      [⟨5, [7], by decide, by decide⟩, ⟨3, [9], by decide, by decide⟩,
        ⟨6, [8, 8, 8], by decide, by decide⟩]] (by decide +kernel) ?_ ?_
  · intro i found at'
    cases at'
    exact ⟨rfl, .inl rfl⟩
  refine careful_cons
    [[⟨3, [1], by decide, by decide⟩, ⟨4, [6], by decide, by decide⟩],
      [⟨5, [7], by decide, by decide⟩, ⟨3, [9], by decide, by decide⟩,
        ⟨6, [8, 8, 8], by decide, by decide⟩]] (by decide +kernel) ?_ ?_
  · intro i found at'
    cases at'
    refine ⟨rfl, .inr fun e he => ?_⟩
    cases he
    rfl
  refine careful_cons
    [[⟨3, [1], by decide, by decide⟩, ⟨4, [6], by decide, by decide⟩],
      [⟨5, [2], by decide, by decide⟩, ⟨3, [9], by decide, by decide⟩,
        ⟨6, [8, 8, 8], by decide, by decide⟩]] (by decide +kernel) ?_ ?_
  · intro i found at'
    cases at'
  refine careful_cons
    [[⟨3, [1], by decide, by decide⟩, ⟨4, [6], by decide, by decide⟩],
      [⟨5, [2], by decide, by decide⟩, ⟨3, [9], by decide, by decide⟩,
        ⟨6, [8, 8, 8], by decide, by decide⟩], [⟨7, [1, 2, 3, 4], by decide, by decide⟩]]
    (by decide +kernel) ?_ trivial
  · intro i found at'
    cases at'
    rfl

/-- The entry to be replaced is on the second page, and `hdr_end` of the first goes down. -/
theorem clumps_second_page :
    ChainHas 1024 96
      [onePage ⟨3, [1], by decide, by decide⟩, onePage ⟨4, [5], by decide, by decide⟩]
      [[⟨3, [1], by decide, by decide⟩], [⟨4, [5], by decide, by decide⟩]] ∧
    ¬ Specified 1024 96
      [onePage ⟨3, [1], by decide, by decide⟩, onePage ⟨4, [5], by decide, by decide⟩]
      [.add (fun _ => 0) ⟨4, [6, 7], by decide, by decide⟩ .replace] := by
  refine ⟨.cons (onePage_has (by decide)) (.cons (onePage_has (by decide)) .nil), ?_⟩
  intro specified
  obtain ⟨⟨ess, ess', -, has, -⟩, -⟩ := specified
  change ChainHas 1024 96 [_, closeUp 96 99 (onePage ⟨4, [5], by decide, by decide⟩)] ess' at has
  obtain ⟨-, rest, -, has, -⟩ := List.forall₂_cons_left_iff.mp has
  obtain ⟨es, -, second, -, -⟩ := List.forall₂_cons_left_iff.mp has
  have none : es = [] := by
    refine holds_unique es second.holds ?_
    show Holds _ 96 [hdrEnd]
    rfl
  rw [none] at second
  exact absurd second.ends (by decide)

end Clump

end InterBase
