import InterBase.Machine

namespace InterBase

namespace Like

def sqlMatchOne : Nat := 95
def sqlMatchAny : Nat := 37

/-- The part of a value that an `SSHORT` keeps. -/
def keepSshort (n : Int) : Int := (n + 32768) % 65536 - 32768

/-- A count of bytes as one of characters; `sizeof` makes it an unsigned division. -/
def charCount (width : Nat) (bytes : Int) : Int := keepSshort (bytes % 4294967296 / width)

/-- A count of characters as the count of bytes that is handed over. -/
def byteCount (width : Nat) (chars : Int) : Int := keepSshort (chars * width)

/-- What `LIKENAME` ends with; `beyond` when it comes to what stands behind the string or the
pattern. -/
inductive Answer where
  | returned (matched : Bool)
  | likeEscapeInvalid
  | beyond
deriving Repr, DecidableEq

/-- The loop over the other characters that match any sequence. -/
def skipAny : List Nat → Int → List Nat × Int
  | [], l2 => ([], l2)
  | c :: p2, l2 => if 0 < l2 ∧ c = sqlMatchAny then skipAny p2 (l2 - 1) else (c :: p2, l2)

/-- One character of the string is matched, and then the others. -/
def takeOne (char : Option Nat) (more : List Nat → Int → Answer) (p1 : List Nat) (l1 : Int) :
    Answer :=
  if l1 = 0 then .returned false
  else
    match p1 with
    | [] => .beyond
    | x :: p1 => if char.any fun c => c ≠ x then .returned false else more p1 (keepSshort (l1 - 1))

/-- The rest of the pattern is tried at each place of the string. -/
def tryFrom (call : List Nat → Int → Answer) : List Nat → Int → Answer
  | [], l1 =>
    if l1 = 0 then .returned false
    else
      match call [] l1 with
      | .returned false => .beyond
      | answer => answer
  | x :: p1, l1 =>
    if l1 = 0 then .returned false
    else
      match call (x :: p1) l1 with
      | .returned false => tryFrom call p1 (keepSshort (l1 - 1))
      | answer => answer

/-- What stands in a pattern behind the characters that match any sequence. -/
def afterAny (p : List Nat) : List Nat := p.dropWhile (· = sqlMatchAny)

theorem length_skipAny (p2 : List Nat) (l2 : Int) : (skipAny p2 l2).1.length ≤ p2.length := by
  induction p2 generalizing l2 with
  | nil => exact Nat.le_refl _
  | cons c p2 ih =>
    unfold skipAny
    split
    · exact (ih _).trans (Nat.le_succ _)
    · exact Nat.le_refl _

/-- The loop of `LIKENAME`, with the counts in characters. -/
def likeLoop (width escapeChar : Nat) (p2 : List Nat) (l2 : Int) (p1 : List Nat) (l1 : Int) :
    Answer :=
  if l2 ≤ 0 then .returned (l1 = 0)
  else
    match p2 with
    | [] => .beyond
    | c :: p2 =>
      if escapeChar ≠ 0 ∧ c = escapeChar then
        if l2 - 1 ≤ 0 then .likeEscapeInvalid
        else
          match p2 with
          | [] => .beyond
          | c :: p2 =>
            if c = escapeChar ∨ c = sqlMatchAny ∨ c = sqlMatchOne then
              takeOne (some c) (fun p1 l1 => likeLoop width escapeChar p2 (l2 - 2) p1 l1) p1 l1
            else .likeEscapeInvalid
      else if c = sqlMatchAny then
        if (skipAny p2 (l2 - 1)).2 = 0 then .returned true
        else
          tryFrom (fun p1 l1 => likeLoop width escapeChar (skipAny p2 (l2 - 1)).1
            (charCount width (byteCount width (skipAny p2 (l2 - 1)).2)) p1
            (charCount width (byteCount width l1))) p1 l1
      else
        takeOne (if c = sqlMatchOne then none else some c)
          (fun p1 l1 => likeLoop width escapeChar p2 (l2 - 1) p1 l1) p1 l1
termination_by p2.length
decreasing_by
  · simp only [List.length_cons]
    omega
  · exact Nat.lt_succ_of_le (length_skipAny _ _)
  · exact Nat.lt_succ_self _

/-- `LIKENAME`. -/
def likename (width escapeChar : Nat) (p1 : List Nat) (l1Bytes : Int) (p2 : List Nat)
    (l2Bytes : Int) : Answer :=
  likeLoop width escapeChar p2 (charCount width l2Bytes) p1 (charCount width l1Bytes)

/-- The call for a string and a pattern. -/
def like (width escapeChar : Nat) (p1 p2 : List Nat) : Answer :=
  likename width escapeChar p1 (byteCount width p1.length) p2 (byteCount width p2.length)

/-- What a pattern is made of. -/
inductive Token where
  | any
  | one
  | char (c : Nat)
deriving Repr, DecidableEq

def tokenOf (c : Nat) : Token :=
  if c = sqlMatchAny then .any else if c = sqlMatchOne then .one else .char c

/-- The meaning of a pattern; there is none where an escape character is misplaced. -/
def tokens (escapeChar : Nat) : List Nat → Option (List Token)
  | [] => some []
  | c :: p =>
    if escapeChar ≠ 0 ∧ c = escapeChar then
      match p with
      | [] => none
      | d :: p =>
        if d = escapeChar ∨ d = sqlMatchAny ∨ d = sqlMatchOne then (tokens escapeChar p).map (.char d :: ·)
        else none
    else (tokens escapeChar p).map (tokenOf c :: ·)

/-- The string can be split to match. -/
inductive Matches : List Token → List Nat → Prop where
  | nil : Matches [] []
  | any {ts s} (skipped : List Nat) : Matches ts s → Matches (.any :: ts) (skipped ++ s)
  | one {ts s} (c : Nat) : Matches ts s → Matches (.one :: ts) (c :: s)
  | char {ts s c} : Matches ts s → Matches (.char c :: ts) (c :: s)

def Accepts (escapeChar : Nat) (p s : List Nat) : Prop :=
  ∃ ts, tokens escapeChar p = some ts ∧ Matches ts s

/-- A part of the pattern can be matched up to an escape character that is misplaced; what matches
any sequence is not tried at the end of the string. -/
inductive Raises (escapeChar : Nat) : List Nat → List Nat → Prop where
  | misplaced {c p s} : escapeChar ≠ 0 ∧ c = escapeChar →
      (∀ d ∈ p.head?, ¬ (d = escapeChar ∨ d = sqlMatchAny ∨ d = sqlMatchOne)) →
      Raises escapeChar (c :: p) s
  | escape {c d p s} : escapeChar ≠ 0 ∧ c = escapeChar →
      d = escapeChar ∨ d = sqlMatchAny ∨ d = sqlMatchOne → Raises escapeChar p s →
      Raises escapeChar (c :: d :: p) (d :: s)
  | any {p s t} : ¬ (escapeChar ≠ 0 ∧ sqlMatchAny = escapeChar) → t <:+ s → t ≠ [] →
      Raises escapeChar p t → Raises escapeChar (sqlMatchAny :: p) s
  | single {c p x s} : ¬ (escapeChar ≠ 0 ∧ c = escapeChar) → c ≠ sqlMatchAny →
      c = sqlMatchOne ∨ c = x → Raises escapeChar p s → Raises escapeChar (c :: p) (x :: s)

/-- What stands in front of the first character that matches any sequence matches the beginning of
the string. -/
inductive Opens (escapeChar : Nat) : List Nat → List Nat → Prop where
  | any {p s} : ¬ (escapeChar ≠ 0 ∧ sqlMatchAny = escapeChar) → Opens escapeChar (sqlMatchAny :: p) s
  | escape {c d p s} : escapeChar ≠ 0 ∧ c = escapeChar →
      d = escapeChar ∨ d = sqlMatchAny ∨ d = sqlMatchOne → Opens escapeChar p s →
      Opens escapeChar (c :: d :: p) (d :: s)
  | single {c p x s} : ¬ (escapeChar ≠ 0 ∧ c = escapeChar) → c ≠ sqlMatchAny →
      c = sqlMatchOne ∨ c = x → Opens escapeChar p s → Opens escapeChar (c :: p) (x :: s)

/-- An answer decides the language of the pattern. -/
structure Decides (escapeChar : Nat) (p s : List Nat) (answer : Answer) : Prop where
  matched : answer = .returned true ↔ Accepts escapeChar p s
  invalid : answer = .likeEscapeInvalid → tokens escapeChar p = none
  inside : answer ≠ .beyond

/-- How a call ends; where the end of the string is lost, the loop over its places comes to what
stands behind it, unless an attempt ends the loop. -/
structure Ends (escapeChar : Nat) (p s : List Nat) (lost : Prop) (answer : Answer) : Prop where
  matched : answer = .returned true ↔ Accepts escapeChar p s
  invalid : answer = .likeEscapeInvalid ↔ Raises escapeChar p s
  beyond : answer = .beyond ↔
    lost ∧ Opens escapeChar p s ∧ ¬ Accepts escapeChar p s ∧ ¬ Raises escapeChar p s

section

variable {ts : List Token} {s t p p1 p2 : List Nat} {c d x escapeChar width n : Nat} {l1 : Int}
  {lost : Prop}

theorem matches_nil : Matches [] s ↔ s = [] := by
  constructor
  · intro h
    cases h
    rfl
  · rintro rfl
    exact .nil

theorem matches_any : Matches (.any :: ts) s ↔ ∃ t, t <:+ s ∧ Matches ts t := by
  constructor
  · intro h
    cases h with
    | any skipped rest => exact ⟨_, List.suffix_append _ _, rest⟩
  · rintro ⟨t, ⟨skipped, rfl⟩, rest⟩
    exact .any skipped rest

theorem matches_one : Matches (.one :: ts) s ↔ ∃ x t, s = x :: t ∧ Matches ts t := by
  constructor
  · intro h
    cases h with
    | one x rest => exact ⟨x, _, rfl, rest⟩
  · rintro ⟨x, t, rfl, rest⟩
    exact .one x rest

theorem matches_char : Matches (.char c :: ts) s ↔ ∃ t, s = c :: t ∧ Matches ts t := by
  constructor
  · intro h
    cases h with
    | char rest => exact ⟨_, rfl, rest⟩
  · rintro ⟨t, rfl, rest⟩
    exact .char rest

theorem accepts_nil : Accepts escapeChar [] s ↔ s = [] := by
  constructor
  · rintro ⟨ts, eq, h⟩
    obtain rfl := Option.some.inj eq
    exact matches_nil.mp h
  · rintro rfl
    exact ⟨[], rfl, .nil⟩

theorem tokens_cons (plain : ¬ (escapeChar ≠ 0 ∧ c = escapeChar)) :
    tokens escapeChar (c :: p) = (tokens escapeChar p).map (tokenOf c :: ·) := by
  rw [tokens.eq_def]
  exact if_neg plain

theorem tokens_escape (escapes : escapeChar ≠ 0 ∧ c = escapeChar)
    (special : d = escapeChar ∨ d = sqlMatchAny ∨ d = sqlMatchOne) :
    tokens escapeChar (c :: d :: p) = (tokens escapeChar p).map (.char d :: ·) := by
  rw [tokens.eq_def]
  exact (if_pos escapes).trans (if_pos special)

theorem accepts_of_tokens {token : Token}
    (h : tokens escapeChar p2 = (tokens escapeChar p).map (token :: ·)) :
    Accepts escapeChar p2 s ↔ ∃ ts, tokens escapeChar p = some ts ∧ Matches (token :: ts) s := by
  unfold Accepts
  rw [h]
  constructor
  · rintro ⟨ts, eq, m⟩
    obtain ⟨rest, hrest, rfl⟩ := Option.map_eq_some_iff.mp eq
    exact ⟨rest, hrest, m⟩
  · rintro ⟨rest, hrest, m⟩
    exact ⟨_, by rw [hrest]; rfl, m⟩

theorem accepts_any (plain : ¬ (escapeChar ≠ 0 ∧ sqlMatchAny = escapeChar)) :
    Accepts escapeChar (sqlMatchAny :: p) s ↔ ∃ t, t <:+ s ∧ Accepts escapeChar p t := by
  rw [accepts_of_tokens (tokens_cons plain)]
  constructor
  · rintro ⟨ts, eq, m⟩
    obtain ⟨t, suffix, rest⟩ := matches_any.mp m
    exact ⟨t, suffix, ts, eq, rest⟩
  · rintro ⟨t, suffix, ts, eq, m⟩
    exact ⟨ts, eq, matches_any.mpr ⟨t, suffix, m⟩⟩

theorem accepts_escape (escapes : escapeChar ≠ 0 ∧ c = escapeChar)
    (special : d = escapeChar ∨ d = sqlMatchAny ∨ d = sqlMatchOne) :
    Accepts escapeChar (c :: d :: p) s ↔ ∃ t, s = d :: t ∧ Accepts escapeChar p t := by
  rw [accepts_of_tokens (tokens_escape escapes special)]
  constructor
  · rintro ⟨ts, eq, m⟩
    obtain ⟨t, rfl, rest⟩ := matches_char.mp m
    exact ⟨t, rfl, ts, eq, rest⟩
  · rintro ⟨t, rfl, ts, eq, m⟩
    exact ⟨ts, eq, .char m⟩

theorem accepts_plain (plain : ¬ (escapeChar ≠ 0 ∧ c = escapeChar)) (single : c ≠ sqlMatchAny) :
    Accepts escapeChar (c :: p) s ↔
      ∃ x t, s = x :: t ∧ (c = sqlMatchOne ∨ c = x) ∧ Accepts escapeChar p t := by
  rw [accepts_of_tokens (tokens_cons plain)]
  unfold tokenOf
  rw [if_neg single]
  by_cases one : c = sqlMatchOne
  · rw [if_pos one]
    constructor
    · rintro ⟨ts, eq, m⟩
      obtain ⟨x, t, rfl, rest⟩ := matches_one.mp m
      exact ⟨x, t, rfl, .inl one, ts, eq, rest⟩
    · rintro ⟨x, t, rfl, -, ts, eq, m⟩
      exact ⟨ts, eq, .one x m⟩
  · rw [if_neg one]
    constructor
    · rintro ⟨ts, eq, m⟩
      obtain ⟨t, rfl, rest⟩ := matches_char.mp m
      exact ⟨c, t, rfl, .inr rfl, ts, eq, rest⟩
    · rintro ⟨x, t, rfl, same, ts, eq, m⟩
      obtain rfl := same.resolve_left one
      exact ⟨ts, eq, .char m⟩

/-- A misplaced escape character. -/
theorem tokens_misplaced (escapes : escapeChar ≠ 0 ∧ c = escapeChar)
    (none : ∀ d ∈ p.head?, ¬ (d = escapeChar ∨ d = sqlMatchAny ∨ d = sqlMatchOne)) :
    tokens escapeChar (c :: p) = Option.none := by
  rw [tokens.eq_def]
  refine (if_pos escapes).trans ?_
  cases p with
  | nil => rfl
  | cons d p => exact if_neg (none d rfl)

theorem not_accepts (h : tokens escapeChar p = none) : ¬ Accepts escapeChar p s := by
  rintro ⟨ts, eq, -⟩
  rw [h] at eq
  exact Option.some_ne_none ts eq.symm

theorem Raises.tokens (h : Raises escapeChar p s) : tokens escapeChar p = none := by
  induction h with
  | misplaced escapes none => exact tokens_misplaced escapes none
  | escape escapes special _ ih =>
    rw [tokens_escape escapes special, ih]
    rfl
  | any plain _ _ _ ih =>
    rw [tokens_cons plain, ih]
    rfl
  | single plain _ _ _ ih =>
    rw [tokens_cons plain, ih]
    rfl

theorem not_raises_nil : ¬ Raises escapeChar [] s := by
  intro h
  cases h

theorem not_opens_nil : ¬ Opens escapeChar [] s := by
  intro h
  cases h

theorem raises_any (plain : ¬ (escapeChar ≠ 0 ∧ sqlMatchAny = escapeChar)) :
    Raises escapeChar (sqlMatchAny :: p) s ↔ ∃ t, t <:+ s ∧ t ≠ [] ∧ Raises escapeChar p t := by
  constructor
  · intro h
    cases h with
    | misplaced escapes => exact absurd escapes plain
    | escape escapes => exact absurd escapes plain
    | any _ suffix more rest => exact ⟨_, suffix, more, rest⟩
    | single _ single => exact absurd rfl single
  · rintro ⟨t, suffix, more, rest⟩
    exact .any plain suffix more rest

theorem raises_escape (escapes : escapeChar ≠ 0 ∧ c = escapeChar)
    (special : d = escapeChar ∨ d = sqlMatchAny ∨ d = sqlMatchOne) :
    Raises escapeChar (c :: d :: p) s ↔ ∃ t, s = d :: t ∧ Raises escapeChar p t := by
  constructor
  · intro h
    cases h with
    | misplaced _ none => exact absurd special (none d rfl)
    | escape _ _ rest => exact ⟨_, rfl, rest⟩
    | any plain => exact absurd escapes plain
    | single plain => exact absurd escapes plain
  · rintro ⟨t, rfl, rest⟩
    exact .escape escapes special rest

theorem raises_plain (plain : ¬ (escapeChar ≠ 0 ∧ c = escapeChar)) (single : c ≠ sqlMatchAny) :
    Raises escapeChar (c :: p) s ↔
      ∃ x t, s = x :: t ∧ (c = sqlMatchOne ∨ c = x) ∧ Raises escapeChar p t := by
  constructor
  · intro h
    cases h with
    | misplaced escapes => exact absurd escapes plain
    | escape escapes => exact absurd escapes plain
    | any => exact absurd rfl single
    | single _ _ same rest => exact ⟨_, _, rfl, same, rest⟩
  · rintro ⟨x, t, rfl, same, rest⟩
    exact .single plain single same rest

theorem opens_escape (escapes : escapeChar ≠ 0 ∧ c = escapeChar)
    (special : d = escapeChar ∨ d = sqlMatchAny ∨ d = sqlMatchOne) :
    Opens escapeChar (c :: d :: p) s ↔ ∃ t, s = d :: t ∧ Opens escapeChar p t := by
  constructor
  · intro h
    cases h with
    | any plain => exact absurd escapes plain
    | escape _ _ rest => exact ⟨_, rfl, rest⟩
    | single plain => exact absurd escapes plain
  · rintro ⟨t, rfl, rest⟩
    exact .escape escapes special rest

theorem opens_plain (plain : ¬ (escapeChar ≠ 0 ∧ c = escapeChar)) (single : c ≠ sqlMatchAny) :
    Opens escapeChar (c :: p) s ↔
      ∃ x t, s = x :: t ∧ (c = sqlMatchOne ∨ c = x) ∧ Opens escapeChar p t := by
  constructor
  · intro h
    cases h with
    | any => exact absurd rfl single
    | escape escapes => exact absurd escapes plain
    | single _ _ same rest => exact ⟨_, _, rfl, same, rest⟩
  · rintro ⟨x, t, rfl, same, rest⟩
    exact .single plain single same rest

/-- At the end of the string only an escape character that comes next is seen. -/
theorem Raises.of_empty (h : Raises escapeChar p []) (s : List Nat) : Raises escapeChar p s := by
  cases h with
  | misplaced escapes none => exact .misplaced escapes none
  | any _ suffix more => exact absurd (List.suffix_nil.mp suffix) more

/-- What matches at a later place matches from the first place on at which the beginning does. -/
theorem Opens.accepts (opens : Opens escapeChar p s) (suffix : t <:+ s)
    (accepts : Accepts escapeChar p t) : Accepts escapeChar p s := by
  induction opens generalizing t with
  | any plain =>
    obtain ⟨u, suffix', accepts⟩ := (accepts_any plain).mp accepts
    exact (accepts_any plain).mpr ⟨u, suffix'.trans suffix, accepts⟩
  | escape escapes special _ ih =>
    obtain ⟨u, rfl, rest⟩ := (accepts_escape escapes special).mp accepts
    refine (accepts_escape escapes special).mpr ⟨_, rfl, ih ?_ rest⟩
    exact List.suffix_of_suffix_length_le ((List.suffix_cons _ _).trans suffix)
      (List.suffix_cons _ _) (Nat.le_of_succ_le_succ suffix.length_le)
  | single plain single same _ ih =>
    obtain ⟨y, u, rfl, -, accepts⟩ := (accepts_plain plain single).mp accepts
    refine (accepts_plain plain single).mpr ⟨_, _, rfl, same, ih ?_ accepts⟩
    exact List.suffix_of_suffix_length_le ((List.suffix_cons _ _).trans suffix)
      (List.suffix_cons _ _) (Nat.le_of_succ_le_succ suffix.length_le)

theorem Opens.raises (opens : Opens escapeChar p s) (suffix : t <:+ s)
    (raises : Raises escapeChar p t) : Raises escapeChar p s := by
  induction opens generalizing t with
  | any plain =>
    obtain ⟨u, suffix', more, raises⟩ := (raises_any plain).mp raises
    exact .any plain (suffix'.trans suffix) more raises
  | escape escapes special _ ih =>
    obtain ⟨u, rfl, rest⟩ := (raises_escape escapes special).mp raises
    refine .escape escapes special (ih ?_ rest)
    exact List.suffix_of_suffix_length_le ((List.suffix_cons _ _).trans suffix)
      (List.suffix_cons _ _) (Nat.le_of_succ_le_succ suffix.length_le)
  | single plain single same _ ih =>
    obtain ⟨y, u, rfl, -, raises⟩ := (raises_plain plain single).mp raises
    refine .single plain single same (ih ?_ raises)
    exact List.suffix_of_suffix_length_le ((List.suffix_cons _ _).trans suffix)
      (List.suffix_cons _ _) (Nat.le_of_succ_le_succ suffix.length_le)

theorem ends_invalid (h : Raises escapeChar p s) :
    Ends escapeChar p s lost .likeEscapeInvalid := by
  refine ⟨⟨?_, fun accepts => (not_accepts h.tokens accepts).elim⟩, ⟨fun _ => h, fun _ => rfl⟩, ?_, ?_⟩
  · intro returned
    cases returned
  · intro beyond
    cases beyond
  · rintro ⟨-, -, -, none⟩
    exact absurd h none

theorem ends_false (differs : ¬ Accepts escapeChar p s) (none : ¬ Raises escapeChar p s)
    (closed : lost → ¬ Opens escapeChar p s) : Ends escapeChar p s lost (.returned false) := by
  refine ⟨⟨?_, fun accepts => (differs accepts).elim⟩, ⟨?_, fun raises => (none raises).elim⟩, ?_, ?_⟩
  · intro returned
    cases returned
  · intro invalid
    cases invalid
  · intro beyond
    cases beyond
  · rintro ⟨lost, opens, -, -⟩
    exact absurd opens (closed lost)

theorem ends_true (h : Accepts escapeChar p s) : Ends escapeChar p s lost (.returned true) := by
  refine ⟨⟨fun _ => h, fun _ => rfl⟩, ⟨?_, fun raises => (not_accepts raises.tokens h).elim⟩, ?_, ?_⟩
  · intro invalid
    cases invalid
  · intro beyond
    cases beyond
  · rintro ⟨-, -, differs, -⟩
    exact absurd h differs

theorem decides_false (h : ¬ Accepts escapeChar p s) : Decides escapeChar p s (.returned false) := by
  refine ⟨⟨?_, fun accepts => (h accepts).elim⟩, ?_, ?_⟩
  · intro returned
    cases returned
  · intro invalid
    cases invalid
  · intro beyond
    cases beyond

theorem decides_true (h : Accepts escapeChar p s) : Decides escapeChar p s (.returned true) := by
  refine ⟨⟨fun _ => h, fun _ => rfl⟩, ?_, ?_⟩
  · intro invalid
    cases invalid
  · intro beyond
    cases beyond

/-- A call that ends as it does decides the language unless it comes to what stands behind. -/
theorem Ends.decides_iff {answer : Answer} (h : Ends escapeChar p s lost answer) :
    Decides escapeChar p s answer ↔ ¬ (lost ∧ Opens escapeChar p s) ∨ Accepts escapeChar p s ∨
      Raises escapeChar p s := by
  constructor
  · intro decides
    by_contra other
    push Not at other
    exact decides.inside (h.beyond.mpr ⟨other.1.1, other.1.2, other.2.1, other.2.2⟩)
  · intro other
    refine ⟨h.matched, fun invalid => (h.invalid.mp invalid).tokens, fun beyond => ?_⟩
    obtain ⟨lost, opens, differs, none⟩ := h.beyond.mp beyond
    rcases other with other | accepts | raises
    · exact other ⟨lost, opens⟩
    · exact differs accepts
    · exact none raises

theorem afterAny_any : afterAny (sqlMatchAny :: p) = afterAny p := List.dropWhile_cons_of_pos rfl

theorem afterAny_other (single : c ≠ sqlMatchAny) : afterAny (c :: p) = c :: p := by
  unfold afterAny
  rw [List.dropWhile_cons, if_neg (fun any => single (of_decide_eq_true any))]

theorem afterAny_head {rest : List Nat} (h : afterAny p = c :: rest) : c ≠ sqlMatchAny := by
  have first := List.head?_dropWhile_not (fun c : Nat => decide (c = sqlMatchAny)) p
  unfold afterAny at h
  rw [h] at first
  exact of_decide_eq_false first

theorem length_afterAny (p : List Nat) : (afterAny p).length ≤ p.length :=
  (List.dropWhile_suffix _).length_le

/-- A run of characters that match any sequence is as good as one of them. -/
theorem accepts_skip (plain : ¬ (escapeChar ≠ 0 ∧ sqlMatchAny = escapeChar)) :
    Accepts escapeChar (sqlMatchAny :: p) s ↔
      ∃ t, t <:+ s ∧ Accepts escapeChar (afterAny p) t := by
  induction p generalizing s with
  | nil => exact accepts_any plain
  | cons c p ih =>
    by_cases any : c = sqlMatchAny
    · subst any
      rw [accepts_any plain, afterAny_any]
      constructor
      · rintro ⟨t, suffix, h⟩
        obtain ⟨u, suffix', h⟩ := ih.mp h
        exact ⟨u, suffix'.trans suffix, h⟩
      · rintro ⟨t, suffix, h⟩
        exact ⟨t, suffix, ih.mpr ⟨t, List.suffix_refl t, h⟩⟩
    · rw [accepts_any plain, afterAny_other any]

theorem raises_skip (plain : ¬ (escapeChar ≠ 0 ∧ sqlMatchAny = escapeChar)) :
    Raises escapeChar (sqlMatchAny :: p) s ↔
      ∃ t, t <:+ s ∧ t ≠ [] ∧ Raises escapeChar (afterAny p) t := by
  induction p generalizing s with
  | nil => exact raises_any plain
  | cons c p ih =>
    by_cases any : c = sqlMatchAny
    · subst any
      rw [raises_any plain, afterAny_any]
      constructor
      · rintro ⟨t, suffix, -, h⟩
        obtain ⟨u, suffix', more, h⟩ := ih.mp h
        exact ⟨u, suffix'.trans suffix, more, h⟩
      · rintro ⟨t, suffix, more, h⟩
        exact ⟨t, suffix, more, ih.mpr ⟨t, List.suffix_refl t, more, h⟩⟩
    · rw [raises_any plain, afterAny_other any]

/-- What does not begin with a character for any sequence has a character of the string to match. -/
theorem not_accepts_empty (single : c ≠ sqlMatchAny) : ¬ Accepts escapeChar (c :: p) [] := by
  intro accepts
  by_cases escapes : escapeChar ≠ 0 ∧ c = escapeChar
  · cases p with
    | nil => exact not_accepts (tokens_misplaced escapes (by simp)) accepts
    | cons d p =>
      by_cases special : d = escapeChar ∨ d = sqlMatchAny ∨ d = sqlMatchOne
      · obtain ⟨t, eq, -⟩ := (accepts_escape escapes special).mp accepts
        exact List.cons_ne_nil d t eq.symm
      · refine not_accepts (tokens_misplaced escapes ?_) accepts
        intro e he
        obtain rfl := Option.some.inj he
        exact special
  · obtain ⟨x, t, eq, -⟩ := (accepts_plain escapes single).mp accepts
    exact List.cons_ne_nil x t eq.symm

theorem skipAny_eq (p : List Nat) :
    skipAny p p.length =
      (afterAny p, ((afterAny p).length : Int)) := by
  induction p with
  | nil => rfl
  | cons c p ih =>
    unfold skipAny
    have more : (0 : Int) < (c :: p).length := by
      rw [List.length_cons]
      omega
    by_cases any : c = sqlMatchAny
    · rw [if_pos ⟨more, any⟩, any, afterAny_any, ← ih,
        show ((sqlMatchAny :: p).length : Int) - 1 = p.length by rw [List.length_cons]; omega]
    · rw [if_neg (fun h => any h.2), afterAny_other any]

/-- A count of characters, as a string of a length has it; where the end is lost, the string is one
of wide characters that had 32768 bytes or more. -/
structure Counts (width : Nat) (lost : Prop) (chars : Int) (n : Nat) : Prop where
  right : ¬ lost → chars = keepSshort n ∧ (width = 1 ∧ n < 65536 ∨ width = 2 ∧ n * 2 < 32768)
  wrong : lost → width = 2 ∧ chars = n - 32768 ∧ n < 32768

theorem Counts.zero (h : Counts width lost l1 n) : l1 = 0 ↔ ¬ lost ∧ n = 0 := by
  by_cases gone : lost
  · obtain ⟨-, count, room⟩ := h.wrong gone
    simp only [gone, not_true_eq_false, false_and, iff_false]
    omega
  · obtain ⟨count, room⟩ := h.right gone
    rw [count]
    simp only [gone, not_false_eq_true, true_and]
    unfold keepSshort
    omega

theorem Counts.pred (h : Counts width lost l1 (n + 1)) :
    Counts width lost (keepSshort (l1 - 1)) n := by
  refine ⟨fun found => ?_, fun gone => ?_⟩
  · obtain ⟨count, room⟩ := h.right found
    refine ⟨?_, by omega⟩
    rw [count]
    unfold keepSshort
    omega
  · obtain ⟨wide, count, room⟩ := h.wrong gone
    refine ⟨wide, ?_, by omega⟩
    rw [count]
    unfold keepSshort
    omega

/-- On the other side of a call the count is the same, or it is right again. -/
theorem Counts.call (h : Counts width lost l1 n) :
    Counts width (lost ∧ 16384 ≤ n) (charCount width (byteCount width l1)) n := by
  by_cases gone : lost
  · obtain ⟨rfl, count, room⟩ := h.wrong gone
    rw [count]
    unfold charCount byteCount keepSshort
    simp only [gone, true_and, Nat.cast_ofNat]
    refine ⟨fun few => ⟨?_, .inr ⟨rfl, by omega⟩⟩, fun many => ⟨rfl, ?_, room⟩⟩
    · unfold keepSshort
      omega
    · omega
  · obtain ⟨count, room⟩ := h.right gone
    have same : charCount width (byteCount width l1) = l1 := by
      rw [count]
      unfold charCount byteCount keepSshort
      obtain ⟨rfl, room⟩ | ⟨rfl, room⟩ := room
      · simp only [Nat.cast_one]
        omega
      · simp only [Nat.cast_ofNat]
        omega
    rw [same]
    exact ⟨fun _ => ⟨count, room⟩, fun both => absurd both.1 gone⟩

theorem charCount_short (legal : width = 1 ∨ width = 2) (short : n * width < 32768) :
    charCount width (byteCount width n) = n := by
  unfold charCount byteCount keepSshort
  obtain rfl | rfl := legal
  · simp only [Nat.cast_one]
    omega
  · simp only [Nat.cast_ofNat]
    omega

/-- A property of strings that begin with a character as another property has it behind that. -/
def Follows (char : Option Nat) (first rest : List Nat → Prop) : Prop :=
  ∀ s, first s ↔ ∃ x t, s = x :: t ∧ (∀ c ∈ char, c = x) ∧ rest t

theorem Follows.cons {char : Option Nat} {first rest : List Nat → Prop}
    (h : Follows char first rest) (same : ∀ c ∈ char, c = x) : first (x :: t) ↔ rest t := by
  rw [h]
  constructor
  · rintro ⟨y, u, eq, -, holds⟩
    obtain ⟨-, rfl⟩ := List.cons.inj eq
    exact holds
  · intro holds
    exact ⟨x, t, rfl, same, holds⟩

/-- A character of the pattern that stands for one of the string. -/
theorem takeOne_ends {char : Option Nat} {more : List Nat → Int → Answer}
    (counts : Counts width lost l1 p1.length) (longer : lost → p1 ≠ [])
    (rest : ∀ t l, p1.length = t.length + 1 → Counts width lost l t.length →
      Ends escapeChar p t lost (more t l))
    (accepts : Follows char (Accepts escapeChar p2) (Accepts escapeChar p))
    (raises : Follows char (Raises escapeChar p2) (Raises escapeChar p))
    (opens : Follows char (Opens escapeChar p2) (Opens escapeChar p)) :
    Ends escapeChar p2 p1 lost (takeOne char more p1 l1) := by
  have no : ∀ {first after : List Nat → Prop} {s : List Nat}, Follows char first after →
      (∀ x t, s = x :: t → ¬ ∀ c ∈ char, c = x) → ¬ first s := by
    intro first after s follows other holds
    obtain ⟨x, t, eq, same, -⟩ := (follows s).mp holds
    exact other x t eq same
  unfold takeOne
  cases p1 with
  | nil =>
    rw [if_pos (counts.zero.mpr ⟨fun gone => longer gone rfl, rfl⟩)]
    have other : ∀ x t, [] = x :: t → ¬ ∀ c ∈ char, c = x := by
      intro x t eq
      cases eq
    exact ends_false (no accepts other) (no raises other) fun _ => no opens other
  | cons x s =>
    rw [if_neg (fun zero => Nat.succ_ne_zero _ (counts.zero.mp zero).2)]
    simp only
    by_cases differs : char.any (fun c => decide (c ≠ x)) = true
    · rw [if_pos differs]
      have other : ∀ y t, x :: s = y :: t → ¬ ∀ c ∈ char, c = y := by
        intro y t eq same
        obtain ⟨c, hc, ne⟩ := (Option.any_eq_true _ _).mp differs
        obtain ⟨rfl, rfl⟩ := List.cons.inj eq
        exact of_decide_eq_true ne (same c hc)
      exact ends_false (no accepts other) (no raises other) fun _ => no opens other
    · rw [if_neg differs]
      have same : ∀ c ∈ char, c = x := by
        intro c hc
        by_contra ne
        exact differs ((Option.any_eq_true _ _).mpr ⟨c, hc, decide_eq_true ne⟩)
      have ends := rest s _ rfl counts.pred
      refine ⟨ends.matched.trans (accepts.cons same).symm,
        ends.invalid.trans (raises.cons same).symm, ?_⟩
      rw [accepts.cons same, raises.cons same, opens.cons same]
      exact ends.beyond

/-- At the end the rest of the pattern is tried only where the end is lost. -/
theorem tryFrom_ends_nil (call : List Nat → Int → Answer) (counts : Counts width lost l1 0)
    (here : Ends escapeChar p [] (lost ∧ 16384 ≤ 0) (call [] l1))
    (least : ¬ Accepts escapeChar p []) :
    (tryFrom call [] l1 = .returned true ↔ ∃ t, t <:+ [] ∧ Accepts escapeChar p t) ∧
    (tryFrom call [] l1 = .likeEscapeInvalid ↔
      ∃ t, t <:+ [] ∧ (t ≠ [] ∨ lost) ∧ Raises escapeChar p t) ∧
    (tryFrom call [] l1 = .beyond ↔ lost ∧ (¬ ∃ t, t <:+ [] ∧ Accepts escapeChar p t) ∧
      ¬ ∃ t, t <:+ [] ∧ Raises escapeChar p t) := by
  have none : ¬ ∃ t, t <:+ [] ∧ Accepts escapeChar p t := by
    rintro ⟨t, suffix, accepts⟩
    exact least (List.suffix_nil.mp suffix ▸ accepts)
  unfold tryFrom
  by_cases gone : lost
  · rw [if_neg (fun zero => (counts.zero.mp zero).1 gone)]
    cases answer : call [] l1 with
    | returned matched =>
      rw [answer] at here
      cases matched with
      | false =>
        have quiet : ¬ ∃ t, t <:+ [] ∧ Raises escapeChar p t := by
          rintro ⟨t, suffix, raises⟩
          obtain rfl := List.suffix_nil.mp suffix
          exact absurd (here.invalid.mpr raises) (by simp)
        simp only [none, quiet, gone, not_false_eq_true, and_self, or_true, true_and, reduceCtorEq]
      | true => exact absurd (here.matched.mp rfl) least
    | likeEscapeInvalid =>
      rw [answer] at here
      have raises := here.invalid.mp rfl
      refine ⟨⟨fun h => (by cases h), fun h => (none h).elim⟩, ⟨fun _ => ?_, fun _ => rfl⟩,
        ⟨fun h => (by cases h), fun h => ?_⟩⟩
      · exact ⟨[], List.suffix_refl _, .inr gone, raises⟩
      · exact absurd ⟨[], List.suffix_refl _, raises⟩ h.2.2
    | beyond =>
      rw [answer] at here
      obtain ⟨⟨-, long⟩, -⟩ := here.beyond.mp rfl
      exact absurd long (by simp)
  · rw [if_pos (counts.zero.mpr ⟨gone, rfl⟩)]
    refine ⟨⟨fun h => (by cases h), fun h => (none h).elim⟩, ⟨fun h => (by cases h), ?_⟩,
      ⟨fun h => (by cases h), fun h => absurd h.1 gone⟩⟩
    rintro ⟨t, suffix, more | gone', -⟩
    · exact absurd (List.suffix_nil.mp suffix) more
    · exact absurd gone' gone

/-- The rest of the pattern is tried at every place but the end; where that is lost, it is tried
there too, and behind it. -/
theorem tryFrom_ends (call : List Nat → Int → Answer) (counts : Counts width lost l1 p1.length)
    (each : ∀ t l, Counts width lost l t.length →
      Ends escapeChar p t (lost ∧ 16384 ≤ t.length) (call t l))
    (least : ¬ Accepts escapeChar p []) :
    (tryFrom call p1 l1 = .returned true ↔ ∃ t, t <:+ p1 ∧ Accepts escapeChar p t) ∧
    (tryFrom call p1 l1 = .likeEscapeInvalid ↔
      ∃ t, t <:+ p1 ∧ (t ≠ [] ∨ lost) ∧ Raises escapeChar p t) ∧
    (tryFrom call p1 l1 = .beyond ↔ lost ∧ (¬ ∃ t, t <:+ p1 ∧ Accepts escapeChar p t) ∧
      ¬ ∃ t, t <:+ p1 ∧ Raises escapeChar p t) := by
  induction p1 generalizing l1 with
  | nil => exact tryFrom_ends_nil call counts (each [] l1 counts) least
  | cons x s ih =>
    unfold tryFrom
    rw [if_neg (fun zero => Nat.succ_ne_zero _ (counts.zero.mp zero).2)]
    have here := each (x :: s) l1 counts
    have whole := List.suffix_refl (x :: s)
    cases answer : call (x :: s) l1 with
    | returned matched =>
      rw [answer] at here
      cases matched with
      | false =>
        -- what holds at some place holds behind the first one
        have moves : ∀ holds : List Nat → Prop, ¬ holds (x :: s) →
            ((∃ t, t <:+ x :: s ∧ holds t) ↔ ∃ t, t <:+ s ∧ holds t) := by
          intro holds not
          constructor
          · rintro ⟨t, suffix, found⟩
            obtain rfl | suffix := List.suffix_cons_iff.mp suffix
            · exact absurd found not
            · exact ⟨t, suffix, found⟩
          · rintro ⟨t, suffix, found⟩
            exact ⟨t, suffix.trans (List.suffix_cons x s), found⟩
        have differs : ¬ Accepts escapeChar p (x :: s) := fun accepts =>
          absurd (here.matched.mpr accepts) (by simp)
        have quiet : ¬ Raises escapeChar p (x :: s) := fun raises =>
          absurd (here.invalid.mpr raises) (by simp)
        rw [moves _ differs, moves _ quiet,
          moves (fun t => (t ≠ [] ∨ lost) ∧ Raises escapeChar p t) fun h => quiet h.2]
        exact ih counts.pred
      | true =>
        have accepts := here.matched.mp rfl
        refine ⟨⟨fun _ => ⟨_, whole, accepts⟩, fun _ => rfl⟩, ⟨fun h => (by cases h), ?_⟩,
          ⟨fun h => (by cases h), fun h => absurd ⟨_, whole, accepts⟩ h.2.1⟩⟩
        rintro ⟨t, -, -, raises⟩
        exact absurd accepts (not_accepts raises.tokens)
    | likeEscapeInvalid =>
      rw [answer] at here
      have raises := here.invalid.mp rfl
      refine ⟨⟨fun h => (by cases h), ?_⟩, ⟨fun _ => ?_, fun _ => rfl⟩,
        ⟨fun h => (by cases h), fun h => absurd ⟨_, whole, raises⟩ h.2.2⟩⟩
      · rintro ⟨t, -, accepts⟩
        exact absurd accepts (not_accepts raises.tokens)
      · exact ⟨_, whole, .inl (by simp), raises⟩
    | beyond =>
      rw [answer] at here
      obtain ⟨⟨gone, -⟩, opens, differs, quiet⟩ := here.beyond.mp rfl
      have none : ¬ ∃ t, t <:+ x :: s ∧ Accepts escapeChar p t := by
        rintro ⟨t, suffix, accepts⟩
        exact differs (opens.accepts suffix accepts)
      have silent : ¬ ∃ t, t <:+ x :: s ∧ Raises escapeChar p t := by
        rintro ⟨t, suffix, raises⟩
        exact quiet (opens.raises suffix raises)
      refine ⟨⟨fun h => (by cases h), fun h => (none h).elim⟩, ⟨fun h => (by cases h), ?_⟩,
        ⟨fun _ => ⟨gone, none, silent⟩, fun _ => rfl⟩⟩
      rintro ⟨t, suffix, -, raises⟩
      exact absurd ⟨t, suffix, raises⟩ silent

/-- Behind a `SQL_MATCH_ANY` the rest of the pattern is accepted wherever it is at some place. -/
theorem skip_ends {rest : List Nat} {answer : Answer} (some : lost → p1 ≠ [])
    (escapes : ¬ (escapeChar ≠ 0 ∧ sqlMatchAny = escapeChar)) (after : afterAny p = rest)
    (matched : answer = .returned true ↔ ∃ t, t <:+ p1 ∧ Accepts escapeChar rest t)
    (invalid : answer = .likeEscapeInvalid ↔
      ∃ t, t <:+ p1 ∧ (t ≠ [] ∨ lost) ∧ Raises escapeChar rest t)
    (beyond : answer = .beyond ↔ lost ∧ (¬ ∃ t, t <:+ p1 ∧ Accepts escapeChar rest t) ∧
      ¬ ∃ t, t <:+ p1 ∧ Raises escapeChar rest t) :
    Ends escapeChar (sqlMatchAny :: p) p1 lost answer := by
  subst after
  have language := fun s => accepts_skip (p := p) (s := s) escapes
  have refused := fun s => raises_skip (p := p) (s := s) escapes
  have raised : (∃ t, t <:+ p1 ∧ Raises escapeChar (afterAny p) t) → lost →
      ∃ t, t <:+ p1 ∧ t ≠ [] ∧ Raises escapeChar (afterAny p) t := by
    rintro ⟨t, suffix, raises⟩ gone
    by_cases empty : t = []
    · exact ⟨p1, List.suffix_refl _, some gone, (empty ▸ raises).of_empty p1⟩
    · exact ⟨t, suffix, empty, raises⟩
  refine ⟨matched.trans (language p1).symm, invalid.trans ?_, beyond.trans ?_⟩
  · rw [refused]
    constructor
    · rintro ⟨t, suffix, more | gone, raises⟩
      · exact ⟨t, suffix, more, raises⟩
      · exact raised ⟨t, suffix, raises⟩ gone
    · rintro ⟨t, suffix, more, raises⟩
      exact ⟨t, suffix, .inl more, raises⟩
  · rw [language, refused]
    constructor
    · rintro ⟨gone, none, silent⟩
      refine ⟨gone, .any escapes, none, ?_⟩
      rintro ⟨t, suffix, -, raises⟩
      exact silent ⟨t, suffix, raises⟩
    · rintro ⟨gone, -, none, silent⟩
      exact ⟨gone, none, fun found => silent (raised found gone)⟩

/-- How the loop ends for what is left of the pattern. -/
theorem likeLoop_ends (p2 : List Nat) (legal : width = 1 ∨ width = 2)
    (short : p2.length * width < 32768) (p1 : List Nat) (l1 : Int)
    (counts : Counts width lost l1 p1.length) (longer : lost → p2.length < p1.length) :
    Ends escapeChar p2 p1 lost (likeLoop width escapeChar p2 p2.length p1 l1) := by
  induction n : p2.length using Nat.strong_induction_on generalizing p2 p1 l1 lost with
  | _ n ih =>
  subst n
  cases p2 with
  | nil =>
    rw [likeLoop.eq_def, if_pos (show (([] : List Nat).length : Int) ≤ 0 from Int.le_refl 0)]
    by_cases empty : p1 = []
    · have found : ¬ lost := fun gone => Nat.not_lt_zero _ (empty ▸ longer gone)
      rw [decide_eq_true (counts.zero.mpr ⟨found, by rw [empty]; rfl⟩)]
      exact ends_true (accepts_nil.mpr empty)
    · rw [decide_eq_false (fun zero => empty (List.length_eq_zero_iff.mp (counts.zero.mp zero).2))]
      exact ends_false (fun accepts => empty (accepts_nil.mp accepts)) not_raises_nil
        fun _ => not_opens_nil
  | cons c p =>
    rw [List.length_cons] at short longer
    have less : p.length * width < 32768 :=
      Nat.lt_of_le_of_lt (Nat.mul_le_mul_right _ (Nat.le_succ _)) short
    have next : ((c :: p).length : Int) - 1 = p.length := by
      rw [List.length_cons]
      omega
    have some : lost → p1 ≠ [] := by
      rintro gone rfl
      exact Nat.not_lt_zero _ (longer gone)
    rw [likeLoop.eq_def, if_neg (by rw [List.length_cons]; omega)]
    simp only
    rw [next]
    by_cases escapes : escapeChar ≠ 0 ∧ c = escapeChar
    · rw [if_pos escapes]
      cases p with
      | nil =>
        rw [if_pos (show (([] : List Nat).length : Int) ≤ 0 from Int.le_refl 0)]
        exact ends_invalid (.misplaced escapes (by simp))
      | cons d p =>
        have after : ((c :: d :: p).length : Int) - 2 = p.length := by
          rw [List.length_cons, List.length_cons]
          omega
        rw [if_neg (by rw [List.length_cons]; omega)]
        simp only
        rw [after]
        by_cases special : d = escapeChar ∨ d = sqlMatchAny ∨ d = sqlMatchOne
        · rw [if_pos special]
          rw [List.length_cons] at less longer
          have follows : ∀ {first rest : List Nat → Prop},
              (∀ s, first s ↔ ∃ t, s = d :: t ∧ rest t) → Follows (Option.some d) first rest := by
            intro first rest h s
            rw [h]
            constructor
            · rintro ⟨t, rfl, holds⟩
              exact ⟨d, t, rfl, by simp, holds⟩
            · rintro ⟨x, t, rfl, same, holds⟩
              obtain rfl := same d rfl
              exact ⟨t, rfl, holds⟩
          refine takeOne_ends counts some (fun t l length counts => ih p.length
            (Nat.lt_succ_of_lt (Nat.lt_succ_self _)) p
            (Nat.lt_of_le_of_lt (Nat.mul_le_mul_right _ (Nat.le_succ _)) less) t l counts
            (fun gone => ?_) rfl) (follows fun s => accepts_escape escapes special)
            (follows fun s => raises_escape escapes special)
            (follows fun s => opens_escape escapes special)
          have := longer gone
          omega
        · rw [if_neg special]
          refine ends_invalid (.misplaced escapes ?_)
          intro e he
          obtain rfl := Option.some.inj he
          exact special
    · rw [if_neg escapes]
      by_cases any : c = sqlMatchAny
      · subst any
        rw [if_pos rfl, skipAny_eq]
        simp only
        have shorter := length_afterAny p
        cases after : afterAny p with
        | nil =>
          rw [if_pos (show (([] : List Nat).length : Int) = 0 from rfl)]
          have language := accepts_skip (p := p) (s := p1) escapes
          rw [after] at language
          exact ends_true (language.mpr ⟨[], List.nil_suffix, accepts_nil.mpr rfl⟩)
        | cons r rest =>
          rw [after] at shorter
          have single := afterAny_head after
          have room : (r :: rest).length * width < 32768 :=
            Nat.lt_of_le_of_lt (Nat.mul_le_mul_right _ shorter) less
          rw [if_neg (by rw [List.length_cons]; omega), charCount_short legal room]
          obtain ⟨matched, invalid, beyond⟩ := @tryFrom_ends (r :: rest) p1 escapeChar width l1
            lost (fun p1 l1 => likeLoop width escapeChar (r :: rest) (r :: rest).length p1
              (charCount width (byteCount width l1))) counts
            (fun t l counts => ih _ (Nat.lt_succ_of_le shorter) (r :: rest) room t _ counts.call
              (fun gone => by
                obtain ⟨wide, -⟩ := counts.wrong gone.1
                rw [wide] at room
                omega) rfl)
            (not_accepts_empty single)
          exact skip_ends some escapes after matched invalid beyond
      · rw [if_neg any]
        have follows : ∀ {first rest : List Nat → Prop},
            (∀ s, first s ↔ ∃ x t, s = x :: t ∧ (c = sqlMatchOne ∨ c = x) ∧ rest t) →
            Follows (if c = sqlMatchOne then none else Option.some c) first rest := by
          intro first rest h s
          rw [h]
          by_cases one : c = sqlMatchOne
          · rw [if_pos one]
            simp [one]
          · rw [if_neg one]
            simp [one]
        refine takeOne_ends counts some (fun t l length counts =>
          ih _ (Nat.lt_succ_self _) p less t l counts (fun gone => ?_) rfl)
          (follows fun s => accepts_plain escapes any) (follows fun s => raises_plain escapes any)
          (follows fun s => opens_plain escapes any)
        have := longer gone
        omega

/-- The end of a string of wide characters that has 32768 bytes or more is lost. -/
theorem counts_string (legal : width = 1 ∨ width = 2) (most : n * width ≤ 65535) :
    Counts width (width = 2 ∧ 32768 ≤ n * width) (charCount width (byteCount width n)) n := by
  unfold charCount byteCount
  obtain rfl | rfl := legal
  · refine ⟨fun _ => ⟨?_, .inl ⟨rfl, by omega⟩⟩, fun h => absurd h.1 (by decide)⟩
    unfold keepSshort
    simp only [Nat.cast_one]
    omega
  · refine ⟨fun h => ⟨?_, .inr ⟨rfl, by omega⟩⟩, fun h => ⟨rfl, ?_, by omega⟩⟩
    · unfold keepSshort
      simp only [Nat.cast_ofNat]
      omega
    · unfold keepSshort
      simp only [Nat.cast_ofNat]
      omega

/-- A count of 32768 bytes or more is a negative one. -/
theorem charCount_long (legal : width = 1 ∨ width = 2) (long : 32768 ≤ n * width)
    (most : n * width ≤ 65535) : charCount width (byteCount width n) ≤ 0 := by
  unfold charCount byteCount keepSshort
  obtain rfl | rfl := legal
  · simp only [Nat.cast_one]
    omega
  · simp only [Nat.cast_ofNat]
    omega

theorem charCount_zero (legal : width = 1 ∨ width = 2) (most : n * width ≤ 65535) :
    charCount width (byteCount width n) = 0 ↔ n = 0 := by
  unfold charCount byteCount keepSshort
  obtain rfl | rfl := legal
  · simp only [Nat.cast_one]
    omega
  · simp only [Nat.cast_ofNat]
    omega

/-- Of a pattern of 32768 bytes or more nothing is read. -/
theorem like_long (legal : width = 1 ∨ width = 2) (long : 32768 ≤ p.length * width)
    (most : p.length * width ≤ 65535) (mostString : s.length * width ≤ 65535) :
    like width escapeChar s p = .returned (s = []) := by
  unfold like likename
  rw [likeLoop.eq_def, if_pos (charCount_long legal long most)]
  have empty : charCount width (byteCount width s.length) = 0 ↔ s = [] :=
    (charCount_zero legal mostString).trans List.length_eq_zero_iff
  exact congrArg Answer.returned (decide_eq_decide.mpr empty)

/-- How `LIKENAME` ends for a pattern whose count is positive. -/
theorem like_short (legal : width = 1 ∨ width = 2) (short : p.length * width < 32768)
    (most : s.length * width ≤ 65535) :
    Ends escapeChar p s (width = 2 ∧ 32768 ≤ s.length * width) (like width escapeChar s p) := by
  unfold like likename
  rw [charCount_short legal short]
  refine likeLoop_ends p legal short s _ (counts_string legal most) ?_
  rintro ⟨rfl, long⟩
  omega

theorem returned_decides (matched : Bool) :
    Decides escapeChar p s (.returned matched) ↔ (matched = true ↔ Accepts escapeChar p s) := by
  constructor
  · intro h
    rw [← h.matched, Answer.returned.injEq]
  · intro h
    cases matched with
    | false => exact decides_false fun accepts => Bool.false_ne_true (h.mpr accepts)
    | true => exact decides_true (h.mp rfl)

theorem afterAny_replicate (n : Nat) : afterAny (List.replicate n sqlMatchAny) = [] := by
  induction n with
  | zero => rfl
  | succ n ih => rw [List.replicate_succ, afterAny_any, ih]

end

/-- The pattern is read only if it has fewer than 32768 bytes. The end of a string of wide characters
is found only if that has fewer, too; otherwise the loop over its places must not come to its end. -/
theorem like_decides_iff (width escapeChar : Nat) (s p : List Nat) (legal : width = 1 ∨ width = 2)
    (mostString : s.length * width ≤ 65535) (most : p.length * width ≤ 65535) :
    Decides escapeChar p s (like width escapeChar s p) ↔
      if p.length * width < 32768 then
        ¬ ((width = 2 ∧ 32768 ≤ s.length * width) ∧ Opens escapeChar p s) ∨
          Accepts escapeChar p s ∨ Raises escapeChar p s
      else (s = [] ↔ Accepts escapeChar p s) := by
  by_cases short : p.length * width < 32768
  · rw [if_pos short]
    exact (like_short legal short mostString).decides_iff
  · rw [if_neg short, like_long legal (Nat.le_of_not_lt short) most mostString, returned_decides,
      decide_eq_true_iff]

/-- The end of 20000 wide characters is lost, but they match. -/
theorem like_decides_iff_prefix :
    Decides 92 [97, 37] (List.replicate 20000 97) (like 2 92 (List.replicate 20000 97) [97, 37]) := by
  have length : (List.replicate 20000 97).length = 20000 := List.length_replicate
  refine (like_decides_iff 2 92 (List.replicate 20000 97) [97, 37] (.inr rfl)
    (by rw [length]; decide) (by decide)).mpr ?_
  rw [if_pos (by decide)]
  refine .inr (.inl ⟨[.char 97, .any], rfl, ?_⟩)
  rw [List.replicate_succ, ← List.append_nil (List.replicate 19999 97)]
  exact .char (.any _ .nil)

/-- A pattern of 32768 percent signs does not match a string of one character. -/
theorem like_misses_long_pattern :
    like 1 0 [65] (List.replicate 32768 sqlMatchAny) = .returned false ∧
      Accepts 0 (List.replicate 32768 sqlMatchAny) [65] ∧
      ¬ Decides 0 (List.replicate 32768 sqlMatchAny) [65]
        (like 1 0 [65] (List.replicate 32768 sqlMatchAny)) := by
  have length : (List.replicate 32768 sqlMatchAny).length = 32768 := List.length_replicate
  have answer : like 1 0 [65] (List.replicate 32768 sqlMatchAny) = .returned false :=
    like_long (.inl rfl) (by rw [length]) (by rw [length]; decide) (by decide)
  have accepts : Accepts 0 (List.replicate 32768 sqlMatchAny) [65] := by
    rw [List.replicate_succ, accepts_skip (fun h => h.1 rfl), afterAny_replicate]
    exact ⟨[], List.nil_suffix, accepts_nil.mpr rfl⟩
  refine ⟨answer, accepts, ?_⟩
  rw [answer, returned_decides]
  exact fun h => Bool.false_ne_true (h.mpr accepts)

end Like

end InterBase
