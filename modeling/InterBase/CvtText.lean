import InterBase.Library.Decimal
import InterBase.Cvt

namespace InterBase.Cvt

open Decimal

/-- The parts of a number in decimal: its sign, its digits, and the sign and the digits of its
exponent. -/
structure Numeral where
  neg : Bool
  whole : List Nat
  fraction : List Nat
  exponent : Option (Bool × List Nat)

def expValue : Option (Bool × List Nat) → Int
  | none => 0
  | some (true, ds) => -(value ds)
  | some (false, ds) => value ds

namespace Numeral

def digits (n : Numeral) : List Nat := n.whole ++ n.fraction

def signed (n : Numeral) (v : Int) : Int := if n.neg then -v else v

/-- The power of 10 that the digits count. -/
def scale (n : Numeral) : Int := expValue n.exponent - n.fraction.length

def toRat (n : Numeral) : ℚ := n.signed (value n.digits) * 10 ^ n.scale

end Numeral

inductive SpellsSign : Bool → List UInt8 → Prop where
  | minus : SpellsSign true [45]
  | plus : SpellsSign false [43]
  | none : SpellsSign false []

structure Figures (s : List UInt8) (ds : List Nat) : Prop where
  decimal : ∀ c ∈ s, isDecimal c = true
  digits : s.map digitOf = ds

inductive SpellsMantissa (n : Numeral) : List UInt8 → Prop where
  | whole {sign w : List UInt8} : SpellsSign n.neg sign → Figures w n.whole → n.fraction = [] →
      SpellsMantissa n (sign ++ w)
  | point {sign w f : List UInt8} : SpellsSign n.neg sign → Figures w n.whole →
      Figures f n.fraction → SpellsMantissa n (sign ++ (w ++ 46 :: f))

def isExpLetter (c : UInt8) : Bool := c = 101 || c = 69

inductive SpellsExponent : Option (Bool × List Nat) → List UInt8 → Prop where
  | none : SpellsExponent none []
  | some {e : UInt8} {y sign w : List UInt8} {neg : Bool} {ds : List Nat} :
      isExpLetter e = true → y.filter (· ≠ 32) = sign ++ w → SpellsSign neg sign → Figures w ds →
      ds ≠ [] → SpellsExponent (some (neg, ds)) (e :: y)

/-- The string is the text of the number, with characters in it that are skipped. -/
def Spells (skipped : UInt8 → Bool) (n : Numeral) (s : List UInt8) : Prop :=
  ∃ m x, s = m ++ x ∧ SpellsMantissa n (m.filter fun c => ¬ skipped c) ∧ n.digits ≠ [] ∧
    SpellsExponent n.exponent x

/-- `decompose` skips blanks and commas. -/
def blankOrComma (c : UInt8) : Bool := c = 32 || c = 44

def blank (c : UInt8) : Bool := c = 32

/-- What a character of a mantissa does that is not skipped. -/
def readChar (limitBy10 : Int) (m : Mantissa) (c : UInt8) : Except CvtError Mantissa :=
  if isDecimal c then
    if wouldOverflow limitBy10 m c then .error .arithExcept else .ok (takeDigit m c)
  else if c = 46 then
    if m.fraction then .error .conversionError else .ok { m with fraction := true }
  else if c = 45 ∧ ¬ m.digitSeen ∧ m.sign = 0 ∧ ¬ m.fraction then .ok { m with sign := -1 }
  else if c = 43 ∧ ¬ m.digitSeen ∧ m.sign = 0 ∧ ¬ m.fraction then .ok { m with sign := 1 }
  else .error .conversionError

def readAll (limitBy10 : Int) : List UInt8 → Mantissa → Except CvtError Mantissa
  | [], m => .ok m
  | c :: p, m => (readChar limitBy10 m c).bind fun m => readAll limitBy10 p m

section

variable {L : Int} {m m' : Mantissa} {c : UInt8} {s t p x : List UInt8}

theorem decomposeLoop_cons : decomposeLoop L (c :: p) m =
    if isExpLetter c then .ok (m, c :: p)
    else if blankOrComma c then decomposeLoop L p m
    else (readChar L m c).bind fun m => decomposeLoop L p m := by
  rw [decomposeLoop]
  by_cases letter : c = 101 ∨ c = 69
  · rcases letter with rfl | rfl <;> rfl
  by_cases skip : c = 32 ∨ c = 44
  · rcases skip with rfl | rfl <;> rfl
  have noLetter : ¬ isExpLetter c = true := by simpa [isExpLetter] using letter
  have noSkip : ¬ blankOrComma c = true := by simpa [blankOrComma] using skip
  rw [not_or] at skip
  rw [if_neg noLetter, if_neg noSkip, if_neg skip.2]
  simp only [ne_eq, skip.1, letter, not_false_eq_true, ↓reduceIte]
  unfold readChar
  split_ifs <;> rfl

theorem numericLoop_cons : numericLoop (c :: p) m =
    if isExpLetter c then .ok (m, c :: p)
    else if blank c then numericLoop p m
    else if isDecimal c = true ∧ wouldOverflow int64Limit m c then
      .ok ({ m with digitSeen := true }, c :: p)
    else (readChar int64Limit m c).bind fun m => numericLoop p m := by
  rw [numericLoop]
  by_cases letter : c = 101 ∨ c = 69
  · rcases letter with rfl | rfl <;> rfl
  by_cases skip : c = 32
  · subst skip
    rfl
  have noLetter : ¬ isExpLetter c = true := by simpa [isExpLetter] using letter
  have noSkip : ¬ blank c = true := by simpa [blank] using skip
  rw [if_neg noLetter, if_neg noSkip]
  simp only [ne_eq, skip, letter, not_false_eq_true, ↓reduceIte]
  unfold readChar
  by_cases decimal : isDecimal c = true
  · by_cases full : wouldOverflow int64Limit m c
    · have full' : wouldOverflow int64Limit { m with digitSeen := true } c := full
      simp only [decimal, full, full', and_self, ↓reduceIte]
    · have full' : ¬ wouldOverflow int64Limit { m with digitSeen := true } c := full
      simp only [decimal, full, full', and_false, ↓reduceIte]
      rfl
  · simp only [decimal, Bool.false_eq_true, false_and, ↓reduceIte]
    split_ifs <;> rfl

/-- Where a string is cut before its first exponent letter. -/
theorem cut_cons {A : List UInt8 → Prop} (letter : ¬ isExpLetter c = true) :
    (∃ q, c :: p = q ++ x ∧ (x = [] ∨ ∃ e y, x = e :: y ∧ isExpLetter e = true) ∧ A q) ↔
      ∃ q, p = q ++ x ∧ (x = [] ∨ ∃ e y, x = e :: y ∧ isExpLetter e = true) ∧ A (c :: q) := by
  constructor
  · rintro ⟨q, cut, ends, h⟩
    cases q with
    | nil =>
      obtain rfl : c :: p = x := cut
      rcases ends with none | ⟨e, y, same, e_letter⟩
      · exact absurd none (by simp)
      · obtain rfl : c = e := (List.cons.inj same).1
        exact absurd e_letter letter
    | cons d q =>
      obtain ⟨rfl, rfl⟩ := List.cons.inj cut
      exact ⟨q, rfl, ends, h⟩
  · rintro ⟨q, rfl, ends, h⟩
    exact ⟨c :: q, rfl, ends, h⟩

/-- The loop of `decompose` reads the characters up to the first exponent letter. -/
theorem decomposeLoop_ok : decomposeLoop L s m = .ok (m', x) ↔
    ∃ q, s = q ++ x ∧ (x = [] ∨ ∃ e y, x = e :: y ∧ isExpLetter e = true) ∧
      (∀ c ∈ q, ¬ isExpLetter c = true) ∧
      readAll L (q.filter fun c => ¬ blankOrComma c) m = .ok m' := by
  induction s generalizing m with
  | nil =>
    constructor
    · intro h
      obtain ⟨rfl, rfl⟩ := Prod.mk.inj (Except.ok.inj h)
      exact ⟨[], rfl, .inl rfl, fun c hc => absurd hc List.not_mem_nil, rfl⟩
    · rintro ⟨q, cut, -, -, run⟩
      obtain ⟨rfl, rfl⟩ := List.append_eq_nil_iff.mp cut.symm
      obtain rfl : m = m' := Except.ok.inj run
      rfl
  | cons c p ih =>
    rw [decomposeLoop_cons]
    by_cases letter : isExpLetter c = true
    · rw [if_pos letter]
      constructor
      · intro h
        obtain ⟨rfl, rfl⟩ := Prod.mk.inj (Except.ok.inj h)
        exact ⟨[], rfl, .inr ⟨c, p, rfl, letter⟩, fun c hc => absurd hc List.not_mem_nil, rfl⟩
      · rintro ⟨q, cut, -, none, run⟩
        cases q with
        | nil =>
          obtain rfl : c :: p = x := cut
          obtain rfl : m = m' := Except.ok.inj run
          rfl
        | cons d q =>
          obtain ⟨rfl, rfl⟩ := List.cons.inj cut
          exact absurd letter (none c List.mem_cons_self)
    · rw [if_neg letter, cut_cons letter]
      by_cases skip : blankOrComma c = true
      · rw [if_pos skip, ih]
        simp [skip, letter]
      · rw [if_neg skip]
        cases read : readChar L m c with
        | error e =>
          simp [skip, readAll, read, Except.bind]
        | ok m₁ =>
          refine (ih (m := m₁)).trans ?_
          simp [skip, letter, readAll, read, Except.bind]

/-- The loop of `CVT_get_numeric` comes to the end of the string when it reads all of it. -/
theorem numericLoop_ok : numericLoop s m = .ok (m', []) ↔
    (∀ c ∈ s, ¬ isExpLetter c = true) ∧
      readAll int64Limit (s.filter fun c => ¬ blank c) m = .ok m' := by
  induction s generalizing m with
  | nil => simp [numericLoop, readAll]
  | cons c p ih =>
    rw [numericLoop_cons]
    by_cases letter : isExpLetter c = true
    · simp [letter]
    · rw [if_neg letter]
      by_cases skip : blank c = true
      · rw [if_pos skip, ih]
        simp [skip, letter]
      · rw [if_neg skip]
        by_cases full : isDecimal c = true ∧ wouldOverflow int64Limit m c
        · simp [skip, full, readAll, readChar, Except.bind]
        · rw [if_neg full]
          cases read : readChar int64Limit m c with
          | error e => simp [skip, readAll, read, Except.bind]
          | ok m₁ =>
            refine (ih (m := m₁)).trans ?_
            simp [skip, letter, readAll, read, Except.bind]

def takeDigits (limitBy10 : Int) : List UInt8 → Mantissa → Except CvtError Mantissa
  | [], m => .ok m
  | c :: p, m =>
    if wouldOverflow limitBy10 m c then .error .arithExcept
    else takeDigits limitBy10 p (takeDigit m c)

theorem readAll_cons : readAll L (c :: p) m =
    (readChar L m c).bind fun m => readAll L p m := rfl

theorem readChar_digit (decimal : isDecimal c = true) : readChar L m c =
    if wouldOverflow L m c then .error .arithExcept else .ok (takeDigit m c) := by
  unfold readChar
  exact if_pos decimal

/-- Behind the point there are digits only. -/
theorem readAll_fraction (fraction : m.fraction = true) : readAll L s m = .ok m' ↔
    (∀ c ∈ s, isDecimal c = true) ∧ takeDigits L s m = .ok m' := by
  induction s generalizing m with
  | nil => simp [readAll, takeDigits]
  | cons c p ih =>
    rw [readAll_cons]
    by_cases decimal : isDecimal c = true
    · rw [readChar_digit decimal]
      unfold takeDigits
      by_cases full : wouldOverflow L m c
      · simp [full, Except.bind]
      · rw [if_neg full, if_neg full]
        refine (ih (m := takeDigit m c) fraction).trans ?_
        simp [decimal]
    · have stop : readChar L m c = .error .conversionError := by
        unfold readChar
        simp [decimal, fraction]
      rw [stop]
      simp [decimal, Except.bind]

/-- Digits are read, and perhaps a point and more digits. -/
def ReadsBody (L : Int) (s : List UInt8) (m m' : Mantissa) : Prop :=
  ((∀ c ∈ s, isDecimal c = true) ∧ takeDigits L s m = .ok m') ∨
    ∃ w f m₁, s = w ++ 46 :: f ∧ (∀ c ∈ w, isDecimal c = true) ∧ takeDigits L w m = .ok m₁ ∧
      (∀ c ∈ f, isDecimal c = true) ∧ takeDigits L f { m₁ with fraction := true } = .ok m'

/-- Behind a sign or a digit there is no sign. -/
theorem readAll_whole (whole : m.fraction = false)
    (late : m.digitSeen = true ∨ m.sign ≠ 0 ∨ ∀ c q, s = c :: q → c ≠ 45 ∧ c ≠ 43) :
    readAll L s m = .ok m' ↔ ReadsBody L s m m' := by
  unfold ReadsBody
  induction s generalizing m with
  | nil => simp [readAll, takeDigits]
  | cons c p ih =>
    rw [readAll_cons]
    by_cases decimal : isDecimal c = true
    · have noPoint : c ≠ 46 := by
        rintro rfl
        exact absurd decimal (by decide)
      rw [readChar_digit decimal]
      by_cases full : wouldOverflow L m c
      · rw [if_pos full]
        constructor
        · intro h
          exact absurd h (by simp [Except.bind])
        · rintro (⟨-, run⟩ | ⟨w, f, m₁, cut, -, run, -, -⟩)
          · exact absurd run (by simp [takeDigits, full])
          · cases w with
            | nil => exact absurd (List.cons.inj cut).1 noPoint
            | cons d w =>
              obtain ⟨rfl, -⟩ := List.cons.inj cut
              exact absurd run (by simp [takeDigits, full])
      · rw [if_neg full]
        have next : ∀ q, takeDigits L (c :: q) m = takeDigits L q (takeDigit m c) := fun q => by
          rw [takeDigits, if_neg full]
        refine (ih (m := takeDigit m c) whole (.inl rfl)).trans (or_congr ?_ ?_)
        · rw [next]
          simp [decimal]
        · constructor
          · rintro ⟨w, f, m₁, rfl, decimals, run, rest⟩
            refine ⟨c :: w, f, m₁, rfl, ?_, (next w).trans run, rest⟩
            intro d hd
            rcases List.mem_cons.mp hd with rfl | hd
            · exact decimal
            · exact decimals d hd
          · rintro ⟨w, f, m₁, cut, decimals, run, rest⟩
            cases w with
            | nil => exact absurd (List.cons.inj cut).1 noPoint
            | cons d w =>
              obtain ⟨rfl, rfl⟩ := List.cons.inj cut
              refine ⟨w, f, m₁, rfl, fun d hd => decimals d (List.mem_cons_of_mem _ hd), ?_, rest⟩
              exact (next w).symm.trans run
    · by_cases point : c = 46
      · subst point
        have step : readChar L m 46 = .ok { m with fraction := true } := by
          unfold readChar
          simp [whole, show isDecimal 46 = false from rfl]
        rw [step]
        refine (readAll_fraction (m := { m with fraction := true }) rfl).trans ?_
        constructor
        · rintro ⟨decimals, run⟩
          exact .inr ⟨[], p, m, rfl, by simp, rfl, decimals, run⟩
        · rintro (⟨decimals, -⟩ | ⟨w, f, m₁, cut, decimals, run, rest⟩)
          · exact absurd (decimals 46 List.mem_cons_self) decimal
          · cases w with
            | nil =>
              obtain ⟨-, rfl⟩ := List.cons.inj cut
              obtain rfl : m = m₁ := Except.ok.inj run
              exact rest
            | cons d w =>
              obtain ⟨rfl, -⟩ := List.cons.inj cut
              exact absurd (decimals 46 List.mem_cons_self) decimal
      · have stop : readChar L m c = .error .conversionError := by
          unfold readChar
          rcases late with late | late | late
          · simp [decimal, point, late]
          · simp [decimal, point, late]
          · simp [decimal, point, late c p rfl]
        rw [stop]
        constructor
        · intro h
          exact absurd h (by simp [Except.bind])
        · rintro (⟨decimals, -⟩ | ⟨w, f, m₁, cut, decimals, -⟩)
          · exact absurd (decimals c List.mem_cons_self) decimal
          · cases w with
            | nil => exact absurd (List.cons.inj cut).1 point
            | cons d w =>
              obtain ⟨rfl, -⟩ := List.cons.inj cut
              exact absurd (decimals c List.mem_cons_self) decimal

theorem ReadsBody.head (h : ReadsBody L (c :: p) m m') : isDecimal c = true ∨ c = 46 := by
  rcases h with ⟨decimals, -⟩ | ⟨w, f, m₁, cut, decimals, -⟩
  · exact .inl (decimals c List.mem_cons_self)
  · cases w with
    | nil => exact .inr (List.cons.inj cut).1
    | cons d w =>
      obtain ⟨rfl, -⟩ := List.cons.inj cut
      exact .inl (decimals c List.mem_cons_self)

/-- What the loops keep of a sign. -/
inductive Signed : List UInt8 → Int → Prop where
  | minus : Signed [45] (-1)
  | plus : Signed [43] 1
  | none : Signed [] 0

/-- The loops read a sign first, if there is one. -/
theorem readAll_start : readAll L s noDigits = .ok m' ↔
    ∃ sign body sg, Signed sign sg ∧ s = sign ++ body ∧
      ReadsBody L body { noDigits with sign := sg } m' := by
  have minus : readChar L noDigits 45 = .ok { noDigits with sign := -1 } := rfl
  have plus : readChar L noDigits 43 = .ok { noDigits with sign := 1 } := rfl
  have unsigned : (∀ c q, s = c :: q → c ≠ 45 ∧ c ≠ 43) →
      (readAll L s noDigits = .ok m' ↔ ReadsBody L s noDigits m') := fun h =>
    readAll_whole rfl (.inr (.inr h))
  constructor
  · intro run
    by_cases first : ∀ c q, s = c :: q → c ≠ 45 ∧ c ≠ 43
    · exact ⟨[], s, 0, .none, rfl, (unsigned first).mp run⟩
    · simp only [not_forall, ne_eq, not_and_or, not_not] at first
      obtain ⟨c, q, rfl, rfl | rfl⟩ := first
      · rw [readAll_cons, minus] at run
        exact ⟨[45], q, -1, .minus, rfl, (readAll_whole rfl (.inr (.inl (by decide)))).mp run⟩
      · rw [readAll_cons, plus] at run
        exact ⟨[43], q, 1, .plus, rfl, (readAll_whole rfl (.inr (.inl (by decide)))).mp run⟩
  · rintro ⟨sign, body, sg, signed, rfl, reads⟩
    cases signed with
    | minus =>
      rw [List.singleton_append, readAll_cons, minus]
      exact (readAll_whole rfl (.inr (.inl (by decide)))).mpr reads
    | plus =>
      rw [List.singleton_append, readAll_cons, plus]
      exact (readAll_whole rfl (.inr (.inl (by decide)))).mpr reads
    | none =>
      refine (unsigned fun c q e => ?_).mpr reads
      rw [List.nil_append] at e
      rw [e] at reads
      rcases reads.head with decimal | rfl
      · constructor <;> rintro rfl <;> exact absurd decimal (by decide)
      · exact ⟨by decide, by decide⟩

end

end InterBase.Cvt
