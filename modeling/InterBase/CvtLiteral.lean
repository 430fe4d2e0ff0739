import InterBase.CvtDecompose

namespace InterBase.Cvt

open Decimal

section

variable {dtype : IntType} {m : Mantissa} {n : Numeral} {s t : List UInt8} {v sc sg : Int}
  {r : Nat}

theorem Figures.lt {ds : List Nat} (h : Figures s ds) : ∀ d ∈ ds, d < 10 := by
  rw [← h.digits]
  intro d hd
  obtain ⟨c, hc, rfl⟩ := List.mem_map.mp hd
  exact digitOf_lt (h.decimal c hc)

theorem SpellsMantissa.digits_lt (h : SpellsMantissa n t) : ∀ d ∈ n.digits, d < 10 := by
  unfold Numeral.digits
  intro d hd
  cases h with
  | whole _ figures none =>
    rw [none, List.append_nil] at hd
    exact figures.lt d hd
  | point _ figures figures' =>
    rcases List.mem_append.mp hd with hd | hd
    · exact figures.lt d hd
    · exact figures'.lt d hd

theorem decimal_no_letter {c : UInt8} (decimal : isDecimal c = true) : ¬ isExpLetter c = true := by
  intro letter
  simp only [isExpLetter, Bool.or_eq_true, decide_eq_true_eq] at letter
  rcases letter with rfl | rfl <;> exact absurd decimal (by decide)

/-- The characters of a mantissa are its sign, its digits and its point. -/
theorem SpellsMantissa.chars (h : SpellsMantissa n t) :
    ∀ c ∈ t, isDecimal c = true ∨ c = 45 ∨ c = 43 ∨ c = 46 := by
  have sign_chars : ∀ neg sign, SpellsSign neg sign → ∀ c ∈ sign, c = 45 ∨ c = 43 ∨ c = 46 := by
    intro neg sign spells c hc
    cases spells with
    | minus => exact .inl (List.mem_singleton.mp hc)
    | plus => exact .inr (.inl (List.mem_singleton.mp hc))
    | none => exact absurd hc List.not_mem_nil
  intro c hc
  cases h with
  | whole spells figures _ =>
    rcases List.mem_append.mp hc with hc | hc
    · exact .inr (sign_chars _ _ spells c hc)
    · exact .inl (figures.decimal c hc)
  | point spells figures figures' =>
    rcases List.mem_append.mp hc with hc | hc
    · exact .inr (sign_chars _ _ spells c hc)
    · rcases List.mem_append.mp hc with hc | hc
      · exact .inl (figures.decimal c hc)
      · rcases List.mem_cons.mp hc with rfl | hc
        · exact .inr (.inr (.inr rfl))
        · exact .inl (figures'.decimal c hc)

/-- No character of a mantissa is the letter of an exponent. -/
theorem SpellsMantissa.no_letter (h : SpellsMantissa n t) :
    ∀ c ∈ t, ¬ isExpLetter c = true := by
  intro c hc
  rcases h.chars c hc with decimal | rfl | rfl | rfl
  · exact decimal_no_letter decimal
  all_goals decide

theorem SpellsExponent.ends {x : Option (Bool × List Nat)} {rest : List UInt8}
    (h : SpellsExponent x rest) : rest = [] ∨ ∃ e y, rest = e :: y ∧ isExpLetter e = true := by
  cases h with
  | none => exact .inl rfl
  | some letter => exact .inr ⟨_, _, rfl, letter⟩

theorem mantissaMax_le (dtype : IntType) (neg : Bool) : mantissaMax dtype neg ≤ 2 ^ 63 := by
  cases dtype <;> cases neg <;> decide

/-- The sign is put to the value. -/
theorem signed_value {neg : Bool} (signs : Signs neg sg) (le : r ≤ mantissaMax dtype neg) :
    (if sg = -1 ∧ toSint64 r ≠ dtype.lowerLimit then toSint64 (-toSint64 r) else toSint64 r) =
      if neg then -(r : Int) else r := by
  by_cases wrapped : r = 2 ^ 63
  · subst wrapped
    rw [show ((2 ^ 63 : Nat) : Int) = 9223372036854775808 by norm_num]
    cases dtype with
    | long => cases neg <;> exact absurd le (by decide)
    | int64 =>
      cases neg with
      | false => exact absurd le (by decide)
      | true =>
        rw [if_neg (fun h => h.2 (by decide))]
        decide
  · have small : r < 2 ^ 63 := by
      have top := mantissaMax_le dtype neg
      omega
    rw [toSint64_of_lt small]
    have negated : toSint64 (-(r : Int)) = -r :=
      int64Width.kept _ (by unfold int64Min; omega) (by unfold int64Max; omega)
    have lower : (r : Int) ≠ dtype.lowerLimit := by
      cases dtype with
      | long =>
        show (r : Int) ≠ -2147483648
        omega
      | int64 =>
        show (r : Int) ≠ -9223372036854775808
        omega
    cases neg with
    | true =>
      obtain rfl : sg = -1 := signs
      rw [if_pos ⟨rfl, lower⟩, negated]
      rfl
    | false =>
      have plus : sg ≠ -1 := by
        rcases (signs : sg = 0 ∨ sg = 1) with rfl | rfl <;> decide
      rw [if_neg (fun h => plus h.1)]
      rfl

theorem toSlong_signed {neg : Bool} (le : r ≤ mantissaMax .long neg) :
    toSlong (if neg then -(r : Int) else r) = if neg then -(r : Int) else r := by
  refine longWidth.kept _ ?_ ?_
  · unfold longMin
    cases neg <;> simp only [mantissaMax, Bool.false_eq_true, ↓reduceIte] at le ⊢ <;> omega
  · unfold longMax
    cases neg <;> simp only [mantissaMax, Bool.false_eq_true, ↓reduceIte] at le ⊢ <;> omega

/-- What `decompose` returns behind its loop. -/
theorem decompose_loop {rest : List UInt8} {neg : Bool} {whole fraction : List Nat}
    (loop : decomposeLoop (dtype.upperLimit / 10) s noDigits = .ok (m, rest))
    (read : HasRead neg whole fraction r m) (le : r ≤ mantissaMax dtype neg) :
    decompose dtype s = .ok (v, sc) ↔ whole ++ fraction ≠ [] ∧
      addExponent m.scale rest = .ok sc ∧ v = if neg then -(r : Int) else r := by
  unfold decompose
  rw [loop]
  dsimp only
  by_cases seen : m.digitSeen = true
  · rw [if_neg (by simpa using seen), read.value, signed_value read.sign le]
    have some := read.digitSeen.mp seen
    cases addExponent m.scale rest with
    | error e => simp
    | ok scale =>
      cases dtype with
      | long =>
        dsimp only
        rw [toSlong_signed le]
        simp only [Except.ok.injEq, Prod.mk.injEq, some, true_and, ne_eq, not_false_eq_true]
        exact ⟨fun h => ⟨h.2, h.1.symm⟩, fun h => ⟨h.2.symm, h.1⟩⟩
      | int64 =>
        simp only [Except.ok.injEq, Prod.mk.injEq, some, true_and, ne_eq, not_false_eq_true]
        exact ⟨fun h => ⟨h.2, h.1.symm⟩, fun h => ⟨h.2.symm, h.1⟩⟩
  · rw [if_pos seen]
    have none := fun h => seen (read.digitSeen.mpr h)
    simp only [reduceCtorEq, false_iff, not_and]
    exact fun h => absurd h none

/-- `decompose` returns the count of the digits and the scale of a number that the string spells. -/
theorem decompose_ok : decompose dtype s = .ok (v, sc) ↔
    ∃ n r, Spells blankOrComma n s ∧ accumulate (mantissaMax dtype n.neg) 0 n.digits = some r ∧
      (∀ e, n.exponent = some e → value e.2 < 3276) ∧ v = n.signed r ∧ sc = toSshort n.scale := by
  constructor
  · intro h
    cases loop : decomposeLoop (dtype.upperLimit / 10) s noDigits with
    | error e =>
      unfold decompose at h
      rw [loop] at h
      exact absurd h (by simp)
    | ok state =>
      obtain ⟨m, rest⟩ := state
      obtain ⟨q, cut, ends, letters, run⟩ := decomposeLoop_ok.mp loop
      obtain ⟨neg, whole, fraction, r, spells, count, read⟩ := readAll_sound run
      have le := (accumulate_result (spells none).digits_lt (mantissaMax_le _ _) count).1
      obtain ⟨digits, scale, rfl⟩ := (decompose_loop loop read le).mp h
      rw [read.scale] at scale
      obtain ⟨exponent, spellsExponent, small, rfl⟩ := (addExponent_ok ends).mp scale
      refine ⟨⟨neg, whole, fraction, exponent⟩, r, ⟨q, rest, cut, spells exponent, digits,
        spellsExponent⟩, count, small, rfl, ?_⟩
      unfold Numeral.scale
      rw [Int.add_comm, ← Int.sub_eq_add_neg]
  · rintro ⟨n, r, ⟨q, rest, rfl, spells, digits, spellsExponent⟩, count, small, rfl, rfl⟩
    obtain ⟨m, run, read⟩ := readAll_complete spells count
    have le := (accumulate_result spells.digits_lt (mantissaMax_le _ _) count).1
    have ends := spellsExponent.ends
    have letters : ∀ c ∈ q, ¬ isExpLetter c = true := by
      intro c hc letter
      have kept : ¬ blankOrComma c = true := by
        intro skip
        simp only [isExpLetter, blankOrComma, Bool.or_eq_true, decide_eq_true_eq] at letter skip
        rcases letter with rfl | rfl <;> exact absurd skip (by decide)
      exact spells.no_letter c (List.mem_filter.mpr ⟨hc, by simpa using kept⟩) letter
    have loop := decomposeLoop_ok.mpr ⟨q, rfl, ends, letters, run⟩
    refine (decompose_loop loop read le).mpr ⟨digits, ?_, rfl⟩
    rw [read.scale]
    refine (addExponent_ok ends).mpr ⟨n.exponent, spellsExponent, small, ?_⟩
    unfold Numeral.scale
    rw [Int.add_comm, ← Int.sub_eq_add_neg]

end

section

variable {n n' : Numeral} {s t : List UInt8}

/-- Two ways to cut a string behind its first characters of a kind are the same. -/
theorem cut_unique {P : UInt8 → Bool} {w w' x x' : List UInt8} (same : w ++ x = w' ++ x')
    (hw : ∀ c ∈ w, P c = true) (hw' : ∀ c ∈ w', P c = true)
    (hx : ∀ c p, x = c :: p → ¬ P c = true) (hx' : ∀ c p, x' = c :: p → ¬ P c = true) :
    w = w' ∧ x = x' := by
  induction w generalizing w' with
  | nil =>
    cases w' with
    | nil => exact ⟨rfl, same⟩
    | cons c w' => exact absurd (hw' c List.mem_cons_self) (hx c _ same)
  | cons c w ih =>
    cases w' with
    | nil => exact absurd (hw c List.mem_cons_self) (hx' c _ same.symm)
    | cons d w' =>
      obtain ⟨rfl, rest⟩ := List.cons.inj same
      obtain ⟨rfl, rfl⟩ := ih rest (fun e he => hw e (List.mem_cons_of_mem _ he))
        fun e he => hw' e (List.mem_cons_of_mem _ he)
      exact ⟨rfl, rfl⟩

theorem SpellsSign.unique {neg neg' : Bool} {sign sign' w w' : List UInt8}
    (h : SpellsSign neg sign) (h' : SpellsSign neg' sign') (same : sign ++ w = sign' ++ w')
    (hw : ∀ c p, w = c :: p → isDecimal c = true ∨ c = 46)
    (hw' : ∀ c p, w' = c :: p → isDecimal c = true ∨ c = 46) : neg = neg' ∧ w = w' := by
  have sign_char : ∀ c, c = 45 ∨ c = 43 → ¬ (isDecimal c = true ∨ c = 46) := by
    rintro c (rfl | rfl) <;> decide
  cases h <;> cases h'
  · exact ⟨rfl, (List.cons.inj same).2⟩
  · exact absurd (List.cons.inj same).1 (by decide)
  · exact absurd (hw' 45 _ same.symm) (sign_char 45 (.inl rfl))
  · exact absurd (List.cons.inj same).1 (by decide)
  · exact ⟨rfl, (List.cons.inj same).2⟩
  · exact absurd (hw' 43 _ same.symm) (sign_char 43 (.inr rfl))
  · exact absurd (hw 45 _ same) (sign_char 45 (.inl rfl))
  · exact absurd (hw 43 _ same) (sign_char 43 (.inr rfl))
  · exact ⟨rfl, same⟩

/-- A mantissa is a sign, digits, and what begins with the point. -/
theorem SpellsMantissa.parts (h : SpellsMantissa n t) : ∃ sign w x, t = sign ++ (w ++ x) ∧
    SpellsSign n.neg sign ∧ Figures w n.whole ∧
    (x = [] ∧ n.fraction = [] ∨ ∃ f, x = 46 :: f ∧ Figures f n.fraction) := by
  cases h with
  | @whole sign w spells figures none =>
    exact ⟨sign, w, [], by rw [List.append_nil], spells, figures, .inl ⟨rfl, none⟩⟩
  | @point sign w f spells figures figures' =>
    exact ⟨sign, w, 46 :: f, rfl, spells, figures, .inr ⟨f, rfl, figures'⟩⟩

theorem SpellsMantissa.unique (h : SpellsMantissa n t) (h' : SpellsMantissa n' t) :
    n.neg = n'.neg ∧ n.whole = n'.whole ∧ n.fraction = n'.fraction := by
  obtain ⟨sign, w, x, rfl, spells, figures, rest⟩ := h.parts
  obtain ⟨sign', w', x', same, spells', figures', rest'⟩ := h'.parts
  have head : ∀ (w x : List UInt8), (∀ c ∈ w, isDecimal c = true) →
      (x = [] ∨ ∃ f, x = 46 :: f) → ∀ c p, w ++ x = c :: p → isDecimal c = true ∨ c = 46 := by
    intro w x decimals ends c p e
    cases w with
    | nil =>
      rcases ends with rfl | ⟨f, rfl⟩
      · exact absurd e (by simp)
      · exact .inr (List.cons.inj e).1.symm
    | cons d w => exact .inl ((List.cons.inj e).1 ▸ decimals d List.mem_cons_self)
  have point : ∀ x : List UInt8, (x = [] ∨ ∃ f, x = 46 :: f) →
      ∀ c p, x = c :: p → ¬ isDecimal c = true := by
    rintro x (rfl | ⟨f, rfl⟩) c p e
    · exact absurd e (by simp)
    · rw [← (List.cons.inj e).1]
      decide
  have ends : x = [] ∨ ∃ f, x = 46 :: f := rest.imp And.left fun ⟨f, e, _⟩ => ⟨f, e⟩
  have ends' : x' = [] ∨ ∃ f, x' = 46 :: f := rest'.imp And.left fun ⟨f, e, _⟩ => ⟨f, e⟩
  obtain ⟨neg, body⟩ := spells.unique spells' same (head w x figures.decimal ends)
    (head w' x' figures'.decimal ends')
  obtain ⟨rfl, rfl⟩ := cut_unique body figures.decimal figures'.decimal (point x ends)
    (point x' ends')
  refine ⟨neg, figures.digits.symm.trans figures'.digits, ?_⟩
  rcases rest with ⟨rfl, none⟩ | ⟨f, rfl, fraction⟩
  · rcases rest' with ⟨-, none'⟩ | ⟨f, e, -⟩
    · exact none.trans none'.symm
    · exact absurd e (by simp)
  · rcases rest' with ⟨e, -⟩ | ⟨f', e, fraction'⟩
    · exact absurd e (by simp)
    · obtain ⟨-, rfl⟩ := List.cons.inj e
      exact fraction.digits.symm.trans fraction'.digits

theorem SpellsExponent.unique {x x' : Option (Bool × List Nat)} (h : SpellsExponent x s)
    (h' : SpellsExponent x' s) : x = x' := by
  cases h with
  | none =>
    cases h'
    rfl
  | some letter cut spells figures _ =>
    cases h' with
    | some letter' cut' spells' figures' _ =>
      have head : ∀ w : List UInt8, (∀ c ∈ w, isDecimal c = true) →
          ∀ c p, w = c :: p → isDecimal c = true ∨ c = 46 := by
        rintro w decimals c p rfl
        exact .inl (decimals c List.mem_cons_self)
      obtain ⟨rfl, rfl⟩ := spells.unique spells' (cut.symm.trans cut')
        (head _ figures.decimal) (head _ figures'.decimal)
      rw [← figures.digits, ← figures'.digits]

/-- What is skipped is no letter of an exponent. -/
theorem Spells.unique {skipped : UInt8 → Bool}
    (skips : ∀ c, isExpLetter c = true → ¬ skipped c = true) (h : Spells skipped n s)
    (h' : Spells skipped n' s) : n = n' := by
  obtain ⟨q, x, rfl, mantissa, -, exponent⟩ := h
  obtain ⟨q', x', same, mantissa', -, exponent'⟩ := h'
  have letters : ∀ (n : Numeral) (q : List UInt8),
      SpellsMantissa n (q.filter fun c => ¬ skipped c) → ∀ c ∈ q, (!isExpLetter c) = true := by
    intro n q mantissa c hc
    by_contra letter
    have letter' : isExpLetter c = true := by simpa using letter
    refine mantissa.no_letter c (List.mem_filter.mpr ⟨hc, ?_⟩) letter'
    simpa using skips c letter'
  have ends : ∀ (o : Option (Bool × List Nat)) (x : List UInt8), SpellsExponent o x →
      ∀ c p, x = c :: p → ¬ (!isExpLetter c) = true := by
    rintro o x exponent c p rfl
    rcases exponent.ends with e | ⟨d, y, e, letter⟩
    · exact absurd e (by simp)
    · rw [(List.cons.inj e).1, letter]
      decide
  obtain ⟨rfl, rfl⟩ := cut_unique same (letters n q mantissa) (letters n' q' mantissa')
    (ends _ x exponent) (ends _ x' exponent')
  obtain ⟨neg, whole, fraction⟩ := mantissa.unique mantissa'
  cases n
  cases n'
  exact Numeral.mk.injEq .. ▸ ⟨neg, whole, fraction, exponent.unique exponent'⟩

end

end InterBase.Cvt
