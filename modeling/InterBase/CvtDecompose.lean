import InterBase.CvtDigits

namespace InterBase.Cvt

open Decimal

section

variable {dtype : IntType} {m m' : Mantissa} {x x' : Exponent} {n : Numeral} {c : UInt8}
  {s t y : List UInt8} {r e : Nat}

/-- The state of the loop behind a mantissa. -/
structure HasRead (neg : Bool) (whole fraction : List Nat) (r : Nat) (m : Mantissa) : Prop where
  value : m.value = toSint64 r
  digitSeen : m.digitSeen = true ↔ whole ++ fraction ≠ []
  scale : m.scale = toSshort (-fraction.length)
  sign : Signs neg m.sign

theorem Signed.signs {sign : List UInt8} {sg : Int} (h : Signed sign sg) :
    ∃ neg, SpellsSign neg sign ∧ Signs neg sg := by
  cases h with
  | minus => exact ⟨true, .minus, rfl⟩
  | plus => exact ⟨false, .plus, .inr rfl⟩
  | none => exact ⟨false, .none, .inl rfl⟩

theorem SpellsSign.signed {neg : Bool} {sign : List UInt8} (h : SpellsSign neg sign) :
    ∃ sg, Signed sign sg ∧ Signs neg sg := by
  cases h with
  | minus => exact ⟨-1, .minus, rfl⟩
  | plus => exact ⟨1, .plus, .inr rfl⟩
  | none => exact ⟨0, .none, .inl rfl⟩

theorem toSint64_zero : (0 : Int) = toSint64 ((0 : Nat) : Int) := by decide

theorem toSshort_zero : toSshort 0 = 0 := by decide

/-- What the digits before the point come to does not pass the maximum. -/
theorem accumulate_le {neg : Bool} (decimals : ∀ c ∈ s, isDecimal c = true)
    (count : accumulate (mantissaMax dtype neg) 0 (s.map digitOf) = some r) :
    r ≤ mantissaMax dtype neg := by
  have small : mantissaMax dtype neg ≤ 2 ^ 63 := by
    cases dtype <;> cases neg <;> decide
  refine (accumulate_result ?_ small count).1
  rintro d hd
  obtain ⟨c, hc, rfl⟩ := List.mem_map.mp hd
  exact digitOf_lt (decimals c hc)

/-- The digits behind the point. -/
theorem takeFraction_ok {neg : Bool} {a : Nat} (decimals : ∀ c ∈ s, isDecimal c = true)
    (signs : Signs neg m.sign) (held : m.value = toSint64 a) (le : a ≤ mantissaMax dtype neg)
    (short : toSshort m.scale = m.scale) :
    takeDigits (dtype.upperLimit / 10) s { m with fraction := true } = .ok m' ↔
      ∃ r, accumulate (mantissaMax dtype neg) a (s.map digitOf) = some r ∧
        m' = tookDigits { m with fraction := true } s (toSint64 r) :=
  takeDigits_ok decimals signs held le short

/-- What the loop reads is the mantissa of a number. -/
theorem readAll_sound (run : readAll (dtype.upperLimit / 10) t noDigits = .ok m') :
    ∃ neg whole fraction r, (∀ exponent, SpellsMantissa ⟨neg, whole, fraction, exponent⟩ t) ∧
      accumulate (mantissaMax dtype neg) 0 (whole ++ fraction) = some r ∧
      HasRead neg whole fraction r m' := by
  obtain ⟨sign, body, sg, signed, rfl, reads⟩ := readAll_start.mp run
  obtain ⟨neg, spells, signs⟩ := signed.signs
  rcases reads with ⟨decimals, took⟩ | ⟨w, f, m₁, rfl, decimals, took, decimals', took'⟩
  · obtain ⟨r, count, rfl⟩ := (takeDigits_ok decimals signs toSint64_zero (Nat.zero_le _)
      toSshort_zero).mp took
    refine ⟨neg, body.map digitOf, [], r, fun _ => .whole spells ⟨decimals, rfl⟩ rfl, ?_, ?_⟩
    · rwa [List.append_nil]
    · refine ⟨tookDigits_value, ?_, ?_, signs⟩
      · cases body <;> simp [noDigits]
      · rw [tookDigits_scale, List.length_nil, Nat.cast_zero, neg_zero, toSshort_zero]
        rfl
  · obtain ⟨r₁, count, rfl⟩ := (takeDigits_ok decimals signs toSint64_zero (Nat.zero_le _)
      toSshort_zero).mp took
    have le := accumulate_le decimals count
    have held : (tookDigits { noDigits with sign := sg } w (toSint64 r₁)).value = toSint64 r₁ :=
      tookDigits_value
    have short : toSshort (tookDigits { noDigits with sign := sg } w (toSint64 r₁)).scale =
        (tookDigits { noDigits with sign := sg } w (toSint64 r₁)).scale := by
      rw [tookDigits_scale]
      simp [noDigits, toSshort_zero]
    obtain ⟨r, count', rfl⟩ := (takeFraction_ok decimals' signs held le short).mp took'
    refine ⟨neg, w.map digitOf, f.map digitOf, r,
      fun _ => .point spells ⟨decimals, rfl⟩ ⟨decimals', rfl⟩, ?_, ?_⟩
    · rw [accumulate_append, count]
      exact count'
    · refine ⟨tookDigits_value, ?_, ?_, signs⟩
      · cases w <;> cases f <;> simp [noDigits]
      · rw [tookDigits_scale, List.length_map]
        simp [noDigits]

/-- The mantissa of a number is read. -/
theorem readAll_complete (spells : SpellsMantissa n t)
    (count : accumulate (mantissaMax dtype n.neg) 0 n.digits = some r) :
    ∃ m', readAll (dtype.upperLimit / 10) t noDigits = .ok m' ∧
      HasRead n.neg n.whole n.fraction r m' := by
  unfold Numeral.digits at count
  cases spells with
  | @whole sign w spells figures none =>
    obtain ⟨sg, signed, signs⟩ := spells.signed
    rw [none, List.append_nil, ← figures.digits] at count
    have took := (takeDigits_ok (m := { noDigits with sign := sg }) figures.decimal signs toSint64_zero
      (Nat.zero_le _) toSshort_zero).mpr ⟨r, count, rfl⟩
    refine ⟨_, readAll_start.mpr ⟨sign, w, sg, signed, rfl, .inl ⟨figures.decimal, took⟩⟩, ?_⟩
    refine ⟨tookDigits_value, ?_, ?_, signs⟩
    · rw [none, ← figures.digits]
      cases w <;> simp [noDigits]
    · rw [none, tookDigits_scale, List.length_nil, Nat.cast_zero, neg_zero, toSshort_zero]
      rfl
  | @point sign w f spells figures figures' =>
    obtain ⟨sg, signed, signs⟩ := spells.signed
    rw [accumulate_append, ← figures.digits, ← figures'.digits] at count
    obtain ⟨r₁, count, count'⟩ := Option.bind_eq_some_iff.mp count
    have took := (takeDigits_ok (m := { noDigits with sign := sg }) figures.decimal signs toSint64_zero
      (Nat.zero_le _) toSshort_zero).mpr ⟨r₁, count, rfl⟩
    have le := accumulate_le figures.decimal count
    have held : (tookDigits { noDigits with sign := sg } w (toSint64 r₁)).value = toSint64 r₁ :=
      tookDigits_value
    have short : toSshort (tookDigits { noDigits with sign := sg } w (toSint64 r₁)).scale =
        (tookDigits { noDigits with sign := sg } w (toSint64 r₁)).scale := by
      rw [tookDigits_scale]
      simp [noDigits, toSshort_zero]
    have took' := (takeFraction_ok figures'.decimal signs held le short).mpr ⟨r, count', rfl⟩
    refine ⟨_, readAll_start.mpr ⟨sign, w ++ 46 :: f, sg, signed, rfl,
      .inr ⟨w, f, _, rfl, figures.decimal, took, figures'.decimal, took'⟩⟩, ?_⟩
    refine ⟨tookDigits_value, ?_, ?_, signs⟩
    · rw [← figures.digits, ← figures'.digits]
      cases w <;> cases f <;> simp [noDigits]
    · rw [tookDigits_scale, ← figures'.digits, List.length_map]
      simp [noDigits]

theorem exponentLoop_cons : exponentLoop (c :: y) x =
    if isDecimal c then
      if shortLimit ≤ toSshort (x.exp * 10 + c.toNat - 48) then .error .arithExcept
      else exponentLoop y { x with digitSeen := true, exp := toSshort (x.exp * 10 + c.toNat - 48) }
    else if c = 45 ∧ ¬ x.digitSeen ∧ x.sign = 0 then exponentLoop y { x with sign := -1 }
    else if c = 43 ∧ ¬ x.digitSeen ∧ x.sign = 0 then exponentLoop y { x with sign := 1 }
    else if c ≠ 32 then .error .conversionError
    else exponentLoop y x := rfl

/-- The digits of an exponent, behind its sign. -/
theorem exponentLoop_digits (held : x.exp = e) (small : e < 3276)
    (late : x.digitSeen = true ∨ x.sign ≠ 0 ∨
      ∀ c q, y.filter (· ≠ 32) = c :: q → c ≠ 45 ∧ c ≠ 43) :
    exponentLoop y x = .ok x' ↔ (∀ c ∈ y.filter (· ≠ 32), isDecimal c = true) ∧
      e * 10 ^ (y.filter (· ≠ 32)).length + value ((y.filter (· ≠ 32)).map digitOf) < 3276 ∧
      x' = { x with
        digitSeen := x.digitSeen || ¬ (y.filter (· ≠ 32)).isEmpty
        exp := (e * 10 ^ (y.filter (· ≠ 32)).length +
          value ((y.filter (· ≠ 32)).map digitOf) : Nat) } := by
  induction y generalizing x e with
  | nil =>
    have same : ({ x with exp := ((e : Nat) : Int) } : Exponent) = x := by rw [← held]
    simp only [exponentLoop, Except.ok.injEq, List.filter_nil, List.not_mem_nil, false_implies,
      implies_true, List.length_nil, pow_zero, mul_one, List.map_nil, value_nil, add_zero, small,
      List.isEmpty_nil, not_true_eq_false, decide_false, Bool.or_false, same, true_and]
    exact eq_comm
  | cons c y ih =>
    rw [exponentLoop_cons]
    by_cases skip : c = 32
    · subst skip
      have filtered : (32 :: y).filter (· ≠ 32) = y.filter (· ≠ 32) := by simp
      rw [filtered] at late ⊢
      exact ih held small late
    · have filtered : (c :: y).filter (· ≠ 32) = c :: y.filter (· ≠ 32) := by simp [skip]
      rw [filtered] at late ⊢
      by_cases decimal : isDecimal c = true
      · have digit : (c.toNat : Int) - 48 = (digitOf c : Nat) := by
          obtain ⟨low, high⟩ := isDecimal_iff.mp decimal
          unfold digitOf
          omega
        have lt := digitOf_lt decimal
        have next : toSshort (x.exp * 10 + c.toNat - 48) = (e * 10 + digitOf c : Nat) := by
          rw [held, Int.add_sub_assoc, digit]
          push_cast
          refine bmod_of_mem ?_ ?_ <;> norm_num <;> omega
        have regroup : e * 10 ^ (c :: y.filter (· ≠ 32)).length +
            value ((c :: y.filter (· ≠ 32)).map digitOf) =
            (e * 10 + digitOf c) * 10 ^ (y.filter (· ≠ 32)).length +
              value ((y.filter (· ≠ 32)).map digitOf) := by
          rw [List.length_cons, List.map_cons, value_cons, List.length_map, pow_succ]
          ring
        rw [if_pos decimal, next, regroup]
        by_cases large : shortLimit ≤ ((e * 10 + digitOf c : Nat) : Int)
        · rw [if_pos large]
          have large' : 3276 ≤ e * 10 + digitOf c := by
            unfold shortLimit at large
            omega
          have pos : 1 ≤ 10 ^ (y.filter (· ≠ 32)).length := Nat.one_le_pow _ _ (by norm_num)
          constructor
          · intro h
            exact absurd h (by simp)
          · rintro ⟨-, fits, -⟩
            nlinarith
        · rw [if_neg large]
          have small' : e * 10 + digitOf c < 3276 := by
            unfold shortLimit at large
            omega
          refine (ih (x := { x with digitSeen := true, exp := (e * 10 + digitOf c : Nat) }) rfl
            small' (.inl rfl)).trans ?_
          simp [decimal]
      · have stop : (if c = 45 ∧ ¬ x.digitSeen ∧ x.sign = 0 then
              exponentLoop y { x with sign := -1 }
            else if c = 43 ∧ ¬ x.digitSeen ∧ x.sign = 0 then exponentLoop y { x with sign := 1 }
            else if c ≠ 32 then .error .conversionError
            else exponentLoop y x) = .error .conversionError := by
          rcases late with late | late | late
          · simp [late, skip]
          · simp [late, skip]
          · simp [late c _ rfl, skip]
        rw [if_neg decimal, stop]
        simp [decimal]

/-- The loop over an exponent reads a sign first, if there is one. -/
theorem exponentLoop_ok : exponentLoop y ⟨false, 0, 0⟩ = .ok x' ↔
    ∃ sign w sg, Signed sign sg ∧ y.filter (· ≠ 32) = sign ++ w ∧
      (∀ c ∈ w, isDecimal c = true) ∧ value (w.map digitOf) < 3276 ∧
      x' = ⟨¬ w.isEmpty, (value (w.map digitOf) : Nat), sg⟩ := by
  -- behind the sign
  have rest : ∀ (q : List UInt8) (sg : Int),
      (sg ≠ 0 ∨ ∀ c p, q.filter (· ≠ 32) = c :: p → c ≠ 45 ∧ c ≠ 43) →
      (exponentLoop q ⟨false, 0, sg⟩ = .ok x' ↔
        (∀ c ∈ q.filter (· ≠ 32), isDecimal c = true) ∧
          value ((q.filter (· ≠ 32)).map digitOf) < 3276 ∧
          x' = ⟨¬ (q.filter (· ≠ 32)).isEmpty, (value ((q.filter (· ≠ 32)).map digitOf) : Nat),
            sg⟩) := by
    intro q sg late
    have digits : exponentLoop q ⟨false, 0, sg⟩ = .ok x' ↔ _ :=
      exponentLoop_digits (x := ⟨false, 0, sg⟩) (y := q) (e := 0) rfl (by norm_num) (.inr late)
    simp only [Nat.zero_mul, Nat.zero_add, Bool.false_or] at digits
    exact digits
  induction y with
  | nil =>
    refine (rest [] 0 (.inr (by simp))).trans ?_
    constructor
    · rintro ⟨decimals, small, same⟩
      exact ⟨[], [], 0, .none, rfl, decimals, small, same⟩
    · rintro ⟨sign, w, sg, signed, cut, decimals, small, same⟩
      obtain ⟨rfl, rfl⟩ := List.append_eq_nil_iff.mp (cut.symm : sign ++ w = [])
      cases signed
      exact ⟨decimals, small, same⟩
  | cons c y ih =>
    by_cases skip : c = 32
    · subst skip
      have filtered : (32 :: y).filter (· ≠ 32) = y.filter (· ≠ 32) := by simp
      rw [filtered]
      exact ih
    have filtered : (c :: y).filter (· ≠ 32) = c :: y.filter (· ≠ 32) := by simp [skip]
    -- a sign is read, whichever it is
    have sign_first : ∀ sg : Int, sg ≠ 0 → Signed [c] sg →
        exponentLoop (c :: y) ⟨false, 0, 0⟩ = exponentLoop y ⟨false, 0, sg⟩ →
        (exponentLoop (c :: y) ⟨false, 0, 0⟩ = .ok x' ↔
          ∃ sign w sg, Signed sign sg ∧ (c :: y).filter (· ≠ 32) = sign ++ w ∧
            (∀ c ∈ w, isDecimal c = true) ∧ value (w.map digitOf) < 3276 ∧
            x' = ⟨¬ w.isEmpty, (value (w.map digitOf) : Nat), sg⟩) := by
      intro sg nonzero signed step
      rw [step, filtered]
      refine (rest y sg (.inl nonzero)).trans ?_
      constructor
      · rintro ⟨decimals, small, same⟩
        exact ⟨[c], _, sg, signed, rfl, decimals, small, same⟩
      · rintro ⟨sign, w, sg', signed', cut, decimals, small, same⟩
        have sign_char : ¬ isDecimal c = true := by
          cases signed <;> decide
        cases signed' with
        | minus =>
          obtain ⟨rfl, rfl⟩ := List.cons.inj cut
          cases signed
          exact ⟨decimals, small, same⟩
        | plus =>
          obtain ⟨rfl, rfl⟩ := List.cons.inj cut
          cases signed
          exact ⟨decimals, small, same⟩
        | none =>
          obtain rfl : c :: y.filter (· ≠ 32) = w := cut
          exact absurd (decimals c List.mem_cons_self) sign_char
    by_cases minus : c = 45
    · subst minus
      exact sign_first (-1) (by norm_num) .minus rfl
    by_cases plus : c = 43
    · subst plus
      exact sign_first 1 (by norm_num) .plus rfl
    refine (rest (c :: y) 0 (.inr ?_)).trans ?_
    · intro d p e
      rw [filtered] at e
      obtain ⟨rfl, -⟩ := List.cons.inj e
      exact ⟨minus, plus⟩
    · constructor
      · rintro ⟨decimals, small, same⟩
        exact ⟨[], _, 0, .none, rfl, decimals, small, same⟩
      · rintro ⟨sign, w, sg, signed, cut, decimals, small, same⟩
        rw [filtered] at cut
        cases signed with
        | minus => exact absurd (List.cons.inj cut).1 minus
        | plus => exact absurd (List.cons.inj cut).1 plus
        | none =>
          rw [filtered, cut]
          exact ⟨decimals, small, same⟩

theorem toSshort_add_left (a b : Int) : toSshort (toSshort a + b) = toSshort (a + b) :=
  Int.bmod_add_bmod

/-- The scale behind the exponent. -/
theorem addExponent_ok {rest : List UInt8} {k sc : Int}
    (ends : rest = [] ∨ ∃ e y, rest = e :: y ∧ isExpLetter e = true) :
    addExponent (toSshort k) rest = .ok sc ↔ ∃ exponent, SpellsExponent exponent rest ∧
      (∀ e, exponent = some e → value e.2 < 3276) ∧ sc = toSshort (k + expValue exponent) := by
  rcases ends with rfl | ⟨e, y, rfl, letter⟩
  · constructor
    · intro h
      refine ⟨none, .none, by simp, ?_⟩
      rw [expValue, add_zero]
      exact (Except.ok.inj h).symm
    · rintro ⟨exponent, spells, -, rfl⟩
      cases spells
      rw [expValue, add_zero]
      rfl
  · rw [addExponent]
    constructor
    · intro h
      cases loop : exponentLoop y ⟨false, 0, 0⟩ with
      | error e => simp [loop] at h
      | ok x =>
        obtain ⟨sign, w, sg, signed, cut, decimals, small, rfl⟩ := exponentLoop_ok.mp loop
        obtain ⟨neg, spells, signs⟩ := signed.signs
        rw [loop] at h
        cases w with
        | nil => simp at h
        | cons c w =>
          refine ⟨some (neg, (c :: w).map digitOf), .some letter cut spells ⟨decimals, rfl⟩
            (by simp), ?_, ?_⟩
          · intro e he
            obtain rfl := Option.some.inj he
            exact small
          · cases neg with
            | true =>
              obtain rfl : sg = -1 := signs
              simp only [List.isEmpty_cons, Bool.false_eq_true, not_false_eq_true, decide_true,
                not_true_eq_false, ↓reduceIte, Except.ok.injEq] at h
              rw [← h, toSshort_sub_left, expValue, Int.sub_eq_add_neg]
            | false =>
              have plus : sg ≠ -1 := by
                rcases (signs : sg = 0 ∨ sg = 1) with rfl | rfl <;> decide
              simp only [List.isEmpty_cons, Bool.false_eq_true, not_false_eq_true, decide_true,
                not_true_eq_false, ↓reduceIte, plus, Except.ok.injEq] at h
              rw [← h, toSshort_add_left, expValue]
    · rintro ⟨exponent, spells, small, rfl⟩
      cases spells with
      | @some e y sign w neg ds letter cut sign_spells figures nonempty =>
        obtain ⟨sg, signed, signs⟩ := sign_spells.signed
        have run := exponentLoop_ok.mpr ⟨sign, w, sg, signed, cut, figures.decimal,
          figures.digits ▸ small _ rfl, rfl⟩
        have filled : w.isEmpty = false := by
          cases w with
          | nil => exact absurd figures.digits.symm nonempty
          | cons c w => rfl
        rw [run, filled, figures.digits]
        cases neg with
        | true =>
          obtain rfl : sg = -1 := signs
          simp only [Bool.false_eq_true, not_false_eq_true, decide_true, not_true_eq_false,
            ↓reduceIte]
          rw [toSshort_sub_left, expValue, Int.sub_eq_add_neg]
        | false =>
          have plus : sg ≠ -1 := by
            rcases (signs : sg = 0 ∨ sg = 1) with rfl | rfl <;> decide
          simp only [Bool.false_eq_true, not_false_eq_true, decide_true, not_true_eq_false,
            ↓reduceIte, plus]
          rw [toSshort_add_left, expValue]

end

end InterBase.Cvt
