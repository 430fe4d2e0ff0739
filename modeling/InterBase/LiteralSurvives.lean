import InterBase.LiteralRoundTrip

namespace InterBase

open Memory

section

variable (refuses : List UInt8 → Bool) (trash : Nat → UInt8) (introducer : Option UInt16)
  (negateValue : Bool) (statement : List UInt8)

/-- Unless a step raises an error, `par_literal` makes what the text denotes of the BLR that was
emitted for it, wherever the BLR lies, and leaves `csb_running` right behind it. -/
def Survives (Denoted : Literal → Prop) : Prop :=
  ∀ blr, literalBlr trash introducer negateValue statement = some blr →
    ∀ (csbBlr : Nat → UInt8) (p : Nat), Holds csbBlr p blr →
      ∀ lit csb, parLiteral refuses ⟨csbBlr, (p + 1 : Nat)⟩ = some (lit, csb) →
        Denoted lit ∧ csb.csbRunning = p + blr.length

end

def minus (negateValue : Bool) (text : List UInt8) : List UInt8 :=
  if negateValue then 45 :: text else text

namespace NumericToken

/-- The exact value of a token without exponent, or the characters of a token with one. -/
def Denotes (t : NumericToken) (negateValue : Bool) (lit : Literal) : Prop :=
  if t.exponent.isSome then lit = .numeric (minus negateValue t.text)
  else
    lit = .long (-t.decimals) (if negateValue then -(t.mantissa : Int) else t.mantissa) ∨
      lit = .int64 (-t.decimals) (if negateValue then -(t.mantissa : Int) else t.mantissa)

/-- The characters of a token with an exponent that get to `CVT_get_numeric` when its length has
gone through `dsc_scale`. -/
def handed (t : NumericToken) (trash : Nat → UInt8) (negateValue : Bool) : List UInt8 :=
  let l := (schar (toSchar t.text.length) % 65536).toNat
  (minus negateValue (stuffBytes trash t.text l)).take (ushort (l + if negateValue then 1 else 0))

/-- The tokens that keep their value: a scale or a length that fits a byte, or else an error. -/
def Carried (t : NumericToken) (refuses : List UInt8 → Bool) (trash : Nat → UInt8)
    (negateValue : Bool) : Prop :=
  9223372036854775808 < t.mantissa ∨
    if t.exponent.isSome then t.text.length ≤ 127 ∨ refuses (t.handed trash negateValue) = true
    else t.decimals ≤ 128 ∨ t.mantissa = 9223372036854775808 ∧ negateValue = false

end NumericToken

section

variable {refuses : List UInt8 → Bool} {trash : Nat → UInt8} {introducer : Option UInt16}
  {negateValue : Bool} {statement : List UInt8} {Denoted : Literal → Prop} {blr : List UInt8}

theorem survives_of_none (h : literalBlr trash introducer negateValue statement = none) :
    Survives refuses trash introducer negateValue statement Denoted := by
  intro blr hblr
  rw [h] at hblr
  cases hblr

theorem survives_of_refused (h : literalBlr trash introducer negateValue statement = some blr)
    (hpar : ∀ csbBlr p, Holds csbBlr p blr → parLiteral refuses ⟨csbBlr, (p + 1 : Nat)⟩ = none) :
    Survives refuses trash introducer negateValue statement Denoted := by
  intro blr' hblr csbBlr p hlaid lit csb hlit
  rw [h] at hblr
  obtain rfl := Option.some.inj hblr
  rw [hpar csbBlr p hlaid] at hlit
  cases hlit

/-- What is left to compare when `par_literal` is known to make `lit` and to advance by `l`. -/
theorem survives_iff_of_parLiteral {lit : Literal} {l : Int}
    (h : literalBlr trash introducer negateValue statement = some blr)
    (hpar : ∀ csbBlr p, Holds csbBlr p blr →
      parLiteral refuses ⟨csbBlr, (p + 1 : Nat)⟩ = some (lit, ⟨csbBlr, p + l⟩)) :
    Survives refuses trash introducer negateValue statement Denoted ↔
      Denoted lit ∧ l = blr.length := by
  constructor
  · intro hs
    have hlaid := holds_write (fun _ => (0 : UInt8)) 0 blr
    obtain ⟨hdenoted, hrun⟩ := hs blr h _ 0 hlaid _ _ (hpar _ 0 hlaid)
    exact ⟨hdenoted, by simpa using hrun⟩
  · rintro ⟨hdenoted, hl⟩ blr' hblr csbBlr p hlaid lit' csb hlit
    rw [h] at hblr
    obtain rfl := Option.some.inj hblr
    rw [hpar csbBlr p hlaid] at hlit
    obtain ⟨rfl, rfl⟩ := Prod.mk.inj (Option.some.inj hlit)
    exact ⟨hdenoted, by rw [hl]⟩

end

theorem stuffBytes_of_le (trash : Nat → UInt8) {strData : List UInt8} {l : Nat}
    (h : l ≤ strData.length) : stuffBytes trash strData l = strData.take l := by
  apply List.ext_getElem?
  intro i
  rw [stuffBytes, List.getElem?_map, List.getElem?_take]
  by_cases hi : i < l
  · have hsome : i < strData.length := by omega
    rw [List.getElem?_range hi, if_pos hi, Option.map_some, List.getElem?_eq_getElem hsome,
      Option.getD_some]
  · rw [List.getElem?_eq_none (by rw [List.length_range]; omega), if_neg hi]
    rfl

theorem length_stuffBytes (trash : Nat → UInt8) (strData : List UInt8) (l : Nat) :
    (stuffBytes trash strData l).length = l := by
  rw [stuffBytes, List.length_map, List.length_range]

section

variable (refuses : List UInt8 → Bool) (trash : Nat → UInt8) (introducer : Option UInt16)
  (negateValue : Bool)

/-- A string survives unless its length is one of the two that `yylex` lets through and an `SSHORT`
does not hold. -/
theorem string_survives_iff {rest : List UInt8} (hrest : rest.head? ≠ some 39) (text : List UInt8) :
    Survives refuses trash introducer false (quoted text rest)
        (fun lit => lit = .text (introducer.getD ttypeDynamic).toNat text) ↔
      text.length ≠ 32768 ∧ text.length ≠ 32769 := by
  have hlex := yylex_quoted hrest text
  by_cases hlong : text.length ≤ 32769
  swap
  · have hnone : literalBlr trash introducer false (quoted text rest) = none := by
      rw [literalBlr, hlex, if_neg hlong]
    exact iff_of_true (survives_of_none hnone) (by omega)
  have hushort : ushort text.length = text.length := ushort_of_lt (by omega)
  have hblr : literalBlr trash introducer false (quoted text rest) =
      some (blrLiteral :: blrText2 :: (stuffWord (introducer.getD ttypeDynamic).toNat ++
        (stuffWord text.length ++ text))) := by
    rw [literalBlr, hlex, if_pos hlong]
    show genConstant trash false
      (.text (introducer.getD ttypeDynamic) (ushort text.length) text) = _
    rw [hushort, genConstant, stuffBytes_of_le trash (Nat.le_refl _), List.take_length,
      genDescriptor, List.cons_append, List.append_assoc]
  rw [survives_iff_of_parLiteral (l := 6 + sshort text.length) hblr]
  · simp only [List.length_cons, List.length_append, stuffWord, List.length_nil]
    unfold sshort
    split <;> constructor <;> intro h
    · omega
    · refine ⟨rfl, ?_⟩
      push_cast
      omega
    · have := h.2
      push_cast at this
      omega
    · omega
  · intro csbBlr p hlaid
    have hdesc := (holds_cons.mp hlaid).2
    rw [parLiteral_text refuses (by omega) hdesc rfl]
    congr 3
    push_cast
    omega

theorem nextValue_ofNat (n : Nat) (c : UInt8) :
    nextValue (BitVec.ofNat 64 n) c = BitVec.ofNat 64 (n * 10 + (c.toNat - 48)) := by
  rw [nextValue, BitVec.ofNat_add, BitVec.ofNat_mul, BitVec.mul_comm]
  rfl

theorem wholeLoop_digits {digits : List UInt8} (hd : ∀ c ∈ digits, isDigit c = true)
    (rest : List UInt8) (n : Nat) :
    wholeLoop (digits ++ rest) (BitVec.ofNat 64 n) =
      wholeLoop rest (BitVec.ofNat 64 (decimalValue n digits)) := by
  induction digits generalizing n with
  | nil => rfl
  | cons c digits ih =>
    rw [List.cons_append, wholeLoop, if_pos (hd c List.mem_cons_self), nextValue_ofNat,
      ih (fun d hmem => hd d (List.mem_cons_of_mem c hmem))]
    rfl

theorem fractionLoop_digits {digits : List UInt8} (hd : ∀ c ∈ digits, isDigit c = true)
    (n : Nat) (k : Int) :
    fractionLoop digits (BitVec.ofNat 64 n) (schar (toSchar k)) =
      (BitVec.ofNat 64 (decimalValue n digits), schar (toSchar (k - digits.length))) := by
  induction digits generalizing n k with
  | nil => simp [fractionLoop, decimalValue]
  | cons c digits ih =>
    rw [fractionLoop, if_pos (hd c List.mem_cons_self), nextValue_ofNat, toSchar_schar_sub,
      ih (fun d hmem => hd d (List.mem_cons_of_mem c hmem)), List.length_cons]
    have hk : k - 1 - (digits.length : Int) = k - ((digits.length + 1 : Nat) : Int) := by
      push_cast
      omega
    rw [hk]
    rfl

/-- `MAKE_constant` reads back the digits, and counts the decimals in an `SCHAR`. -/
theorem makeSint64_text (t : NumericToken) (he : t.exponent = none) :
    makeSint64 t.text =
      .int64 (schar (toSchar (-t.decimals))) (BitVec.ofNat 64 t.mantissa) := by
  have htext : t.text = t.whole ++ t.fractionText := by
    rw [NumericToken.text, NumericToken.exponentText, he]
    exact List.append_nil _
  have hfractionDigits := t.fractionDigits
  have hsplit : t.mantissa = decimalValue (decimalValue 0 t.whole) (t.fraction.getD []) :=
    List.foldl_append
  have hwhole := wholeLoop_digits t.wholeDigits t.fractionText 0
  rw [makeSint64, htext, show (0 : BitVec 64) = BitVec.ofNat 64 0 from rfl, hwhole, hsplit]
  unfold NumericToken.fractionText NumericToken.decimals
  cases hf : t.fraction with
  | none => rfl
  | some digits =>
    rw [hf] at hfractionDigits
    have hfraction := fractionLoop_digits hfractionDigits (decimalValue 0 t.whole) 0
    have hpoint : ∀ value, wholeLoop (46 :: digits) value = (value, 46 :: digits) :=
      fun value => if_neg (by decide)
    rw [Option.map_some, Option.getD_some, hpoint]
    dsimp only
    rw [if_pos rfl, Option.getD_some]
    rw [show schar (toSchar 0) = 0 from rfl, Option.getD_some, Int.zero_sub] at hfraction
    rw [hfraction]

/-- The BLR of an exact number, which is an `int64` only when it needs to be. -/
def exactBlr (scale : UInt8) (value : Int) : List UInt8 :=
  if -2147483648 ≤ value ∧ value ≤ 2147483647 then
    blrLiteral :: blrLong :: scale :: (stuffWord value ++ stuffWord (value / 65536))
  else
    blrLiteral :: blrInt64 :: scale ::
      (stuffWord value ++ stuffWord (value / 65536) ++ stuffWord (value / 4294967296) ++
        stuffWord (value / 281474976710656))

def negated (negateValue : Bool) (n : Nat) : Int := if negateValue then -(n : Int) else n

theorem toInt_mantissa {n : Nat} (h : n < 9223372036854775808) :
    (BitVec.ofNat 64 n).toInt = n := by
  rw [BitVec.toInt_ofNat', Int.bmod]
  split <;> omega

theorem toInt_neg_mantissa {n : Nat} (h : n ≤ 9223372036854775808) :
    (-BitVec.ofNat 64 n).toInt = -(n : Int) := by
  rw [BitVec.toInt_neg, BitVec.toInt_ofNat', Int.bmod, Int.bmod]
  split <;> split <;> omega

theorem genConstant_int64 (scale : Int) {n : Nat} (h : n ≤ 9223372036854775808) :
    genConstant trash negateValue (.int64 scale (BitVec.ofNat 64 n)) =
      if n = 9223372036854775808 ∧ negateValue = false then none
      else some (exactBlr (toSchar scale) (negated negateValue n)) := by
  have hexact : ∀ value : Int,
      (if -2147483648 ≤ value ∧ value ≤ 2147483647 then
        some (blrLiteral :: blrLong :: toSchar scale ::
          (stuffWord value ++ stuffWord (value / 65536)))
      else
        some (blrLiteral :: blrInt64 :: toSchar scale ::
          (stuffWord value ++ stuffWord (value / 65536) ++
            stuffWord (value / 4294967296) ++ stuffWord (value / 281474976710656)))) =
        some (exactBlr (toSchar scale) value) := by
    intro value
    unfold exactBlr
    split <;> rfl
  rw [genConstant]
  dsimp only
  cases negateValue with
  | true =>
    rw [if_neg (fun hn => absurd hn.1 (by decide)), if_pos rfl, toInt_neg_mantissa h, hexact,
      if_neg (fun hn => absurd hn.2 (by decide))]
    rfl
  | false =>
    by_cases hlast : n = 9223372036854775808
    · subst hlast
      rfl
    · have hfits : ¬ (n = 9223372036854775808 ∧ false = false) := fun hn => hlast hn.1
      rw [toInt_mantissa (by omega), if_neg (by omega), if_neg hfits]
      exact hexact n

theorem genConstant_long {n : Nat} (h : n ≤ 2147483647) :
    genConstant trash negateValue (.long 0 n) =
      some (exactBlr (toSchar 0) (negated negateValue n)) := by
  have hrange : -2147483648 ≤ negated negateValue n ∧ negated negateValue n ≤ 2147483647 := by
    unfold negated
    split <;> omega
  rw [exactBlr, if_pos hrange]
  rfl

theorem literalBlr_exact (t : NumericToken) (he : t.exponent = none)
    (hle : t.mantissa ≤ 9223372036854775808) {rest : List UInt8} (hrest : t.Ends rest) :
    literalBlr trash introducer negateValue (t.text ++ rest) =
      if t.mantissa = 9223372036854775808 ∧ negateValue = false then none
      else some (exactBlr (toSchar (-t.decimals)) (negated negateValue t.mantissa)) := by
  have hlex := t.yylex_number hrest
  rw [if_neg (by omega)] at hlex
  have hsint64 : genConstant trash negateValue (pass1Constant introducer (makeSint64 t.text)) =
      if t.mantissa = 9223372036854775808 ∧ negateValue = false then none
      else some (exactBlr (toSchar (-t.decimals)) (negated negateValue t.mantissa)) := by
    rw [makeSint64_text t he, pass1Constant, genConstant_int64 trash negateValue _ hle,
      toSchar_schar]
    intro _ _ _ h
    cases h
  rw [literalBlr, hlex]
  unfold NumericToken.lexed
  rw [he, if_neg (by decide)]
  cases hf : t.fraction with
  | some digits =>
    exact hsint64
  | none =>
    rw [if_neg (by decide)]
    by_cases hsmall : t.mantissa ≤ 2147483647
    · have hscale : t.decimals = 0 := by rw [NumericToken.decimals, hf]; rfl
      rw [if_pos hsmall, if_neg (by omega), hscale]
      exact genConstant_long trash negateValue hsmall
    · rw [if_neg hsmall]
      exact hsint64

/-- An exact number comes back with the scale that a byte holds of it. -/
theorem parLiteral_exact {scale : UInt8} {value : Int} (low : -9223372036854775808 ≤ value)
    (high : value ≤ 9223372036854775807) {csbBlr : Nat → UInt8} {p : Nat}
    (h : Holds csbBlr p (exactBlr scale value)) :
    ∃ lit, (lit = .long (schar scale) value ∨ lit = .int64 (schar scale) value) ∧
      parLiteral refuses ⟨csbBlr, (p + 1 : Nat)⟩ =
        some (lit, ⟨csbBlr, p + (exactBlr scale value).length⟩) := by
  unfold exactBlr at h ⊢
  by_cases hlong : -2147483648 ≤ value ∧ value ≤ 2147483647
  · rw [if_pos hlong] at h ⊢
    have hpar := parLiteral_long refuses (holds_cons.mp h).2 rfl
    rw [vaxInteger_long hlong.1 hlong.2] at hpar
    refine ⟨_, Or.inl rfl, hpar.trans ?_⟩
    congr 3
  · rw [if_neg hlong] at h ⊢
    have hpar := parLiteral_int64 refuses (holds_cons.mp h).2 rfl
    rw [vaxInteger_int64 low high] at hpar
    refine ⟨_, Or.inr rfl, hpar.trans ?_⟩
    congr 3

theorem exact_survives_iff (t : NumericToken) (he : t.exponent = none) {rest : List UInt8}
    (hrest : t.Ends rest) :
    Survives refuses trash introducer negateValue (t.text ++ rest) (t.Denotes negateValue) ↔
      t.Carried refuses trash negateValue := by
  unfold NumericToken.Carried
  rw [he, if_neg (by decide)]
  by_cases hover : 9223372036854775808 < t.mantissa
  · have hnone : literalBlr trash introducer negateValue (t.text ++ rest) = none := by
      rw [literalBlr, t.yylex_number hrest, if_pos hover]
    exact iff_of_true (survives_of_none hnone) (Or.inl hover)
  have hblr := literalBlr_exact trash introducer negateValue t he (Nat.not_lt.mp hover) hrest
  by_cases herror : t.mantissa = 9223372036854775808 ∧ negateValue = false
  · rw [if_pos herror] at hblr
    exact iff_of_true (survives_of_none hblr) (Or.inr (Or.inr herror))
  rw [if_neg herror] at hblr
  have hrange : -9223372036854775808 ≤ negated negateValue t.mantissa ∧
      negated negateValue t.mantissa ≤ 9223372036854775807 := by
    unfold negated
    cases negateValue with
    | true =>
      rw [if_pos rfl]
      omega
    | false =>
      have hlt : t.mantissa ≠ 9223372036854775808 := fun h => herror ⟨h, rfl⟩
      rw [if_neg (by decide)]
      omega
  constructor
  · intro hs
    have hlaid := holds_write (fun _ => (0 : UInt8)) 0
      (exactBlr (toSchar (-t.decimals)) (negated negateValue t.mantissa))
    obtain ⟨lit, hlit, hpar⟩ := parLiteral_exact refuses hrange.1 hrange.2 hlaid
    have hdenoted := (hs _ hblr _ 0 hlaid lit _ hpar).1
    have hscale : schar (toSchar (-(t.decimals : Int))) = -t.decimals := by
      rw [NumericToken.Denotes, he, if_neg (by decide)] at hdenoted
      rcases hlit with rfl | rfl
      · rcases hdenoted with h | h
        · exact (Literal.long.inj h).1
        · simp at h
      · rcases hdenoted with h | h
        · simp at h
        · exact (Literal.int64.inj h).1
    have hlow := (schar_range (toSchar (-t.decimals))).1
    exact Or.inr (Or.inl (by omega))
  · intro hcarried
    have hdecimals : t.decimals ≤ 128 := by
      rcases hcarried with h | h | h
      · exact absurd h hover
      · exact h
      · exact absurd h herror
    have hscale : schar (toSchar (-(t.decimals : Int))) = -t.decimals :=
      schar_toSchar (by omega) (by omega)
    intro blr hblr' csbBlr p hlaid lit csb hlit
    rw [hblr] at hblr'
    obtain rfl := Option.some.inj hblr'
    obtain ⟨lit', hlit', hpar⟩ := parLiteral_exact refuses hrange.1 hrange.2 hlaid
    rw [hpar] at hlit
    obtain ⟨rfl, rfl⟩ := Prod.mk.inj (Option.some.inj hlit)
    refine ⟨?_, rfl⟩
    rw [hscale] at hlit'
    rw [NumericToken.Denotes, he, if_neg (by decide)]
    exact hlit'

/-- A length that has gone through an `SCHAR` and is taken as a `USHORT`. -/
theorem scaleLength_lt (n : Int) : (schar (toSchar n) % 65536).toNat < 65536 := by omega

theorem scaleLength_of_le {n : Nat} (h : n ≤ 127) : (schar (toSchar n) % 65536).toNat = n := by
  rw [schar_toSchar (by omega) (by omega)]
  omega

theorem length_minus (text : List UInt8) :
    (minus negateValue text).length = text.length + if negateValue then 1 else 0 := by
  unfold minus
  split <;> simp

theorem handed_of_le (t : NumericToken) (h : t.text.length ≤ 127) :
    t.handed trash negateValue = minus negateValue t.text := by
  have hlen := length_minus negateValue t.text
  have hushort : ushort (t.text.length + if negateValue then 1 else 0) =
      (minus negateValue t.text).length := by
    rw [hlen]
    apply ushort_of_lt
    split <;> omega
  unfold NumericToken.handed
  rw [scaleLength_of_le h]
  dsimp only
  rw [stuffBytes_of_le trash (Nat.le_refl _), List.take_length, hushort,
    List.take_length]

/-- What `par_literal` does with a token that has an exponent. -/
theorem parLiteral_numeric (t : NumericToken) {csbBlr : Nat → UInt8} {p : Nat} {bytes : List UInt8}
    {l : Nat} (hl : l = (schar (toSchar t.text.length) % 65536).toNat)
    (hbytes : bytes = minus negateValue (stuffBytes trash t.text l))
    (h : Holds csbBlr p (blrLiteral :: blrDouble ::
      (stuffWord (l + if negateValue then 1 else 0 : Nat) ++ bytes))) :
    parLiteral refuses ⟨csbBlr, (p + 1 : Nat)⟩ =
      if refuses (t.handed trash negateValue) then none
      else some (.numeric (t.handed trash negateValue),
        ⟨csbBlr, p + (4 + sshort (ushort (l + if negateValue then 1 else 0)))⟩) := by
  have hword : (((l + if negateValue then 1 else 0 : Nat) : Int) % 65536).toNat =
      ushort (l + if negateValue then 1 else 0) := by
    unfold ushort
    omega
  have hlen : (((l + if negateValue then 1 else 0 : Nat) : Int) % 65536).toNat ≤ bytes.length := by
    rw [hword, hbytes, length_minus, length_stuffBytes]
    exact Nat.mod_le _ _
  have hhanded : bytes.take (ushort (l + if negateValue then 1 else 0)) =
      t.handed trash negateValue := by
    rw [hbytes, hl]
    rfl
  have hpar := parLiteral_double refuses (holds_cons.mp h).2 hlen
  rw [hword, hhanded] at hpar
  rw [hpar]
  congr 4
  push_cast
  omega

theorem literalBlr_numeric (t : NumericToken) (he : t.exponent.isSome = true)
    (hle : t.mantissa ≤ 9223372036854775808) {rest : List UInt8} (hrest : t.Ends rest) {l : Nat}
    (hl : l = (schar (toSchar t.text.length) % 65536).toNat) :
    literalBlr trash introducer negateValue (t.text ++ rest) =
      some (blrLiteral :: blrDouble :: (stuffWord (l + if negateValue then 1 else 0 : Nat) ++
        minus negateValue (stuffBytes trash t.text l))) := by
  rw [literalBlr, t.yylex_number hrest, if_neg (by omega), NumericToken.lexed, if_pos he]
  show genConstant trash negateValue (.double (schar (toSchar t.text.length)) t.text) = _
  rw [genConstant, ← hl]
  cases negateValue with
  | true => rfl
  | false => rfl

/-- The `SSHORT` that `csb_running` moves by is the length only when that is below 32768. -/
theorem advance_is_length {n : Nat} (h : 4 + sshort (ushort n) = ((4 + n : Nat) : Int)) :
    ushort n = n ∧ n < 32768 := by
  have hlt := ushort_lt n
  unfold sshort at h
  split at h <;> omega

theorem numeric_survives_iff (t : NumericToken) (he : t.exponent.isSome = true)
    {rest : List UInt8} (hrest : t.Ends rest) :
    Survives refuses trash introducer negateValue (t.text ++ rest) (t.Denotes negateValue) ↔
      t.Carried refuses trash negateValue := by
  unfold NumericToken.Carried
  rw [if_pos he]
  by_cases hover : 9223372036854775808 < t.mantissa
  · have hnone : literalBlr trash introducer negateValue (t.text ++ rest) = none := by
      rw [literalBlr, t.yylex_number hrest, if_pos hover]
    exact iff_of_true (survives_of_none hnone) (Or.inl hover)
  obtain ⟨l, hl⟩ : ∃ l, l = (schar (toSchar t.text.length) % 65536).toNat := ⟨_, rfl⟩
  have hblr := literalBlr_numeric trash introducer negateValue t he (Nat.not_lt.mp hover) hrest hl
  have hpar := fun csbBlr p h =>
    @parLiteral_numeric refuses trash negateValue t csbBlr p _ l hl rfl h
  by_cases hrefused : refuses (t.handed trash negateValue) = true
  · have hnone := fun csbBlr p h => (hpar csbBlr p h).trans (if_pos hrefused)
    exact iff_of_true (survives_of_refused hblr hnone) (Or.inr (Or.inr hrefused))
  have hsome := fun csbBlr p h => (hpar csbBlr p h).trans (if_neg hrefused)
  rw [survives_iff_of_parLiteral hblr hsome, NumericToken.Denotes, if_pos he]
  have hlt : l < 65536 := hl ▸ scaleLength_lt t.text.length
  have hlength : (blrLiteral :: blrDouble ::
      (stuffWord (l + if negateValue then 1 else 0 : Nat) ++
        minus negateValue (stuffBytes trash t.text l))).length =
      4 + (l + if negateValue then 1 else 0) := by
    simp only [List.length_cons, List.length_append, stuffWord, List.length_nil, length_minus,
      length_stuffBytes]
    omega
  rw [hlength]
  constructor
  · rintro ⟨hsame, hadvance⟩
    refine Or.inr (Or.inl ?_)
    have hsum := advance_is_length hadvance
    have hlengths := congrArg List.length (Literal.numeric.inj hsame)
    rw [length_minus, NumericToken.handed, List.length_take, ← hl, length_minus, length_stuffBytes,
      hsum.1, Nat.min_self] at hlengths
    have hrange := schar_range (toSchar t.text.length)
    omega
  · intro hcarried
    have hshort : t.text.length ≤ 127 := by
      rcases hcarried with h | h | h
      · exact absurd h hover
      · exact h
      · exact absurd h hrefused
    rw [scaleLength_of_le hshort] at hl
    refine ⟨by rw [handed_of_le trash negateValue t hshort], ?_⟩
    rw [hl, ushort_of_lt (by split <;> omega)]
    unfold sshort
    split <;> split <;> push_cast <;> omega

/-- Literals survive from the text of the statement to the engine exactly when their length or their
scale goes through the narrow fields between the stages, or some stage refuses them. -/
theorem literal_survives_iff :
    (∀ text rest, rest.head? ≠ some 39 →
      (Survives refuses trash introducer false (quoted text rest)
          (fun lit => lit = .text (introducer.getD ttypeDynamic).toNat text) ↔
        text.length ≠ 32768 ∧ text.length ≠ 32769)) ∧
    ∀ (t : NumericToken) (negateValue : Bool) (rest : List UInt8), t.Ends rest →
      (Survives refuses trash introducer negateValue (t.text ++ rest) (t.Denotes negateValue) ↔
        t.Carried refuses trash negateValue) := by
  refine ⟨fun text rest hrest => string_survives_iff refuses trash introducer hrest text, ?_⟩
  intro t negateValue rest hrest
  cases he : t.exponent with
  | none => exact exact_survives_iff refuses trash introducer negateValue t he hrest
  | some e => exact numeric_survives_iff refuses trash introducer negateValue t (by rw [he]; rfl) hrest

end

theorem isDigit_zeros (n : Nat) : ∀ c ∈ List.replicate n 48, isDigit c = true := by
  intro c hc
  rw [List.eq_of_mem_replicate hc]
  rfl

/-- `0.` and `n` zeros. -/
def zeroDecimals (n : Nat) : NumericToken where
  whole := List.replicate 1 48
  fraction := some (List.replicate n 48)
  exponent := none
  wholeDigits := isDigit_zeros 1
  fractionDigits := isDigit_zeros n
  hasDigit := Or.inl (List.cons_ne_nil _ _)

theorem mantissa_zeroDecimals (n : Nat) : (zeroDecimals n).mantissa = 0 := by
  show decimalValue 0 (48 :: List.replicate n 48) = 0
  have hzeros : ∀ n, decimalValue 0 (List.replicate n 48) = 0 := by
    intro n
    induction n with
    | zero => rfl
    | succ n ih => exact ih
  exact hzeros (n + 1)

theorem literal_survives_short :
    (Survives (fun _ => false) (fun _ => 0) none false (quoted [105, 39, 109] [44])
        (fun lit => lit = .text (Option.getD none ttypeDynamic).toNat [105, 39, 109]) ↔
      [105, 39, 109].length ≠ 32768 ∧ [105, 39, 109].length ≠ 32769) ∧
    (Survives (fun _ => false) (fun _ => 0) none true ((zeroDecimals 3).text ++ [44])
        ((zeroDecimals 3).Denotes true) ↔
      (zeroDecimals 3).Carried (fun _ => false) (fun _ => 0) true) :=
  ⟨(literal_survives_iff (fun _ => false) (fun _ => 0) none).1 [105, 39, 109] [44] (by decide),
    (literal_survives_iff (fun _ => false) (fun _ => 0) none).2 (zeroDecimals 3) true [44]
      (by
        intro c hc
        obtain rfl := Option.some.inj hc
        decide)⟩

/-- A string of 32768 characters moves `csb_running` back, and 129 decimals become a scale of 127. -/
theorem literal_lost :
    ¬ Survives (fun _ => false) (fun _ => 0) none false (quoted (List.replicate 32768 97) [])
        (fun lit => lit = .text (Option.getD none ttypeDynamic).toNat (List.replicate 32768 97)) ∧
    ¬ Survives (fun _ => false) (fun _ => 0) none false ((zeroDecimals 129).text ++ [])
        ((zeroDecimals 129).Denotes false) := by
  have hends : (zeroDecimals 129).Ends [] := fun c hc => by cases hc
  constructor
  · intro h
    have hlength := ((string_survives_iff _ _ none (by decide) _).mp h).1
    exact hlength List.length_replicate
  · intro h
    have hcarried := (exact_survives_iff _ _ none false (zeroDecimals 129) rfl hends).mp h
    rw [NumericToken.Carried, mantissa_zeroDecimals, show (zeroDecimals 129).exponent = none from rfl,
      if_neg (by decide)] at hcarried
    have hdecimals : (zeroDecimals 129).decimals = 129 := List.length_replicate
    omega

end InterBase
