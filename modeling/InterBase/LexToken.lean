import InterBase.Lex

namespace InterBase

/-- A text as it stands between two quotes. -/
def doubled (c : UInt8) (text : List UInt8) : List UInt8 :=
  text.flatMap fun d => if d = c then [c, c] else [d]

def quoted (text rest : List UInt8) : List UInt8 := 39 :: (doubled 39 text ++ 39 :: rest)

/-- What the string loop keeps: the buffer has doubled from 256 to 32768 bytes, or once more, where
its length has wrapped to 0 and one character was stored. -/
def Room (buffer : List UInt8) (bufferLen : Nat) : Prop :=
  (∃ k, k < 8 ∧ bufferLen = 256 * 2 ^ k ∧ buffer.length ≤ bufferLen) ∨
    bufferLen = 0 ∧ buffer.length = 32769

theorem room_start : Room [] maxTokenLen := Or.inl ⟨0, by omega, rfl, Nat.zero_le _⟩

theorem enlarge_of_room {buffer : List UInt8} {bufferLen : Nat} (h : Room buffer bufferLen)
    (hlt : buffer.length < 32769) (d : UInt8) :
    ∃ bufferLen', enlarge buffer bufferLen = some (buffer, bufferLen') ∧
      Room (buffer ++ [d]) bufferLen' := by
  rcases h with ⟨k, hk, hlen, hle⟩ | ⟨-, hfull⟩
  swap
  · omega
  unfold enlarge
  by_cases hfits : buffer.length < bufferLen
  · rw [if_neg (by omega)]
    refine ⟨bufferLen, rfl, Or.inl ⟨k, hk, hlen, ?_⟩⟩
    rw [List.length_append, List.length_singleton]
    omega
  have hpos : 0 < 2 ^ k := Nat.two_pow_pos k
  have hwhole : buffer.take bufferLen = buffer := List.take_of_length_le (by omega)
  rw [if_pos (by omega), if_neg (by omega), hwhole]
  refine ⟨ushort (2 * bufferLen), rfl, ?_⟩
  rw [Room, List.length_append, List.length_singleton]
  -- The last doubling is the one that the `USHORT` cannot hold.
  by_cases hlast : k = 7
  · subst hlast
    have hfull : bufferLen = 32768 := hlen
    refine Or.inr ⟨?_, by omega⟩
    rw [hfull]
    rfl
  · have hle6 : 2 ^ k ≤ 2 ^ 6 := Nat.pow_le_pow_right (by omega) (by omega)
    have hdouble : ushort (2 * bufferLen) = 2 * bufferLen := ushort_of_lt (by omega)
    refine Or.inl ⟨k + 1, by omega, ?_, by omega⟩
    rw [hdouble, hlen, Nat.pow_succ]
    omega

theorem enlarge_full {buffer : List UInt8} {bufferLen : Nat} (h : Room buffer bufferLen)
    (hfull : buffer.length = 32769) : enlarge buffer bufferLen = none := by
  rcases h with ⟨k, hk, rfl, hle⟩ | ⟨rfl, -⟩
  · have hlast : 2 ^ k ≤ 2 ^ 7 := Nat.pow_le_pow_right (by omega) (by omega)
    omega
  · unfold enlarge
    rw [if_pos (by omega), if_pos rfl]

theorem quotedString_end {c : UInt8} {rest : List UInt8} (hrest : rest.head? ≠ some c)
    (buffer : List UInt8) (bufferLen : Nat) :
    quotedString c (c :: rest) buffer bufferLen = some (buffer, rest) := by
  cases rest with
  | nil => simp [quotedString]
  | cons e more =>
    have hne : e ≠ c := by simpa using hrest
    simp [quotedString, hne]

/-- One character of the text, which a quote spells with two. -/
theorem quotedString_char (c d : UInt8) (ptr buffer : List UInt8) (bufferLen : Nat) :
    quotedString c ((if d = c then [c, c] else [d]) ++ ptr) buffer bufferLen =
      (enlarge buffer bufferLen).bind fun next => quotedString c ptr (next.1 ++ [d]) next.2 := by
  by_cases hd : d = c
  · subst hd
    rw [if_pos rfl]
    simp only [List.cons_append, List.nil_append, quotedString, if_pos, ne_eq, not_true, if_false]
    cases enlarge buffer bufferLen <;> rfl
  · rw [if_neg hd]
    rw [List.singleton_append]
    cases ptr <;> rw [quotedString, if_neg hd] <;> cases enlarge buffer bufferLen <;> rfl

theorem quotedString_text {c : UInt8} {rest : List UInt8} (hrest : rest.head? ≠ some c)
    (text : List UInt8) {buffer : List UInt8} {bufferLen : Nat} (h : Room buffer bufferLen)
    (hle : buffer.length ≤ 32769) :
    quotedString c (doubled c text ++ c :: rest) buffer bufferLen =
      if buffer.length + text.length ≤ 32769 then some (buffer ++ text, rest) else none := by
  induction text generalizing buffer bufferLen with
  | nil =>
    rw [if_pos (by simpa using hle), List.append_nil]
    exact quotedString_end hrest buffer bufferLen
  | cons d text ih =>
    rw [show doubled c (d :: text) ++ c :: rest =
      (if d = c then [c, c] else [d]) ++ (doubled c text ++ c :: rest) by simp [doubled]]
    rw [quotedString_char]
    by_cases hfull : buffer.length = 32769
    · rw [enlarge_full h hfull, if_neg (by rw [List.length_cons]; omega)]
      rfl
    · obtain ⟨bufferLen', henlarge, hroom⟩ := enlarge_of_room h (by omega) d
      rw [henlarge]
      show quotedString c _ (buffer ++ [d]) bufferLen' = _
      rw [ih hroom (by rw [List.length_append, List.length_singleton]; omega)]
      simp only [List.length_append, List.length_cons, List.length_nil, List.append_assoc,
        List.cons_append, List.nil_append, Nat.zero_add, Nat.add_assoc, Nat.add_comm 1]

theorem yylex_quoted {rest : List UInt8} (hrest : rest.head? ≠ some 39) (text : List UInt8) :
    yylex sqlDialectV6 (quoted text rest) =
      if text.length ≤ 32769 then some (.string text, rest) else none := by
  have hloop := quotedString_text hrest text room_start (Nat.zero_le _)
  rw [List.length_nil, Nat.zero_add, List.nil_append] at hloop
  unfold quoted yylex
  dsimp only
  rw [if_pos (Or.inr rfl), hloop]
  by_cases hlen : text.length ≤ 32769
  · rw [if_pos hlen, if_pos hlen]
    rfl
  · rw [if_neg hlen, if_neg hlen]

/-- The exponent of a number: `e` or `E`, a sign and digits. -/
structure NumericExponent where
  letter : UInt8
  sign : Option UInt8
  digits : List UInt8
  isLetter : letter = 69 ∨ letter = 101
  isSign : ∀ c, sign = some c → c = 45 ∨ c = 43
  nonempty : digits ≠ []
  allDigits : ∀ c ∈ digits, isDigit c = true

/-- An unsigned numeric token: digits, a point and digits, an exponent. -/
structure NumericToken where
  whole : List UInt8
  fraction : Option (List UInt8)
  exponent : Option NumericExponent
  wholeDigits : ∀ c ∈ whole, isDigit c = true
  fractionDigits : ∀ c ∈ fraction.getD [], isDigit c = true
  hasDigit : whole ≠ [] ∨ fraction.getD [] ≠ []

def decimalValue (n : Nat) (digits : List UInt8) : Nat :=
  digits.foldl (fun n c => n * 10 + (c.toNat - 48)) n

def NumericExponent.text (e : NumericExponent) : List UInt8 :=
  e.letter :: (e.sign.toList ++ e.digits)

namespace NumericToken

def fractionText (t : NumericToken) : List UInt8 := (t.fraction.map (46 :: ·)).getD []

def exponentText (t : NumericToken) : List UInt8 := (t.exponent.map (·.text)).getD []

def text (t : NumericToken) : List UInt8 := t.whole ++ t.fractionText ++ t.exponentText

/-- The digits before the exponent, read as one number. -/
def mantissa (t : NumericToken) : Nat := decimalValue 0 (t.whole ++ t.fraction.getD [])

def decimals (t : NumericToken) : Nat := (t.fraction.getD []).length

/-- The text that follows does not go on with the token. -/
def Ends (t : NumericToken) (rest : List UInt8) : Prop :=
  ∀ c, rest.head? = some c →
    isDigit c = false ∧ (t.exponent = none → c ≠ 46 ∧ c ≠ 69 ∧ c ≠ 101)

end NumericToken

theorem le_decimalValue (n : Nat) (digits : List UInt8) : n ≤ decimalValue n digits := by
  induction digits generalizing n with
  | nil => exact Nat.le_refl n
  | cons c digits ih =>
    have hstep := ih (n * 10 + (c.toNat - 48))
    exact Nat.le_trans (by omega) hstep

namespace NumberScan

variable {s : NumberScan}

/-- The flags of a scan that has not come to an exponent. -/
def BeforeExponent (s : NumberScan) : Prop :=
  s.haveError = false ∧ s.haveExp = false ∧ s.haveExpSign = false ∧ s.haveExpDigit = false

def withDigits (s : NumberScan) (digits : List UInt8) : NumberScan :=
  { s with
    haveDigit := s.haveDigit || !digits.isEmpty
    number := decimalValue s.number digits }

def afterDigit (s : NumberScan) (c : UInt8) : NumberScan :=
  { s with haveDigit := true, number := s.number * 10 + (c.toNat - 48) }

theorem scan_digit (h : s.BeforeExponent) {c : UInt8} (hc : isDigit c = true)
    (ptr : List UInt8) :
    scan (c :: ptr) s =
      if 9223372036854775808 < s.number * 10 + (c.toNat - 48) then
        ({ s with haveDigit := true, haveError := true }, c :: ptr)
      else scan ptr (s.afterDigit c) := by
  obtain ⟨-, hexp, hsign, hdigit⟩ := h
  have hrange : 48 ≤ c.toNat ∧ c.toNat ≤ 57 := by simpa [isDigit] using hc
  have hpoint : c ≠ 46 := by
    rintro rfl
    exact absurd hrange.1 (by decide)
  have hlimit : (limitBy10 ≤ s.number ∧ (limitBy10 < s.number ∨ 56 < c.toNat)) ↔
      9223372036854775808 < s.number * 10 + (c.toNat - 48) := by
    unfold limitBy10
    omega
  rw [scan, afterDigit]
  simp only [hdigit, hsign, hexp, hc, hpoint, hlimit, Bool.false_eq_true, false_and, if_false,
    if_true]

theorem scan_digits {digits : List UInt8} (hd : ∀ c ∈ digits, isDigit c = true)
    (h : s.BeforeExponent) (hle : decimalValue s.number digits ≤ 9223372036854775808)
    (rest : List UInt8) : scan (digits ++ rest) s = scan rest (s.withDigits digits) := by
  induction digits generalizing s with
  | nil => simp [withDigits, decimalValue]
  | cons c digits ih =>
    have hfits := Nat.le_trans (le_decimalValue (s.number * 10 + (c.toNat - 48)) digits) hle
    have hnext : (s.afterDigit c).BeforeExponent := h
    have hleNext : decimalValue (s.afterDigit c).number digits ≤ 9223372036854775808 := hle
    rw [List.cons_append, scan_digit h (hd c List.mem_cons_self), if_neg (by omega),
      ih (fun d hmem => hd d (List.mem_cons_of_mem c hmem)) hnext hleNext]
    simp [withDigits, afterDigit, decimalValue]

theorem scan_overflow {digits : List UInt8} (hd : ∀ c ∈ digits, isDigit c = true)
    (h : s.BeforeExponent) (hle : s.number ≤ 9223372036854775808)
    (hlt : 9223372036854775808 < decimalValue s.number digits) (rest : List UInt8) :
    (scan (digits ++ rest) s).1.haveError = true := by
  induction digits generalizing s with
  | nil =>
    exact absurd hle (Nat.not_le.mpr hlt)
  | cons c digits ih =>
    rw [List.cons_append, scan_digit h (hd c List.mem_cons_self)]
    by_cases hover : 9223372036854775808 < s.number * 10 + (c.toNat - 48)
    · rw [if_pos hover]
    · rw [if_neg hover]
      have hnext : (s.afterDigit c).BeforeExponent := h
      have hleNext : (s.afterDigit c).number ≤ 9223372036854775808 := Nat.not_lt.mp hover
      exact ih (fun d hmem => hd d (List.mem_cons_of_mem c hmem)) hnext hleNext hlt

def afterPoint (s : NumberScan) : NumberScan := { s with haveDecimal := true }

theorem scan_point (h : s.BeforeExponent) (hpoint : s.haveDecimal = false) (ptr : List UInt8) :
    scan (46 :: ptr) s = scan ptr s.afterPoint := by
  obtain ⟨-, hexp, hsign, hdigit⟩ := h
  rw [scan, afterPoint]
  simp [hdigit, hsign, hexp, hpoint]

/-- The digits of an exponent, which the flags count from the first one on. -/
theorem scan_exponentDigits {digits : List UInt8} (hd : ∀ c ∈ digits, isDigit c = true)
    (hne : digits ≠ []) (hexp : s.haveExp = true) (rest : List UInt8) :
    scan (digits ++ rest) s = scan rest { s with haveExpDigit := true, haveExpSign := true } := by
  induction digits generalizing s with
  | nil => exact absurd rfl hne
  | cons c digits ih =>
    have hc := hd c List.mem_cons_self
    have hrange : 48 ≤ c.toNat ∧ c.toNat ≤ 57 := by simpa [isDigit] using hc
    have hsign : ¬ (c = 45 ∨ c = 43) := by
      rintro (rfl | rfl) <;> exact absurd hrange.1 (by decide)
    have hstep : scan (c :: (digits ++ rest)) s =
        scan (digits ++ rest) { s with haveExpDigit := true, haveExpSign := true } := by
      rw [scan]
      simp [hexp, hc, hsign]
    rw [List.cons_append, hstep]
    by_cases hlast : digits = []
    · rw [hlast, List.nil_append]
    · exact ih (fun d hmem => hd d (List.mem_cons_of_mem c hmem)) hlast hexp

theorem scan_exponent (h : s.BeforeExponent) (hdigit : s.haveDigit = true) (e : NumericExponent)
    (rest : List UInt8) :
    scan (e.text ++ rest) s =
      scan rest { s with haveExp := true, haveExpSign := true, haveExpDigit := true } := by
  obtain ⟨-, hexp, hsign, hexpDigit⟩ := h
  have hletter : scan (e.letter :: (e.sign.toList ++ e.digits ++ rest)) s =
      scan (e.sign.toList ++ e.digits ++ rest) { s with haveExp := true } := by
    rw [scan]
    rcases e.isLetter with hl | hl <;> simp [hl, hexp, hsign, hexpDigit, hdigit, isDigit]
  rw [NumericExponent.text, List.cons_append, hletter]
  cases hs : e.sign with
  | none =>
    rw [Option.toList_none, List.nil_append]
    exact scan_exponentDigits e.allDigits e.nonempty rfl rest
  | some c =>
    have hsigned : scan (c :: (e.digits ++ rest)) { s with haveExp := true } =
        scan (e.digits ++ rest) { s with haveExp := true, haveExpSign := true } := by
      rw [scan]
      simp [hexpDigit, hsign, e.isSign c hs]
    rw [Option.toList_some, List.singleton_append, List.cons_append, hsigned]
    exact scan_exponentDigits e.allDigits e.nonempty rfl rest

theorem scan_after_exponent (h : s.haveExpDigit = true) {rest : List UInt8}
    (hrest : ∀ c, rest.head? = some c → isDigit c = false) : scan rest s = (s, rest) := by
  cases rest with
  | nil => rfl
  | cons c ptr =>
    rw [scan]
    simp [h, hrest c rfl]

theorem scan_after_digits (h : s.BeforeExponent) {rest : List UInt8}
    (hrest : ∀ c, rest.head? = some c → isDigit c = false ∧ c ≠ 46 ∧ c ≠ 69 ∧ c ≠ 101) :
    scan rest s = (s, rest) := by
  obtain ⟨-, hexp, hsign, hdigit⟩ := h
  cases rest with
  | nil => rfl
  | cons c ptr =>
    obtain ⟨hc, hpoint, hupper, hlower⟩ := hrest c rfl
    rw [scan]
    simp [hexp, hsign, hdigit, hc, hpoint, hupper, hlower]

/-- The flags when the digits before an exponent are read. -/
def ofMantissa (t : NumericToken) : NumberScan :=
  { start with haveDigit := true, haveDecimal := t.fraction.isSome, number := t.mantissa }

theorem beforeExponent_start : start.BeforeExponent := ⟨rfl, rfl, rfl, rfl⟩

theorem scan_mantissa (t : NumericToken) (hle : t.mantissa ≤ 9223372036854775808)
    (rest : List UInt8) :
    scan (t.whole ++ (t.fractionText ++ rest)) start = scan rest (ofMantissa t) := by
  have hsplit : t.mantissa = decimalValue (decimalValue 0 t.whole) (t.fraction.getD []) :=
    List.foldl_append
  have hwhole : decimalValue start.number t.whole ≤ 9223372036854775808 :=
    Nat.le_trans (le_decimalValue _ (t.fraction.getD [])) (hsplit ▸ hle)
  have hdigits := t.hasDigit
  have hfractionDigits := t.fractionDigits
  rw [scan_digits t.wholeDigits beforeExponent_start hwhole]
  unfold NumericToken.fractionText ofMantissa
  cases hf : t.fraction with
  | none =>
    rw [hf] at hsplit hdigits
    have hne : t.whole ≠ [] := hdigits.resolve_right (fun h => h rfl)
    have hseen : (!t.whole.isEmpty) = true := by simpa using hne
    rw [hsplit]
    simp only [withDigits, start, Bool.false_or, hseen, Option.map_none, Option.getD_none,
      List.nil_append, Option.isSome_none]
    rfl
  | some digits =>
    rw [hf] at hsplit hdigits hfractionDigits
    have hbefore : (start.withDigits t.whole).BeforeExponent := beforeExponent_start
    have hbefore' : (start.withDigits t.whole).afterPoint.BeforeExponent := hbefore
    have hdigitsLe : decimalValue (start.withDigits t.whole).afterPoint.number digits ≤
        9223372036854775808 := hsplit ▸ hle
    have hrun := scan_digits hfractionDigits hbefore' hdigitsLe rest
    rw [Option.getD_some] at hrun
    rw [Option.map_some, Option.getD_some, List.cons_append, scan_point hbefore rfl, hrun, hsplit]
    have hseen : (!t.whole.isEmpty || !digits.isEmpty) = true := by
      rcases hdigits with h | h
      · simp [h]
      · have hdigitsNe : digits ≠ [] := h
        simp [hdigitsNe]
    simp only [withDigits, afterPoint, start, Bool.false_or, hseen, Option.isSome_some,
      Option.getD_some]

theorem scan_mantissa_overflow (t : NumericToken) (hlt : 9223372036854775808 < t.mantissa)
    (rest : List UInt8) :
    (scan (t.whole ++ (t.fractionText ++ rest)) start).1.haveError = true := by
  have hsplit : t.mantissa = decimalValue (decimalValue 0 t.whole) (t.fraction.getD []) :=
    List.foldl_append
  by_cases hwhole : 9223372036854775808 < decimalValue start.number t.whole
  · exact scan_overflow t.wholeDigits beforeExponent_start (Nat.zero_le _) hwhole _
  have hfractionDigits := t.fractionDigits
  rw [scan_digits t.wholeDigits beforeExponent_start (Nat.not_lt.mp hwhole)]
  unfold NumericToken.fractionText
  cases hf : t.fraction with
  | none =>
    rw [hf] at hsplit
    rw [hsplit] at hlt
    exact absurd hlt hwhole
  | some digits =>
    rw [hf] at hsplit hfractionDigits
    have hbefore : (start.withDigits t.whole).BeforeExponent := beforeExponent_start
    have hbefore' : (start.withDigits t.whole).afterPoint.BeforeExponent := hbefore
    rw [Option.map_some, Option.getD_some, List.cons_append, scan_point hbefore rfl]
    exact scan_overflow hfractionDigits hbefore' (Nat.not_lt.mp hwhole) (hsplit ▸ hlt) rest

/-- The flags at the end of a token. -/
def ofToken (t : NumericToken) : NumberScan :=
  { ofMantissa t with
    haveExp := t.exponent.isSome
    haveExpSign := t.exponent.isSome
    haveExpDigit := t.exponent.isSome }

theorem scan_token (t : NumericToken) (hle : t.mantissa ≤ 9223372036854775808)
    {rest : List UInt8} (hrest : t.Ends rest) : scan (t.text ++ rest) start = (ofToken t, rest) := by
  rw [NumericToken.text, List.append_assoc, List.append_assoc, scan_mantissa t hle]
  unfold NumericToken.exponentText ofToken
  have hbefore : (ofMantissa t).BeforeExponent := ⟨rfl, rfl, rfl, rfl⟩
  cases he : t.exponent with
  | none =>
    rw [Option.map_none, Option.getD_none, List.nil_append]
    apply scan_after_digits hbefore
    intro c hc
    exact ⟨(hrest c hc).1, (hrest c hc).2 he⟩
  | some e =>
    rw [Option.map_some, Option.getD_some, scan_exponent hbefore rfl]
    apply scan_after_exponent rfl
    intro c hc
    exact (hrest c hc).1

end NumberScan

namespace NumericToken

/-- What `yylex` makes of the token in dialect 3. -/
def lexed (t : NumericToken) : Token :=
  if t.exponent.isSome then .float t.text
  else if t.fraction.isSome then .scaledint t.text
  else if t.mantissa ≤ 2147483647 then .number t.mantissa
  else .number64bit t.text

theorem token_ofToken (t : NumericToken) :
    (NumberScan.ofToken t).token sqlDialectV6 t.text = some t.lexed := by
  unfold NumberScan.token NumberScan.ofToken NumberScan.ofMantissa NumberScan.start lexed
  cases he : t.exponent with
  | some e => rfl
  | none =>
    cases hf : t.fraction with
    | some digits => rfl
    | none =>
      by_cases hsmall : t.mantissa ≤ 2147483647
      · simp [hsmall]
      · simp [hsmall, sqlDialectV6, sqlDialectV6Transition]

/-- A token starts the way `yylex` asks for before it tries a number. -/
theorem text_starts (t : NumericToken) (rest : List UInt8) :
    ∃ c ptr, t.text ++ rest = c :: ptr ∧ ¬ (c = 34 ∨ c = 39) ∧
      (isDigit c = true ∨ c = 46 ∧ ptr.head?.any isDigit = true) := by
  have hdigitNotQuote : ∀ c, isDigit c = true → ¬ (c = 34 ∨ c = 39) := by
    intro c hc
    rintro (rfl | rfl) <;> exact absurd hc (by decide)
  have hdigits := t.hasDigit
  have hfractionDigits := t.fractionDigits
  unfold text
  cases hw : t.whole with
  | cons c whole =>
    have hc : isDigit c = true := t.wholeDigits c (by rw [hw]; exact List.mem_cons_self)
    exact ⟨c, _, rfl, hdigitNotQuote c hc, Or.inl hc⟩
  | nil =>
    have hfraction : t.fraction.getD [] ≠ [] := hdigits.resolve_left (fun h => h hw)
    unfold fractionText
    cases hf : t.fraction with
    | none => exact absurd (by rw [hf]; rfl) hfraction
    | some digits =>
      rw [hf] at hfraction hfractionDigits
      cases digits with
      | nil => exact absurd rfl hfraction
      | cons d digits =>
        have hd : isDigit d = true := hfractionDigits d List.mem_cons_self
        refine ⟨46, _, rfl, by decide, Or.inr ⟨rfl, ?_⟩⟩
        simpa using hd

theorem yylex_number (t : NumericToken) {rest : List UInt8} (hrest : t.Ends rest) :
    yylex sqlDialectV6 (t.text ++ rest) =
      if 9223372036854775808 < t.mantissa then none else some (t.lexed, rest) := by
  obtain ⟨c, ptr, hstart, hquote, hnumber⟩ := t.text_starts rest
  have hlex : yylex sqlDialectV6 (t.text ++ rest) =
      ((NumberScan.scan (t.text ++ rest) .start).1.token sqlDialectV6
        ((t.text ++ rest).take ((t.text ++ rest).length -
          (NumberScan.scan (t.text ++ rest) .start).2.length))).map
        fun token => (token, (NumberScan.scan (t.text ++ rest) .start).2) := by
    rw [hstart, yylex, if_neg hquote, if_pos hnumber]
  rw [hlex]
  by_cases hover : 9223372036854775808 < t.mantissa
  · have herror := NumberScan.scan_mantissa_overflow t hover (t.exponentText ++ rest)
    rw [if_pos hover, NumberScan.token, text, List.append_assoc, List.append_assoc, if_pos herror]
    rfl
  · rw [if_neg hover, NumberScan.scan_token t (Nat.not_lt.mp hover) hrest]
    have htext : (t.text ++ rest).take ((t.text ++ rest).length - rest.length) = t.text := by
      rw [List.length_append, Nat.add_sub_cancel, List.take_left]
    rw [htext, token_ofToken]
    rfl

end NumericToken

end InterBase
