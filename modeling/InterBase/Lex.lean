import InterBase.Machine

namespace InterBase

/-- The tokens of `yylex` that quoted strings and numbers give, with their `yylval`. -/
inductive Token where
  | string (yylval : List UInt8)
  | symbol (yylval : List UInt8)
  | number (yylval : Nat)
  | number64bit (yylval : List UInt8)
  | scaledint (yylval : List UInt8)
  | float (yylval : List UInt8)
deriving Repr, DecidableEq

def maxTokenLen : Nat := 256

def sqlDialectV6Transition : Nat := 2

def sqlDialectV6 : Nat := 3

/-- `classes [c] & CHR_DIGIT`. -/
def isDigit (c : UInt8) : Bool := decide (48 ≤ c.toNat ∧ c.toNat ≤ 57)

/-- Makes room at `p` for one more character. `buffer_len` is a `USHORT`, and `gds__alloc` returns
`NULL` when it is asked for no bytes. -/
def enlarge (buffer : List UInt8) (bufferLen : Nat) : Option (List UInt8 × Nat) :=
  if (bufferLen : Int) - 1 < buffer.length then
    if 2 * bufferLen = 0 then none
    else some (buffer.take bufferLen, ushort (2 * bufferLen))
  else some (buffer, bufferLen)

/-- The loop of `yylex` over a string quoted by `c`: the characters of the buffer and what is left
of the statement. -/
def quotedString (c : UInt8) : List UInt8 → List UInt8 → Nat → Option (List UInt8 × List UInt8)
  | [], _, _ => none
  | d :: ptr, buffer, bufferLen =>
    if d = c then
      match ptr with
      | [] => some (buffer, [])
      | e :: more =>
        if e ≠ c then some (buffer, e :: more)
        else
          match enlarge buffer bufferLen with
          | none => none
          | some (buffer, bufferLen) => quotedString c more (buffer ++ [e]) bufferLen
    else
      match enlarge buffer bufferLen with
      | none => none
      | some (buffer, bufferLen) => quotedString c ptr (buffer ++ [d]) bufferLen

/-- The flags of the number loop and the digits seen before an exponent. -/
structure NumberScan where
  haveError : Bool
  haveDigit : Bool
  haveDecimal : Bool
  haveExp : Bool
  haveExpSign : Bool
  haveExpDigit : Bool
  number : Nat
deriving Repr, DecidableEq

namespace NumberScan

def start : NumberScan where
  haveError := false
  haveDigit := false
  haveDecimal := false
  haveExp := false
  haveExpSign := false
  haveExpDigit := false
  number := 0

/-- `MAX_SINT64 / 10`. -/
def limitBy10 : Nat := 922337203685477580

/-- The number loop: the flags at its `break` and what is left from `ptr` on. -/
def scan : List UInt8 → NumberScan → NumberScan × List UInt8
  | [], s => (s, [])
  | c :: ptr, s =>
    if s.haveExpDigit ∧ !isDigit c then (s, c :: ptr)
    else if s.haveExpSign ∧ !isDigit c then ({ s with haveError := true }, c :: ptr)
    else if s.haveExp then
      if c = 45 ∨ c = 43 then scan ptr { s with haveExpSign := true }
      else if isDigit c then scan ptr { s with haveExpDigit := true, haveExpSign := true }
      else ({ s with haveError := true }, c :: ptr)
    else if c = 46 then
      if !s.haveDecimal then scan ptr { s with haveDecimal := true }
      else ({ s with haveError := true }, c :: ptr)
    else if isDigit c then
      if limitBy10 ≤ s.number ∧ (limitBy10 < s.number ∨ 56 < c.toNat) then
        ({ s with haveDigit := true, haveError := true }, c :: ptr)
      else scan ptr { s with haveDigit := true, number := s.number * 10 + (c.toNat - 48) }
    else if (c = 69 ∨ c = 101) ∧ s.haveDigit then scan ptr { s with haveExp := true }
    else (s, c :: ptr)

/-- The kind of number that was seen, if it is one; `text` runs from `last_token` to `ptr`. -/
def token (s : NumberScan) (clientDialect : Nat) (text : List UInt8) : Option Token :=
  if s.haveError then none
  else if s.haveExpDigit then some (.float text)
  else if s.haveExp then none
  else if !s.haveDecimal ∧ s.number ≤ 2147483647 then some (.number s.number)
  else if clientDialect < sqlDialectV6Transition then some (.float text)
  else if s.haveDecimal then some (.scaledint text)
  else some (.number64bit text)

end NumberScan

/-- `yylex` at the first character of a token. Tokens that are neither strings nor numbers are left
out, as are the errors: both are `none`. -/
def yylex (clientDialect : Nat) : List UInt8 → Option (Token × List UInt8)
  | [] => none
  | c :: ptr =>
    if c = 34 ∨ c = 39 then
      match quotedString c ptr [] maxTokenLen with
      | none => none
      | some (buffer, ptr) =>
        if c = 34 ∧ clientDialect = sqlDialectV6Transition then none
        else if c = 34 ∧ sqlDialectV6 ≤ clientDialect then
          if maxTokenLen ≤ buffer.length then none else some (.symbol buffer, ptr)
        else some (.string buffer, ptr)
    else if isDigit c ∨ c = 46 ∧ (ptr.head?.any isDigit) then
      let (s, rest) := NumberScan.scan (c :: ptr) .start
      let text := (c :: ptr).take ((c :: ptr).length - rest.length)
      (s.token clientDialect text).map fun token => (token, rest)
    else none

end InterBase
