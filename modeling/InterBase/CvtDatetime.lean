import InterBase.EvlDate

namespace InterBase.Datetime

open Cvt Gds Arith

/-- `struct tm`. -/
structure Times extends Tm where
  tmHour : Int
  tmMin : Int
  tmSec : Int
deriving Repr, DecidableEq

structure Timestamp where
  timestampDate : Int
  timestampTime : Nat
deriving Repr, DecidableEq

/-- What a conversion ends in when it does not return; `err` does not come back. -/
inductive DatetimeError where
  | arithExcept
  | conversionError
  | dateRangeExceeded
deriving Repr, DecidableEq

inductive ExpectType where
  | sqlDate
  | sqlTime
  | timestamp
deriving Repr, DecidableEq

/-- A value of one of the date types. -/
inductive DatetimeValue where
  | sqlDate (d : SqlDate)
  | sqlTime (t : SqlTime)
  | timestamp (d : SqlDate) (t : SqlTime)
deriving DecidableEq

def DatetimeValue.expectType : DatetimeValue → ExpectType
  | sqlDate _ => .sqlDate
  | sqlTime _ => .sqlTime
  | timestamp _ _ => .timestamp

/-- `isc_decode_timestamp`. -/
def decodeTimestamp (date : Timestamp) : Times :=
  let minutes := date.timestampTime / (10000 * 60)
  { (ndate wrapping date.timestampDate).run with
    tmHour := (minutes / 60 : Nat)
    tmMin := (minutes % 60 : Nat)
    tmSec := (date.timestampTime / 10000 % 60 : Nat) }

/-- `isc_encode_timestamp`; the time is a `ULONG`. -/
def encodeTimestamp (times : Times) : Timestamp :=
  ⟨(nday wrapping times.toTm).run,
    (((times.tmHour * 60 + times.tmMin) * 60 + times.tmSec) * 10000 % 4294967296).toNat⟩

def ascii (word : List Char) : List UInt8 := word.map fun c => UInt8.ofNat c.toNat

def months : List (List UInt8) :=
  [ascii ['J', 'A', 'N', 'U', 'A', 'R', 'Y'],
    ascii ['F', 'E', 'B', 'R', 'U', 'A', 'R', 'Y'],
    ascii ['M', 'A', 'R', 'C', 'H'],
    ascii ['A', 'P', 'R', 'I', 'L'],
    ascii ['M', 'A', 'Y'],
    ascii ['J', 'U', 'N', 'E'],
    ascii ['J', 'U', 'L', 'Y'],
    ascii ['A', 'U', 'G', 'U', 'S', 'T'],
    ascii ['S', 'E', 'P', 'T', 'E', 'M', 'B', 'E', 'R'],
    ascii ['O', 'C', 'T', 'O', 'B', 'E', 'R'],
    ascii ['N', 'O', 'V', 'E', 'M', 'B', 'E', 'R'],
    ascii ['D', 'E', 'C', 'E', 'M', 'B', 'E', 'R']]

def blank : UInt8 := 32
def dash : UInt8 := 45
def colon : UInt8 := 58
def period : UInt8 := 46

/-- The digits of a number, at least `precision` of them. -/
def digitText (precision n : Nat) : List UInt8 :=
  let digits := (Nat.digits 10 n).reverse.map fun d => UInt8.ofNat (48 + d)
  List.replicate (precision - digits.length) 48 ++ digits

/-- `sprintf` of an `int` with `%.pd`; with `p` = 1 it is `%d`. -/
def printInt (precision : Nat) (n : Int) : List UInt8 :=
  (if n < 0 then [dash] else []) ++ digitText precision n.natAbs

/-- The date as `%4.4d-%2.2d-%2.2d`. -/
def dateText (times : Times) : List UInt8 :=
  printInt 4 (times.tmYear + 1900) ++ [dash] ++ printInt 2 (times.tmMon + 1) ++ [dash] ++
    printInt 2 times.tmMday

/-- The time with as many digits of the hours as `precision` says. -/
def timeText (precision : Nat) (times : Times) (timestampTime : Nat) : List UInt8 :=
  printInt precision times.tmHour ++ [colon] ++ printInt 2 times.tmMin ++ [colon] ++
    printInt 2 times.tmSec ++ [period] ++ printInt 4 (timestampTime % 10000 : Nat)

/-- The date as `%d-%.3s-%d`, the format prior to BLR version 5. -/
def dateText4 (times : Times) : List UInt8 :=
  printInt 1 times.tmMday ++ [dash] ++ (months.getD times.tmMon.toNat []).take 3 ++ [dash] ++
    printInt 1 (times.tmYear + 1900)

/-- The text of a date, time or timestamp. -/
def datetimeText (version4 : Bool) : DatetimeValue → List UInt8
  | .sqlDate d => dateText (decodeTimestamp ⟨d.date.toInt, 0⟩)
  | .sqlTime t => timeText 2 (decodeTimestamp ⟨0, t.time.toNat⟩) t.time.toNat
  | .timestamp d t =>
    let date : Timestamp := ⟨d.date.toInt, t.time.toNat⟩
    let times := decodeTimestamp date
    if version4 then
      dateText4 times ++
        if times.tmHour ≠ 0 ∨ times.tmMin ≠ 0 ∨ times.tmSec ≠ 0 ∨ date.timestampTime ≠ 0 then
          blank :: timeText 1 times date.timestampTime
        else []
    else dateText times ++ [blank] ++ timeText 2 times date.timestampTime

inductive TextType where
  | text
  | cstring
  | varying
deriving Repr, DecidableEq

/-- A destination of ASCII characters; no column is longer than `MAX_COLUMN_SIZE`. -/
structure Destination where
  dtype : TextType
  dscLength : Nat
  short : dscLength ≤ 32767
deriving DecidableEq

/-- The most characters that go into a destination. -/
def Destination.room (dest : Destination) : Nat :=
  match dest.dtype with
  | .text => dest.dscLength
  | .cstring => dest.dscLength - 1
  | .varying => dest.dscLength - 2

/-- `CVT_move` of characters, and then the string that `CVT_make_string` finds there. -/
def moveText (q : List UInt8) (dest : Destination) : Except DatetimeError (List UInt8) :=
  let length := min q.length dest.room
  if (q.drop length).all (· = 32) then
    match dest.dtype with
    | .text => .ok (q.take length ++ List.replicate (dest.dscLength - length) 32)
    | .cstring => .ok ((q.take length).takeWhile (· ≠ 0))
    | .varying => .ok (q.take length)
  else .error .arithExcept

/-- A timestamp in the older format is silently truncated if the destination is not large enough. -/
def datetimeToText (version4 : Bool) (value : DatetimeValue) (dest : Destination) :
    Except DatetimeError (List UInt8) :=
  let temp := datetimeText version4 value
  match value with
  | .timestamp _ _ => moveText (if version4 then temp.take dest.room else temp) dest
  | _ => moveText temp dest

def isBlank (c : UInt8) : Bool := c = 32 || c = 9

def skipBlanks (p : List UInt8) : List UInt8 := p.dropWhile isBlank

/-- `UPPER7`. -/
def upper7 (c : UInt8) : UInt8 := if 97 ≤ c ∧ c ≤ 122 then c - 97 + 65 else c

/-- `LETTER7`. -/
def letter7 (c : UInt8) : Bool := 65 ≤ c && c ≤ 90

/-- Up to 10 letters, as many as the longest of the magic words has and one more. -/
def readWord : Nat → List UInt8 → List UInt8 × List UInt8
  | 0, p => ([], p)
  | _, [] => ([], [])
  | n + 1, c :: p =>
    if letter7 (upper7 c) then
      let (word, rest) := readWord n p
      (upper7 c :: word, rest)
    else ([], c :: p)

/-- The digits of a `USHORT`, and how many there are. -/
def readNumber (n precision : Nat) : List UInt8 → (Nat × Nat) × List UInt8
  | [] => ((n, precision), [])
  | c :: p =>
    if isDecimal c then readNumber (ushort (n * 10 + digitOf c)) (precision + 1) p
    else ((n, precision), c :: p)

def today : List UInt8 := ascii ['T', 'O', 'D', 'A', 'Y']
def now : List UInt8 := ascii ['N', 'O', 'W']
def tomorrow : List UInt8 := ascii ['T', 'O', 'M', 'O', 'R', 'R', 'O', 'W']
def yesterday : List UInt8 := ascii ['Y', 'E', 'S', 'T', 'E', 'R', 'D', 'A', 'Y']

variable (expectType : ExpectType) (localtime : Times)

/-- A magic word, or a string that is no date. `rest` is what follows the word. -/
def specialDate (word rest : List UInt8) : Except DatetimeError Timestamp :=
  if (rest.drop 1).any fun c => c ≠ 32 ∧ c ≠ 9 ∧ c ≠ 0 then .error .conversionError
  else if word = now then .ok (encodeTimestamp localtime)
  else if expectType = .sqlTime then .error .conversionError
  else
    let date := encodeTimestamp { localtime with tmHour := 0, tmMin := 0, tmSec := 0 }
    if word = today then .ok date
    else if word = tomorrow then
      .ok { date with timestampDate := slong (date.timestampDate + 1) }
    else if word = yesterday then
      .ok { date with timestampDate := slong (date.timestampDate - 1) }
    else .error .conversionError

/-- The parts that have been read. The number of digits of a part is 0 if it is missing, and -1 for
the name of a month. -/
structure Parse where
  components : Nat → Nat
  description : Nat → Int
  haveEnglishMonth : Bool
  dotSeparatorSeen : Bool

def Parse.empty : Parse := ⟨fun _ => 0, fun _ => 0, false, false⟩

def Parse.set (parse : Parse) (i n : Nat) (description : Int) : Parse :=
  { parse with
    components := Function.update parse.components i n
    description := Function.update parse.description i description }

inductive Parsed where
  | special (date : Timestamp)
  | components (i : Nat) (parse : Parse)

/-- What is between a component and the next one. -/
def readSeparator (i : Nat) (parse : Parse) : List UInt8 → Parse × List UInt8
  | [] => (parse, [])
  | c :: p =>
    if c = 47 ∨ c = dash ∨ c = 44 ∨ c = colon then (parse, p)
    else if c = period then
      ({ parse with dotSeparatorSeen := parse.dotSeparatorSeen || decide (i ≤ 1) }, p)
    else (parse, c :: p)

/-- The components from the `i`-th on, at most `left` of them. The 7 components are year, month, day,
hours, minutes, seconds and fraction, the first three in any order. -/
def parseComponents : Nat → Nat → Parse → List UInt8 → Except DatetimeError Parsed
  | 0, i, parse, _ => .ok (.components i parse)
  | left + 1, i, parse, p =>
    match skipBlanks p with
    | [] => .ok (.components i parse)
    | c :: p =>
      let next (parse : Parse) (rest : List UInt8) : Except DatetimeError Parsed :=
        match skipBlanks rest with
        | [] => .ok (.components i parse)
        | c :: rest =>
          let (parse, rest) := readSeparator i parse (c :: rest)
          parseComponents left (i + 1) parse rest
      if isDecimal (upper7 c) then
        let ((n, precision), rest) := readNumber 0 0 (c :: p)
        next (parse.set i n precision) rest
      else if letter7 (upper7 c) ∧ parse.haveEnglishMonth = false then
        let (word, rest) := readWord 10 (c :: p)
        if word.length < 3 then .error .conversionError
        else
          match if i < 2 then months.findIdx? word.isPrefixOf else none with
          | some n => next { parse.set i (n + 1) (-1) with haveEnglishMonth := true } rest
          | none => (specialDate expectType localtime word rest).map .special
      else .error .conversionError

/-- The positions of year, month and day. -/
def positions (parse : Parse) : Nat × Nat × Nat :=
  if 3 ≤ parse.description 0 then (0, 1, 2)
  else if parse.description 0 = -1 then (2, 0, 1)
  else if parse.description 1 = -1 then (2, 1, 0)
  else if parse.dotSeparatorSeen then (2, 1, 0)
  else (2, 0, 1)

/-- The year, which is the current one if it is missing, and one of 100 years if it has 2 digits. -/
def yearOf (description : Int) (component : Nat) : Int :=
  if description = 0 then localtime.tmYear + 1900
  else if description ≤ 2 then
    if (component : Int) < (localtime.tmYear - 50).tmod 100 then component + 2000
    else component + 1900
  else component

/-- The date of a text of the given parts. -/
def dateOf (parse : Parse) : Except DatetimeError Tm :=
  match expectType with
  | .sqlTime => .ok ⟨1, 0, 0⟩
  | _ =>
    let (year, month, day) := positions parse
    if 4 < parse.description year ∨ 2 < parse.description month ∨ parse.description month = 0 ∨
        2 < parse.description day ∨ parse.description day ≤ 0 then .error .conversionError
    else
      .ok ⟨parse.components day, (parse.components month : Int) - 1,
        yearOf localtime (parse.description year) (parse.components year) - 1900⟩

/-- The parts are put together; a date that does not exist is an error. -/
def assemble (i : Nat) (parse : Parse) : Except DatetimeError Timestamp :=
  let start := if expectType = .sqlTime then 3 else 0
  if i - start < 1 then .error .conversionError
  else if expectType = .sqlDate ∧ 2 < i then .error .conversionError
  else
    match dateOf expectType localtime parse with
    | .error stop => .error stop
    | .ok tm =>
      let times : Times :=
        { tm with
          tmHour := parse.components 3
          tmMin := parse.components 4
          tmSec := parse.components 5 }
      if 23 < times.tmHour ∨ 59 < times.tmMin ∨ 59 < times.tmSec ∨ 4 < parse.description 6 then
        .error .conversionError
      else
        let date := encodeTimestamp times
        let fraction := ushort (parse.components 6 * 10 ^ (4 - parse.description 6).toNat)
        let result : Timestamp := { date with timestampTime := ulong (date.timestampTime + fraction) }
        if expectType = .sqlTime then .ok result
        else if times.tmYear + 1900 < minYear ∨ maxYear < times.tmYear + 1900 then
          .error .dateRangeExceeded
        else if times ≠ decodeTimestamp date then .error .conversionError
        else .ok result

def stringToDatetime (string : List UInt8) : Except DatetimeError Timestamp :=
  let start := if expectType = .sqlTime then 3 else 0
  match parseComponents expectType localtime (7 - start) start Parse.empty string with
  | .error stop => .error stop
  | .ok (.special date) => .ok date
  | .ok (.components i parse) => assemble expectType localtime i parse

end InterBase.Datetime
