import InterBase.CvtDatetimeText

namespace InterBase.Datetime

open Cvt Gds Arith Gregorian

/-- A date as `%4.4d-%2.2d-%2.2d`. -/
def isoDate (g : Date) : List UInt8 :=
  digitText 4 g.year ++ dash :: (digitText 2 g.month ++ dash :: digitText 2 g.day)

/-- A date as `%d-%.3s-%d`. -/
def englishDate (g : Date) : List UInt8 :=
  digitText 1 g.day ++ dash :: ((months.getD (g.month - 1) []).take 3 ++ dash :: digitText 1 g.year)

/-- A time with at least `precision` digits of the hour. -/
def clockTime (precision time : Nat) : List UInt8 :=
  digitText precision (time / 600000 / 60) ++ colon :: (digitText 2 (time / 600000 % 60) ++
    colon :: (digitText 2 (time / 10000 % 60) ++ period :: digitText 4 (time % 10000)))

section

variable {g : Date} {time k precision n : Nat} {expectType : ExpectType} {localtime : Times}
  {parse : Parse} {i : Nat}

theorem printInt_natCast : printInt precision (n : Int) = digitText precision n := by
  unfold printInt
  rw [if_neg (by omega), Int.natAbs_natCast, List.nil_append]

theorem decodeTimestamp_number (low : 1 ≤ g.year) (high : g.year ≤ 9999) (time : Nat) :
    decodeTimestamp ⟨g.number - 678882, time⟩ =
      { tmOf g with
        tmHour := (time / 600000 / 60 : Nat)
        tmMin := (time / 600000 % 60 : Nat)
        tmSec := (time / 10000 % 60 : Nat) } := by
  have date : ndate wrapping (g.number - 678882) = pure (tmOf g) := ndate_number low (by omega)
  unfold decodeTimestamp
  simp only
  rw [date]
  rfl

theorem dateText_eq {times : Times} (h : times.toTm = tmOf g) : dateText times = isoDate g := by
  have year : times.tmYear + 1900 = (g.year : Int) := h ▸ Int.sub_add_cancel ..
  have month : times.tmMon + 1 = (g.month : Int) := h ▸ Int.sub_add_cancel ..
  have day : times.tmMday = (g.day : Int) := h ▸ rfl
  unfold dateText isoDate
  rw [year, month, day, printInt_natCast, printInt_natCast, printInt_natCast]
  simp only [List.append_assoc, List.cons_append, List.nil_append]

theorem dateText4_eq {times : Times} (h : times.toTm = tmOf g) :
    dateText4 times = englishDate g := by
  have first := g.month_mem.1
  have year : times.tmYear + 1900 = (g.year : Int) := h ▸ Int.sub_add_cancel ..
  have mon : times.tmMon = (g.month : Int) - 1 := h ▸ rfl
  have month : times.tmMon.toNat = g.month - 1 := by omega
  have day : times.tmMday = (g.day : Int) := h ▸ rfl
  unfold dateText4 englishDate
  rw [year, month, day, printInt_natCast, printInt_natCast]
  simp only [List.append_assoc, List.cons_append, List.nil_append]

theorem timeText_eq (tm : Tm) : timeText precision
    { tm with
      tmHour := (time / 600000 / 60 : Nat)
      tmMin := (time / 600000 % 60 : Nat)
      tmSec := (time / 10000 % 60 : Nat) } time = clockTime precision time := by
  unfold timeText clockTime
  simp only [printInt_natCast, List.append_assoc, List.cons_append, List.nil_append]

theorem digitCount_le_iff (least : precision ≤ k) :
    digitCount precision n ≤ k ↔ n < 10 ^ k := by
  unfold digitCount
  rw [max_le_iff, Nat.digits_length_le_iff (by norm_num)]
  exact and_iff_right least

theorem digitCount_eq (small : n < 10 ^ precision) : digitCount precision n = precision :=
  Nat.le_antisymm ((digitCount_le_iff (Nat.le_refl _)).mpr small) (Nat.le_max_left _ _)

def isoParse (g : Date) : Parse :=
  ((Parse.empty.set 0 g.year 4).set 1 g.month 2).set 2 g.day 2

def englishParse (g : Date) : Parse :=
  ({ (Parse.empty.set 0 g.day (digitCount 1 g.day)).set 1 g.month (-1) with
    haveEnglishMonth := true } : Parse).set 2 g.year (digitCount 1 g.year)

/-- The parts of a time behind those of a date. -/
def Parse.withTime (parse : Parse) (precision time : Nat) : Parse :=
  (((parse.set 3 (time / 600000 / 60) (digitCount precision (time / 600000 / 60))).set 4
    (time / 600000 % 60) 2).set 5 (time / 10000 % 60) 2).set 6 (time % 10000) 4

theorem day_lt (g : Date) : g.day < 10 ^ 2 := by
  have := g.day_mem.2
  unfold monthLength at this
  split_ifs at this <;> norm_num <;> omega

theorem month_lt (g : Date) : g.month < 10 ^ 2 := by
  have := g.month_mem.2
  norm_num
  omega

theorem parse_isoDate (high : g.year ≤ 9999) {rest : List UInt8} (ends : Ends rest) :
    parseComponents expectType localtime 7 0 Parse.empty (isoDate g ++ rest) =
      follow expectType localtime 4 2 (isoParse g) rest := by
  have day := day_lt g
  have month := month_lt g
  unfold isoDate
  simp only [List.append_assoc, List.cons_append]
  rw [parse_number (by norm_num) (by omega) (ends_cons rfl), follow_dash,
    parse_number (by norm_num) (by omega) (ends_cons rfl), follow_dash,
    parse_number (by norm_num) (by omega) ends]
  rw [digitCount_eq (show g.year < 10 ^ 4 by omega), digitCount_eq month,
    digitCount_eq day]
  rfl

theorem parse_englishDate (high : g.year ≤ 9999) {rest : List UInt8} (ends : Ends rest) :
    parseComponents expectType localtime 7 0 Parse.empty (englishDate g ++ rest) =
      follow expectType localtime 4 2 (englishParse g) rest := by
  have day := day_lt g
  have month := g.month_mem
  unfold englishDate
  simp only [List.append_assoc, List.cons_append]
  rw [parse_number (by norm_num) (by omega) (ends_cons rfl), follow_dash,
    parse_month (by omega) rfl, parse_number (by norm_num) (by omega) ends,
    Nat.sub_add_cancel month.1]
  rfl

theorem parse_clockTime (inDay : time < 864000000) (pos : 0 < precision) :
    parseComponents expectType localtime 4 3 parse
        (clockTime precision time ++ List.replicate k 32) =
      .ok (.components 6 (parse.withTime precision time)) := by
  unfold clockTime
  simp only [List.append_assoc, List.cons_append]
  rw [parse_number pos (by omega) (ends_cons rfl), follow_colon,
    parse_number (by norm_num) (by omega) (ends_cons rfl), follow_colon,
    parse_number (by norm_num) (by omega) (ends_cons rfl), follow_period (by norm_num),
    parse_number (by norm_num) (by omega) (ends_replicate k), follow_end,
    digitCount_eq (n := time / 600000 % 60) (by omega),
    digitCount_eq (n := time / 10000 % 60) (by omega),
    digitCount_eq (n := time % 10000) (by omega)]
  rfl

/-- A timestamp has a blank between date and time. -/
theorem follow_clockTime (inDay : time < 864000000) (pos : 0 < precision) :
    follow expectType localtime 4 2 parse
        (blank :: (clockTime precision time ++ List.replicate k 32)) =
      .ok (.components 6 (parse.withTime precision time)) := by
  rw [← parse_clockTime inDay pos]
  unfold clockTime
  simp only [List.append_assoc, List.cons_append]
  exact follow_blank pos

/-- The date of a text that begins with a year of 4 digits. -/
theorem dateOf_year (other : expectType ≠ .sqlTime) (first : parse.description 0 = 4)
    (second : parse.description 1 = 2) (third : parse.description 2 = 2)
    (year : parse.components 0 = g.year) (month : parse.components 1 = g.month)
    (day : parse.components 2 = g.day) : dateOf expectType localtime parse = .ok (tmOf g) := by
  have place : positions parse = (0, 1, 2) := by
    unfold positions
    rw [first, if_pos (by norm_num)]
  have kept : yearOf localtime 4 g.year = g.year := by
    unfold yearOf
    rw [if_neg (by norm_num), if_neg (by norm_num)]
  unfold dateOf
  rw [place]
  simp only [first, second, third, year, month, day, kept]
  cases expectType with
  | sqlTime => exact absurd rfl other
  | sqlDate => rfl
  | timestamp => rfl

/-- The date of a text with the name of a month in the middle. -/
theorem dateOf_month (other : expectType ≠ .sqlTime) {digits : Int}
    (first : 1 ≤ parse.description 0 ∧ parse.description 0 ≤ 2) (second : parse.description 1 = -1)
    (third : parse.description 2 = digits) (short : digits ≤ 4)
    (year : parse.components 2 = g.year) (month : parse.components 1 = g.month)
    (day : parse.components 0 = g.day) : dateOf expectType localtime parse =
      .ok { tmOf g with tmYear := yearOf localtime digits g.year - 1900 } := by
  have place : positions parse = (2, 1, 0) := by
    unfold positions
    rw [if_neg (by omega), if_neg (by omega), if_pos second]
  unfold dateOf
  rw [place]
  simp only [second, third, year, month, day]
  rw [if_neg (by omega)]
  cases expectType with
  | sqlTime => exact absurd rfl other
  | sqlDate => rfl
  | timestamp => rfl

theorem yearOf_long {digits : Int} (long : 3 ≤ digits) : yearOf localtime digits n = n := by
  unfold yearOf
  rw [if_neg (by omega), if_neg (by omega)]

/-- A year of one or two digits becomes one of the 20th or 21st century. -/
theorem yearOf_short {digits : Int} (pos : 1 ≤ digits) (short : digits ≤ 2) :
    1900 ≤ yearOf localtime digits n := by
  unfold yearOf
  rw [if_neg (by omega), if_pos short]
  split <;> omega

theorem encodeTimestamp_tmOf (low : 1 ≤ g.year) (high : g.year ≤ 9999) (hour min sec : Nat)
    (small : hour ≤ 23 ∧ min ≤ 59 ∧ sec ≤ 59) :
    encodeTimestamp { tmOf g with tmHour := hour, tmMin := min, tmSec := sec } =
      ⟨g.number - 678882, ((hour * 60 + min) * 60 + sec) * 10000⟩ := by
  have date : nday wrapping (tmOf g) = pure (g.number - 678882) := nday_tmOf low (by omega)
  unfold encodeTimestamp
  simp only [Timestamp.mk.injEq]
  refine ⟨?_, ?_⟩
  · show (nday wrapping (tmOf g)).run = _
    rw [date]
    rfl
  · have whole : (((hour : Int) * 60 + min) * 60 + sec) * 10000 =
        (((hour * 60 + min) * 60 + sec) * 10000 : Nat) := by push_cast; rfl
    have most : ((hour * 60 + min) * 60 + sec) * 10000 < 4294967296 := by omega
    rw [whole]
    generalize ((hour * 60 + min) * 60 + sec) * 10000 = ticks at most ⊢
    omega

/-- The fraction of a text has 4 digits, or there is none. -/
theorem fraction_eq {n : Nat} {digits : Int} (four : digits = 0 ∧ n = 0 ∨ digits = 4)
    (small : n < 10000) : ushort (n * 10 ^ (4 - digits).toNat) = n := by
  obtain ⟨rfl, rfl⟩ | rfl := four
  · rfl
  · rw [show (4 - (4 : Int)).toNat = 0 from rfl, pow_zero, Nat.mul_one]
    exact ushort_of_lt (by omega)

/-- The parts of a time as a text gives them. -/
structure Parse.IsTime (parse : Parse) (time : Nat) : Prop where
  inDay : time < 864000000
  hour : parse.components 3 = time / 600000 / 60
  min : parse.components 4 = time / 600000 % 60
  sec : parse.components 5 = time / 10000 % 60
  fraction : parse.components 6 = time % 10000
  digits : parse.description 6 = 0 ∧ time % 10000 = 0 ∨ parse.description 6 = 4

theorem Parse.withTime_isTime (parse : Parse) (precision : Nat) (inDay : time < 864000000) :
    (parse.withTime precision time).IsTime time :=
  ⟨inDay, rfl, rfl, rfl, rfl, .inr rfl⟩

/-- The parts of a date and a time are put together. -/
theorem assemble_date (other : expectType ≠ .sqlTime) (low : 1 ≤ g.year) (high : g.year ≤ 9999)
    (date : dateOf expectType localtime parse = .ok (tmOf g)) (least : 1 ≤ i)
    (most : expectType = .sqlDate → i ≤ 2) (h : parse.IsTime time) :
    assemble expectType localtime i parse = .ok ⟨g.number - 678882, time⟩ := by
  obtain ⟨inDay, hour, min, sec, fraction, digits⟩ := h
  -- What is encoded before the fraction is added.
  obtain ⟨whole, hwhole⟩ : ∃ whole, whole = time / 10000 * 10000 := ⟨_, rfl⟩
  have parts : whole / 600000 / 60 = time / 600000 / 60 ∧ whole / 600000 % 60 = time / 600000 % 60 ∧
      whole / 10000 % 60 = time / 10000 % 60 := by omega
  have years : ¬ ((tmOf g).tmYear + 1900 < minYear ∨ maxYear < (tmOf g).tmYear + 1900) := by
    unfold tmOf minYear maxYear
    simp only
    omega
  have encoded := encodeTimestamp_tmOf low high (time / 600000 / 60) (time / 600000 % 60)
    (time / 10000 % 60) (by omega)
  have seconds : ((time / 600000 / 60 * 60 + time / 600000 % 60) * 60 + time / 10000 % 60) * 10000 =
      whole := by omega
  have decoded := decodeTimestamp_number low high whole
  rw [parts.1, parts.2.1, parts.2.2] at decoded
  rw [seconds] at encoded
  unfold assemble
  simp only
  rw [if_neg other, if_neg (by omega), if_neg (fun both => absurd (most both.1) (by omega)), date]
  simp only
  rw [hour, min, sec, fraction, encoded, fraction_eq digits (by omega), if_neg (by omega),
    if_neg other, if_neg years, if_neg (fun differ => differ decoded.symm)]
  simp only
  rw [ulong_of_lt (by omega)]
  refine congrArg Except.ok (congrArg (Timestamp.mk _) ?_)
  omega

/-- A time is put together without a date. -/
theorem assemble_time (localtime : Times) (least : 4 ≤ i) (h : parse.IsTime time) : ∃ date,
    assemble .sqlTime localtime i parse = .ok ⟨date, time⟩ := by
  obtain ⟨inDay, hour, min, sec, fraction, digits⟩ := h
  have seconds : ((((time / 600000 / 60 : Nat) : Int) * 60 + (time / 600000 % 60 : Nat)) * 60 +
      (time / 10000 % 60 : Nat)) * 10000 = (time / 10000 * 10000 : Nat) := by omega
  have whole : ((time / 10000 * 10000 : Nat) % 4294967296 : Int).toNat = time / 10000 * 10000 := by
    have most : time / 10000 * 10000 < 4294967296 := by omega
    generalize time / 10000 * 10000 = ticks at most ⊢
    omega
  unfold assemble dateOf encodeTimestamp
  simp only
  rw [hour, min, sec, fraction, seconds, whole, if_pos trivial, if_neg (by omega),
    if_neg (by simp), if_neg (by omega), fraction_eq digits (by omega), if_pos trivial]
  refine ⟨_, congrArg Except.ok (congrArg (Timestamp.mk _) ?_)⟩
  rw [ulong_of_lt (by omega)]
  omega

/-- What is accepted has the date of the text. -/
theorem assemble_decoded (other : expectType ≠ .sqlTime) {r : Timestamp}
    (accepted : assemble expectType localtime i parse = .ok r) :
    dateOf expectType localtime parse = .ok (ndate wrapping r.timestampDate).run := by
  unfold assemble at accepted
  simp only at accepted
  rw [if_neg other] at accepted
  split at accepted
  next => exact absurd accepted (by simp)
  next =>
    split at accepted
    next => exact absurd accepted (by simp)
    next =>
      split at accepted
      next => exact absurd accepted (by simp)
      next tm date =>
        split at accepted
        next => exact absurd accepted (by simp)
        next =>
          split at accepted
          next => exact absurd accepted (by simp)
          next =>
            split at accepted
            next => exact absurd accepted (by simp)
            next same =>
              rw [not_not] at same
              obtain rfl := Except.ok.inj accepted
              rw [date]
              exact congrArg Except.ok (congrArg Times.toTm same)

end

end InterBase.Datetime
