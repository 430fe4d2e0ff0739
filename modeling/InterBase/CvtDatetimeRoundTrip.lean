import InterBase.CvtDatetimeExact

namespace InterBase.Datetime

open Cvt Gds Arith Gregorian

/-- The destination takes all of the text. -/
def Destination.LongEnough (dest : Destination) (text : List UInt8) : Prop :=
  text.length ≤ dest.room

/-- What has been read is the value. -/
def DatetimeValue.IsRead (r : Timestamp) : DatetimeValue → Prop
  | .sqlDate d => r.timestampDate = d.date.toInt
  | .sqlTime t => r.timestampTime = t.time.toNat
  | .timestamp d t => r.timestampDate = d.date.toInt ∧ r.timestampTime = t.time.toNat

/-- The text of a value in a destination is accepted for the type of the value, and gives the value. -/
def RoundTrips (version4 : Bool) (localtime : Times) (value : DatetimeValue) (dest : Destination) :
    Prop :=
  ∃ text r, datetimeToText version4 value dest = .ok text ∧
    stringToDatetime value.expectType localtime text = .ok r ∧ value.IsRead r

/-- A timestamp of a year before 100 that is written in the format prior to BLR version 5. -/
def DatetimeValue.ShortYear (version4 : Bool) : DatetimeValue → Prop
  | .timestamp d _ => version4 = true ∧ (decodeTimestamp ⟨d.date.toInt, 0⟩).tmYear + 1900 < 100
  | _ => False

section

variable {g : Date} {version4 : Bool} {dest : Destination} {localtime : Times} {q : List UInt8}
  {d : SqlDate} {t : SqlTime} {precision n time k : Nat}

theorem digitText_not_null : ∀ c ∈ digitText precision n, c ≠ 0 := by
  rintro c hc rfl
  exact absurd (digitText_decimal 0 hc) (by decide)

theorem month_not_null (month : Nat) : ∀ c ∈ (months.getD month []).take 3, c ≠ 0 := by
  have all : ∀ m ∈ months, ∀ c ∈ m, c ≠ 0 := by simp [months, ascii]
  intro c hc
  have hc := List.mem_of_mem_take hc
  by_cases h : month < months.length
  · rw [List.getD_eq_getElem _ _ h] at hc
    exact all _ (List.getElem_mem h) c hc
  · rw [List.getD_eq_default _ _ (by omega)] at hc
    exact absurd hc List.not_mem_nil

theorem isoDate_not_null (g : Date) : ∀ c ∈ isoDate g, c ≠ 0 := by
  intro c hc
  unfold isoDate at hc
  simp only [List.mem_append, List.mem_cons] at hc
  obtain hc | rfl | hc | rfl | hc := hc
  · exact digitText_not_null c hc
  · decide
  · exact digitText_not_null c hc
  · decide
  · exact digitText_not_null c hc

theorem englishDate_not_null (g : Date) : ∀ c ∈ englishDate g, c ≠ 0 := by
  intro c hc
  unfold englishDate at hc
  simp only [List.mem_append, List.mem_cons] at hc
  obtain hc | rfl | hc | rfl | hc := hc
  · exact digitText_not_null c hc
  · decide
  · exact month_not_null _ c hc
  · decide
  · exact digitText_not_null c hc

theorem clockTime_not_null (precision time : Nat) : ∀ c ∈ clockTime precision time, c ≠ 0 := by
  intro c hc
  unfold clockTime at hc
  simp only [List.mem_append, List.mem_cons] at hc
  obtain hc | rfl | hc | rfl | hc | rfl | hc := hc
  · exact digitText_not_null c hc
  · decide
  · exact digitText_not_null c hc
  · decide
  · exact digitText_not_null c hc
  · decide
  · exact digitText_not_null c hc

/-- A text that fits may be followed by blanks. -/
theorem moveText_long (long : dest.LongEnough q) (clear : ∀ c ∈ q, c ≠ 0) :
    ∃ k, moveText q dest = .ok (q ++ List.replicate k 32) := by
  have whole : min q.length dest.room = q.length := Nat.min_eq_left long
  unfold moveText
  simp only [whole, List.drop_length, List.take_length, List.all_nil, if_true]
  cases dest.dtype with
  | text => exact ⟨_, rfl⟩
  | cstring =>
    refine ⟨0, ?_⟩
    rw [List.replicate_zero, List.append_nil]
    refine congrArg Except.ok (List.takeWhile_eq_self_iff.mpr fun c hc => ?_)
    exact decide_eq_true (clear c hc)
  | varying => exact ⟨0, by rw [List.replicate_zero, List.append_nil]⟩

theorem SqlDate.exists_date (d : SqlDate) :
    ∃ g : Date, 1 ≤ g.year ∧ g.year ≤ 9999 ∧ d.date.toInt = g.number - 678882 :=
  inYears_iff.mp d.inYears

theorem SqlTime.inDay_nat (t : SqlTime) : t.time.toNat < 864000000 := by
  have := t.inDay
  unfold Arith.ticksPerDay at this
  omega

theorem datetimeText_sqlDate (low : 1 ≤ g.year) (high : g.year ≤ 9999)
    (number : d.date.toInt = g.number - 678882) :
    datetimeText version4 (.sqlDate d) = isoDate g := by
  unfold datetimeText
  simp only
  rw [number, decodeTimestamp_number low high]
  exact dateText_eq rfl

theorem datetimeText_sqlTime : datetimeText version4 (.sqlTime t) = clockTime 2 t.time.toNat :=
  timeText_eq (ndate wrapping 0).run

/-- The text of a timestamp, with what stands behind the date. -/
theorem datetimeText_timestamp (low : 1 ≤ g.year) (high : g.year ≤ 9999)
    (number : d.date.toInt = g.number - 678882) :
    datetimeText false (.timestamp d t) = isoDate g ++ blank :: clockTime 2 t.time.toNat := by
  unfold datetimeText
  simp only
  rw [number, decodeTimestamp_number low high, if_neg Bool.false_ne_true,
    dateText_eq (g := g) rfl, timeText_eq, List.append_assoc, List.singleton_append]

theorem datetimeText_version4 (low : 1 ≤ g.year) (high : g.year ≤ 9999)
    (number : d.date.toInt = g.number - 678882) :
    datetimeText true (.timestamp d t) = englishDate g ++
      if t.time.toNat ≠ 0 then blank :: clockTime 1 t.time.toNat else [] := by
  unfold datetimeText
  simp only
  rw [number, decodeTimestamp_number low high, if_pos trivial, dateText4_eq (g := g) rfl, timeText_eq]
  refine congrArg _ (if_congr ?_ rfl rfl)
  simp only
  omega

theorem roundTrips_of_read {value : DatetimeValue} {q : List UInt8} {r : Timestamp}
    (stored : ∃ k, datetimeToText version4 value dest = .ok (q ++ List.replicate k 32))
    (read : ∀ k, stringToDatetime value.expectType localtime (q ++ List.replicate k 32) = .ok r)
    (same : value.IsRead r) : RoundTrips version4 localtime value dest := by
  obtain ⟨k, stored⟩ := stored
  exact ⟨_, r, stored, read k, same⟩

/-- A text that begins with a year of 4 digits, and has no time behind it. -/
theorem read_isoDate (low : 1 ≤ g.year) (high : g.year ≤ 9999) (k : Nat) :
    stringToDatetime .sqlDate localtime (isoDate g ++ List.replicate k 32) =
      .ok ⟨g.number - 678882, 0⟩ := by
  have date : dateOf .sqlDate localtime (isoParse g) = .ok (tmOf g) :=
    dateOf_year (by simp) rfl rfl rfl rfl rfl rfl
  unfold stringToDatetime
  simp only
  rw [if_neg (by simp), Nat.sub_zero, parse_isoDate high (ends_replicate k), follow_end]
  exact assemble_date (by simp) low high date (by norm_num) (fun _ => le_refl 2)
    ⟨by norm_num, rfl, rfl, rfl, rfl, .inl ⟨rfl, rfl⟩⟩

theorem read_clockTime (localtime : Times) (inDay : time < 864000000) : ∃ date, ∀ k,
    stringToDatetime .sqlTime localtime (clockTime 2 time ++ List.replicate k 32) =
      .ok ⟨date, time⟩ := by
  obtain ⟨date, assembled⟩ := assemble_time localtime
    (show 4 ≤ 6 by norm_num) (Parse.empty.withTime_isTime 2 inDay)
  refine ⟨date, fun k => ?_⟩
  unfold stringToDatetime
  simp only
  rw [if_pos trivial, parse_clockTime inDay (by norm_num)]
  exact assembled

theorem read_isoTimestamp (low : 1 ≤ g.year) (high : g.year ≤ 9999) (inDay : time < 864000000)
    (k : Nat) : stringToDatetime .timestamp localtime
      (isoDate g ++ blank :: clockTime 2 time ++ List.replicate k 32) =
      .ok ⟨g.number - 678882, time⟩ := by
  have date : dateOf .timestamp localtime ((isoParse g).withTime 2 time) = .ok (tmOf g) :=
    dateOf_year (by simp) rfl rfl rfl rfl rfl rfl
  unfold stringToDatetime
  simp only
  rw [if_neg (by simp), Nat.sub_zero, List.append_assoc, List.cons_append,
    parse_isoDate high (ends_cons rfl), follow_clockTime inDay (by norm_num)]
  exact assemble_date (by simp) low high date (by norm_num) (by simp)
    ((isoParse g).withTime_isTime _ inDay)

/-- What is read of a date with the name of the month: the parts of the date, and those of the time
if there is one. -/
theorem parse_english (localtime : Times) (high : g.year ≤ 9999) (inDay : time < 864000000) : ∃ i parse, 1 ≤ i ∧
    (∀ j ≤ 2, parse.components j = (englishParse g).components j ∧
      parse.description j = (englishParse g).description j) ∧ parse.IsTime time ∧
    ∀ k, parseComponents .timestamp localtime 7 0 Parse.empty
      (englishDate g ++ (if time ≠ 0 then blank :: clockTime 1 time else []) ++
        List.replicate k 32) = .ok (.components i parse) := by
  by_cases midnight : time = 0
  · subst midnight
    refine ⟨2, englishParse g, by norm_num, fun j _ => ⟨rfl, rfl⟩,
      ⟨by norm_num, rfl, rfl, rfl, rfl, .inl ⟨rfl, rfl⟩⟩, fun k => ?_⟩
    rw [if_neg (by simp), List.append_nil, parse_englishDate high (ends_replicate k), follow_end]
  · refine ⟨6, (englishParse g).withTime 1 time, by norm_num, ?_,
      (englishParse g).withTime_isTime _ inDay, fun k => ?_⟩
    · intro j hj
      interval_cases j <;> exact ⟨rfl, rfl⟩
    · rw [if_pos midnight, List.append_assoc, List.cons_append,
        parse_englishDate high (ends_cons rfl), follow_clockTime inDay (by norm_num)]

/-- The date of such a text: its year is kept if it has 3 digits or more. -/
theorem dateOf_english (low : 1 ≤ g.year) (high : g.year ≤ 9999) {parse : Parse}
    (h : ∀ j ≤ 2, parse.components j = (englishParse g).components j ∧
      parse.description j = (englishParse g).description j) :
    dateOf .timestamp localtime parse =
      .ok { tmOf g with tmYear := yearOf localtime (digitCount 1 g.year) g.year - 1900 } := by
  obtain ⟨day, first⟩ := h 0 (by norm_num)
  obtain ⟨month, second⟩ := h 1 (by norm_num)
  obtain ⟨year, third⟩ := h 2 (by norm_num)
  have days : digitCount 1 g.day ≤ 2 := (digitCount_le_iff (by norm_num)).mpr (day_lt g)
  have least : 1 ≤ digitCount 1 g.day := Nat.le_max_left _ _
  have years : digitCount 1 g.year ≤ 4 := (digitCount_le_iff (by norm_num)).mpr (by omega)
  refine dateOf_month (by simp) ?_ second third (by omega) year month day
  rw [first]
  show 1 ≤ (digitCount 1 g.day : Int) ∧ (digitCount 1 g.day : Int) ≤ 2
  omega

theorem read_englishTimestamp (low : 100 ≤ g.year) (high : g.year ≤ 9999)
    (inDay : time < 864000000) (k : Nat) : stringToDatetime .timestamp localtime
      (englishDate g ++ (if time ≠ 0 then blank :: clockTime 1 time else []) ++
        List.replicate k 32) = .ok ⟨g.number - 678882, time⟩ := by
  obtain ⟨i, parse, least, same, isTime, parsed⟩ :=
    parse_english localtime high inDay
  have long : ¬ digitCount 1 g.year ≤ 2 := by
    rw [digitCount_le_iff (by norm_num)]
    omega
  have date : dateOf .timestamp localtime parse = .ok (tmOf g) := by
    rw [dateOf_english (by omega) high same, yearOf_long (by omega)]
    rfl
  unfold stringToDatetime
  simp only
  rw [if_neg (by simp), Nat.sub_zero, parsed k]
  exact assemble_date (by simp) (by omega) high date least (by simp) isTime

/-- A year of one or two digits is taken for another one, if the date exists at all. -/
theorem read_shortYear (low : 1 ≤ g.year) (high : g.year < 100) (inDay : time < 864000000)
    {k : Nat} {r : Timestamp} (read : stringToDatetime .timestamp localtime
      (englishDate g ++ (if time ≠ 0 then blank :: clockTime 1 time else []) ++
        List.replicate k 32) = .ok r) : r.timestampDate ≠ g.number - 678882 := by
  intro same
  obtain ⟨i, parse, least, parts, isTime, parsed⟩ :=
    parse_english localtime (show g.year ≤ 9999 by omega) inDay
  have short : digitCount 1 g.year ≤ 2 := (digitCount_le_iff (by norm_num)).mpr high
  have pos : 1 ≤ digitCount 1 g.year := Nat.le_max_left _ _
  have century : 1900 ≤ yearOf localtime (digitCount 1 g.year) g.year :=
    yearOf_short (by omega) (by omega)
  unfold stringToDatetime at read
  simp only at read
  rw [if_neg (by simp), Nat.sub_zero, parsed k] at read
  have decoded := assemble_decoded (by simp) read
  have original : ndate wrapping (g.number - 678882) = pure (tmOf g) := ndate_number low (by omega)
  rw [dateOf_english low (by omega) parts, same, original] at decoded
  have years := congrArg Tm.tmYear (Except.ok.inj decoded)
  have kept : (Id.run (pure (tmOf g) : Id Tm)).tmYear = (g.year : Int) - 1900 := rfl
  rw [kept] at years
  simp only at years
  omega

theorem moved_sqlDate (number : d.date.toInt = g.number - 678882) (low : 1 ≤ g.year)
    (high : g.year ≤ 9999) (long : dest.LongEnough (datetimeText version4 (.sqlDate d))) :
    ∃ k, datetimeToText version4 (.sqlDate d) dest = .ok (isoDate g ++ List.replicate k 32) := by
  unfold datetimeToText
  rw [datetimeText_sqlDate low high number] at long ⊢
  exact moveText_long long (isoDate_not_null g)

theorem moved_sqlTime (long : dest.LongEnough (datetimeText version4 (.sqlTime t))) :
    ∃ k, datetimeToText version4 (.sqlTime t) dest =
      .ok (clockTime 2 t.time.toNat ++ List.replicate k 32) := by
  unfold datetimeToText
  rw [datetimeText_sqlTime] at long ⊢
  exact moveText_long long (clockTime_not_null 2 _)

theorem moved_timestamp (number : d.date.toInt = g.number - 678882) (low : 1 ≤ g.year)
    (high : g.year ≤ 9999) (long : dest.LongEnough (datetimeText false (.timestamp d t))) :
    ∃ k, datetimeToText false (.timestamp d t) dest =
      .ok (isoDate g ++ blank :: clockTime 2 t.time.toNat ++ List.replicate k 32) := by
  unfold datetimeToText
  rw [datetimeText_timestamp low high number] at long ⊢
  refine moveText_long long fun c hc => ?_
  obtain hc | hc := List.mem_append.mp hc
  · exact isoDate_not_null g c hc
  · obtain rfl | hc := List.mem_cons.mp hc
    · decide
    · exact clockTime_not_null 2 _ c hc

theorem moved_version4 (number : d.date.toInt = g.number - 678882) (low : 1 ≤ g.year)
    (high : g.year ≤ 9999) (long : dest.LongEnough (datetimeText true (.timestamp d t))) :
    ∃ k, datetimeToText true (.timestamp d t) dest =
      .ok (englishDate g ++ (if t.time.toNat ≠ 0 then blank :: clockTime 1 t.time.toNat else []) ++
        List.replicate k 32) := by
  unfold datetimeToText
  rw [datetimeText_version4 low high number] at long ⊢
  simp only [if_true]
  rw [List.take_of_length_le long]
  refine moveText_long long fun c hc => ?_
  obtain hc | hc := List.mem_append.mp hc
  · exact englishDate_not_null g c hc
  · split at hc
    next =>
      obtain rfl | hc := List.mem_cons.mp hc
      · decide
      · exact clockTime_not_null 1 _ c hc
    next => exact absurd hc List.not_mem_nil

theorem shortYear_iff (number : d.date.toInt = g.number - 678882) (low : 1 ≤ g.year)
    (high : g.year ≤ 9999) : DatetimeValue.ShortYear version4 (.timestamp d t) ↔
      version4 = true ∧ g.year < 100 := by
  unfold DatetimeValue.ShortYear
  simp only
  rw [number, decodeTimestamp_number low high]
  refine and_congr_right fun _ => ?_
  show (g.year : Int) - 1900 + 1900 < 100 ↔ g.year < 100
  omega

/-- All values are read as they were written, except timestamps of the years before 100 in the older
format. -/
theorem datetime_roundTrips_iff (version4 : Bool) (localtime : Times) (value : DatetimeValue)
    (dest : Destination) (long : dest.LongEnough (datetimeText version4 value)) :
    RoundTrips version4 localtime value dest ↔ ¬ value.ShortYear version4 := by
  cases value with
  | sqlDate d =>
    obtain ⟨g, low, high, number⟩ := SqlDate.exists_date d
    refine iff_of_true ?_ id
    exact roundTrips_of_read (moved_sqlDate number low high long) (read_isoDate low high) number.symm
  | sqlTime t =>
    obtain ⟨date, read⟩ := read_clockTime localtime (SqlTime.inDay_nat t)
    exact iff_of_true (roundTrips_of_read (moved_sqlTime long) read rfl) id
  | timestamp d t =>
    obtain ⟨g, low, high, number⟩ := SqlDate.exists_date d
    have inDay := SqlTime.inDay_nat t
    rw [shortYear_iff number low high]
    cases version4 with
    | false =>
      refine iff_of_true ?_ (fun both => Bool.noConfusion both.1)
      exact roundTrips_of_read (moved_timestamp number low high long)
        (read_isoTimestamp low high inDay) ⟨number.symm, rfl⟩
    | true =>
      have moved := moved_version4 number low high long
      by_cases short : g.year < 100
      · refine iff_of_false ?_ (not_not.mpr ⟨rfl, short⟩)
        rintro ⟨text, r, stored, read, date, -⟩
        obtain ⟨k, moved⟩ := moved
        rw [moved] at stored
        obtain rfl := Except.ok.inj stored
        exact read_shortYear low short inDay read (date.trans number)
      · refine iff_of_true ?_ (fun both => short both.2)
        exact roundTrips_of_read moved (read_englishTimestamp (Nat.not_lt.mp short) high inDay)
          ⟨number.symm, rfl⟩

end

/-- Noon of the first of January 2000. -/
def noon2000 : DatetimeValue := .timestamp millennium noon

def column : Destination := ⟨.varying, 32, by norm_num⟩

def newYear1997 : Times := ⟨⟨1, 0, 97⟩, 0, 0, 0⟩

theorem datetime_roundTrips_noon2000 : RoundTrips true newYear1997 noon2000 column :=
  (datetime_roundTrips_iff true newYear1997 noon2000 column
    (by show _ ≤ 30; decide +kernel)).mpr (by
      rintro ⟨-, short⟩
      exact absurd short (by decide +kernel))

/-- The first of January of the year 5. -/
def newYear5 : DatetimeValue := .timestamp ⟨-677114, by decide⟩ ⟨0, by decide⟩

/-- It is written as 1-JAN-5 and read as the first of January 2005. -/
theorem datetime_shortYear : ¬ RoundTrips true newYear1997 newYear5 column := by
  rintro ⟨text, r, stored, read, date, -⟩
  have written : datetimeToText true newYear5 column = .ok [49, 45, 74, 65, 78, 45, 53] := by
    decide +kernel
  rw [written] at stored
  obtain rfl := Except.ok.inj stored
  have other : stringToDatetime .timestamp newYear1997 [49, 45, 74, 65, 78, 45, 53] =
      .ok ⟨53371, 0⟩ := by decide +kernel
  obtain rfl := Except.ok.inj (other.symm.trans read)
  exact absurd date (by decide)

end InterBase.Datetime
