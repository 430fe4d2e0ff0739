import InterBase.EvlArith
import InterBase.GdsDate

namespace InterBase.Arith

open Cvt Gds Gregorian

def ticksPerDay : Int := 864000000

def minYear : Int := 1

def maxYear : Int := 9999

/-- The numbers of the days of the years 0001 to 9999. -/
def InYears (day : Int) : Prop :=
  (newYear 1).number - 678882 ≤ day ∧ day ≤ (yearEnd 9999).number - 678882

instance (day : Int) : Decidable (InYears day) := inferInstanceAs (Decidable (_ ∧ _))

structure SqlDate where
  date : Int32
  inYears : InYears date.toInt
deriving DecidableEq

structure SqlTime where
  time : UInt32
  inDay : (time.toNat : Int) < ticksPerDay
deriving DecidableEq

/-- An operand of date arithmetic, an exact numeric or a date type. -/
inductive DateOperand where
  | numeric (scale : Int8) (value : ExactValue)
  | sqlDate (d : SqlDate)
  | sqlTime (t : SqlTime)
  | timestamp (d : SqlDate) (t : SqlTime)
deriving DecidableEq

/-- What `result` describes; the double is a quotient of ticks by those of a day. -/
inductive DateResult where
  | int64 (vluInt64 : Int64) (dscScale : Int8)
  | long (vluLong : Int32) (dscScale : Int8)
  | double (ticks : Int64)
  | sqlDate (vluSqlDate : Int32)
  | sqlTime (vluSqlTime : UInt32)
  | timestamp (timestampDate : Int32) (timestampTime : UInt32)
deriving DecidableEq

inductive DType where
  | numeric
  | sqlDate
  | sqlTime
  | timestamp
deriving Repr, DecidableEq

def DateOperand.dtype : DateOperand → DType
  | numeric _ _ => .numeric
  | sqlDate _ => .sqlDate
  | sqlTime _ => .sqlTime
  | timestamp _ _ => .timestamp

/-- `DSC_add_result` for these types, without a result for `DTYPE_CANNOT`. -/
def dscAddResult : DType → DType → Option DType
  | .numeric, d => some d
  | d, .numeric => some d
  | .sqlDate, .sqlTime => some .timestamp
  | .sqlTime, .sqlDate => some .timestamp
  | _, _ => none

/-- `DSC_sub_result`. -/
def dscSubResult : DType → DType → Option DType
  | d, .numeric => some d
  | .sqlDate, .sqlDate => some .numeric
  | .sqlTime, .sqlTime => some .numeric
  | .timestamp, .timestamp => some .numeric
  | _, _ => none

def NodType.isSubtract (n : NodType) : Bool := n = .subtract || n = .subtract2

/-- The year of a date is checked after `isc_decode_timestamp`. -/
def yearInRange (date : Int32) : Prop :=
  let times := (ndate wrapping date.toInt).run
  minYear ≤ times.tmYear + 1900 ∧ times.tmYear + 1900 ≤ maxYear

instance (date : Int32) : Decidable (yearInRange date) := inferInstanceAs (Decidable (_ ∧ _))

/-- A count of days, and whether it is that of a date. -/
def daysOf : DateOperand → Except EvlError Int64
  | .sqlDate d => .ok d.date.toInt64
  | .numeric scale value => movGetInt64 ⟨.exact scale value, 0⟩ 0
  | _ => .error (.cvt .conversionError)

def addSqlDate (desc : DateOperand) (node : NodType) (value : DateOperand) :
    Except EvlError DateResult := do
  let d1 ← daysOf value
  let d2 ← daysOf desc
  if node.isSubtract ∧ value.dtype = .sqlDate ∧ desc.dtype = .sqlDate then .ok (.int64 (d1 - d2) 0)
  else
    let d2 := if node.isSubtract then d1 - d2 else d1 + d2
    if ¬ yearInRange d2.toInt32 then .error .dateRangeExceeded
    else .ok (.sqlDate d2.toInt32)

/-- A count of ticks. -/
def timeOf : DateOperand → Except EvlError Int64
  | .sqlTime t => .ok (Int64.ofInt t.time.toNat)
  | .numeric scale value => movGetInt64 ⟨.exact scale value, 0⟩ (-4)
  | _ => .error (.cvt .conversionError)

def ticksOfDay : Int64 := 864000000

theorem toInt_add_ticks {d2 : Int64} (h : d2 < 0) :
    (d2 + ticksOfDay).toInt = d2.toInt + ticksPerDay := by
  have low := (fits_toInt d2).1
  have ticks : ticksOfDay.toInt = 864000000 := by decide
  rw [Int64.lt_iff_toInt_lt, Int64.toInt_zero] at h
  unfold int64Min at low
  rw [Int64.toInt_add, ticks]
  refine Fits.bmod_eq ?_
  unfold Fits int64Min int64Max
  omega

/-- `while (d2 < 0) d2 += (ISC_TICKS_PER_DAY);`. -/
def makePositive (d2 : Int64) : Int64 :=
  if _h : d2 < 0 then makePositive (d2 + ticksOfDay) else d2
termination_by (-d2.toInt).toNat
decreasing_by
  have negative := Int64.lt_iff_toInt_lt.mp ‹d2 < 0›
  rw [Int64.toInt_zero] at negative
  rw [toInt_add_ticks ‹d2 < 0›]
  unfold ticksPerDay
  omega

def addSqlTime (desc : DateOperand) (node : NodType) (value : DateOperand) :
    Except EvlError DateResult := do
  let d1 ← timeOf value
  let d2 ← timeOf desc
  if node.isSubtract ∧ value.dtype = .sqlTime ∧ desc.dtype = .sqlTime then
    .ok (.long (d1 - d2).toInt32 (-4))
  else
    let d2 := if node.isSubtract then d1 - d2 else d1 + d2
    .ok (.sqlTime (makePositive d2 % ticksOfDay).toUInt64.toUInt32)

/-- `get_timestamp_to_isc_ticks`. -/
def getTimestampToIscTicks (d : SqlDate) (t : SqlTime) : Int64 :=
  d.date.toInt64 * ticksOfDay + Int64.ofInt t.time.toNat

/-- A count of ticks is made a date and a time, which is made positive behind the check. -/
def splitTicks (d2 : Int64) : Except EvlError DateResult :=
  let timestampDate := (d2 / ticksOfDay).toInt32
  let timestampTime := (d2 % ticksOfDay).toUInt64.toUInt32
  if ¬ yearInRange timestampDate then .error .dateRangeExceeded
  else if timestampTime.toInt32 < 0 then
    .ok (.timestamp (timestampDate - 1)
      (timestampTime.toInt32.toInt64 + ticksOfDay).toUInt64.toUInt32)
  else .ok (.timestamp timestampDate timestampTime)

section

variable (getDayFraction : Int8 → ExactValue → Int64)

def addTimestamp (desc : DateOperand) (node : NodType) (value : DateOperand) :
    Except EvlError DateResult :=
  match value, desc with
  | .sqlDate d, .sqlTime t =>
    if node.isSubtract then .error .expressionEvalErr else .ok (.timestamp d.date t.time)
  | .sqlDate _, _ => .error .expressionEvalErr
  | .sqlTime t, .sqlDate d =>
    if node.isSubtract then .error .expressionEvalErr else .ok (.timestamp d.date t.time)
  | _, .sqlDate _ => .error .expressionEvalErr
  | .timestamp d1 t1, .timestamp d2 t2 =>
    if node.isSubtract then
      let d2 := getTimestampToIscTicks d1 t1 - getTimestampToIscTicks d2 t2
      if node = .subtract2 then .ok (.int64 (d2 * 1000 / 864) (-9)) else .ok (.double d2)
    else .error .expressionEvalErr
  | .timestamp d t, .numeric scale v =>
    let d1 := getTimestampToIscTicks d t
    let d2 := getDayFraction scale v
    splitTicks (if node.isSubtract then d1 - d2 else d1 + d2)
  | .numeric scale v, .timestamp d t =>
    if node.isSubtract then .error .expressionEvalErr
    else splitTicks (getDayFraction scale v + getTimestampToIscTicks d t)
  | _, .timestamp _ _ =>
    if node.isSubtract then .error .expressionEvalErr else .error (.cvt .conversionError)
  | .timestamp _ _, .sqlTime _ => .error (.cvt .conversionError)
  | _, _ => .error .expressionEvalErr

/-- Date arithmetic for `nod_add`, `nod_subtract`, `nod_add2` and `nod_subtract2`. -/
def addDatetime (desc : DateOperand) (node : NodType) (value : DateOperand) :
    Except EvlError DateResult :=
  let dtype :=
    if node.isSubtract then
      -- the operand on the left decides about a difference of dates
      (dscSubResult value.dtype desc.dtype).map fun dtype =>
        if dtype = .numeric then value.dtype else dtype
    else dscAddResult value.dtype desc.dtype
  match dtype with
  | none => .error .expressionEvalErr
  | some .sqlTime => addSqlTime desc node value
  | some .sqlDate => addSqlDate desc node value
  | some _ => addTimestamp getDayFraction desc node value

end

/-- The day has the last 30 bits of one in the years, which is all that `ndate` sees of it. -/
def LooksInYears (day : Int) : Prop := ∃ d, InYears d ∧ (1073741824 : Int) ∣ day - d

/-- What an operation means, as a number of a day, as ticks, or as ticks from day 0 on. -/
inductive Meaning where
  | date (day : Int)
  | time (ticks : Int)
  | timestamp (ticks : Int)
deriving Repr, DecidableEq

/-- The exact result or an error because it is out of range; times are taken modulo 24 hours. -/
def IsExact (r : Except EvlError DateResult) : Meaning → Prop
  | .date day =>
    match r with
    | .ok (.sqlDate d) => InYears day ∧ d.toInt = day
    | .ok _ => False
    | .error _ => ¬ InYears day
  | .time ticks =>
    match r with
    | .ok (.sqlTime t) => (t.toNat : Int) = ticks % ticksPerDay
    | _ => False
  | .timestamp ticks =>
    match r with
    | .ok (.timestamp d t) =>
      InYears (ticks / ticksPerDay) ∧ d.toInt = ticks / ticksPerDay ∧
        (t.toNat : Int) = ticks % ticksPerDay
    | .ok _ => False
    | .error _ => ¬ InYears (ticks / ticksPerDay)

/-- A day out of range does not look as if it were in range, the sum of a time fits 64 bits, and the
same for the day to which the ticks are cut, which 64 bits may not hold. -/
def IsSound : Meaning → Prop
  | .date day => InYears day ∨ ¬ LooksInYears day
  | .time ticks => Fits ticks
  | .timestamp ticks =>
    InYears (ticks / ticksPerDay) ∨ ¬ LooksInYears ((toSint64 ticks).tdiv ticksPerDay)

def ticksAt (d : SqlDate) (t : SqlTime) : Int := d.date.toInt * ticksPerDay + t.time.toNat

/-- The value of a number in days or in ticks. -/
def numberAt (scale : Int8) (value : ExactValue) (places : Int) : Option Int :=
  (valueAt ⟨.exact scale value, 0⟩ places).toOption

/-- What a date or time and a number mean, if the type rules admit them and the number fits. -/
def meaning (getDayFraction : Int8 → ExactValue → Int64) (node : NodType)
    (value desc : DateOperand) : Option Meaning :=
  let signed := fun a b : Int => if node.isSubtract then a - b else a + b
  match value, desc with
  | .sqlDate d, .numeric scale v => (numberAt scale v 0).map fun n => .date (signed d.date.toInt n)
  | .sqlTime t, .numeric scale v =>
    (numberAt scale v (-4)).map fun n => .time (signed t.time.toNat n)
  | .timestamp d t, .numeric scale v =>
    some (.timestamp (signed (ticksAt d t) (getDayFraction scale v).toInt))
  | .numeric scale v, .sqlDate d =>
    if node.isSubtract then none else (numberAt scale v 0).map fun n => .date (n + d.date.toInt)
  | .numeric scale v, .sqlTime t =>
    if node.isSubtract then none else (numberAt scale v (-4)).map fun n => .time (n + t.time.toNat)
  | .numeric scale v, .timestamp d t =>
    if node.isSubtract then none
    else some (.timestamp ((getDayFraction scale v).toInt + ticksAt d t))
  | .sqlDate d, .sqlTime t => if node.isSubtract then none else some (.timestamp (ticksAt d t))
  | .sqlTime t, .sqlDate d => if node.isSubtract then none else some (.timestamp (ticksAt d t))
  | _, _ => none

section

variable {day s : Int} {x : Int64}

theorem inYears_iff : InYears day ↔
    ∃ d : Date, 1 ≤ d.year ∧ d.year ≤ 9999 ∧ day = d.number - 678882 := by
  unfold InYears
  constructor
  · rintro ⟨low, high⟩
    obtain ⟨d, after, number⟩ :=
      Date.exists_number (show (newYear 1).number ≤ day + 678882 by omega)
    exact ⟨d, after, Date.year_le (by omega), by omega⟩
  · rintro ⟨d, low, high, rfl⟩
    have first := newYear_mono low
    have least := d.newYear_le
    have last := yearEnd_mono high
    have most := d.le_yearEnd
    omega

theorem yearInRange_iff (date : Int32) : yearInRange date ↔ LooksInYears date.toInt := by
  refine (ndate_year_iff date.toInt).trans ?_
  constructor
  · rintro ⟨d, low, high, dvd⟩
    exact ⟨_, inYears_iff.mpr ⟨d, low, high, rfl⟩, dvd⟩
  · rintro ⟨day, years, dvd⟩
    obtain ⟨d, low, high, rfl⟩ := inYears_iff.mp years
    exact ⟨d, low, high, dvd⟩

theorem looksInYears_congr {a b : Int} (h : (1073741824 : Int) ∣ a - b) :
    LooksInYears a ↔ LooksInYears b := by
  constructor
  · rintro ⟨d, years, dvd⟩
    exact ⟨d, years, by omega⟩
  · rintro ⟨d, years, dvd⟩
    exact ⟨d, years, by omega⟩

theorem InYears.looks (h : InYears day) : LooksInYears day := ⟨day, h, by omega⟩

theorem InYears.sound (h : InYears (s / ticksPerDay)) : IsSound (.timestamp s) := .inl h

theorem inYears_bounds : InYears day ↔ -678575 ≤ day ∧ day ≤ 2973483 := by
  have first : (newYear 1).number = 307 := by decide
  have last : (yearEnd 9999).number = 3652365 := by decide
  unfold InYears
  omega

/-- A date is stored in 32 bits. -/
theorem toInt_toInt32 (x : Int64) : (4294967296 : Int) ∣ x.toInt - x.toInt32.toInt := by
  rw [Int64.toInt_toInt32]
  exact Int.dvd_self_sub_bmod

theorem toInt32_eq (low : -2147483648 ≤ x.toInt) (high : x.toInt ≤ 2147483647) :
    x.toInt32.toInt = x.toInt := by
  rw [Int64.toInt_toInt32]
  refine bmod_of_mem ?_ ?_ <;> norm_num <;> omega

/-- The check of a sum of days. -/
theorem checked_date (h : x.toInt = s.bmod (2 ^ 64)) :
    IsExact (if ¬ yearInRange x.toInt32 then .error .dateRangeExceeded
      else .ok (.sqlDate x.toInt32)) (.date s) ↔ IsSound (.date s) := by
  have wrapped : (18446744073709551616 : Int) ∣ s - x.toInt := by
    rw [h]
    exact Int.dvd_self_sub_bmod
  have stored := toInt_toInt32 x
  have looks : yearInRange x.toInt32 ↔ LooksInYears s := by
    rw [yearInRange_iff]
    exact looksInYears_congr (by omega)
  show _ ↔ InYears s ∨ ¬ LooksInYears s
  by_cases years : InYears s
  · have bounds := inYears_bounds.mp years
    have fits : Fits s := by
      unfold Fits int64Min int64Max
      omega
    rw [fits.bmod_eq] at h
    rw [if_neg (not_not.mpr (looks.mpr years.looks))]
    refine iff_of_true ⟨years, ?_⟩ (.inl years)
    rw [toInt32_eq (by omega) (by omega), h]
  · by_cases near : LooksInYears s
    · rw [if_neg (not_not.mpr (looks.mpr near))]
      exact iff_of_false (fun both => years both.1) (not_or.mpr ⟨years, not_not.mpr near⟩)
    · rw [if_pos (mt looks.mp near)]
      exact iff_of_true years (.inr near)

/-- The bits of a result are stored in a `ULONG`. -/
theorem toNat_stored (x : Int64) : (x.toUInt64.toUInt32.toNat : Int) = x.toInt % 4294967296 := by
  have value : x.toInt = if 2 * x.toBitVec.toNat < 2 ^ 64 then (x.toBitVec.toNat : Int)
      else (x.toBitVec.toNat : Int) - (2 ^ 64 : Nat) := BitVec.toInt_eq_toNat_cond x.toBitVec
  rw [UInt64.toNat_toUInt32, ← UInt64.toNat_toBitVec, Int64.toBitVec_toUInt64]
  split_ifs at value <;> omega

theorem toInt_stored (low : -2147483648 ≤ x.toInt) (high : x.toInt ≤ 2147483647) :
    x.toUInt64.toUInt32.toInt32.toInt = x.toInt := by
  have value : x.toUInt64.toUInt32.toInt32.toInt = (x.toUInt64.toUInt32.toNat : Int).bmod (2 ^ 32) :=
    BitVec.toInt_eq_toNat_bmod _
  rw [value, toNat_stored]
  exact (Int.emod_bmod x.toInt (2 ^ 32)).trans
    (bmod_of_mem (by norm_num; omega) (by norm_num; omega))

theorem makePositive_spec (x : Int64) : 0 ≤ (makePositive x).toInt ∧
    (makePositive x).toInt % ticksPerDay = x.toInt % ticksPerDay := by
  induction x using makePositive.induct with
  | case1 x negative ih =>
    rw [makePositive, dif_pos negative]
    rw [toInt_add_ticks negative, Int.add_emod_right] at ih
    exact ih
  | case2 x positive =>
    rw [makePositive, dif_neg positive]
    rw [Int64.not_lt, Int64.le_iff_toInt_le, Int64.toInt_zero] at positive
    exact ⟨positive, rfl⟩

/-- A sum of ticks modulo 24 hours. -/
theorem moduloDay (x : Int64) :
    ((makePositive x % ticksOfDay).toUInt64.toUInt32.toNat : Int) = x.toInt % ticksPerDay := by
  obtain ⟨positive, same⟩ := makePositive_spec x
  have ticks : ticksOfDay.toInt = ticksPerDay := by decide
  rw [toNat_stored, Int64.toInt_mod, ticks, Int.tmod_eq_emod_of_nonneg positive, same]
  unfold ticksPerDay
  omega

theorem checked_time (h : x.toInt = s.bmod (2 ^ 64)) (near : -18446744073709551616 < s ∧
    s < 18446744073709551616) :
    IsExact (.ok (.sqlTime (makePositive x % ticksOfDay).toUInt64.toUInt32)) (.time s) ↔
      IsSound (.time s) := by
  show ((makePositive x % ticksOfDay).toUInt64.toUInt32.toNat : Int) = s % ticksPerDay ↔ Fits s
  rw [moduloDay, h]
  by_cases fits : Fits s
  · rw [fits.bmod_eq]
    exact iff_of_true rfl fits
  · refine iff_of_false ?_ fits
    have turns : (18446744073709551616 : Int) ∣ s - s.bmod (2 ^ 64) := Int.dvd_self_sub_bmod
    have stored : Fits (s.bmod (2 ^ 64)) := fits_toSint64 s
    revert turns stored
    generalize s.bmod (2 ^ 64) = r
    unfold Fits int64Min int64Max ticksPerDay at *
    rintro ⟨k, turns⟩ stored
    have once : k = 1 ∨ k = -1 := by omega
    rcases once with rfl | rfl <;> omega

/-- What is made of a count of ticks. -/
theorem splitTicks_eq (x : Int64) :
    splitTicks x = .error .dateRangeExceeded ∧ ¬ LooksInYears (x.toInt.tdiv ticksPerDay) ∨
    LooksInYears (x.toInt.tdiv ticksPerDay) ∧ ∃ d t, splitTicks x = .ok (.timestamp d t) ∧
      d.toInt = (x.toInt / ticksPerDay).bmod (2 ^ 32) ∧ (t.toNat : Int) = x.toInt % ticksPerDay := by
  have ticks : ticksOfDay.toInt = 864000000 := by decide
  have bounds := fits_toInt x
  have parts := tdiv_bounds x.toInt (show (0 : Int) < 864000000 by decide)
  rw [← Int.tmod_def] at parts
  have whole := Int.mul_tdiv_add_tmod x.toInt 864000000
  have days : (x / ticksOfDay).toInt = x.toInt.tdiv 864000000 := by
    rw [Int64.toInt_div, ticks]
    refine Fits.bmod_eq ?_
    unfold Fits int64Min int64Max at *
    omega
  have rest : (x % ticksOfDay).toInt = x.toInt.tmod 864000000 := by
    rw [Int64.toInt_mod, ticks]
  have looks : yearInRange (x / ticksOfDay).toInt32 ↔ LooksInYears (x.toInt.tdiv 864000000) := by
    have stored := toInt_toInt32 (x / ticksOfDay)
    rw [days] at stored
    rw [yearInRange_iff]
    exact looksInYears_congr (by omega)
  have signed : (x % ticksOfDay).toUInt64.toUInt32.toInt32.toInt = x.toInt.tmod 864000000 := by
    rw [toInt_stored (by omega) (by omega), rest]
  unfold ticksPerDay splitTicks
  dsimp only
  by_cases inside : LooksInYears (x.toInt.tdiv 864000000)
  · rw [if_neg (not_not.mpr (looks.mpr inside))]
    refine .inr ⟨inside, ?_⟩
    by_cases negative : (x % ticksOfDay).toUInt64.toUInt32.toInt32 < 0
    · rw [if_pos negative]
      rw [Int32.lt_iff_toInt_lt, Int32.toInt_zero, signed] at negative
      refine ⟨_, _, rfl, ?_, ?_⟩
      · rw [Int32.toInt_sub, Int64.toInt_toInt32, days]
        show (_ - 1 : Int).bmod _ = _
        rw [Int.bmod_sub_bmod]
        congr 1
        omega
      · rw [toNat_stored, Int64.toInt_add, Int32.toInt_toInt64, signed, ticks, Fits.bmod_eq]
        · omega
        · unfold Fits int64Min int64Max
          omega
    · rw [if_neg negative]
      rw [Int32.lt_iff_toInt_lt, Int32.toInt_zero, signed] at negative
      refine ⟨_, _, rfl, ?_, ?_⟩
      · rw [Int64.toInt_toInt32, days]
        congr 1
        omega
      · rw [toNat_stored, rest]
        omega
  · rw [if_pos (mt looks.mp inside)]
    exact .inl ⟨rfl, inside⟩

theorem checked_timestamp (h : x.toInt = s.bmod (2 ^ 64)) :
    IsExact (splitTicks x) (.timestamp s) ↔ IsSound (.timestamp s) := by
  have wrapped : toSint64 s = x.toInt := h.symm
  show _ ↔ InYears (s / ticksPerDay) ∨ ¬ LooksInYears ((toSint64 s).tdiv ticksPerDay)
  rw [wrapped]
  by_cases years : InYears (s / ticksPerDay)
  · have bounds := inYears_bounds.mp years
    have fits : Fits s := by
      unfold ticksPerDay at bounds
      unfold Fits int64Min int64Max
      omega
    rw [fits.bmod_eq] at h
    have cut := tdiv_bounds s (show (0 : Int) < ticksPerDay by decide)
    have looks : LooksInYears (s.tdiv ticksPerDay) := by
      refine InYears.looks (inYears_bounds.mpr ?_)
      unfold ticksPerDay at *
      omega
    have both := splitTicks_eq x
    rw [h] at both ⊢
    obtain ⟨-, other⟩ | ⟨-, d, t, result, date, time⟩ := both
    · exact absurd looks other
    · rw [result]
      refine iff_of_true ⟨years, ?_, time⟩ (.inl years)
      rw [date]
      exact bmod_of_mem (by norm_num; omega) (by norm_num; omega)
  · obtain ⟨result, other⟩ | ⟨looks, d, t, result, -⟩ := splitTicks_eq x
    · rw [result]
      exact iff_of_true years (.inr other)
    · rw [result]
      exact iff_of_false (fun both => years both.1) (not_or.mpr ⟨years, not_not.mpr looks⟩)

/-- The operand of a day or time sum that is a number. -/
theorem numberAt_some {scale : Int8} {value : ExactValue} {places n : Int}
    (h : numberAt scale value places = some n) :
    ∃ i : Int64, movGetInt64 ⟨.exact scale value, 0⟩ places = .ok i ∧ i.toInt = n := by
  unfold numberAt at h
  rcases movGetInt64_cases ⟨.exact scale value, 0⟩ places with ⟨i, read, same⟩ | ⟨e, -, failed⟩
  · rw [same] at h
    exact ⟨i, read, Option.some.inj h⟩
  · rw [failed] at h
    exact absurd h (by simp [Except.toOption])

theorem toInt_signed (subtract : Bool) (a b : Int64) :
    (if subtract then a - b else a + b).toInt =
      (if subtract then a.toInt - b.toInt else a.toInt + b.toInt).bmod (2 ^ 64) := by
  cases subtract
  · exact Int64.toInt_add a b
  · exact Int64.toInt_sub a b

theorem toInt_ticks (d : SqlDate) (t : SqlTime) :
    (getTimestampToIscTicks d t).toInt = ticksAt d t := by
  have bounds := inYears_bounds.mp d.inYears
  have inDay := t.inDay
  have ticks : ticksOfDay.toInt = 864000000 := by decide
  unfold ticksPerDay at inDay
  have product : (d.date.toInt64 * ticksOfDay).toInt = d.date.toInt * 864000000 := by
    rw [Int64.toInt_mul, Int32.toInt_toInt64, ticks]
    refine Fits.bmod_eq ?_
    unfold Fits int64Min int64Max
    omega
  have time : (Int64.ofInt t.time.toNat).toInt = t.time.toNat := by
    refine Fits.toInt_ofInt ?_
    unfold Fits int64Min int64Max
    omega
  unfold getTimestampToIscTicks ticksAt ticksPerDay
  rw [Int64.toInt_add, product, time]
  refine Fits.bmod_eq ?_
  unfold Fits int64Min int64Max
  omega

/-- The ticks of a date and a time. -/
theorem ticksAt_parts (d : SqlDate) (t : SqlTime) :
    ticksAt d t / ticksPerDay = d.date.toInt ∧ ticksAt d t % ticksPerDay = t.time.toNat := by
  have inDay := t.inDay
  unfold ticksAt
  unfold ticksPerDay at *
  omega

end

section

variable {node : NodType} {d : SqlDate} {t : SqlTime} {scale : Int8} {v : ExactValue} {n : Int}
  {getDayFraction : Int8 → ExactValue → Int64}

theorem addSqlDate_number (h : numberAt scale v 0 = some n) :
    IsExact (addSqlDate (.numeric scale v) node (.sqlDate d))
        (.date (if node.isSubtract then d.date.toInt - n else d.date.toInt + n)) ↔
      IsSound (.date (if node.isSubtract then d.date.toInt - n else d.date.toInt + n)) := by
  obtain ⟨i, read, rfl⟩ := numberAt_some h
  have days : daysOf (.numeric scale v) = .ok i := read
  have date : daysOf (.sqlDate d) = .ok d.date.toInt64 := rfl
  unfold addSqlDate
  rw [days, date, ← Int32.toInt_toInt64 d.date]
  simp only [bind, Except.bind]
  rw [if_neg (fun both => by cases both.2.2)]
  exact checked_date (toInt_signed _ _ _)

theorem addSqlDate_to_number (add : node.isSubtract = false) (h : numberAt scale v 0 = some n) :
    IsExact (addSqlDate (.sqlDate d) node (.numeric scale v)) (.date (n + d.date.toInt)) ↔
      IsSound (.date (n + d.date.toInt)) := by
  obtain ⟨i, read, rfl⟩ := numberAt_some h
  have days : daysOf (.numeric scale v) = .ok i := read
  have date : daysOf (.sqlDate d) = .ok d.date.toInt64 := rfl
  unfold addSqlDate
  rw [days, date, ← Int32.toInt_toInt64 d.date, add]
  simp only [bind, Except.bind, Bool.false_eq_true, false_and, if_false]
  exact checked_date (Int64.toInt_add _ _)

theorem toInt_time (t : SqlTime) : (Int64.ofInt t.time.toNat).toInt = t.time.toNat := by
  have inDay := t.inDay
  unfold ticksPerDay at inDay
  refine Fits.toInt_ofInt ?_
  unfold Fits int64Min int64Max
  omega

/-- A sum with a time is near enough to 64 bits that a wrong one shows. -/
theorem near_time (t : SqlTime) (i : Int64) : -18446744073709551616 < t.time.toNat - i.toInt ∧
    t.time.toNat + i.toInt < 18446744073709551616 ∧
    -18446744073709551616 < t.time.toNat + i.toInt ∧
    t.time.toNat - i.toInt < 18446744073709551616 := by
  have inDay := t.inDay
  have fits := fits_toInt i
  unfold ticksPerDay at inDay
  unfold Fits int64Min int64Max at fits
  omega

theorem addSqlTime_number (h : numberAt scale v (-4) = some n) :
    IsExact (addSqlTime (.numeric scale v) node (.sqlTime t))
        (.time (if node.isSubtract then t.time.toNat - n else t.time.toNat + n)) ↔
      IsSound (.time (if node.isSubtract then t.time.toNat - n else t.time.toNat + n)) := by
  obtain ⟨i, read, rfl⟩ := numberAt_some h
  have near := near_time t i
  have ticks : timeOf (.numeric scale v) = .ok i := read
  have time : timeOf (.sqlTime t) = .ok (Int64.ofInt t.time.toNat) := rfl
  unfold addSqlTime
  rw [ticks, time]
  simp only [bind, Except.bind]
  rw [if_neg (fun both => by cases both.2.2)]
  refine checked_time ?_ ?_
  · rw [toInt_signed, toInt_time]
  · split <;> omega

theorem addSqlTime_to_number (add : node.isSubtract = false)
    (h : numberAt scale v (-4) = some n) :
    IsExact (addSqlTime (.sqlTime t) node (.numeric scale v)) (.time (n + t.time.toNat)) ↔
      IsSound (.time (n + t.time.toNat)) := by
  obtain ⟨i, read, rfl⟩ := numberAt_some h
  have near := near_time t i
  have ticks : timeOf (.numeric scale v) = .ok i := read
  have time : timeOf (.sqlTime t) = .ok (Int64.ofInt t.time.toNat) := rfl
  unfold addSqlTime
  rw [ticks, time, add]
  simp only [bind, Except.bind, Bool.false_eq_true, false_and, if_false]
  refine checked_time ?_ (by omega)
  rw [Int64.toInt_add, toInt_time]

theorem addTimestamp_number :
    IsExact (addTimestamp getDayFraction (.numeric scale v) node (.timestamp d t))
        (.timestamp (if node.isSubtract then ticksAt d t - (getDayFraction scale v).toInt
          else ticksAt d t + (getDayFraction scale v).toInt)) ↔
      IsSound (.timestamp (if node.isSubtract then ticksAt d t - (getDayFraction scale v).toInt
          else ticksAt d t + (getDayFraction scale v).toInt)) := by
  have sum := toInt_signed node.isSubtract (getTimestampToIscTicks d t) (getDayFraction scale v)
  rw [toInt_ticks] at sum
  unfold addTimestamp
  exact checked_timestamp sum

theorem addTimestamp_to_number (add : node.isSubtract = false) :
    IsExact (addTimestamp getDayFraction (.timestamp d t) node (.numeric scale v))
        (.timestamp ((getDayFraction scale v).toInt + ticksAt d t)) ↔
      IsSound (.timestamp ((getDayFraction scale v).toInt + ticksAt d t)) := by
  have sum := Int64.toInt_add (getDayFraction scale v) (getTimestampToIscTicks d t)
  rw [toInt_ticks] at sum
  unfold addTimestamp
  dsimp only
  rw [add, if_neg Bool.false_ne_true]
  exact checked_timestamp sum

/-- A date and a time make a timestamp. -/
theorem timestamp_exact (d : SqlDate) (t : SqlTime) :
    IsExact (.ok (.timestamp d.date t.time)) (.timestamp (ticksAt d t)) ↔
      IsSound (.timestamp (ticksAt d t)) := by
  obtain ⟨date, time⟩ := ticksAt_parts d t
  have years : InYears (ticksAt d t / ticksPerDay) := date ▸ d.inYears
  exact iff_of_true ⟨years, date.symm, time.symm⟩ (.inl years)

end

section

variable (getDayFraction : Int8 → ExactValue → Int64) {node : NodType} {m : Meaning}

theorem number_exact (scale : Int8) (v : ExactValue) (desc : DateOperand)
    (h : meaning getDayFraction node (.numeric scale v) desc = some m) :
    IsExact (addDatetime getDayFraction desc node (.numeric scale v)) m ↔ IsSound m := by
  unfold meaning at h
  cases add : node.isSubtract with
  | true => cases desc <;> simp [add] at h
  | false =>
    have dispatch : addDatetime getDayFraction desc node (.numeric scale v) =
        match desc.dtype with
        | .numeric => addTimestamp getDayFraction desc node (.numeric scale v)
        | .sqlDate => addSqlDate desc node (.numeric scale v)
        | .sqlTime => addSqlTime desc node (.numeric scale v)
        | .timestamp => addTimestamp getDayFraction desc node (.numeric scale v) := by
      unfold addDatetime
      rw [add]
      cases desc <;> rfl
    rw [dispatch]
    cases desc with
    | numeric scale' v' => cases h
    | sqlDate d =>
      simp only [add, Bool.false_eq_true, if_false] at h
      obtain ⟨n, number, rfl⟩ := Option.map_eq_some_iff.mp h
      exact addSqlDate_to_number add number
    | sqlTime t =>
      simp only [add, Bool.false_eq_true, if_false] at h
      obtain ⟨n, number, rfl⟩ := Option.map_eq_some_iff.mp h
      exact addSqlTime_to_number add number
    | timestamp d t =>
      simp only [add, Bool.false_eq_true, if_false] at h
      obtain rfl := Option.some.inj h
      exact addTimestamp_to_number add

theorem date_exact (d : SqlDate) (desc : DateOperand)
    (h : meaning getDayFraction node (.sqlDate d) desc = some m) :
    IsExact (addDatetime getDayFraction desc node (.sqlDate d)) m ↔ IsSound m := by
  cases desc with
  | numeric scale v =>
    have dispatch : addDatetime getDayFraction (.numeric scale v) node (.sqlDate d) =
        addSqlDate (.numeric scale v) node (.sqlDate d) := by
      unfold addDatetime
      cases node.isSubtract <;> rfl
    obtain ⟨n, number, rfl⟩ := Option.map_eq_some_iff.mp h
    rw [dispatch]
    exact addSqlDate_number number
  | sqlDate d' => cases h
  | sqlTime t =>
    cases add : node.isSubtract with
    | true => simp [meaning, add] at h
    | false =>
      have dispatch : addDatetime getDayFraction (.sqlTime t) node (.sqlDate d) =
          .ok (.timestamp d.date t.time) := by
        unfold addDatetime addTimestamp
        dsimp only
        rw [add]
        rfl
      simp only [meaning, add, Bool.false_eq_true, if_false] at h
      obtain rfl := Option.some.inj h
      rw [dispatch]
      exact timestamp_exact d t
  | timestamp d' t => cases h

theorem time_exact (t : SqlTime) (desc : DateOperand)
    (h : meaning getDayFraction node (.sqlTime t) desc = some m) :
    IsExact (addDatetime getDayFraction desc node (.sqlTime t)) m ↔ IsSound m := by
  cases desc with
  | numeric scale v =>
    have dispatch : addDatetime getDayFraction (.numeric scale v) node (.sqlTime t) =
        addSqlTime (.numeric scale v) node (.sqlTime t) := by
      unfold addDatetime
      cases node.isSubtract <;> rfl
    obtain ⟨n, number, rfl⟩ := Option.map_eq_some_iff.mp h
    rw [dispatch]
    exact addSqlTime_number number
  | sqlDate d =>
    cases add : node.isSubtract with
    | true => simp [meaning, add] at h
    | false =>
      have dispatch : addDatetime getDayFraction (.sqlDate d) node (.sqlTime t) =
          .ok (.timestamp d.date t.time) := by
        unfold addDatetime addTimestamp
        dsimp only
        rw [add]
        rfl
      simp only [meaning, add, Bool.false_eq_true, if_false] at h
      obtain rfl := Option.some.inj h
      rw [dispatch]
      exact timestamp_exact d t
  | sqlTime t' => cases h
  | timestamp d' t' => cases h

theorem addDatetime_exact (value desc : DateOperand)
    (h : meaning getDayFraction node value desc = some m) :
    IsExact (addDatetime getDayFraction desc node value) m ↔ IsSound m := by
  cases value with
  | numeric scale v => exact number_exact getDayFraction scale v desc h
  | sqlDate d => exact date_exact getDayFraction d desc h
  | sqlTime t => exact time_exact getDayFraction t desc h
  | timestamp d t =>
    cases desc with
    | numeric scale v =>
      have dispatch : addDatetime getDayFraction (.numeric scale v) node (.timestamp d t) =
          addTimestamp getDayFraction (.numeric scale v) node (.timestamp d t) := by
        unfold addDatetime
        cases node.isSubtract <;> rfl
      obtain rfl := Option.some.inj h
      rw [dispatch]
      exact addTimestamp_number
    | sqlDate d' => cases h
    | sqlTime t' => cases h
    | timestamp d' t' => cases h

/-- The difference of two dates leads back from the one to the other. -/
theorem dates_return (d1 d2 : SqlDate) : ∃ v : Int64,
    addDatetime getDayFraction (.sqlDate d2) .subtract2 (.sqlDate d1) = .ok (.int64 v 0) ∧
    ∀ node : NodType, node.isSubtract = false →
      addDatetime getDayFraction (.numeric 0 (.int64 v)) node (.sqlDate d2) =
        .ok (.sqlDate d1.date) ∧
      addDatetime getDayFraction (.sqlDate d2) node (.numeric 0 (.int64 v)) =
        .ok (.sqlDate d1.date) := by
  have back : ∀ r : Except EvlError DateResult, IsExact r (.date d1.date.toInt) →
      r = .ok (.sqlDate d1.date) := by
    intro r exact
    match r, exact with
    | .ok (.sqlDate d), exact => rw [Int32.toInt_inj.mp exact.2]
    | .error _, other => exact absurd d1.inYears other
  have b1 := inYears_bounds.mp d1.inYears
  have b2 := inYears_bounds.mp d2.inYears
  have difference : (d1.date.toInt64 - d2.date.toInt64).toInt = d1.date.toInt - d2.date.toInt := by
    rw [Int64.toInt_sub, Int32.toInt_toInt64, Int32.toInt_toInt64]
    refine Fits.bmod_eq ?_
    unfold Fits int64Min int64Max
    omega
  refine ⟨d1.date.toInt64 - d2.date.toInt64, rfl, fun node add => ?_⟩
  generalize d1.date.toInt64 - d2.date.toInt64 = v at difference
  have number : numberAt 0 (.int64 v) 0 = some (d1.date.toInt - d2.date.toInt) := by
    rw [← difference]
    rfl
  have sum : d2.date.toInt + (d1.date.toInt - d2.date.toInt) = d1.date.toInt := by omega
  have sum' : d1.date.toInt - d2.date.toInt + d2.date.toInt = d1.date.toInt := by omega
  constructor
  · refine back _ ((addDatetime_exact getDayFraction (m := .date d1.date.toInt) _ _ ?_).mpr
      (.inl d1.inYears))
    simp only [meaning, add, number, Option.map_some, Bool.false_eq_true, if_false, sum]
  · refine back _ ((addDatetime_exact getDayFraction (m := .date d1.date.toInt) _ _ ?_).mpr
      (.inl d1.inYears))
    simp only [meaning, add, number, Option.map_some, Bool.false_eq_true, if_false, sum']

end

/-- Date arithmetic is exact, or raises an error because it is out of range, if and only if nothing
that is out of range looks as if it were not; and the difference of two dates leads back. -/
theorem addDatetime_exact_iff (getDayFraction : Int8 → ExactValue → Int64) :
    (∀ node value desc m, meaning getDayFraction node value desc = some m →
      (IsExact (addDatetime getDayFraction desc node value) m ↔ IsSound m)) ∧
    ∀ d1 d2 : SqlDate, ∃ v : Int64,
      addDatetime getDayFraction (.sqlDate d2) .subtract2 (.sqlDate d1) = .ok (.int64 v 0) ∧
      ∀ node : NodType, node.isSubtract = false →
        addDatetime getDayFraction (.numeric 0 (.int64 v)) node (.sqlDate d2) =
          .ok (.sqlDate d1.date) ∧
        addDatetime getDayFraction (.sqlDate d2) node (.numeric 0 (.int64 v)) =
          .ok (.sqlDate d1.date) :=
  ⟨fun _ value desc _ h => addDatetime_exact getDayFraction value desc h,
    dates_return getDayFraction⟩

/-- `get_day_fraction` without rounding. -/
def dayTicks (scale : Int8) (value : ExactValue) : Int64 :=
  Int64.ofInt ((value.toInt * ticksPerDay).tdiv (10 ^ scale.toInt.natAbs))

/-- The first of January of 2000, and noon. -/
def millennium : SqlDate := ⟨51544, by decide⟩

def noon : SqlTime := ⟨432000000, by decide⟩

/-- Half a day later. -/
theorem addDatetime_exact_iff_half :
    IsExact (addDatetime dayTicks (.numeric (-1) (.short 5)) .add2 (.timestamp millennium noon))
      (.timestamp 44534880000000) := by
  have exact := (addDatetime_exact_iff dayTicks).1 .add2 (.timestamp millennium noon)
    (.numeric (-1) (.short 5)) (.timestamp 44534880000000) (by decide)
  rw [exact]
  exact InYears.sound (by decide)

/-- A sum of days beyond 2 ^ 30, a sum of ticks beyond 64 bits, and a moment in front of the year 1
on its eve. -/
theorem addDatetime_inexact :
    ¬ IsExact (addDatetime dayTicks (.numeric 0 (.int64 1073741824)) .add2 (.sqlDate millennium))
      (.date 1073793368) ∧
    ¬ IsExact (addDatetime dayTicks (.numeric (-4) (.int64 Int64.maxValue)) .add2 (.sqlTime noon))
      (.time 9223372037286775807) ∧
    ¬ IsExact (addDatetime dayTicks (.numeric (-7) (.long 1)) .subtract2
        (.timestamp ⟨-678575, by decide⟩ ⟨0, by decide⟩))
      (.timestamp (-678575 * ticksPerDay - 86)) := by
  refine ⟨?_, ?_, ?_⟩
  · refine mt (addDatetime_exact dayTicks _ _ rfl).mp ?_
    rintro (years | other)
    · exact absurd years (by decide)
    · exact other ⟨51544, by decide, by decide⟩
  · exact mt (addDatetime_exact dayTicks _ _ rfl).mp
      (show ¬ Fits 9223372037286775807 by decide)
  · refine mt (addDatetime_exact dayTicks _ _ rfl).mp ?_
    rintro (years | other)
    · exact absurd years (by decide)
    · exact other ⟨-678575, by decide, by decide⟩

end InterBase.Arith
