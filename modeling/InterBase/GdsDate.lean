import InterBase.Library.Gregorian
import InterBase.CvtScale

namespace InterBase.Gds

open Gregorian Cvt

/-- The fields of `struct tm` that hold a date. -/
structure Tm where
  tmMday : Int
  tmMon : Int
  tmYear : Int
deriving Repr, DecidableEq

/-- How results of integer arithmetic are stored: in an `int` or `SLONG`, an `SSHORT` or a
`SINT64`, which keep the values they hold. -/
structure Machine (m : Type → Type) [Monad m] where
  slong : Int → m Int
  sshort : Int → m Int
  sint64 : Int → m Int
  slong_kept : ∀ v, -2147483648 ≤ v → v ≤ 2147483647 → slong v = pure v
  sshort_kept : ∀ v, -32768 ≤ v → v ≤ 32767 → sshort v = pure v
  sint64_kept : ∀ v, -9223372036854775808 ≤ v → v ≤ 9223372036854775807 → sint64 v = pure v

/-- Results wrap around. -/
def wrapping : Machine Id where
  slong := toSlong
  sshort := toSshort
  sint64 := toSint64
  slong_kept v low high := bmod_of_mem (by norm_num; omega) (by norm_num; omega)
  sshort_kept v low high := bmod_of_mem (by norm_num; omega) (by norm_num; omega)
  sint64_kept v low high := bmod_of_mem (by norm_num; omega) (by norm_num; omega)

def inRange (low high v : Int) : Option Int := if low ≤ v ∧ v ≤ high then some v else none

/-- A result that does not fit ends the computation. -/
def checking : Machine Option where
  slong := inRange (-2147483648) 2147483647
  sshort := inRange (-32768) 32767
  sint64 := inRange (-9223372036854775808) 9223372036854775807
  slong_kept _ low high := if_pos ⟨low, high⟩
  sshort_kept _ low high := if_pos ⟨low, high⟩
  sint64_kept _ low high := if_pos ⟨low, high⟩

section

variable {m : Type → Type} [Monad m]

/-- The number of a day to its date. -/
def ndate (M : Machine m) (nday : Int) : m Tm := do
  let nday ← M.slong (nday - (1721119 - 2400001))
  let quadruple ← M.slong (4 * nday)
  let quadruple ← M.slong (quadruple - 1)
  let century := quadruple.tdiv 146097
  let days ← M.slong (146097 * century)
  let nday ← M.slong (quadruple - days)
  let day := nday.tdiv 4
  let quadruple ← M.slong (4 * day)
  let quadruple ← M.slong (quadruple + 3)
  let nday := quadruple.tdiv 1461
  let days ← M.slong (1461 * nday)
  let day ← M.slong (quadruple - days)
  let day ← M.slong (day + 4)
  let day := day.tdiv 4
  let quintuple ← M.slong (5 * day)
  let quintuple ← M.slong (quintuple - 3)
  let month := quintuple.tdiv 153
  let days ← M.slong (153 * month)
  let day ← M.slong (quintuple - days)
  let day ← M.slong (day + 5)
  let day := day.tdiv 5
  let years ← M.slong (100 * century)
  let year ← M.slong (years + nday)
  if month < 10 then do
    let month ← M.slong (month + 3)
    let tmMon ← M.slong (month - 1)
    let tmYear ← M.slong (year - 1900)
    pure ⟨day, tmMon, tmYear⟩
  else do
    let month ← M.slong (month - 9)
    let year ← M.slong (year + 1)
    let tmMon ← M.slong (month - 1)
    let tmYear ← M.slong (year - 1900)
    pure ⟨day, tmMon, tmYear⟩

/-- What `nday` returns for a day of a year and month that are counted from March. -/
def ndayFromMarch (M : Machine m) (day month year : Int) : m Int := do
  let c := year.tdiv 100
  let years ← M.slong (100 * c)
  let ya ← M.slong (year - years)
  let centuryDays ← M.sint64 (146097 * c)
  let yearDays ← M.slong (1461 * ya)
  let monthDays ← M.slong (153 * month)
  let monthDays ← M.slong (monthDays + 2)
  let days ← M.sint64 (centuryDays.tdiv 4 + yearDays.tdiv 4)
  let days ← M.sint64 (days + monthDays.tdiv 5)
  let days ← M.sint64 (days + day)
  let days ← M.sint64 (days + 1721119)
  let days ← M.sint64 (days - 2400001)
  M.slong days

/-- A date to the number of its day. `day`, `month` and `year` are `SSHORT`s. -/
def nday (M : Machine m) (times : Tm) : m Int := do
  let day ← M.sshort times.tmMday
  let month ← M.slong (times.tmMon + 1)
  let month ← M.sshort month
  let year ← M.slong (times.tmYear + 1900)
  let year ← M.sshort year
  if 2 < month then do
    let month ← M.sshort (month - 3)
    ndayFromMarch M day month year
  else do
    let month ← M.sshort (month + 9)
    let year ← M.sshort (year - 1)
    ndayFromMarch M day month year

end

/-- The fields of a date as `struct tm` counts them. -/
def tmOf (d : Date) : Tm := ⟨d.day, (d.month : Int) - 1, (d.year : Int) - 1900⟩

section

variable {m : Type → Type} [Monad m] [LawfulMonad m] {M : Machine m} {d : Date}
  {day month year : Int}

theorem ndayFromMarch_eq (y : 0 ≤ year ∧ year ≤ 32767) (mo : 0 ≤ month ∧ month ≤ 11)
    (da : 1 ≤ day ∧ day ≤ 31) : ndayFromMarch M day month year =
      pure (146097 * (year / 100) / 4 + 1461 * (year % 100) / 4 + daysBefore month + day -
        678882) := by
  have years : year - 100 * (year / 100) = year % 100 := by omega
  unfold ndayFromMarch daysBefore
  simp (disch := omega) only [Int.tdiv_eq_ediv_of_nonneg, M.slong_kept, M.sint64_kept, pure_bind]
  rw [years]
  congr 1
  omega

theorem nday_tmOf (low : 1 ≤ d.year) (high : d.year ≤ 32767) :
    nday M (tmOf d) = pure (d.number - 678882) := by
  obtain ⟨year, month, day, ⟨first, last⟩, one, length⟩ := d
  dsimp only at low high
  have short : monthLength year month ≤ 31 := by
    unfold monthLength
    split_ifs <;> norm_num
  unfold nday tmOf
  simp (disch := omega) only [M.slong_kept, M.sshort_kept, pure_bind, sub_add_cancel]
  unfold Date.number dayNumber marchYear marchMonth
  dsimp only
  by_cases late : (2 : Int) < month
  · rw [if_pos late, if_pos late, if_pos late]
    exact ndayFromMarch_eq (by omega) (by omega) (by omega)
  · rw [if_neg late, if_neg late, if_neg late]
    exact ndayFromMarch_eq (by omega) (by omega) (by omega)

/- The computation of `ndate` goes back over the parts of a number: `c` centuries, `ya` years, the
day `D` of the year from March on, and its month and day. -/

section

variable {c ya n R D mo : Int}

theorem century_of_number (hy : 0 ≤ ya ∧ ya ≤ 99) (hD : 1 ≤ D)
    (hR : R = 1461 * ya / 4 + D) (hn : n = 146097 * c / 4 + R)
    (long : D ≤ 365 ∨ D = 366 ∧ (ya = 99 → c % 4 = 3)) : (4 * n - 1) / 146097 = c := by
  have centuries : 146097 * c / 4 = 36524 * c + c / 4 := by omega
  have rest : R ≤ 36524 ∨ R = 36525 ∧ c % 4 = 3 := by omega
  rw [hn, centuries]
  omega

theorem days_of_number (hn : n = 146097 * c / 4 + R) :
    (4 * n - 1 - 146097 * c) / 4 = R - 1 := by omega

theorem year_of_days (hD : 1 ≤ D) (hR : R = 1461 * ya / 4 + D)
    (long : D ≤ 365 ∨ D = 366 ∧ ya % 4 = 3) : (4 * (R - 1) + 3) / 1461 = ya := by omega

theorem dayOfYear_of_days (hR : R = 1461 * ya / 4 + D) :
    (4 * (R - 1) + 3 - 1461 * ya + 4) / 4 = D := by omega

theorem day_of_dayOfYear : (5 * (daysBefore mo + day) - 3 - 153 * mo + 5) / 5 = day := by
  unfold daysBefore
  omega

end

theorem month_of_dayOfYear (d : Date) :
    (5 * d.dayOfYear - 3) / 153 = marchMonth d.month := by
  obtain ⟨year, month, day, ⟨first, last⟩, one, length⟩ := d
  unfold Date.dayOfYear marchMonth daysBefore
  dsimp only
  have short : day ≤ if month = 2 ∨ month = 4 ∨ month = 6 ∨ month = 9 ∨ month = 11 then 30
      else 31 := by
    refine length.trans ?_
    unfold monthLength
    split_ifs <;> omega
  interval_cases month
  all_goals
    norm_num at short ⊢
    omega

/-- A quotient that is cut towards zero, and its remainder. -/
theorem tdiv_bounds (x : Int) {k : Int} (hk : 0 < k) :
    (0 ≤ x → 0 ≤ x.tdiv k ∧ 0 ≤ x - k * x.tdiv k) ∧
    (x ≤ 0 → x.tdiv k ≤ 0 ∧ x - k * x.tdiv k ≤ 0) ∧
    -k < x - k * x.tdiv k ∧ x - k * x.tdiv k < k := by
  rw [← Int.tmod_def]
  refine ⟨fun h => ⟨Int.tdiv_nonneg h hk.le, Int.tmod_nonneg k h⟩, fun h => ?_,
    Int.lt_tmod_of_pos x hk, Int.tmod_lt_of_pos x hk⟩
  have quotient := Int.tdiv_nonneg (Int.neg_nonneg_of_nonpos h) hk.le
  have rest := Int.tmod_nonneg k (Int.neg_nonneg_of_nonpos h)
  rw [Int.neg_tdiv] at quotient
  rw [Int.neg_tmod] at rest
  omega

/-- `ndate` in terms of its quotients, where none of its products overflows. -/
theorem ndate_parts {n c R ya D mo day : Int} (hn : -536870912 < n ∧ n ≤ 536870911)
    (century : (4 * n - 1).tdiv 146097 = c) (remaining : (4 * n - 1 - 146097 * c).tdiv 4 = R)
    (year : (4 * R + 3).tdiv 1461 = ya) (dayOfYear : (4 * R + 3 - 1461 * ya + 4).tdiv 4 = D)
    (month : (5 * D - 3).tdiv 153 = mo) (days : (5 * D - 3 - 153 * mo + 5).tdiv 5 = day) :
    ndate M (n - 678882) = pure (if mo < 10 then ⟨day, mo + 3 - 1, 100 * c + ya - 1900⟩
      else ⟨day, mo - 9 - 1, 100 * c + ya + 1 - 1900⟩) := by
  have kept : ∀ v : Int, -2147483648 ≤ v → v ≤ 2147483647 → M.slong v = pure v := M.slong_kept
  have hc := tdiv_bounds (4 * n - 1) (show (0 : Int) < 146097 by decide)
  rw [century] at hc
  have whole : -2147483648 ≤ 146097 * c ∧ 146097 * c ≤ 2147483647 := by omega
  -- for the rest the signs of the quotients do not matter
  replace hc := hc.2.2
  have hR := (tdiv_bounds (4 * n - 1 - 146097 * c) (show (0 : Int) < 4 by decide)).2.2
  have hy := (tdiv_bounds (4 * R + 3) (show (0 : Int) < 1461 by decide)).2.2
  have hD := (tdiv_bounds (4 * R + 3 - 1461 * ya + 4) (show (0 : Int) < 4 by decide)).2.2
  have hm := (tdiv_bounds (5 * D - 3) (show (0 : Int) < 153 by decide)).2.2
  have hd := (tdiv_bounds (5 * D - 3 - 153 * mo + 5) (show (0 : Int) < 5 by decide)).2.2
  rw [remaining] at hR
  rw [year] at hy
  rw [dayOfYear] at hD
  rw [month] at hm
  rw [days] at hd
  have small : -146100 ≤ 4 * R ∧ 4 * R ≤ 146100 := by omega
  have years : -101 ≤ ya ∧ ya ≤ 101 := by omega
  have dayOfYear_mem : -366 ≤ D ∧ D ≤ 367 := by omega
  have months : -12 ≤ mo ∧ mo ≤ 12 := by omega
  unfold ndate
  rw [show n - 678882 - (1721119 - 2400001) = n by omega, kept n (by omega) (by omega), pure_bind,
    kept (4 * n) (by omega) (by omega), pure_bind, kept (4 * n - 1) (by omega) (by omega),
    pure_bind]
  dsimp only
  rw [century, kept (146097 * c) whole.1 whole.2, pure_bind,
    kept (4 * n - 1 - 146097 * c) (by omega) (by omega), pure_bind, remaining,
    kept (4 * R) (by omega) (by omega), pure_bind, kept (4 * R + 3) (by omega) (by omega),
    pure_bind, year, kept (1461 * ya) (by omega) (by omega), pure_bind,
    kept (4 * R + 3 - 1461 * ya) (by omega) (by omega), pure_bind,
    kept (4 * R + 3 - 1461 * ya + 4) (by omega) (by omega), pure_bind, dayOfYear,
    kept (5 * D) (by omega) (by omega), pure_bind, kept (5 * D - 3) (by omega) (by omega),
    pure_bind, month, kept (153 * mo) (by omega) (by omega), pure_bind,
    kept (5 * D - 3 - 153 * mo) (by omega) (by omega), pure_bind,
    kept (5 * D - 3 - 153 * mo + 5) (by omega) (by omega), pure_bind, days,
    kept (100 * c) (by omega) (by omega), pure_bind, kept (100 * c + ya) (by omega) (by omega),
    pure_bind]
  split
  · rw [kept (mo + 3) (by omega) (by omega), pure_bind, kept (mo + 3 - 1) (by omega) (by omega),
      pure_bind, kept (100 * c + ya - 1900) (by omega) (by omega), pure_bind]
  · rw [kept (mo - 9) (by omega) (by omega), pure_bind,
      kept (100 * c + ya + 1) (by omega) (by omega), pure_bind,
      kept (mo - 9 - 1) (by omega) (by omega), pure_bind,
      kept (100 * c + ya + 1 - 1900) (by omega) (by omega), pure_bind]

/-- `ndate` finds the parts when its quotients are the right ones. -/
theorem ndate_steps {n c R ya D mo day : Int} (hn : 1 ≤ n ∧ n ≤ 12000000)
    (hR : 1 ≤ R) (hD : 1 ≤ D) (century : (4 * n - 1) / 146097 = c)
    (remaining : (4 * n - 1 - 146097 * c) / 4 = R - 1) (year : (4 * (R - 1) + 3) / 1461 = ya)
    (dayOfYear : (4 * (R - 1) + 3 - 1461 * ya + 4) / 4 = D) (month : (5 * D - 3) / 153 = mo)
    (days : (5 * D - 3 - 153 * mo + 5) / 5 = day) :
    ndate M (n - 678882) = pure (if mo < 10 then ⟨day, mo + 3 - 1, 100 * c + ya - 1900⟩
      else ⟨day, mo - 9 - 1, 100 * c + ya + 1 - 1900⟩) := by
  have cut : ∀ x k : Int, 0 ≤ x → x.tdiv k = x / k := fun x k => Int.tdiv_eq_ediv_of_nonneg
  exact ndate_parts (by omega) ((cut _ _ (by omega)).trans century)
    ((cut _ _ (by omega)).trans remaining) ((cut _ _ (by omega)).trans year)
    ((cut _ _ (by omega)).trans dayOfYear) ((cut _ _ (by omega)).trans month)
    ((cut _ _ (by omega)).trans days)

theorem ndate_number (low : 1 ≤ d.year) (high : d.year ≤ 32767) :
    ndate M (d.number - 678882) = pure (tmOf d) := by
  have number : d.number = 146097 * (marchYear d.year d.month / 100) / 4 +
      (1461 * (marchYear d.year d.month % 100) / 4 + d.dayOfYear) := by
    unfold Date.number dayNumber Date.dayOfYear
    ring
  have pos := d.dayOfYear_pos
  have month := month_of_dayOfYear d
  have long := d.dayOfYear_le
  have day : (5 * d.dayOfYear - 3 - 153 * marchMonth d.month + 5) / 5 = d.day := day_of_dayOfYear
  have first := d.month_mem
  have days : (d.day : Int) ≤ 31 := by
    have := d.day_mem.2
    unfold monthLength at this
    split_ifs at this <;> omega
  have years : 0 ≤ marchYear d.year d.month ∧ marchYear d.year d.month ≤ 32767 := by
    unfold marchYear
    split <;> omega
  have months : 0 ≤ marchMonth d.month ∧ marchMonth d.month ≤ 11 := by
    unfold marchMonth
    split <;> omega
  have back : (if marchMonth d.month < 10 then
        (marchMonth d.month + 3, marchYear d.year d.month)
      else (marchMonth d.month - 9, marchYear d.year d.month + 1)) =
      ((d.month : Int), (d.year : Int)) := by
    unfold marchMonth marchYear
    split <;> split <;> simp <;> omega
  generalize marchYear d.year d.month = y at number long years back
  generalize marchMonth d.month = mo at month day months back
  generalize d.dayOfYear = D at number pos month day long
  obtain ⟨R, hR⟩ : ∃ R, R = 1461 * (y % 100) / 4 + D := ⟨_, rfl⟩
  rw [← hR] at number
  have century : (4 * d.number - 1) / 146097 = y / 100 := by
    refine century_of_number (by omega) pos hR number ?_
    omega
  have remaining := days_of_number number
  have year : (4 * (R - 1) + 3) / 1461 = y % 100 := year_of_days pos hR (by omega)
  have dayOfYear := dayOfYear_of_days hR
  have small : 1 ≤ R ∧ R ≤ 36525 := by omega
  have bound : 1 ≤ d.number ∧ d.number ≤ 12000000 := by omega
  rw [ndate_steps bound small.1 pos century remaining year dayOfYear month day]
  unfold tmOf
  split at back
  · obtain ⟨sameMonth, sameYear⟩ := Prod.mk.inj back
    rw [if_pos (by assumption)]
    congr 2 <;> omega
  · obtain ⟨sameMonth, sameYear⟩ := Prod.mk.inj back
    rw [if_neg (by assumption)]
    congr 2 <;> omega

/-- What the first steps of `ndate` leave of a number. -/
theorem ndate_quadruple (n : Int) : ∃ nday quadruple,
    wrapping.slong (n - (1721119 - 2400001)) = pure nday ∧
    wrapping.slong (4 * nday) = pure quadruple ∧
    wrapping.slong (quadruple - 1) = pure ((4 * (n + 678882) - 1).bmod 4294967296) := by
  refine ⟨_, _, rfl, rfl, ?_⟩
  show toSlong (toSlong (4 * toSlong (n - (1721119 - 2400001))) - 1) = _
  unfold toSlong
  rw [Int.bmod_sub_bmod, ← Int.bmod_sub_bmod, Int.mul_bmod_bmod, Int.bmod_sub_bmod,
    show n - (1721119 - 2400001) = n + 678882 by omega]
  rfl

/-- Numbers that are alike in their last 30 bits have the same date. -/
theorem ndate_congr {a b : Int} (h : (1073741824 : Int) ∣ a - b) :
    ndate wrapping a = ndate wrapping b := by
  have same : (4 * (a + 678882) - 1).bmod 4294967296 = (4 * (b + 678882) - 1).bmod 4294967296 := by
    rw [Int.bmod_eq_bmod_iff_bmod_sub_eq_zero]
    refine Int.bmod_eq_zero_of_dvd ?_
    omega
  obtain ⟨x, u, h1, h2, h3⟩ := ndate_quadruple a
  obtain ⟨y, v, h1', h2', h3'⟩ := ndate_quadruple b
  rw [← same] at h3'
  unfold ndate
  rw [h1, pure_bind, h2, pure_bind, h3, pure_bind, h1', pure_bind, h2', pure_bind, h3', pure_bind]

/-- The year of a number in front of the first of January of the year 1 is 0 or less. -/
theorem ndate_early {n : Int} (low : -536870912 < n) (high : n ≤ 306) :
    (ndate wrapping (n - 678882)).run.tmYear ≤ -1900 := by
  rw [ndate_parts ⟨low, by omega⟩ rfl rfl rfl rfl rfl rfl]
  generalize hc : (4 * n - 1).tdiv 146097 = c
  generalize hR : (4 * n - 1 - 146097 * c).tdiv 4 = R
  generalize hy : (4 * R + 3).tdiv 1461 = ya
  generalize hD : (4 * R + 3 - 1461 * ya + 4).tdiv 4 = D
  generalize hm : (5 * D - 3).tdiv 153 = mo
  have bc := tdiv_bounds (4 * n - 1) (show (0 : Int) < 146097 by decide)
  have bR := tdiv_bounds (4 * n - 1 - 146097 * c) (show (0 : Int) < 4 by decide)
  rw [hc] at bc
  rw [hR] at bR
  have century : c ≤ 0 := by
    rcases le_or_gt 0 (4 * n - 1) with up | down
    · have := bc.1 up
      omega
    · exact (bc.2.1 down.le).1
  have remaining : R ≤ 305 := by
    rcases le_or_gt 0 (4 * n - 1) with up | down
    · have zero : c = 0 := le_antisymm century (bc.1 up).1
      have rest := bR.2.2.2
      have := bR.1 (by omega)
      omega
    · have below := (bc.2.1 down.le).2
      have := (bR.2.1 below).1
      omega
  clear bc bR
  have bY := tdiv_bounds (4 * R + 3) (show (0 : Int) < 1461 by decide)
  rw [hy] at bY
  have year : ya ≤ 0 := by
    rcases le_or_gt 0 (4 * R + 3) with up | down
    · have := bY.1 up
      omega
    · exact (bY.2.1 down.le).1
  have bD := tdiv_bounds (4 * R + 3 - 1461 * ya + 4) (show (0 : Int) < 4 by decide)
  rw [hD] at bD
  have days : D ≤ 306 := by
    rcases le_or_gt 0 (4 * R + 3) with up | down
    · have zero : ya = 0 := le_antisymm year (bY.1 up).1
      have below := (bD.1 (by omega)).2
      omega
    · have below := (bY.2.1 down.le).2
      have rest := bD.2.2.2
      omega
  clear bY bD
  have bm := tdiv_bounds (5 * D - 3) (show (0 : Int) < 153 by decide)
  rw [hm] at bm
  have month : mo < 10 := by omega
  rw [if_pos month]
  show 100 * c + ya - 1900 ≤ -1900
  omega

/-- The year of a number far behind is beyond 9999. -/
theorem ndate_late {n : Int} (low : 4000000 ≤ n) (high : n ≤ 536870911) :
    8100 ≤ (ndate wrapping (n - 678882)).run.tmYear := by
  rw [ndate_parts ⟨by omega, high⟩ rfl rfl rfl rfl rfl rfl]
  generalize hc : (4 * n - 1).tdiv 146097 = c
  generalize hR : (4 * n - 1 - 146097 * c).tdiv 4 = R
  generalize hy : (4 * R + 3).tdiv 1461 = ya
  have bc := tdiv_bounds (4 * n - 1) (show (0 : Int) < 146097 by decide)
  have bR := tdiv_bounds (4 * n - 1 - 146097 * c) (show (0 : Int) < 4 by decide)
  have bY := tdiv_bounds (4 * R + 3) (show (0 : Int) < 1461 by decide)
  rw [hc] at bc
  rw [hR] at bR
  rw [hy] at bY
  have century : 109 ≤ c := by omega
  have year : 0 ≤ ya := by omega
  split
  · show 8100 ≤ 100 * c + ya - 1900
    omega
  · show 8100 ≤ 100 * c + ya + 1 - 1900
    omega

/-- The year of any number is one of 1 to 9999 exactly if the number is, up to its last 30 bits,
that of a day of them. -/
theorem ndate_year_iff (n : Int) :
    (1 ≤ (ndate wrapping n).run.tmYear + 1900 ∧ (ndate wrapping n).run.tmYear + 1900 ≤ 9999) ↔
    ∃ d : Date, 1 ≤ d.year ∧ d.year ≤ 9999 ∧ (1073741824 : Int) ∣ n - (d.number - 678882) := by
  constructor
  · intro year
    obtain ⟨r, low, high, dvd⟩ : ∃ r : Int, -536870912 ≤ r ∧ r ≤ 536870911 ∧
        (1073741824 : Int) ∣ n - (r - 678882) := by
      refine ⟨(n + 678882 + 536870912) % 1073741824 - 536870912, ?_, ?_, ?_⟩ <;> omega
    rw [ndate_congr dvd] at year
    by_cases least : r = -536870912
    · subst least
      exact absurd year (by decide)
    · by_cases early : r ≤ 306
      · have := ndate_early (by omega) early
        omega
      · by_cases late : 4000000 ≤ r
        · have := ndate_late late high
          omega
        · have first : (newYear 1).number = 307 := by decide
          have last : (4000000 : Int) ≤ (yearEnd 32767).number := by decide
          obtain ⟨d, after, number⟩ := Date.exists_number (show (newYear 1).number ≤ r by omega)
          have before : d.year ≤ 32767 := Date.year_le (by omega)
          refine ⟨d, after, ?_, number ▸ dvd⟩
          rw [← number, ndate_number after before] at year
          have bound : (d.year : Int) - 1900 + 1900 ≤ 9999 := year.2
          omega
  · rintro ⟨d, low, high, dvd⟩
    rw [ndate_congr dvd, ndate_number low (by omega)]
    show 1 ≤ (d.year : Int) - 1900 + 1900 ∧ (d.year : Int) - 1900 + 1900 ≤ 9999
    omega

/-- The day behind the last one of 32767 has the next number too: its year wraps around twice. -/
theorem nday_32768 : nday wrapping (tmOf (newYear 32768)) = (newYear 32768).number - 678882 := by
  have year : wrapping.sshort 32768 = pure (-32768) := show toSshort 32768 = -32768 by decide
  have before : wrapping.sshort (-32768 - 1) = pure 32767 :=
    show toSshort (-32768 - 1) = 32767 by decide
  unfold nday tmOf newYear
  dsimp only
  rw [wrapping.sshort_kept _ (by decide) (by decide), pure_bind,
    wrapping.slong_kept _ (by decide) (by decide), pure_bind,
    wrapping.sshort_kept _ (by decide) (by decide), pure_bind,
    wrapping.slong_kept _ (by decide) (by decide), pure_bind,
    show ((32768 : Nat) : Int) - 1900 + 1900 = 32768 by decide, year, pure_bind,
    if_neg (by decide), wrapping.sshort_kept _ (by decide) (by decide), pure_bind, before,
    pure_bind, ndayFromMarch_eq (by decide) (by decide) (by decide)]
  rfl

theorem next_year_cases (h : d.year ≤ 32767) : d.next.year ≤ 32767 ∨ d.next = newYear 32768 := by
  unfold Date.next
  split_ifs
  · exact .inl h
  · exact .inl h
  · by_cases last : d.year = 32767
    · right
      rw [last]
      rfl
    · exact .inl (Nat.lt_of_le_of_ne h last)

theorem nday_next (low : 1 ≤ d.year) (high : d.year ≤ 32767) :
    nday wrapping (tmOf d.next) = (d.number + 1 - 678882 : Int) := by
  rw [← d.next_number]
  rcases next_year_cases high with inside | last
  · exact nday_tmOf (low.trans d.next_year) inside
  · rw [last]
    exact nday_32768

/-- The number of the next day is the next number, and `ndate` and `nday` undo each other, with no
result on the way that its type does not hold. -/
theorem nday_ndate :
    (∀ d : Date, 1 ≤ d.year → d.year ≤ 32767 →
      (nday wrapping (tmOf d.next)).run = (nday wrapping (tmOf d)).run + 1 ∧
      ndate wrapping (nday wrapping (tmOf d)).run = tmOf d ∧
      nday checking (tmOf d) = some (nday wrapping (tmOf d)).run ∧
      ndate checking (nday wrapping (tmOf d)).run = some (tmOf d)) ∧
    ∀ n : Int, (nday wrapping (tmOf (newYear 1))).run ≤ n →
      n ≤ (nday wrapping (tmOf (yearEnd 32767))).run →
      nday wrapping (ndate wrapping n).run = n ∧
      ndate checking n = some (ndate wrapping n).run ∧
      nday checking (ndate wrapping n).run = some n := by
  have wrapped : ∀ d : Date, 1 ≤ d.year → d.year ≤ 32767 →
      (nday wrapping (tmOf d)).run = d.number - 678882 := fun d low high => nday_tmOf low high
  constructor
  · intro d low high
    rw [wrapped d low high]
    refine ⟨?_, ndate_number low high, nday_tmOf low high, ndate_number low high⟩
    refine (nday_next low high).trans ?_
    show d.number + 1 - 678882 = d.number - 678882 + 1
    omega
  · intro n low high
    rw [wrapped _ (le_refl 1) (by decide)] at low
    rw [wrapped (yearEnd 32767) (by decide) (le_refl 32767)] at high
    obtain ⟨d, after, number⟩ := Date.exists_number (n := n + 678882) (d := newYear 1) (by omega)
    have before : d.year ≤ 32767 := Date.year_le (by rw [number]; omega)
    have same : n = d.number - 678882 := by omega
    have back : ndate wrapping n = tmOf d := by
      rw [same]
      exact ndate_number after before
    have back' : ndate checking n = some (tmOf d) := by
      rw [same]
      exact ndate_number after before
    rw [back]
    refine ⟨(wrapped d after before).trans same.symm, back', ?_⟩
    rw [same]
    exact nday_tmOf after before

/-- The day 0 is the 17th of November of 1858. -/
theorem nday_ndate_base : (nday wrapping (tmOf ⟨1858, 11, 18, by decide, by decide⟩)).run =
    (nday wrapping (tmOf ⟨1858, 11, 17, by decide, by decide⟩)).run + 1 :=
  (nday_ndate.1 ⟨1858, 11, 17, by decide, by decide⟩ (by decide) (by decide)).1

end

end InterBase.Gds
