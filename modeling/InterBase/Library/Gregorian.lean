import Mathlib.Data.Int.Init
import Mathlib.Logic.Function.Iterate
import Mathlib.Tactic.IntervalCases
import Mathlib.Tactic.Ring

namespace Gregorian

def isLeap (year : Nat) : Bool := year % 4 = 0 && (year % 100 ≠ 0 || year % 400 = 0)

def monthLength (year month : Nat) : Nat :=
  if month = 2 then if isLeap year then 29 else 28
  else if month = 4 ∨ month = 6 ∨ month = 9 ∨ month = 11 then 30 else 31

structure Date where
  year : Nat
  month : Nat
  day : Nat
  month_mem : 1 ≤ month ∧ month ≤ 12
  day_mem : 1 ≤ day ∧ day ≤ monthLength year month

theorem monthLength_pos (year month : Nat) : 1 ≤ monthLength year month := by
  unfold monthLength
  split_ifs <;> norm_num

/-- The next day of the calendar. -/
def Date.next (d : Date) : Date :=
  if h : d.day < monthLength d.year d.month then
    ⟨d.year, d.month, d.day + 1, d.month_mem, by omega⟩
  else if h : d.month < 12 then
    ⟨d.year, d.month + 1, 1, by omega, le_refl 1, monthLength_pos _ _⟩
  else
    ⟨d.year + 1, 1, 1, by omega, le_refl 1, monthLength_pos _ _⟩

/-- A year from March on, and its months from 0. -/
def marchYear (year month : Int) : Int := if 2 < month then year else year - 1

def marchMonth (month : Int) : Int := if 2 < month then month - 3 else month + 9

/-- The days of a year that begins in March, in front of a month. -/
def daysBefore (month : Int) : Int := (153 * month + 2) / 5

/-- The number of a day; 1 is the first of March of the year 0. -/
def dayNumber (year month day : Int) : Int :=
  146097 * (marchYear year month / 100) / 4 + 1461 * (marchYear year month % 100) / 4 +
    daysBefore (marchMonth month) + day

def Date.number (d : Date) : Int := dayNumber d.year d.month d.day

section

variable {d e : Date} {year : Nat} {n : Int}

theorem isLeap_iff : isLeap year = true ↔ year % 4 = 0 ∧ (year % 100 ≠ 0 ∨ year % 400 = 0) := by
  simp [isLeap]

theorem monthLength_february : monthLength year 2 = if isLeap year then 29 else 28 := rfl

theorem century_step (c : Int) :
    146097 * c / 4 = 146097 * (c - 1) / 4 + 36524 + if c % 4 = 0 then 1 else 0 := by
  have cases : c % 4 = 0 ∨ c % 4 = 1 ∨ c % 4 = 2 ∨ c % 4 = 3 := by omega
  rcases cases with h | h | h | h <;> rw [h] <;> norm_num <;> omega

theorem year_step (a : Int) :
    1461 * a / 4 = 1461 * (a - 1) / 4 + 365 + if a % 4 = 0 then 1 else 0 := by
  have cases : a % 4 = 0 ∨ a % 4 = 1 ∨ a % 4 = 2 ∨ a % 4 = 3 := by omega
  rcases cases with h | h | h | h <;> rw [h] <;> norm_num <;> omega

/-- The years that begin in March have a day more in front of a leap day. -/
theorem marchYear_leap (year : Nat) :
    146097 * ((year : Int) / 100) / 4 + 1461 * ((year : Int) % 100) / 4 =
      146097 * (((year : Int) - 1) / 100) / 4 + 1461 * (((year : Int) - 1) % 100) / 4 +
        337 + monthLength year 2 := by
  have length : (monthLength year 2 : Int) = 28 + if isLeap year then 1 else 0 := by
    rw [monthLength_february]
    split <;> rfl
  by_cases century : year % 100 = 0
  · have before : ((year : Int) - 1) / 100 = year / 100 - 1 := by omega
    have last : ((year : Int) - 1) % 100 = 99 := by omega
    have first : (year : Int) % 100 = 0 := by omega
    have leap : isLeap year = true ↔ (year : Int) / 100 % 4 = 0 := by
      rw [isLeap_iff]
      omega
    rw [length, before, last, first, century_step, if_congr leap rfl rfl]
    norm_num
    ring
  · have before : ((year : Int) - 1) / 100 = year / 100 := by omega
    have last : ((year : Int) - 1) % 100 = year % 100 - 1 := by omega
    have leap : isLeap year = true ↔ (year : Int) % 100 % 4 = 0 := by
      rw [isLeap_iff]
      omega
    rw [length, before, last, year_step, if_congr leap rfl rfl]
    ring

/-- The next day has the next number. -/
theorem Date.next_number (d : Date) : d.next.number = d.number + 1 := by
  obtain ⟨year, month, day, ⟨low, high⟩, first, last⟩ := d
  unfold Date.next
  by_cases inside : day < monthLength year month
  · rw [dif_pos inside]
    unfold number dayNumber
    push_cast
    ring
  · rw [dif_neg inside]
    have same : (day : Int) = monthLength year month := by
      have := le_antisymm last (not_lt.mp inside)
      exact_mod_cast this
    by_cases before : month < 12
    · rw [dif_pos before]
      unfold number dayNumber
      dsimp only
      rw [same]
      by_cases february : month = 2
      · subst february
        have leap := marchYear_leap year
        simp only [marchYear, marchMonth, daysBefore]
        push_cast
        norm_num
        omega
      · simp only [marchYear, marchMonth, daysBefore, monthLength]
        interval_cases month
        all_goals first
          | exact absurd rfl february
          | (norm_num; done)
          | (norm_num; ring)
    · rw [dif_neg before]
      obtain rfl : month = 12 := by omega
      unfold number dayNumber
      dsimp only
      rw [same]
      simp only [marchYear, marchMonth, daysBefore, monthLength]
      norm_num
      omega

theorem Date.iterate_number (d : Date) (k : Nat) : (next^[k] d).number = d.number + k := by
  induction k generalizing d with
  | zero => simp
  | succ k ih =>
    rw [Function.iterate_succ_apply, ih, next_number]
    push_cast
    ring

theorem Date.next_year (d : Date) : d.year ≤ d.next.year := by
  unfold next
  split_ifs
  · exact le_refl _
  · exact le_refl _
  · exact Nat.le_succ _

theorem Date.iterate_year (d : Date) (k : Nat) : d.year ≤ (next^[k] d).year := by
  induction k generalizing d with
  | zero => exact le_refl _
  | succ k ih =>
    rw [Function.iterate_succ_apply]
    exact d.next_year.trans (ih d.next)

/-- Every number from that of a date on is the number of a date. -/
theorem Date.exists_number (h : d.number ≤ n) : ∃ e : Date, d.year ≤ e.year ∧ e.number = n := by
  refine ⟨next^[(n - d.number).toNat] d, d.iterate_year _, ?_⟩
  rw [iterate_number]
  omega

/-- The first and the last day of a year. -/
def newYear (year : Nat) : Date := ⟨year, 1, 1, by norm_num, le_refl 1, monthLength_pos _ _⟩

def yearEnd (year : Nat) : Date := ⟨year, 12, 31, by norm_num, by norm_num, le_refl 31⟩

theorem yearEnd_next (year : Nat) : (yearEnd year).next = newYear (year + 1) := rfl

theorem newYear_number (year : Nat) :
    (newYear (year + 1)).number = (newYear year).number + 337 + monthLength year 2 := by
  have leap := marchYear_leap year
  unfold newYear Date.number dayNumber marchYear
  norm_num
  omega

theorem newYear_mono {a b : Nat} (h : a ≤ b) : (newYear a).number ≤ (newYear b).number := by
  induction b, h using Nat.le_induction with
  | base => exact le_refl _
  | succ b _ ih =>
    rw [newYear_number]
    omega

/-- The day of a year from March on. -/
def Date.dayOfYear (d : Date) : Int := daysBefore (marchMonth d.month) + d.day

theorem Date.dayOfYear_pos (d : Date) : 1 ≤ d.dayOfYear := by
  obtain ⟨year, month, day, ⟨low, high⟩, first, last⟩ := d
  unfold dayOfYear marchMonth daysBefore
  dsimp only
  split <;> omega

/-- A year from March on has a 366th day if the February at its end has 29 days. -/
theorem Date.dayOfYear_le (d : Date) : d.dayOfYear ≤ 365 ∨
    d.dayOfYear = 366 ∧ (marchYear d.year d.month + 1) % 4 = 0 ∧
      (marchYear d.year d.month % 100 = 99 → (marchYear d.year d.month / 100) % 4 = 3) := by
  obtain ⟨year, month, day, ⟨low, high⟩, first, last⟩ := d
  unfold dayOfYear marchMonth daysBefore marchYear
  dsimp only
  by_cases february : month = 2
  · subst february
    rw [monthLength_february] at last
    by_cases leap : isLeap year = true
    · rw [if_pos leap] at last
      rw [isLeap_iff] at leap
      norm_num
      omega
    · rw [if_neg leap] at last
      norm_num
      omega
  · have short : monthLength year month ≤ 31 := by
      unfold monthLength
      split_ifs <;> norm_num
    refine .inl ?_
    split <;> omega

theorem Date.newYear_le (d : Date) : (newYear d.year).number ≤ d.number := by
  have leap := marchYear_leap d.year
  have pos := d.dayOfYear_pos
  unfold dayOfYear marchMonth daysBefore at pos
  obtain ⟨year, month, day, ⟨low, high⟩, first, last⟩ := d
  unfold newYear number dayNumber marchYear marchMonth daysBefore
  dsimp only at leap pos ⊢
  rw [monthLength_february] at leap
  by_cases late : (2 : Int) < month
  · rw [if_pos late] at pos ⊢
    rw [if_pos late]
    norm_num
    split at leap <;> omega
  · rw [if_neg late] at pos ⊢
    rw [if_neg late]
    norm_num
    omega

theorem Date.le_yearEnd (d : Date) : d.number ≤ (yearEnd d.year).number := by
  have leap := marchYear_leap d.year
  obtain ⟨year, month, day, ⟨low, high⟩, first, last⟩ := d
  unfold yearEnd number dayNumber
  dsimp only at leap ⊢
  have inside : daysBefore (marchMonth month) + day ≤
      if (2 : Int) < month then 306 else 337 + monthLength year 2 := by
    unfold marchMonth daysBefore
    by_cases february : month = 2
    · subst february
      norm_num
      omega
    · unfold monthLength at last
      rw [if_neg february] at last
      interval_cases month
      all_goals
        norm_num at last ⊢
        omega
  have end_days : daysBefore (marchMonth 12) = 275 := by decide
  unfold marchYear at *
  norm_num [end_days]
  split_ifs at inside ⊢ <;> omega

theorem yearEnd_mono {a b : Nat} (h : a ≤ b) : (yearEnd a).number ≤ (yearEnd b).number := by
  have first := (yearEnd a).next_number
  have second := (yearEnd b).next_number
  rw [yearEnd_next] at first second
  have := newYear_mono (show a + 1 ≤ b + 1 by omega)
  omega

theorem Date.year_le (h : d.number ≤ (yearEnd year).number) : d.year ≤ year := by
  by_contra late
  have after := newYear_mono (show year + 1 ≤ d.year from not_le.mp late)
  have first := (yearEnd year).next_number
  rw [yearEnd_next] at first
  have := d.newYear_le
  omega

end

end Gregorian
