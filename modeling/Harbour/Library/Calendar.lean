import Mathlib.Order.SuccPred.IntervalSucc
import Mathlib.Tactic.IntervalCases
import Mathlib.Tactic.Linarith
import Mathlib.Tactic.Ring
import Mathlib.Data.Int.ConditionallyCompleteOrder

/-!
The proleptic Gregorian calendar: dates, the next day, the number of a day, and week dates.
-/

namespace Harbour.Library.Calendar

structure Blocks where
  start : ℤ → ℤ
  size : ℤ → ℤ
  size_pos : ∀ n, 0 < size n
  start_succ : ∀ n, start (n + 1) = start n + size n

namespace Blocks

variable (blocks : Blocks) {n n' k k' : ℤ}

def Inside (n k : ℤ) : Prop := 0 ≤ k ∧ k < blocks.size n

theorem start_strictMono : StrictMono blocks.start := by
  apply strictMono_int_of_lt_succ
  intro n
  have hpos := blocks.size_pos n
  have hstart := blocks.start_succ n
  linarith

section

variable (hk : blocks.Inside n k) (hk' : blocks.Inside n' k')

include hk hk'

theorem lt_of_lt (hlt : n < n') : blocks.start n + k < blocks.start n' + k' := by
  have hend : blocks.start (n + 1) ≤ blocks.start n' :=
    blocks.start_strictMono.monotone (Int.add_one_le_iff.mpr hlt)
  have hstart := blocks.start_succ n
  have hsize := hk.2
  have hleast := hk'.1
  linarith

theorem unique (heq : blocks.start n + k = blocks.start n' + k') : n = n' ∧ k = k' := by
  rcases lt_trichotomy n n' with hlt | rfl | hlt
  · exact absurd heq (blocks.lt_of_lt hk hk' hlt).ne
  · exact ⟨rfl, add_left_cancel heq⟩
  · exact absurd heq.symm (blocks.lt_of_lt hk' hk hlt).ne

theorem lt_iff : blocks.start n + k < blocks.start n' + k' ↔ n < n' ∨ n = n' ∧ k < k' := by
  constructor
  · intro h
    rcases lt_trichotomy n n' with hlt | rfl | hlt
    · exact .inl hlt
    · exact .inr ⟨rfl, lt_of_add_lt_add_left h⟩
    · exact absurd h (blocks.lt_of_lt hk' hk hlt).asymm
  · rintro (hlt | ⟨rfl, hlt⟩)
    · exact blocks.lt_of_lt hk hk' hlt
    · exact (add_lt_add_iff_left _).mpr hlt

end

end Blocks

@[ext] structure Date where
  year : ℤ
  month : ℤ
  day : ℤ
  deriving DecidableEq, Repr

def IsLeap (y : ℤ) : Prop := y % 4 = 0 ∧ (y % 100 ≠ 0 ∨ y % 400 = 0)

instance (y : ℤ) : Decidable (IsLeap y) := inferInstanceAs (Decidable (_ ∧ _))

def monthLength (y m : ℤ) : ℤ :=
  if m = 2 then (if IsLeap y then 29 else 28)
  else if m = 4 ∨ m = 6 ∨ m = 9 ∨ m = 11 then 30 else 31

def yearLength (y : ℤ) : ℤ := if IsLeap y then 366 else 365

namespace Date

structure Valid (d : Date) : Prop where
  month_pos : 1 ≤ d.month
  month_le : d.month ≤ 12
  day_pos : 1 ≤ d.day
  day_le : d.day ≤ monthLength d.year d.month

def next (d : Date) : Date :=
  if d.day < monthLength d.year d.month then ⟨d.year, d.month, d.day + 1⟩
  else if d.month < 12 then ⟨d.year, d.month + 1, 1⟩
  else ⟨d.year + 1, 1, 1⟩

/-- Calendar order. -/
instance : LT Date where
  lt d d' := d.year < d'.year ∨
    d.year = d'.year ∧ (d.month < d'.month ∨ d.month = d'.month ∧ d.day < d'.day)

theorem lt_iff (d d' : Date) : d < d' ↔ d.year < d'.year ∨
    d.year = d'.year ∧ (d.month < d'.month ∨ d.month = d'.month ∧ d.day < d'.day) :=
  Iff.rfl

end Date

/-- The days from the first of January of year 0 to the first of January of another year. -/
def yearStart (y : ℤ) : ℤ := 365 * y + (y + 3) / 4 - (y + 99) / 100 + (y + 399) / 400

def daysBefore (y m : ℤ) : ℤ :=
  if m ≤ 1 then 0 else if m = 2 then 31
  else (367 * (m - 2)) / 12 + (if IsLeap y then 30 else 29)

theorem yearStart_succ (y : ℤ) : yearStart (y + 1) = yearStart y + yearLength y := by
  unfold yearStart yearLength IsLeap
  split_ifs <;> omega

/-- The days before the `n`-th month, counted from the January of year 0. -/
def monthStart (n : ℤ) : ℤ := yearStart (n / 12) + daysBefore (n / 12) (n % 12 + 1)

theorem monthLength_pos (y m : ℤ) : 0 < monthLength y m := by
  unfold monthLength
  split_ifs <;> decide

theorem monthLength_le (y m : ℤ) : monthLength y m ≤ 31 := by
  unfold monthLength
  split_ifs <;> decide

theorem daysBefore_succ {y m : ℤ} (hpos : 1 ≤ m) (hle : m < 12) :
    daysBefore y (m + 1) = daysBefore y m + monthLength y m := by
  unfold daysBefore monthLength
  by_cases hleap : IsLeap y
  · simp only [if_pos hleap]
    interval_cases m <;> rfl
  · simp only [if_neg hleap]
    interval_cases m <;> rfl

theorem daysBefore_december (y : ℤ) : daysBefore y 12 + monthLength y 12 = yearLength y := by
  unfold daysBefore monthLength yearLength
  split_ifs <;> omega

theorem monthStart_succ (n : ℤ) :
    monthStart (n + 1) = monthStart n + monthLength (n / 12) (n % 12 + 1) := by
  unfold monthStart
  rcases lt_or_ge (n % 12 + 1) 12 with hmonth | hmonth
  · have hyear : (n + 1) / 12 = n / 12 := by omega
    have hindex : (n + 1) % 12 + 1 = n % 12 + 1 + 1 := by omega
    rw [hyear, hindex, daysBefore_succ (by omega) hmonth]
    ring
  · have hyear : (n + 1) / 12 = n / 12 + 1 := by omega
    have hindex : (n + 1) % 12 + 1 = 1 := by omega
    have hlast : n % 12 + 1 = 12 := by omega
    rw [hyear, hindex, hlast, yearStart_succ, ← daysBefore_december]
    unfold daysBefore
    norm_num
    ring

def months : Blocks where
  start := monthStart
  size n := monthLength (n / 12) (n % 12 + 1)
  size_pos _ := monthLength_pos _ _
  start_succ := monthStart_succ

def years : Blocks where
  start := yearStart
  size := yearLength
  size_pos y := by
    unfold yearLength
    split_ifs <;> decide
  start_succ := yearStart_succ

namespace Date

variable {d d' : Date}

def index (d : Date) : ℤ := 12 * d.year + (d.month - 1)

def number (d : Date) : ℤ := yearStart d.year + daysBefore d.year d.month + (d.day - 1)

theorem Valid.index_div (h : d.Valid) : d.index / 12 = d.year := by
  have hpos := h.month_pos
  have hle := h.month_le
  unfold index
  omega

theorem Valid.index_mod (h : d.Valid) : d.index % 12 + 1 = d.month := by
  have hpos := h.month_pos
  have hle := h.month_le
  unfold index
  omega

theorem Valid.number_eq (h : d.Valid) : d.number = months.start d.index + (d.day - 1) := by
  unfold number months monthStart
  simp only [h.index_div, h.index_mod]

theorem Valid.inside (h : d.Valid) : months.Inside d.index (d.day - 1) := by
  have hpos := h.day_pos
  have hle := h.day_le
  unfold Blocks.Inside months
  simp only [h.index_div, h.index_mod]
  omega

theorem Valid.next (h : d.Valid) : d.next.Valid := by
  obtain ⟨hmonth, hmonth', hday, hday'⟩ := h
  unfold Date.next
  split_ifs with hin hyear
  · exact ⟨hmonth, hmonth', by simp only; omega, by simp only; omega⟩
  · exact ⟨by simp only; omega, by simp only; omega, le_refl _,
      Int.add_one_le_iff.mpr (monthLength_pos _ _)⟩
  · exact ⟨le_refl 1, show (1 : ℤ) ≤ 12 by decide, le_refl 1,
      Int.add_one_le_iff.mpr (monthLength_pos _ _)⟩

theorem year_le_next (d : Date) : d.year ≤ d.next.year := by
  unfold Date.next
  split_ifs <;> simp only <;> omega

theorem Valid.number_next (h : d.Valid) : d.next.number = d.number + 1 := by
  obtain ⟨hmonth, hmonth', hday, hday'⟩ := h
  unfold Date.next number
  split_ifs with hin hyear
  · simp only
    ring
  · have hlast : d.day = monthLength d.year d.month := by omega
    simp only [daysBefore_succ hmonth hyear, hlast]
    ring
  · have hlast : d.day = monthLength d.year d.month := by omega
    have hdecember : d.month = 12 := by omega
    have hbefore := daysBefore_december d.year
    have hfirst : daysBefore (d.year + 1) 1 = 0 := rfl
    simp only [yearStart_succ, hlast, hdecember, hfirst]
    linarith

theorem Valid.number_lt_iff (h : d.Valid) (h' : d'.Valid) : d.number < d'.number ↔ d < d' := by
  rw [h.number_eq, h'.number_eq, months.lt_iff h.inside h'.inside, lt_iff]
  obtain ⟨hmonth, hmonth', hday, hday'⟩ := h
  obtain ⟨gmonth, gmonth', gday, gday'⟩ := h'
  unfold index
  omega

theorem Valid.number_inj (h : d.Valid) (h' : d'.Valid) (heq : d.number = d'.number) : d = d' := by
  have hplace := months.unique h.inside h'.inside (by rw [← h.number_eq, ← h'.number_eq, heq])
  ext
  · rw [← h.index_div, ← h'.index_div, hplace.1]
  · rw [← h.index_mod, ← h'.index_mod, hplace.1]
  · linarith [hplace.2]

theorem Valid.in_year (h : d.Valid) :
    years.Inside d.year (daysBefore d.year d.month + (d.day - 1)) := by
  obtain ⟨hmonth, hmonth', hday, hday'⟩ := h
  unfold Blocks.Inside years
  simp only
  unfold monthLength at hday'
  unfold daysBefore yearLength
  split_ifs at * <;> omega

theorem number_eq_year (d : Date) :
    d.number = years.start d.year + (daysBefore d.year d.month + (d.day - 1)) := by
  unfold number years
  ring

theorem Valid.yearStart_le_iff (h : d.Valid) (y : ℤ) : yearStart y ≤ d.number ↔ y ≤ d.year := by
  have hfirst : years.Inside y 0 := ⟨le_refl 0, years.size_pos y⟩
  have hzero : yearStart y = years.start y + 0 := (add_zero _).symm
  rw [number_eq_year, hzero]
  constructor
  · intro hle
    by_contra hlt
    exact absurd hle (years.lt_of_lt h.in_year hfirst (not_le.mp hlt)).not_ge
  · intro hle
    rcases hle.eq_or_lt with rfl | hlt
    · exact (add_le_add_iff_left _).mpr h.in_year.1
    · exact (years.lt_of_lt hfirst h.in_year hlt).le

theorem number_first (y : ℤ) : number ⟨y, 1, 1⟩ = yearStart y := by
  have hfirst : daysBefore y 1 = 0 := rfl
  unfold number
  rw [hfirst]
  ring

end Date

end Harbour.Library.Calendar

/-!
Days of the week, and the week dates of ISO 8601.
-/

namespace Harbour.Library.WeekDates

open Calendar

/-- The day of the week of the day with a number, 1 for a Monday. -/
def weekday (n : ℤ) : ℤ := (n + 5) % 7 + 1

/-- Weeks start on Mondays and are counted in the year of their Thursday. -/
structure IsWeekDate (n y w d : ℤ) : Prop where
  day : d = weekday n
  after : yearStart y ≤ n - d + 4
  before : n - d + 4 < yearStart (y + 1)
  week : w = (n - d + 4 - yearStart y) / 7 + 1

/-- A year that starts on a Thursday, or on a Wednesday when it is a leap year. -/
def LongYear (y : ℤ) : Prop :=
  weekday (yearStart y) = 4 ∨ weekday (yearStart y) = 3 ∧ IsLeap y

instance (y : ℤ) : Decidable (LongYear y) := inferInstanceAs (Decidable (_ ∨ _))

def ofWeekDate (y w d : ℤ) : ℤ := yearStart y + (w - 1) * 7 + d - (yearStart y + 1) % 7 + 2

variable {n y w d : ℤ}

theorem yearStart_succ_cases (y : ℤ) :
    (IsLeap y ∧ yearStart (y + 1) = yearStart y + 366) ∨
      (¬ IsLeap y ∧ yearStart (y + 1) = yearStart y + 365) := by
  rw [yearStart_succ]
  unfold yearLength
  split_ifs with hleap
  · exact .inl ⟨hleap, rfl⟩
  · exact .inr ⟨hleap, rfl⟩

theorem IsWeekDate.eq (h : IsWeekDate n y w d) : n = ofWeekDate y w d := by
  obtain ⟨hday, hafter, hbefore, hweek⟩ := h
  unfold weekday at hday
  unfold ofWeekDate
  omega

theorem IsWeekDate.day_range (h : IsWeekDate n y w d) : 1 ≤ d ∧ d ≤ 7 := by
  have hday := h.day
  unfold weekday at hday
  omega

theorem IsWeekDate.week_range (h : IsWeekDate n y w d) :
    1 ≤ w ∧ (w ≤ 52 ∨ w = 53 ∧ LongYear y) := by
  obtain ⟨hday, hafter, hbefore, hweek⟩ := h
  unfold LongYear
  unfold weekday at *
  rcases yearStart_succ_cases y with ⟨hleap, hnext⟩ | ⟨hleap, hnext⟩ <;>
    simp only [hleap, and_true, and_false, or_false] <;> omega

theorem isWeekDate_ofWeekDate (hd : 1 ≤ d) (hd' : d ≤ 7) (hw : 1 ≤ w)
    (hw' : w ≤ 52 ∨ w = 53 ∧ LongYear y) : IsWeekDate (ofWeekDate y w d) y w d := by
  unfold LongYear at hw'
  unfold weekday at hw'
  have hnext := yearStart_succ_cases y
  constructor
  · unfold weekday ofWeekDate
    omega
  · unfold ofWeekDate
    omega
  · unfold ofWeekDate
    rcases hnext with ⟨hleap, hnext⟩ | ⟨hleap, hnext⟩ <;>
      simp only [hleap, and_true, and_false, or_false] at hw' <;> omega
  · unfold ofWeekDate
    omega

theorem exists_isWeekDate_iff : (∃ n, IsWeekDate n y w d) ↔
    1 ≤ d ∧ d ≤ 7 ∧ 1 ≤ w ∧ (w ≤ 52 ∨ w = 53 ∧ LongYear y) := by
  constructor
  · rintro ⟨n, h⟩
    exact ⟨h.day_range.1, h.day_range.2, h.week_range⟩
  · rintro ⟨hd, hd', hw, hw'⟩
    exact ⟨_, isWeekDate_ofWeekDate hd hd' hw hw'⟩

end Harbour.Library.WeekDates
