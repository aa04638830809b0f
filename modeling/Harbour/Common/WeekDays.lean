import Harbour.Common.Dates

/-!
Days of the week and week dates in `hbdate.c`.
-/

namespace Harbour.Common.WeekDays

open Library.Calendar Library.WeekDates Dates

def hb_dateJulianDOW (lJulian : ℤ) : ℤ :=
  if HB_STR_DATE_BASE ≤ lJulian then (lJulian + 1).tmod 7 + 1 else 0

/-- `hb_dateDOW`, with the month and the year that it counts from March. -/
def hb_dateDOW (iYear iMonth iDay : ℤ) : ℤ :=
  let m := if iMonth < 3 then iMonth + 13 else iMonth + 1
  let y := if iMonth < 3 then iYear - 1 else iYear
  (iDay + (26 * m).tdiv 10 + y + y.tdiv 4 - y.tdiv 100 + y.tdiv 400 + 6).tmod 7 + 1

structure WeekDate where
  year : ℤ
  week : ℤ
  day : ℤ
  deriving DecidableEq

def hb_dateDecWeek (lJulian : ℤ) : Option WeekDate :=
  if HB_STR_DATE_BASE ≤ lJulian then
    let iDay := lJulian.tmod 7 + 1
    let lJulian := lJulian + (4 - iDay)
    let iYear := (hb_dateDecode lJulian).year
    some ⟨iYear, toInt ((lJulian - hb_dateEncode iYear 1 1).tdiv 7 + 1), iDay⟩
  else none

def hb_dateEncWeek (iYear iWeek iDay : ℤ) : ℤ :=
  if 0 < iWeek ∧ iWeek ≤ 53 ∧ 0 < iDay ∧ iDay ≤ 7 then
    let lDate := hb_dateEncode iYear 1 1
    lDate + ((iWeek - 1) * 7 + iDay - (lDate + 3).tmod 7 + 2)
  else 0

section DayOfWeek

variable {y m d j : ℤ}

theorem hb_dateJulianDOW_eq (hj : HB_STR_DATE_BASE ≤ j) : hb_dateJulianDOW j = (j + 1) % 7 + 1 := by
  unfold hb_dateJulianDOW
  rw [if_pos hj, Int.tmod_eq_emod_of_nonneg]
  unfold HB_STR_DATE_BASE at hj
  omega

theorem hb_dateJulianDOW_succ (hj : HB_STR_DATE_BASE ≤ j) :
    hb_dateJulianDOW (j + 1) = hb_dateJulianDOW j % 7 + 1 := by
  rw [hb_dateJulianDOW_eq hj, hb_dateJulianDOW_eq (by omega)]
  omega

theorem hb_dateDOW_eq (h : Encodable ⟨y, m, d⟩) (hyear : ¬ (y = 0 ∧ m < 3)) :
    hb_dateDOW y m d = (hb_dateEncode y m d + 1) % 7 + 1 := by
  rw [hb_dateEncode_eq h]
  obtain ⟨⟨hmonth, hmonth', hday, hday'⟩, hpos, hlimit⟩ := h
  simp only at hmonth hmonth' hday hday' hpos hlimit
  unfold hb_dateDOW Date.number daysBefore HB_STR_DATE_BASE
  simp only
  rcases lt_or_ge m 3 with hwinter | hwinter
  · have hstart := yearStart_eq y
    simp only [if_pos hwinter]
    rw [Int.tdiv_eq_ediv_of_nonneg (by omega), Int.tdiv_eq_ediv_of_nonneg (a := y - 1) (by omega),
      Int.tdiv_eq_ediv_of_nonneg (a := y - 1) (by omega),
      Int.tdiv_eq_ediv_of_nonneg (a := y - 1) (by omega), Int.tmod_eq_emod_of_nonneg (by omega)]
    split_ifs <;> omega
  · have hleap := yearStart_leap y
    rw [if_neg (by omega), if_neg (by omega), Int.tdiv_eq_ediv_of_nonneg (by omega),
      Int.tdiv_eq_ediv_of_nonneg (a := y) hpos, Int.tdiv_eq_ediv_of_nonneg (a := y) hpos,
      Int.tdiv_eq_ediv_of_nonneg (a := y) hpos, Int.tmod_eq_emod_of_nonneg (by omega)]
    have hmonths : 26 * (m + 1) / 10 % 7 = (367 * (m - 2) / 12 + 1) % 7 := by
      interval_cases m <;> rfl
    split_ifs at hleap ⊢ <;> omega

theorem hb_dateDOW_yearZero (h : Encodable ⟨0, m, d⟩) (hwinter : m < 3) :
    hb_dateDOW 0 m d = (hb_dateEncode 0 m d + 2) % 7 + 1 := by
  rw [hb_dateEncode_eq h]
  obtain ⟨⟨hmonth, hmonth', hday, hday'⟩, -⟩ := h
  simp only at hmonth hmonth' hday hday'
  have hstart : yearStart 0 = 0 := by decide
  unfold hb_dateDOW Date.number daysBefore HB_STR_DATE_BASE
  simp only [if_pos hwinter, hstart]
  rw [Int.tdiv_eq_ediv_of_nonneg (by omega), show (0 - 1 : ℤ).tdiv 4 = 0 by decide,
    show (0 - 1 : ℤ).tdiv 100 = 0 by decide, show (0 - 1 : ℤ).tdiv 400 = 0 by decide,
    Int.tmod_eq_emod_of_nonneg (by omega)]
  split_ifs <;> omega

section

variable (h : Encodable ⟨y, m, d⟩)

include h

theorem hb_dateDOW_cases :
    ¬ (y = 0 ∧ m < 3) ∧ hb_dateDOW y m d = (hb_dateEncode y m d + 1) % 7 + 1 ∨
      (y = 0 ∧ m < 3) ∧ hb_dateDOW y m d = (hb_dateEncode y m d + 2) % 7 + 1 := by
  rcases em (y = 0 ∧ m < 3) with ⟨rfl, hwinter⟩ | hyear
  · exact .inr ⟨⟨rfl, hwinter⟩, hb_dateDOW_yearZero h hwinter⟩
  · exact .inl ⟨hyear, hb_dateDOW_eq h hyear⟩

theorem hb_dateDOW_agrees_iff :
    hb_dateDOW y m d = hb_dateJulianDOW (hb_dateEncode y m d) ↔ ¬ (y = 0 ∧ m < 3) := by
  rw [hb_dateJulianDOW_eq (base_le_hb_dateEncode h)]
  rcases hb_dateDOW_cases h with ⟨hyear, heq⟩ | ⟨hyear, heq⟩
  · exact iff_of_true heq hyear
  · apply iff_of_false _ (not_not.mpr hyear)
    omega

theorem next_winter {y' m' d' : ℤ} (hnext : Date.next ⟨y, m, d⟩ = ⟨y', m', d'⟩) :
    ((y' = 0 ∧ m' < 3) → (y = 0 ∧ m < 3)) ∧
      ((y = 0 ∧ m < 3) ∧ ¬ (y' = 0 ∧ m' < 3) ↔ y = 0 ∧ m = 2 ∧ d = 29) := by
  obtain ⟨⟨hmonth, hmonth', hday, hday'⟩, hpos, -⟩ := h
  simp only at hmonth hmonth' hday hday' hpos
  have hleap : monthLength 0 2 = 29 := by decide
  unfold Date.next at hnext
  simp only at hnext
  rcases em (y = 0 ∧ m = 2) with ⟨rfl, rfl⟩ | hfeb
  · split_ifs at hnext with hin hyear
    · obtain ⟨rfl, rfl, rfl⟩ := Date.mk.injEq .. ▸ hnext
      omega
    · obtain ⟨rfl, rfl, rfl⟩ := Date.mk.injEq .. ▸ hnext
      omega
    · omega
  · split_ifs at hnext with hin hyear
    · obtain ⟨rfl, rfl, rfl⟩ := Date.mk.injEq .. ▸ hnext
      omega
    · obtain ⟨rfl, rfl, rfl⟩ := Date.mk.injEq .. ▸ hnext
      omega
    · obtain ⟨rfl, rfl, rfl⟩ := Date.mk.injEq .. ▸ hnext
      omega

theorem hb_dateDOW_next_iff {y' m' d' : ℤ} (h' : Encodable ⟨y', m', d'⟩)
    (hnext : Date.next ⟨y, m, d⟩ = ⟨y', m', d'⟩) :
    hb_dateDOW y' m' d' = hb_dateDOW y m d % 7 + 1 ↔ ¬ (y = 0 ∧ m = 2 ∧ d = 29) := by
  have hnumber := h.1.number_next
  have henc := hb_dateEncode_eq h
  have henc' := hb_dateEncode_eq h'
  rw [hnext] at hnumber
  obtain ⟨hback, hcross⟩ := next_winter h hnext
  rw [← hcross]
  rcases hb_dateDOW_cases h with ⟨hyear, heq⟩ | ⟨hyear, heq⟩ <;>
    rcases hb_dateDOW_cases h' with ⟨hyear', heq'⟩ | ⟨hyear', heq'⟩
  · exact iff_of_true (by omega) (fun hboth => hyear hboth.1)
  · exact absurd (hback hyear') hyear
  · exact iff_of_false (by omega) (not_not.mpr ⟨hyear, hyear'⟩)
  · exact iff_of_true (by omega) (fun hboth => hboth.2 hyear')

end

/-- For a valid date the two days of the week are the same if and only if it is not in January or
February of the year 0; the days of the week of consecutive julian days are consecutive, and those
of consecutive dates are, but from the 29th of February of the year 0. -/
theorem weekdays_agree_iff (y m d : ℤ) (hvalid : hb_dateEncode y m d ≠ 0) :
    (hb_dateDOW y m d = hb_dateJulianDOW (hb_dateEncode y m d) ↔ ¬ (y = 0 ∧ m < 3)) ∧
    hb_dateJulianDOW (hb_dateEncode y m d + 1) =
      hb_dateJulianDOW (hb_dateEncode y m d) % 7 + 1 ∧
    (∀ y' m' d', hb_dateEncode y' m' d' ≠ 0 → Date.next ⟨y, m, d⟩ = ⟨y', m', d'⟩ →
      (hb_dateDOW y' m' d' = hb_dateDOW y m d % 7 + 1 ↔ ¬ (y = 0 ∧ m = 2 ∧ d = 29))) := by
  have h := hb_dateEncode_ne_zero_iff.mp hvalid
  refine ⟨hb_dateDOW_agrees_iff h, hb_dateJulianDOW_succ (base_le_hb_dateEncode h), ?_⟩
  intro y' m' d' hvalid' hnext
  exact hb_dateDOW_next_iff h (hb_dateEncode_ne_zero_iff.mp hvalid') hnext

theorem weekdays_agree_newYear :
    hb_dateDOW 2000 1 1 = hb_dateJulianDOW (hb_dateEncode 2000 1 1) ∧
      hb_dateDOW 2000 1 2 = hb_dateDOW 2000 1 1 % 7 + 1 :=
  ⟨(weekdays_agree_iff 2000 1 1 (by decide)).1.mpr (by decide),
    ((weekdays_agree_iff 2000 1 1 (by decide)).2.2 2000 1 2 (by decide) (by decide)).mpr
      (by decide)⟩

/-- The first of January of the year 0 is a Saturday, and a Sunday for `hb_dateDOW`. -/
theorem weekdays_differ : ¬ ∀ y m d, hb_dateEncode y m d ≠ 0 →
    hb_dateDOW y m d = hb_dateJulianDOW (hb_dateEncode y m d) := by
  intro h
  exact absurd (h 0 1 1 (by decide)) (by decide)

end DayOfWeek

section Weeks

variable {y w d j : ℤ}

theorem encodable_newYear (hyear : 0 ≤ y) (hlimit : y ≤ HB_DATE_YEAR_LIMIT) : Encodable ⟨y, 1, 1⟩ :=
  ⟨⟨le_refl 1, show (1 : ℤ) ≤ 12 by decide, le_refl 1,
    Int.add_one_le_iff.mpr (monthLength_pos _ _)⟩, hyear, hlimit⟩

theorem hb_dateEncode_newYear (hyear : 0 ≤ y) (hlimit : y ≤ HB_DATE_YEAR_LIMIT) :
    hb_dateEncode y 1 1 = HB_STR_DATE_BASE + yearStart y := by
  rw [hb_dateEncode_eq (encodable_newYear hyear hlimit), Date.number_first]

theorem hb_dateDecWeek_eq (hj : HB_STR_DATE_BASE + 2 ≤ j) (hj' : j ≤ hb_dateEncode 9999 12 31) :
    ∃ y w d, hb_dateDecWeek j = some ⟨y, w, d⟩ ∧ 0 ≤ y ∧ y ≤ HB_DATE_YEAR_LIMIT ∧
      IsWeekDate (j - HB_STR_DATE_BASE) y w d := by
  have hbase : HB_STR_DATE_BASE = 1721060 := rfl
  have hlast := hb_dateEncode_last
  have hday : j.tmod 7 = j % 7 := Int.tmod_eq_emod_of_nonneg (by omega)
  -- the Thursday of the week
  obtain ⟨t, ht⟩ : ∃ t, t = j + (4 - (j % 7 + 1)) := ⟨_, rfl⟩
  obtain ⟨hdate, hnumber⟩ := hb_dateDecode_encodable (j := t) (by omega) (by omega)
  obtain ⟨y, hy⟩ : ∃ y, y = (hb_dateDecode t).year := ⟨_, rfl⟩
  have hyear : 0 ≤ y := hy ▸ hdate.2.1
  have hlimit : y ≤ HB_DATE_YEAR_LIMIT := hy ▸ hdate.2.2
  have hafter := (hdate.1.yearStart_le_iff y).mpr hy.le
  have hbefore := (hdate.1.yearStart_le_iff (y + 1)).not.mpr (by omega)
  have hlength := yearStart_succ_cases y
  have hweek : toInt ((t - hb_dateEncode y 1 1).tdiv 7 + 1) =
      (t - 1721060 - yearStart y) / 7 + 1 := by
    rw [hb_dateEncode_newYear hyear hlimit, hbase, Int.tdiv_eq_ediv_of_nonneg (by omega), toInt_eq]
    · omega
    · omega
    · unfold INT_MAX
      omega
  refine ⟨y, (t - 1721060 - yearStart y) / 7 + 1, j % 7 + 1, ?_, hyear, hlimit, ?_, ?_, ?_, ?_⟩
  · unfold hb_dateDecWeek
    rw [if_pos (by omega)]
    simp only [hday, ← ht, ← hy, hweek]
  · unfold weekday
    omega
  · omega
  · omega
  · omega

theorem hb_dateEncWeek_eq (hyear : 0 ≤ y) (hlimit : y ≤ HB_DATE_YEAR_LIMIT) (hw : 0 < w)
    (hw' : w ≤ 53) (hd : 0 < d) (hd' : d ≤ 7) :
    hb_dateEncWeek y w d = HB_STR_DATE_BASE + ofWeekDate y w d := by
  have hstart : 0 ≤ yearStart y := by
    rw [← Date.number_first]
    exact (encodable_newYear hyear hlimit).number_nonneg
  unfold hb_dateEncWeek ofWeekDate
  simp only
  rw [hb_dateEncode_newYear hyear hlimit, Int.tmod_eq_emod_of_nonneg]
  · unfold HB_STR_DATE_BASE
    omega
  · unfold HB_STR_DATE_BASE
    omega

theorem hb_dateEncWeek_outside (hyear : ¬ (0 ≤ y ∧ y ≤ HB_DATE_YEAR_LIMIT)) (hw : 0 < w)
    (hw' : w ≤ 53) (hd : 0 < d) (hd' : d ≤ 7) : hb_dateEncWeek y w d = (w - 1) * 7 + d - 1 := by
  have hstart : hb_dateEncode y 1 1 = 0 := by
    by_contra hne
    exact hyear (hb_dateEncode_ne_zero_iff.mp hne).2
  unfold hb_dateEncWeek
  rw [if_pos ⟨hw, hw', hd, hd'⟩]
  simp only [hstart]
  rw [show ((0 : ℤ) + 3).tmod 7 = 3 by decide]
  ring

theorem hb_dateDecWeek_base : hb_dateDecWeek HB_STR_DATE_BASE = some ⟨0, 1, 6⟩ ∧
    hb_dateDecWeek (HB_STR_DATE_BASE + 1) = some ⟨0, 1, 7⟩ := by decide

theorem hb_dateEncWeek_exists_iff (hw : 0 < w) (hw' : w ≤ 53) (hd : 0 < d) (hd' : d ≤ 7) :
    (hb_dateEncWeek y w d ≠ 0 →
        (∃ n, IsWeekDate n y w d) ∧ 0 ≤ y ∧ y ≤ HB_DATE_YEAR_LIMIT) ↔
      0 ≤ y ∧ y ≤ HB_DATE_YEAR_LIMIT ∧ (w = 53 → LongYear y) ∨
        ¬ (0 ≤ y ∧ y ≤ HB_DATE_YEAR_LIMIT) ∧ w = 1 ∧ d = 1 := by
  rw [exists_isWeekDate_iff]
  rcases em (0 ≤ y ∧ y ≤ HB_DATE_YEAR_LIMIT) with ⟨hyear, hlimit⟩ | hyear
  · have hne : hb_dateEncWeek y w d ≠ 0 := by
      have hstart : 0 ≤ yearStart y := by
        rw [← Date.number_first]
        exact (encodable_newYear hyear hlimit).number_nonneg
      rw [hb_dateEncWeek_eq hyear hlimit hw hw' hd hd']
      unfold ofWeekDate HB_STR_DATE_BASE
      omega
    rcases em (LongYear y) with hlong | hlong <;>
      simp only [hlong, and_true, and_false, or_false, imp_true_iff, imp_false] <;> omega
  · rw [hb_dateEncWeek_outside hyear hw hw' hd hd']
    omega

/-- A julian day of the years 0 to 9999 goes to its week date and back if and only if it is not one
of the first two, whose week belongs to the year before; and a week date with a julian day exists
if and only if its year is in range and the week is not the 53rd of a short year. -/
theorem weekDates_iff (j year week day : ℤ) :
    (HB_STR_DATE_BASE ≤ j → j ≤ hb_dateEncode 9999 12 31 →
      ((∃ y w d, hb_dateDecWeek j = some ⟨y, w, d⟩ ∧ 1 ≤ w ∧ w ≤ 53 ∧ 1 ≤ d ∧ d ≤ 7 ∧
          IsWeekDate (j - HB_STR_DATE_BASE) y w d ∧ hb_dateEncWeek y w d = j) ↔
        HB_STR_DATE_BASE + 2 ≤ j)) ∧
    ((hb_dateEncWeek year week day ≠ 0 →
        (∃ n, IsWeekDate n year week day) ∧ 0 ≤ year ∧ year ≤ HB_DATE_YEAR_LIMIT) ↔
      (1 ≤ week ∧ week ≤ 53 ∧ 1 ≤ day ∧ day ≤ 7 →
        0 ≤ year ∧ year ≤ HB_DATE_YEAR_LIMIT ∧ (week = 53 → LongYear year) ∨
          ¬ (0 ≤ year ∧ year ≤ HB_DATE_YEAR_LIMIT) ∧ week = 1 ∧ day = 1)) := by
  constructor
  · intro hj hj'
    constructor
    · rintro ⟨y, w, d, hdec, -, -, -, -, -, hround⟩
      by_contra hearly
      have hcases : j = HB_STR_DATE_BASE ∨ j = HB_STR_DATE_BASE + 1 := by omega
      rcases hcases with rfl | rfl
      · rw [hb_dateDecWeek_base.1] at hdec
        obtain ⟨rfl, rfl, rfl⟩ := WeekDate.mk.injEq .. ▸ Option.some.inj hdec
        exact absurd hround (by decide)
      · rw [hb_dateDecWeek_base.2] at hdec
        obtain ⟨rfl, rfl, rfl⟩ := WeekDate.mk.injEq .. ▸ Option.some.inj hdec
        exact absurd hround (by decide)
    · intro hlate
      obtain ⟨y, w, d, hdec, hyear, hlimit, hdate⟩ := hb_dateDecWeek_eq hlate hj'
      obtain ⟨hday, hday'⟩ := hdate.day_range
      obtain ⟨hweek, hweek'⟩ := hdate.week_range
      refine ⟨y, w, d, hdec, hweek, by omega, hday, hday', hdate, ?_⟩
      rw [hb_dateEncWeek_eq hyear hlimit (by omega) (by omega) (by omega) hday', ← hdate.eq]
      ring
  · rcases em (0 < week ∧ week ≤ 53 ∧ 0 < day ∧ day ≤ 7) with ⟨hw, hw', hd, hd'⟩ | hrange
    · rw [hb_dateEncWeek_exists_iff hw hw' hd hd']
      exact ⟨fun h _ => h, fun h => h ⟨hw, hw', hd, hd'⟩⟩
    · have hzero : hb_dateEncWeek year week day = 0 := if_neg hrange
      exact iff_of_true (fun hne => absurd hzero hne) (fun h => absurd h hrange)

theorem weekDates_newYear :
    ∃ y w d, hb_dateDecWeek 2451545 = some ⟨y, w, d⟩ ∧ 1 ≤ w ∧ w ≤ 53 ∧ 1 ≤ d ∧ d ≤ 7 ∧
      IsWeekDate (2451545 - HB_STR_DATE_BASE) y w d ∧ hb_dateEncWeek y w d = 2451545 :=
  ((weekDates_iff 2451545 2000 1 6).1 (by decide) (by decide)).mpr (by decide)

/-- The first day of the year 0 comes back as a day of the next week. -/
theorem weekDates_lost : ¬ ∀ j, HB_STR_DATE_BASE ≤ j → j ≤ hb_dateEncode 9999 12 31 →
    ∃ y w d, hb_dateDecWeek j = some ⟨y, w, d⟩ ∧ hb_dateEncWeek y w d = j := by
  intro h
  obtain ⟨y, w, d, hdec, hround⟩ := h HB_STR_DATE_BASE (by decide) (by decide)
  obtain ⟨rfl, rfl, rfl⟩ := WeekDate.mk.injEq .. ▸ Option.some.inj hdec
  exact absurd hround (by decide)

end Weeks

end Harbour.Common.WeekDays
