import Harbour.Library.Calendar

/-!
The julian day numbers of `hbdate.c`.
-/

namespace Harbour.Common.Dates

open Library.Calendar

def HB_DATE_YEAR_LIMIT : ℤ := 9999

/-- The julian day of 0000-01-01. -/
def HB_STR_DATE_BASE : ℤ := 1721060

def INT_MAX : ℤ := 2 ^ 31 - 1

def toInt (n : ℤ) : ℤ := n.bmod (2 ^ 32)

def auiDayLimit : List ℤ := [31, 28, 31, 30, 31, 30, 31, 31, 30, 31, 30, 31]

def hb_dateEncode (iYear iMonth iDay : ℤ) : ℤ :=
  if 0 ≤ iYear ∧ iYear ≤ HB_DATE_YEAR_LIMIT ∧ 1 ≤ iMonth ∧ iMonth ≤ 12 ∧ 1 ≤ iDay then
    if iDay ≤ auiDayLimit.getD (iMonth - 1).toNat 0 ∨
        (iDay = 29 ∧ iMonth = 2 ∧
          -- `iYear & 3`, of a year that is not negative
          iYear % 4 = 0 ∧ (iYear.tmod 100 ≠ 0 ∨ iYear.tmod 400 = 0)) then
      let iFactor : ℤ := if iMonth < 3 then -1 else 0
      ((iFactor + 4800 + iYear) * 1461).tdiv 4 +
        ((iMonth - 2 - iFactor * 12) * 367).tdiv 12 -
        ((iFactor + 4900 + iYear).tdiv 100 * 3).tdiv 4 + iDay - 32075
    else 0
  else 0

def decodeFields (lJulian : ℤ) : Date :=
  let J := lJulian + 68569
  let W := (J * 4).tdiv 146097
  let J := J - (146097 * W + 3).tdiv 4
  let X := (4000 * (J + 1)).tdiv 1461001
  let J := J - ((1461 * X).tdiv 4 - 31)
  let V := (80 * J).tdiv 2447
  let U := V.tdiv 11
  { year := X + U + (W - 49) * 100
    month := V + 2 - U * 12
    day := J - (2447 * V).tdiv 80 }

def hb_dateDecode (lJulian : ℤ) : Date :=
  if HB_STR_DATE_BASE ≤ lJulian then
    { year := toInt (decodeFields lJulian).year
      month := toInt (decodeFields lJulian).month
      day := toInt (decodeFields lJulian).day }
  else ⟨0, 0, 0⟩

theorem toInt_eq {n : ℤ} (hlo : -2 ^ 31 ≤ n) (hhi : n ≤ INT_MAX) : toInt n = n := by
  apply Int.bmod_eq_of_le
  · simpa using hlo
  · unfold INT_MAX at hhi
    omega

section Encode

variable {y m d : ℤ}

theorem dayLimit_iff (hpos : 1 ≤ m) (hle : m ≤ 12) (hyear : 0 ≤ y) :
    (d ≤ auiDayLimit.getD (m - 1).toNat 0 ∨
      (d = 29 ∧ m = 2 ∧ y % 4 = 0 ∧ (y.tmod 100 ≠ 0 ∨ y.tmod 400 = 0))) ↔
    d ≤ monthLength y m := by
  rw [Int.tmod_eq_emod_of_nonneg hyear, Int.tmod_eq_emod_of_nonneg hyear]
  unfold monthLength IsLeap auiDayLimit
  interval_cases m <;> simp
  all_goals (split_ifs <;> omega)

def Encodable (date : Date) : Prop :=
  date.Valid ∧ 0 ≤ date.year ∧ date.year ≤ HB_DATE_YEAR_LIMIT

theorem yearPart_eq {s : ℤ} (hs : -1 ≤ s) :
    ((4800 + s) * 1461).tdiv 4 - ((4900 + s).tdiv 100 * 3).tdiv 4 =
      1753164 + 365 * s + s / 4 - s / 100 + s / 400 := by
  have hquarter : (4800 + s) * 1461 / 4 = 1753200 + 365 * s + s / 4 := by omega
  have hcentury : (4900 + s) / 100 = 49 + s / 100 := by omega
  have hthree : (49 + s / 100) * 3 / 4 = 36 + s / 100 - s / 100 / 4 := by omega
  have hfour : s / 100 / 4 = s / 400 := Int.ediv_ediv_of_nonneg (by decide)
  rw [Int.tdiv_eq_ediv_of_nonneg (by omega), Int.tdiv_eq_ediv_of_nonneg (a := 4900 + s) (by omega),
    Int.tdiv_eq_ediv_of_nonneg (by omega), hquarter, hcentury, hthree, hfour]
  ring

theorem yearStart_eq (y : ℤ) :
    yearStart y = 365 * y + (y - 1) / 4 - (y - 1) / 100 + (y - 1) / 400 + 1 := by
  unfold yearStart
  omega

theorem yearStart_leap (y : ℤ) :
    365 * y + y / 4 - y / 100 + y / 400 + 1 = yearStart y + (if IsLeap y then 1 else 0) := by
  rw [yearStart_eq]
  unfold IsLeap
  split_ifs <;> omega

theorem daysBefore_winter (y : ℤ) {m : ℤ} (hpos : 1 ≤ m) (hle : m ≤ 2) :
    daysBefore y m = 31 * (m - 1) := by
  unfold daysBefore
  split_ifs <;> omega

theorem hb_dateEncode_eq (h : Encodable ⟨y, m, d⟩) :
    hb_dateEncode y m d = HB_STR_DATE_BASE + Date.number ⟨y, m, d⟩ := by
  obtain ⟨⟨hmonth, hmonth', hday, hday'⟩, hyear, hlimit⟩ := h
  simp only at hmonth hmonth' hday hday' hyear hlimit
  unfold hb_dateEncode
  rw [if_pos ⟨hyear, hlimit, hmonth, hmonth', hday⟩,
    if_pos ((dayLimit_iff hmonth hmonth' hyear).mpr hday')]
  unfold Date.number daysBefore HB_STR_DATE_BASE
  simp only
  rcases lt_or_ge m 3 with hwinter | hwinter
  · have hyears := yearPart_eq (s := y - 1) (by omega)
    have hfirst := yearStart_eq y
    rw [if_pos hwinter, show -1 + 4800 + y = 4800 + (y - 1) by ring,
      show -1 + 4900 + y = 4900 + (y - 1) by ring, Int.tdiv_eq_ediv_of_nonneg (b := 12) (by omega)]
    split_ifs <;> omega
  · have hyears := yearPart_eq (s := y) (by omega)
    have hleap := yearStart_leap y
    rw [if_neg hwinter.not_gt, if_neg (by omega), if_neg (by omega),
      show 0 + 4800 + y = 4800 + y by ring, show 0 + 4900 + y = 4900 + y by ring,
      Int.tdiv_eq_ediv_of_nonneg (b := 12) (by omega), show m - 2 - 0 * 12 = m - 2 by ring,
      mul_comm (m - 2) 367]
    split_ifs at hleap ⊢ <;> omega

end Encode

section Decode

variable {N C R j : ℤ}

theorem century_eq (hN : 0 ≤ N) :
    let W := N * 4 / 146097
    let C := N - (146097 * W + 3) / 4
    0 ≤ W ∧ 0 ≤ C ∧ C ≤ 36524 ∧ (C = 36524 → W % 4 = 0) ∧ N = 36524 * W + (W + 3) / 4 + C := by
  intro W C
  have hdays : (146097 * W + 3) / 4 = 36524 * W + (W + 3) / 4 := by omega
  refine ⟨?_, ?_, ?_, ?_, ?_⟩ <;> omega

theorem yearOfCentury_eq (hC : 0 ≤ C) (hC' : C ≤ 36524) :
    let X := 4000 * (C + 1) / 1461001
    let R := C - 1461 * X / 4
    0 ≤ X ∧ X ≤ 99 ∧ 0 ≤ R ∧ R ≤ 365 ∧ (R = 365 → X % 4 = 3) ∧
      (C = 36524 → X = 99) ∧ (X = 99 → R = 365 → C = 36524) := by
  intro X R
  have hdays : 1461 * X / 4 = 365 * X + X / 4 := by omega
  have hX : X ≤ 99 := by omega
  have hX' : 0 ≤ X := by omega
  refine ⟨hX', hX, ?_, ?_, ?_, ?_, ?_⟩ <;> omega

theorem monthOfYear_eq (hR : 0 ≤ R) (hR' : R ≤ 365) :
    let V := 80 * (R + 31) / 2447
    let D := R + 31 - 2447 * V / 80
    1 ≤ V ∧ V ≤ 12 ∧ 1 ≤ D ∧ R + 31 = 367 * V / 12 + D ∧
      (V = 12 → D ≤ 29 ∧ (D = 29 → R = 365)) ∧
      (V = 2 ∨ V = 4 ∨ V = 7 ∨ V = 9 → D ≤ 30) ∧ D ≤ 31 := by
  intro V D
  have hV : 1 ≤ V := by omega
  have hV' : V ≤ 12 := by omega
  have hmagic : 2447 * V / 80 = 367 * V / 12 := by
    interval_cases V <;> rfl
  refine ⟨hV, hV', ?_, ?_, ?_, ?_, ?_⟩ <;> omega

theorem isLeap_next {W X : ℤ} (hX : 0 ≤ X) (hX' : X ≤ 99) (hfour : X % 4 = 3)
    (hcentury : X = 99 → W % 4 = 0) : IsLeap (X + (W - 49) * 100 + 1) := by
  refine ⟨by omega, ?_⟩
  rcases eq_or_ne X 99 with hlast | hinside
  · right
    omega
  · left
    omega

section

variable (hj : HB_STR_DATE_BASE ≤ j)

include hj

theorem decodeFields_eq :
    ∃ W C X R V, W = (j + 68569) * 4 / 146097 ∧ C = j + 68569 - (146097 * W + 3) / 4 ∧
      X = 4000 * (C + 1) / 1461001 ∧ R = C - 1461 * X / 4 ∧ V = 80 * (R + 31) / 2447 ∧
      decodeFields j = ⟨X + V / 11 + (W - 49) * 100, V + 2 - V / 11 * 12,
        R + 31 - 2447 * V / 80⟩ := by
  refine ⟨_, _, _, _, _, rfl, rfl, rfl, rfl, rfl, ?_⟩
  have hN : 0 ≤ j + 68569 := by
    unfold HB_STR_DATE_BASE at hj
    omega
  obtain ⟨hW, hC, hC', -⟩ := century_eq hN
  obtain ⟨hX, -, hR, hR', -⟩ := yearOfCentury_eq hC hC'
  obtain ⟨hV, -⟩ := monthOfYear_eq hR hR'
  unfold decodeFields
  simp only
  rw [Int.tdiv_eq_ediv_of_nonneg (a := (j + 68569) * 4) (by omega)]
  generalize (j + 68569) * 4 / 146097 = W at *
  rw [Int.tdiv_eq_ediv_of_nonneg (a := 146097 * W + 3) (by omega)]
  generalize j + 68569 - (146097 * W + 3) / 4 = C at *
  rw [Int.tdiv_eq_ediv_of_nonneg (a := 4000 * (C + 1)) (by omega)]
  generalize 4000 * (C + 1) / 1461001 = X at *
  rw [Int.tdiv_eq_ediv_of_nonneg (a := 1461 * X) (by omega),
    show C - (1461 * X / 4 - 31) = C - 1461 * X / 4 + 31 by ring]
  generalize C - 1461 * X / 4 = R at *
  rw [Int.tdiv_eq_ediv_of_nonneg (a := 80 * (R + 31)) (by omega)]
  generalize 80 * (R + 31) / 2447 = V at *
  rw [Int.tdiv_eq_ediv_of_nonneg (a := 2447 * V) (by omega),
    Int.tdiv_eq_ediv_of_nonneg (a := V) (by omega)]

theorem decodeFields_spec :
    (decodeFields j).Valid ∧ HB_STR_DATE_BASE + (decodeFields j).number = j := by
  obtain ⟨W, C, X, R, V, hW, hC, hX, hR, hV, heq⟩ := decodeFields_eq hj
  have hN : 0 ≤ j + 68569 := by
    unfold HB_STR_DATE_BASE at hj
    omega
  have hcentury := century_eq hN
  simp only [← hW, ← hC] at hcentury
  obtain ⟨hWpos, hCpos, hCle, hWlast, hj⟩ := hcentury
  have hyear := yearOfCentury_eq hCpos hCle
  simp only [← hX, ← hR] at hyear
  obtain ⟨hXpos, hXle, hRpos, hRle, hXleap, hXlast, hXlast'⟩ := hyear
  have hmonth := monthOfYear_eq hRpos hRle
  simp only [← hV] at hmonth
  obtain ⟨hVpos, hVle, hDpos, hday, hfeb, hthirty, hDle⟩ := hmonth
  rw [heq]
  generalize R + 31 - 2447 * V / 80 = D at *
  have hdays : C = 365 * X + X / 4 + R := by omega
  obtain ⟨s, hs⟩ : ∃ s, s = X + (W - 49) * 100 := ⟨_, rfl⟩
  have hquarter : s / 4 = X / 4 + 25 * (W - 49) := by omega
  have hhundred : s / 100 = W - 49 := by omega
  rcases lt_or_ge V 11 with hV | hV
  · -- March to December
    have hyear : X + V / 11 + (W - 49) * 100 = s := by omega
    have hmonth : V + 2 - V / 11 * 12 = V + 2 := by omega
    have hleap := yearStart_leap s
    rw [hyear, hmonth]
    refine ⟨⟨by simp only; omega, by simp only; omega, hDpos, ?_⟩, ?_⟩
    · unfold monthLength
      simp only
      split_ifs <;> omega
    · unfold Date.number daysBefore HB_STR_DATE_BASE
      simp only [add_sub_cancel_right]
      split_ifs at hleap ⊢ <;> omega
  · -- January and February are in the next year.
    have hyear : X + V / 11 + (W - 49) * 100 = s + 1 := by omega
    have hmonth : V + 2 - V / 11 * 12 = V - 10 := by omega
    have hstart := yearStart_eq (s + 1)
    rw [add_sub_cancel_right] at hstart
    rw [hyear, hmonth]
    have hleap : R = 365 → IsLeap (s + 1) := fun hlast =>
      hs ▸ isLeap_next hXpos hXle (hXleap hlast) fun h => hWlast (hXlast' h hlast)
    have hdaysBefore : 367 * V / 12 = 31 * V - 5 := by omega
    refine ⟨⟨by simp only; omega, by simp only; omega, hDpos, ?_⟩, ?_⟩
    · unfold monthLength
      simp only
      split_ifs with hfebruary hyes
      · exact (hfeb (by omega)).1
      · have hlast := (hfeb (by omega)).2
        have hne : D ≠ 29 := fun h => hyes (hleap (hlast h))
        omega
      · omega
      · exact hDle
    · unfold Date.number HB_STR_DATE_BASE
      simp only [daysBefore_winter (s + 1) (show 1 ≤ V - 10 by omega) (by omega)]
      omega

theorem decodeFields_year_nonneg : 0 ≤ (decodeFields j).year := by
  obtain ⟨hvalid, hnumber⟩ := decodeFields_spec hj
  have hfirst : yearStart 0 = 0 := by decide
  apply (hvalid.yearStart_le_iff 0).mp
  omega

theorem hb_dateDecode_eq (hyear : (decodeFields j).year ≤ INT_MAX) :
    hb_dateDecode j = decodeFields j := by
  obtain ⟨⟨hmonth, hmonth', hday, hday'⟩, -⟩ := decodeFields_spec hj
  have hpos := decodeFields_year_nonneg hj
  have hlength := monthLength_le (decodeFields j).year (decodeFields j).month
  unfold hb_dateDecode
  rw [if_pos hj, toInt_eq (by omega) hyear, toInt_eq (by omega) (by unfold INT_MAX; omega),
    toInt_eq (by omega) (by unfold INT_MAX; omega)]

theorem decodeFields_succ : decodeFields (j + 1) = (decodeFields j).next := by
  obtain ⟨hvalid, hnumber⟩ := decodeFields_spec hj
  obtain ⟨hvalid', hnumber'⟩ := decodeFields_spec (j := j + 1) (by omega)
  apply hvalid'.number_inj hvalid.next
  rw [hvalid.number_next]
  omega

end

end Decode

section Inverse

variable {y m d j : ℤ}

theorem Encodable.number_nonneg {date : Date} (h : Encodable date) : 0 ≤ date.number := by
  have hfirst : yearStart 0 = 0 := by decide
  have hle := (h.1.yearStart_le_iff 0).mpr h.2.1
  omega

theorem hb_dateEncode_ne_zero_iff : hb_dateEncode y m d ≠ 0 ↔ Encodable ⟨y, m, d⟩ := by
  constructor
  · intro hne
    unfold hb_dateEncode at hne
    split at hne
    · next hrange =>
      split at hne
      · next hlimit =>
        obtain ⟨hyear, hyear', hmonth, hmonth', hday⟩ := hrange
        exact ⟨⟨hmonth, hmonth', hday, (dayLimit_iff hmonth hmonth' hyear).mp hlimit⟩,
          hyear, hyear'⟩
      · exact absurd rfl hne
    · exact absurd rfl hne
  · intro h
    have hpos := h.number_nonneg
    rw [hb_dateEncode_eq h]
    unfold HB_STR_DATE_BASE
    omega

theorem base_le_hb_dateEncode (h : Encodable ⟨y, m, d⟩) :
    HB_STR_DATE_BASE ≤ hb_dateEncode y m d := by
  have hpos := h.number_nonneg
  rw [hb_dateEncode_eq h]
  omega

theorem yearStart_limit : yearStart (HB_DATE_YEAR_LIMIT + 1) = 3652425 := by decide

theorem hb_dateEncode_last : hb_dateEncode 9999 12 31 = 5373484 := by decide

theorem hb_dateEncode_le (h : Encodable ⟨y, m, d⟩) :
    hb_dateEncode y m d ≤ hb_dateEncode 9999 12 31 := by
  have hbefore := (h.1.yearStart_le_iff (HB_DATE_YEAR_LIMIT + 1)).not.mpr
    (not_le.mpr (Int.lt_add_one_iff.mpr h.2.2))
  rw [yearStart_limit] at hbefore
  rw [hb_dateEncode_eq h, hb_dateEncode_last]
  unfold HB_STR_DATE_BASE
  omega

theorem hb_dateDecode_hb_dateEncode (h : Encodable ⟨y, m, d⟩) :
    hb_dateDecode (hb_dateEncode y m d) = ⟨y, m, d⟩ := by
  have hj := base_le_hb_dateEncode h
  obtain ⟨hvalid, hnumber⟩ := decodeFields_spec hj
  have hdate : decodeFields (hb_dateEncode y m d) = ⟨y, m, d⟩ := by
    apply hvalid.number_inj h.1
    rw [hb_dateEncode_eq h] at hnumber ⊢
    omega
  have hlimit : y ≤ 9999 := h.2.2
  have hyear : (decodeFields (hb_dateEncode y m d)).year ≤ INT_MAX := by
    rw [hdate]
    exact hlimit.trans (by decide)
  rw [hb_dateDecode_eq hj hyear, hdate]

section

variable (hj : HB_STR_DATE_BASE ≤ j) (hj' : j ≤ hb_dateEncode 9999 12 31)

include hj hj'

theorem decodeFields_encodable : Encodable (decodeFields j) := by
  obtain ⟨hvalid, hnumber⟩ := decodeFields_spec hj
  refine ⟨hvalid, decodeFields_year_nonneg hj, ?_⟩
  by_contra hlater
  have hle := (hvalid.yearStart_le_iff (HB_DATE_YEAR_LIMIT + 1)).mpr (by omega)
  rw [yearStart_limit] at hle
  rw [hb_dateEncode_last] at hj'
  unfold HB_STR_DATE_BASE at hnumber
  omega

theorem hb_dateDecode_encodable :
    Encodable (hb_dateDecode j) ∧ HB_STR_DATE_BASE + (hb_dateDecode j).number = j := by
  have hdate := decodeFields_encodable hj hj'
  have hlimit : (decodeFields j).year ≤ 9999 := hdate.2.2
  rw [hb_dateDecode_eq hj (hlimit.trans (by decide))]
  exact ⟨hdate, (decodeFields_spec hj).2⟩

theorem hb_dateEncode_hb_dateDecode :
    hb_dateEncode (hb_dateDecode j).year (hb_dateDecode j).month (hb_dateDecode j).day = j := by
  obtain ⟨hdate, hnumber⟩ := hb_dateDecode_encodable hj hj'
  exact (hb_dateEncode_eq (y := (hb_dateDecode j).year) hdate).trans hnumber

end

theorem hb_dateEncode_lt_iff {y' m' d' : ℤ} (h : Encodable ⟨y, m, d⟩)
    (h' : Encodable ⟨y', m', d'⟩) :
    hb_dateEncode y m d < hb_dateEncode y' m' d' ↔ Date.mk y m d < Date.mk y' m' d' := by
  rw [hb_dateEncode_eq h, hb_dateEncode_eq h', add_lt_add_iff_left]
  exact h.1.number_lt_iff h'.1

theorem hb_dateDecode_succ (hj : HB_STR_DATE_BASE ≤ j)
    (hyear : (decodeFields (j + 1)).year ≤ INT_MAX) :
    (hb_dateDecode j).Valid ∧ hb_dateDecode (j + 1) = (hb_dateDecode j).next := by
  have hsucc := decodeFields_succ hj
  have hle : (decodeFields j).year ≤ (decodeFields (j + 1)).year := by
    rw [hsucc]
    exact Date.year_le_next _
  rw [hb_dateDecode_eq (by omega) hyear, hb_dateDecode_eq hj (hle.trans hyear)]
  exact ⟨(decodeFields_spec hj).1, hsucc⟩

/-- From the base on `hb_dateDecode` gives the days of the proleptic Gregorian calendar one after
the other, as long as their year is an `int`; `hb_dateEncode` accepts the days of the years 0 to
9999, and there the two are inverse and keep the order. -/
theorem dates_calendar :
    hb_dateDecode HB_STR_DATE_BASE = ⟨0, 1, 1⟩ ∧
    (∀ j, HB_STR_DATE_BASE ≤ j → (decodeFields (j + 1)).year ≤ INT_MAX →
      (hb_dateDecode j).Valid ∧ hb_dateDecode (j + 1) = (hb_dateDecode j).next) ∧
    (∀ y m d, hb_dateEncode y m d ≠ 0 ↔
      Date.Valid ⟨y, m, d⟩ ∧ 0 ≤ y ∧ y ≤ 9999) ∧
    (∀ y m d, hb_dateEncode y m d ≠ 0 →
      HB_STR_DATE_BASE ≤ hb_dateEncode y m d ∧ hb_dateEncode y m d ≤ hb_dateEncode 9999 12 31 ∧
        hb_dateDecode (hb_dateEncode y m d) = ⟨y, m, d⟩) ∧
    (∀ j, HB_STR_DATE_BASE ≤ j → j ≤ hb_dateEncode 9999 12 31 →
      hb_dateEncode (hb_dateDecode j).year (hb_dateDecode j).month (hb_dateDecode j).day = j) ∧
    (∀ y m d y' m' d', hb_dateEncode y m d ≠ 0 → hb_dateEncode y' m' d' ≠ 0 →
      (hb_dateEncode y m d < hb_dateEncode y' m' d' ↔ Date.mk y m d < Date.mk y' m' d')) := by
  refine ⟨by decide, fun j => hb_dateDecode_succ, fun y m d => hb_dateEncode_ne_zero_iff, ?_,
    fun j => hb_dateEncode_hb_dateDecode, ?_⟩
  · intro y m d hne
    have h := hb_dateEncode_ne_zero_iff.mp hne
    exact ⟨base_le_hb_dateEncode h, hb_dateEncode_le h, hb_dateDecode_hb_dateEncode h⟩
  · intro y m d y' m' d' hne hne'
    exact hb_dateEncode_lt_iff (hb_dateEncode_ne_zero_iff.mp hne)
      (hb_dateEncode_ne_zero_iff.mp hne')

theorem dates_calendar_leapDay :
    hb_dateDecode (2451604 + 1) = (hb_dateDecode 2451604).next ∧
      hb_dateDecode (hb_dateEncode 2000 2 29) = ⟨2000, 2, 29⟩ :=
  ⟨(dates_calendar.2.1 2451604 (by decide) (by decide)).2,
    (dates_calendar.2.2.2.1 2000 2 29 (by decide)).2.2⟩

end Inverse

end Harbour.Common.Dates
