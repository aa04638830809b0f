import Harbour.Common.TimeStamps

/-!
The texts of timestamps are read back as they were written.
-/

namespace Harbour.Common.TimeStamps

open Library.Calendar Library.Decimal List Dates CharClass

section Characters

variable {c c' : UInt8} {sz : Bytes} {n m : Nat}

@[simp]
theorem charAt_zero : charAt (c :: sz) 0 = c := rfl

@[simp]
theorem charAt_succ (i : Nat) : charAt (c :: sz) (i + 1) = charAt sz i := rfl

@[simp]
theorem charAt_nil (i : Nat) : charAt [] i = 0 := rfl

theorem digit_ne (hc : isDigit c = false) : digit (n % 10) ≠ c := by
  intro h
  rw [← h, isDigit_digit_mod] at hc
  exact Bool.noConfusion hc

theorem isSpace_digit (n : Nat) : HB_ISSPACE (digit (n % 10)) = false := by
  unfold HB_ISSPACE
  simp only [digit_ne (n := n) (show isDigit 32 = false from rfl),
    digit_ne (n := n) (show isDigit 9 = false from rfl),
    digit_ne (n := n) (show isDigit 10 = false from rfl),
    digit_ne (n := n) (show isDigit 13 = false from rfl), decide_false, Bool.or_self]

theorem skipSpace_digit (n : Nat) (sz : Bytes) :
    skipSpace (digit (n % 10) :: sz) = digit (n % 10) :: sz := by
  unfold skipSpace
  rw [dropWhile_cons_of_neg]
  rw [isSpace_digit]
  exact Bool.false_ne_true

theorem number_digit (n : Nat) : number (digit (n % 10)) = (n % 10 : Nat) := by
  unfold number
  rw [digitValue_digit_mod]

theorem field_two (n : Nat) : field 2 n = [digit (n / 10 % 10), digit (n % 10)] := rfl

theorem field_three (n : Nat) :
    field 3 n = [digit (n / 10 / 10 % 10), digit (n / 10 % 10), digit (n % 10)] := rfl

theorem field_four (n : Nat) : field 4 n =
    [digit (n / 10 / 10 / 10 % 10), digit (n / 10 / 10 % 10), digit (n / 10 % 10),
      digit (n % 10)] := rfl

theorem twoDigits_field (hn : n < 100) (sz : Bytes) : twoDigits (field 2 n ++ sz) = n := by
  unfold twoDigits
  simp only [field_two, cons_append, nil_append, charAt_zero, charAt_succ, number_digit]
  omega

theorem threeDigits_field (hn : n < 1000) (sz : Bytes) : threeDigits (field 3 n ++ sz) = n := by
  unfold threeDigits
  simp only [field_three, cons_append, nil_append, charAt_zero, charAt_succ, number_digit]
  omega

theorem fourDigits_field (hn : n < 10000) (sz : Bytes) : fourDigits (field 4 n ++ sz) = n := by
  unfold fourDigits
  simp only [field_four, cons_append, nil_append, charAt_zero, charAt_succ, number_digit]
  omega

theorem formatted_eq {w : Nat} (hwidth : 0 < w) (hn : n < 10 ^ w) : formatted w n = field w n := by
  unfold formatted
  rw [if_neg (by omega), Int.toNat_natCast, padded_eq_field hwidth hn]

end Characters

section Codecs

variable {ms j : ℤ}

structure Clock (t : Time) (hour minutes seconds mSec : Nat) : Prop where
  eq : t = ⟨hour, minutes, seconds, mSec⟩
  hour_lt : hour < 24
  minutes_lt : minutes < 60
  seconds_lt : seconds < 60
  mSec_lt : mSec < 1000

theorem hb_timeDecode_clock (hms : 0 ≤ ms) (hms' : ms < 86400000) :
    ∃ h m s f, Clock (hb_timeDecode ms) h m s f ∧ hb_timeEncode (hb_timeDecode ms) = ms := by
  obtain ⟨n, rfl⟩ := Int.eq_ofNat_of_zero_le hms
  refine ⟨n / 1000 / 60 / 60, n / 1000 / 60 % 60, n / 1000 % 60, n % 1000, ?_, ?_⟩
  · refine ⟨?_, by omega, by omega, by omega, by omega⟩
    unfold hb_timeDecode
    simp only
    split_ifs with hzero hday
    · have hn : n = 0 := by omega
      subst hn
      rfl
    · omega
    · simp only [Time.mk.injEq]
      omega
  · unfold hb_timeDecode hb_timeEncode
    simp only
    split_ifs <;> simp only at * <;> omega

/-- The fields of a date that both texts can hold. -/
structure Written (date : Date) (year month day : Nat) : Prop where
  eq : date = ⟨year, month, day⟩
  year_lt : year < 10000
  month_lt : month < 100
  day_lt : day < 100
  known : hb_dateEncode year month day ≠ 0 ∨ year = 0 ∧ month = 0 ∧ day = 0

theorem hb_dateDecode_written (hj : j = 0 ∨ HB_STR_DATE_BASE ≤ j ∧ j ≤ hb_dateEncode 9999 12 31) :
    ∃ y m d, Written (hb_dateDecode j) y m d ∧ hb_dateEncode y m d = j := by
  rcases hj with rfl | ⟨hj, hj'⟩
  · exact ⟨0, 0, 0, ⟨rfl, by decide, by decide, by decide, .inr ⟨rfl, rfl, rfl⟩⟩, rfl⟩
  · obtain ⟨⟨⟨hmonth, hmonth', hday, hday'⟩, hyear, hlimit⟩, -⟩ := hb_dateDecode_encodable hj hj'
    have hback := hb_dateEncode_hb_dateDecode hj hj'
    have hlength := monthLength_le (hb_dateDecode j).year (hb_dateDecode j).month
    unfold HB_DATE_YEAR_LIMIT at hlimit
    obtain ⟨y, hy⟩ := Int.eq_ofNat_of_zero_le hyear
    obtain ⟨m, hm⟩ := Int.eq_ofNat_of_zero_le (le_trans (by decide) hmonth)
    obtain ⟨d, hd⟩ := Int.eq_ofNat_of_zero_le (le_trans (by decide) hday)
    rw [hy, hm, hd] at hback
    refine ⟨y, m, d, ⟨Date.ext hy hm hd, by omega, by omega, by omega, .inl ?_⟩, hback⟩
    unfold HB_STR_DATE_BASE at hj
    omega

end Codecs

section Reading

variable {h m s f y d : Nat} {sz : Bytes}

theorem oneOrTwo_field (hn : h < 100) (sz : Bytes) : oneOrTwo (field 2 h ++ sz) = (↑h, sz) := by
  have hdigit : isDigit (charAt (field 2 h ++ sz) 1) = true := isDigit_digit_mod h
  unfold oneOrTwo
  rw [if_pos hdigit, twoDigits_field hn]
  rfl

theorem isDigit_field_two (n : Nat) (sz : Bytes) : isDigit (charAt (field 2 n ++ sz) 0) = true :=
  isDigit_digit_mod _

theorem fraction_field (hf : f < 1000) (t : Time) (iBlocks : Nat) :
    fraction ⟨t, iBlocks, 46 :: field 3 f⟩ = ⟨{ t with mSec := f }, iBlocks + 1, []⟩ := by
  unfold fraction
  simp only [field_three, charAt_zero, charAt_succ, drop_succ_cons, drop_zero,
    isDigit_digit_mod, charAt_nil, number_digit, and_self, if_true]
  rw [if_neg (by decide)]
  simp only [Scan.mk.injEq, Time.mk.injEq, and_true, true_and]
  omega

theorem seconds_field (hs : s < 100) (hf : f < 1000) (t : Time) (iBlocks : Nat) :
    seconds ⟨t, iBlocks, 58 :: (field 2 s ++ 46 :: field 3 f)⟩ =
      ⟨{ t with seconds := s, mSec := f }, iBlocks + 2, []⟩ := by
  unfold seconds
  simp only [charAt_zero, charAt_succ, isDigit_field_two, and_self, if_true, drop_succ_cons,
    drop_zero, oneOrTwo_field hs, fraction_field hf]

theorem minutes_field (hm : m < 100) (hs : s < 100) (hf : f < 1000) (t : Time) (iBlocks : Nat) :
    minutes ⟨t, iBlocks, 58 :: (field 2 m ++ 58 :: (field 2 s ++ 46 :: field 3 f))⟩ =
      ⟨{ t with minutes := m, seconds := s, mSec := f }, iBlocks + 3, []⟩ := by
  unfold minutes
  simp only [charAt_zero, charAt_succ, isDigit_field_two, and_self, if_true, drop_succ_cons,
    drop_zero, oneOrTwo_field hm, seconds_field hs hf]

def clockText (h m s f : Nat) : Bytes :=
  field 2 h ++ 58 :: (field 2 m ++ 58 :: (field 2 s ++ 46 :: field 3 f))

theorem skipSpace_field_two (n : Nat) (sz : Bytes) :
    skipSpace (field 2 n ++ sz) = field 2 n ++ sz := skipSpace_digit _ _

theorem skipSpace_field_four (n : Nat) (sz : Bytes) :
    skipSpace (field 4 n ++ sz) = field 4 n ++ sz := skipSpace_digit _ _

theorem hb_timeStrGet_clockText (hh : h < 24) (hm : m < 60) (hs : s < 60) (hf : f < 1000) :
    hb_timeStrGet (some (clockText h m s f)) = (true, ⟨h, m, s, f⟩) := by
  unfold hb_timeStrGet clockText
  simp only [skipSpace_field_two]
  rw [if_pos (isDigit_field_two _ _), oneOrTwo_field (by omega)]
  rw [minutes_field (by omega) (by omega) hf]
  have hnone : halfDay ⟨⟨h, m, s, f⟩, 3, skipSpace []⟩ = ⟨⟨h, m, s, f⟩, 3, []⟩ := rfl
  simp only [hnone]
  rw [if_pos ⟨rfl, by decide, by omega, by omega, by omega⟩]

def dateText (y m d : Nat) (sz : Bytes) : Bytes :=
  field 4 y ++ 45 :: (field 2 m ++ 45 :: (field 2 d ++ sz))

theorem scanDate_dateText (hy : y < 10000) (hm : m < 100) (hd : d < 100)
    (hknown : hb_dateEncode y m d ≠ 0 ∨ y = 0 ∧ m = 0 ∧ d = 0)
    (hsz : isDigit (charAt sz 0) = false) :
    scanDate (dateText y m d sz) = some (⟨y, m, d⟩, sz) := by
  have hyear : fourDigits (dateText y m d sz) = y := fourDigits_field hy _
  have hmonth : twoDigits ((dateText y m d sz).drop 5) = m := twoDigits_field hm _
  have hday : twoDigits ((dateText y m d sz).drop 8) = d := twoDigits_field hd _
  have hshape : isDigit (charAt (dateText y m d sz) 5) ∧ isDigit (charAt (dateText y m d sz) 6) ∧
      charAt (dateText y m d sz) 7 = charAt (dateText y m d sz) 4 ∧
      isDigit (charAt (dateText y m d sz) 8) ∧ isDigit (charAt (dateText y m d sz) 9) ∧
      ¬ isDigit (charAt (dateText y m d sz) 10) :=
    ⟨isDigit_digit_mod _, isDigit_digit_mod _, rfl, isDigit_digit_mod _, isDigit_digit_mod _,
      Bool.eq_false_iff.mp hsz⟩
  unfold scanDate
  simp only [hyear, hmonth, hday]
  rw [if_pos hshape, if_pos (by omega)]
  rfl

theorem afterDate_clockText (h m s f : Nat) :
    afterDate (32 :: clockText h m s f) = (true, some (clockText h m s f)) := by
  have hskip : skipSpace (32 :: clockText h m s f) = clockText h m s f :=
    skipSpace_field_two h _
  have hend : ¬ charAt (clockText h m s f) 0 = 0 := digit_ne rfl
  have hletter : ¬ ((32 : UInt8) = 84 ∨ (32 : UInt8) = 116) := by decide
  have hmark : ¬ ((32 : UInt8) = 44 ∨ (32 : UInt8) = 59) := by decide
  unfold afterDate
  simp only [charAt_zero, hletter, hmark, if_false, hskip, hend]

theorem datePart_dateText (hy : y < 10000) (hm : m < 100) (hd : d < 100)
    (hknown : hb_dateEncode y m d ≠ 0 ∨ y = 0 ∧ m = 0 ∧ d = 0) (hour minutes seconds mSec : Nat) :
    datePart (some (dateText y m d (32 :: clockText hour minutes seconds mSec))) =
      (true, ⟨y, m, d⟩, some (clockText hour minutes seconds mSec)) := by
  obtain ⟨sz, hsz⟩ : ∃ sz, sz = dateText y m d (32 :: clockText hour minutes seconds mSec) :=
    ⟨_, rfl⟩
  have hskip : skipSpace sz = sz := hsz ▸ skipSpace_field_four _ _
  have hshape : isDigit (charAt sz 0) ∧ isDigit (charAt sz 1) ∧ isDigit (charAt sz 2) ∧
      isDigit (charAt sz 3) ∧ (charAt sz 4 = 45 ∨ charAt sz 4 = 47 ∨ charAt sz 4 = 46) := by
    rw [hsz]
    exact ⟨isDigit_digit_mod _, isDigit_digit_mod _, isDigit_digit_mod _, isDigit_digit_mod _,
      .inl rfl⟩
  have hscan : scanDate (dateText y m d (32 :: clockText hour minutes seconds mSec)) =
      some (⟨y, m, d⟩, 32 :: clockText hour minutes seconds mSec) :=
    scanDate_dateText hy hm hd hknown rfl
  rw [← hsz] at hscan ⊢
  unfold datePart
  simp only [hskip]
  rw [if_pos hshape, hscan]
  simp only [afterDate_clockText]

theorem hb_timeStampStrGet_text {date : Date} {t : Time} (hdate : Written date y m d)
    {hour minutes seconds mSec : Nat} (ht : Clock t hour minutes seconds mSec) :
    hb_timeStampStrGet (some (dateText y m d (32 :: clockText hour minutes seconds mSec))) true =
      (true, date, t) := by
  unfold hb_timeStampStrGet
  rw [datePart_dateText hdate.year_lt hdate.month_lt hdate.day_lt hdate.known]
  simp only [if_true]
  rw [hb_timeStrGet_clockText ht.hour_lt ht.minutes_lt ht.seconds_lt ht.mSec_lt, hdate.eq, ht.eq]

end Reading

section RoundTrip

variable {j ms : ℤ} {y m d hour minutes seconds mSec : Nat}

theorem Clock.formatted {time : Time} (ht : Clock time hour minutes seconds mSec) :
    formatted 2 hour = field 2 hour ∧ formatted 2 minutes = field 2 minutes ∧
      formatted 2 seconds = field 2 seconds ∧ formatted 3 mSec = field 3 mSec :=
  ⟨formatted_eq (by decide) (ht.hour_lt.trans (by decide)),
    formatted_eq (by decide) (ht.minutes_lt.trans (by decide)),
    formatted_eq (by decide) (ht.seconds_lt.trans (by decide)),
    formatted_eq (by decide) ht.mSec_lt⟩

theorem hb_timeStampStr_eq (hdate : Written (hb_dateDecode j) y m d)
    (ht : Clock (hb_timeDecode ms) hour minutes seconds mSec) :
    hb_timeStampStr j ms = dateText y m d (32 :: clockText hour minutes seconds mSec) := by
  have hyear := formatted_eq (w := 4) (by decide) hdate.year_lt
  have hmonth := formatted_eq (w := 2) (by decide) hdate.month_lt
  have hday := formatted_eq (w := 2) (by decide) hdate.day_lt
  obtain ⟨hhour, hminutes, hseconds, hmSec⟩ := ht.formatted
  unfold hb_timeStampStr
  simp only [hdate.eq, ht.eq, hyear, hmonth, hday, hhour, hminutes, hseconds, hmSec]
  rfl

theorem hb_dateStrPut_eq {date : Date} (hdate : Written date y m d) :
    hb_dateStrPut date = field 4 y ++ (field 2 m ++ field 2 d) := by
  obtain ⟨rfl, -, -, -, hknown⟩ := hdate
  unfold hb_dateStrPut
  rcases hknown with hne | ⟨rfl, rfl, rfl⟩
  · obtain ⟨hvalid, hyear, -⟩ := hb_dateEncode_ne_zero_iff.mp hne
    rw [if_pos ⟨hyear, hvalid.month_pos, hvalid.day_pos⟩]
    simp only [Int.toNat_natCast, field_four, field_two, cons_append, nil_append,
      Nat.div_div_eq_div_mul]
  · rfl

theorem hb_timeStampStrRawPut_eq (hdate : Written (hb_dateDecode j) y m d)
    (ht : Clock (hb_timeDecode ms) hour minutes seconds mSec) :
    hb_timeStampStrRawPut j ms = field 4 y ++ (field 2 m ++ field 2 d) ++
      (field 2 hour ++ (field 2 minutes ++ (field 2 seconds ++ field 3 mSec))) := by
  obtain ⟨hhour, hminutes, hseconds, hmSec⟩ := ht.formatted
  unfold hb_timeStampStrRawPut
  rw [hb_dateStrPut_eq hdate]
  simp only [ht.eq, hhour, hminutes, hseconds, hmSec]
  rfl

theorem hb_dateStrGet_digits (hy : y < 10000) (hm : m < 100) (hd : d < 100) (sz : Bytes) :
    hb_dateStrGet (field 4 y ++ (field 2 m ++ field 2 d) ++ sz) = ⟨y, m, d⟩ := by
  have hyear : fourDigits (field 4 y ++ (field 2 m ++ field 2 d) ++ sz) = y := fourDigits_field hy _
  have hmonth : twoDigits ((field 4 y ++ (field 2 m ++ field 2 d) ++ sz).drop 4) = m :=
    twoDigits_field hm _
  have hday : twoDigits ((field 4 y ++ (field 2 m ++ field 2 d) ++ sz).drop 6) = d :=
    twoDigits_field hd _
  unfold hb_dateStrGet
  rw [if_pos ⟨isDigit_digit_mod _, isDigit_digit_mod _, isDigit_digit_mod _, isDigit_digit_mod _,
    isDigit_digit_mod _, isDigit_digit_mod _, isDigit_digit_mod _, isDigit_digit_mod _⟩,
    hyear, hmonth, hday]

theorem hb_timeStrRawGet_digits (hh : hour < 100) (hm : minutes < 100) (hs : seconds < 100)
    (hf : mSec < 1000) :
    hb_timeStrRawGet (some
      (field 2 hour ++ (field 2 minutes ++ (field 2 seconds ++ field 3 mSec)))) =
      ⟨hour, minutes, seconds, mSec⟩ := by
  obtain ⟨sz, hsz⟩ : ∃ sz, sz =
    field 2 hour ++ (field 2 minutes ++ (field 2 seconds ++ field 3 mSec)) := ⟨_, rfl⟩
  have hcount : digitCount sz = 9 := by
    rw [hsz]
    unfold digitCount
    simp only [field_two, field_three, cons_append, nil_append, take_succ_cons,
      take_nil, takeWhile_cons, isDigit_digit_mod, if_true, takeWhile_nil,
      length_cons, length_nil]
  have hhour : twoDigits sz = hour := hsz ▸ twoDigits_field hh _
  have hminutes : twoDigits (sz.drop 2) = minutes := hsz ▸ twoDigits_field hm _
  have hseconds : twoDigits ((sz.drop 2).drop 2) = seconds := hsz ▸ twoDigits_field hs _
  have hmSec : threeDigits (((sz.drop 2).drop 2).drop 2) = mSec := by
    have hfield := threeDigits_field hf []
    rw [hsz]
    exact hfield
  rw [← hsz]
  unfold hb_timeStrRawGet
  simp only [hcount, hhour, hminutes, hseconds, hmSec]
  rfl

theorem hb_timeStampStrRawGet_digits {date : Date} {t : Time} (hdate : Written date y m d)
    (ht : Clock t hour minutes seconds mSec) :
    hb_timeStampStrRawGet (field 4 y ++ (field 2 m ++ field 2 d) ++
      (field 2 hour ++ (field 2 minutes ++ (field 2 seconds ++ field 3 mSec)))) =
      (hb_dateEncode y m d, hb_timeEncode t) := by
  obtain ⟨sz, hsz⟩ : ∃ sz, sz = field 4 y ++ (field 2 m ++ field 2 d) ++
    (field 2 hour ++ (field 2 minutes ++ (field 2 seconds ++ field 3 mSec))) := ⟨_, rfl⟩
  have hcount : digitCount sz = 10 := by
    rw [hsz]
    unfold digitCount
    simp only [field_two, field_four, cons_append, nil_append, take_succ_cons,
      take_zero, takeWhile_cons, isDigit_digit_mod, if_true, takeWhile_nil,
      length_cons, length_nil]
  have hget : hb_dateStrGet sz = ⟨y, m, d⟩ :=
    hsz ▸ hb_dateStrGet_digits hdate.year_lt hdate.month_lt hdate.day_lt _
  have hrest : sz.drop 8 =
      field 2 hour ++ (field 2 minutes ++ (field 2 seconds ++ field 3 mSec)) := hsz ▸ rfl
  have htime := hb_timeStrRawGet_digits (ht.hour_lt.trans (by decide))
    (ht.minutes_lt.trans (by decide)) (ht.seconds_lt.trans (by decide)) ht.mSec_lt
  have hdated : (10 : Nat) = 8 ∨ 10 ≤ 10 := .inr (le_refl 10)
  rw [← hsz, ht.eq]
  unfold hb_timeStampStrRawGet
  simp only [hcount, hdated, if_true, hget, hrest, htime]
  rfl

/-- A julian day of the years 0 to 9999, or 0 for no date, and a time of the day come back from
their text, as a valid timestamp, and from their digits. -/
theorem timeStamps_roundTrip (j ms : ℤ)
    (hj : j = 0 ∨ HB_STR_DATE_BASE ≤ j ∧ j ≤ hb_dateEncode 9999 12 31)
    (hms : 0 ≤ ms) (hms' : ms < 86400000) :
    hb_timeStampStrGetDT (some (hb_timeStampStr j ms)) = (true, j, ms) ∧
      hb_timeStampStrRawGet (hb_timeStampStrRawPut j ms) = (j, ms) := by
  obtain ⟨y, m, d, hdate, hback⟩ := hb_dateDecode_written hj
  obtain ⟨hour, minutes, seconds, mSec, ht, hback'⟩ := hb_timeDecode_clock hms hms'
  constructor
  · unfold hb_timeStampStrGetDT
    rw [hb_timeStampStr_eq hdate ht, hb_timeStampStrGet_text hdate ht]
    simp only [hback']
    rw [hdate.eq]
    simp only [hback]
  · rw [hb_timeStampStrRawPut_eq hdate ht, hb_timeStampStrRawGet_digits hdate ht, hback, hback']

/-- The last millisecond of 29 February 2000. -/
theorem timeStamps_roundTrip_leapDay :
    hb_timeStampStr 2451604 86399999 =
      "2000-02-29 23:59:59.999".toList.map (UInt8.ofNat ·.toNat) ∧
    hb_timeStampStrGetDT (some (hb_timeStampStr 2451604 86399999)) = (true, 2451604, 86399999) ∧
      hb_timeStampStrRawGet (hb_timeStampStrRawPut 2451604 86399999) = (2451604, 86399999) :=
  ⟨by decide +kernel, timeStamps_roundTrip 2451604 86399999 (.inr (by decide)) (by decide)
    (by decide)⟩

end RoundTrip

end Harbour.Common.TimeStamps
