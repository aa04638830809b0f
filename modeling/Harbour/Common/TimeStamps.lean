import Harbour.Common.StrToNum
import Harbour.Common.WeekDays

/-!
The texts of timestamps in `hbdate.c`.
-/

namespace Harbour.Common.TimeStamps

open Library.Calendar Library.Decimal Dates WeekDays CharClass StrToNum

@[ext] structure Time where
  hour : ℤ
  minutes : ℤ
  seconds : ℤ
  mSec : ℤ
  deriving DecidableEq

def hb_timeEncode (t : Time) : ℤ :=
  if 0 ≤ t.hour ∧ t.hour < 24 ∧ 0 ≤ t.minutes ∧ t.minutes < 60 ∧ 0 ≤ t.seconds ∧ t.seconds < 60 ∧
      0 ≤ t.mSec ∧ t.mSec < 1000 then
    ((t.hour * 60 + t.minutes) * 60 + t.seconds) * 1000 + t.mSec
  else 0

def hb_timeDecode (lMilliSec : ℤ) : Time :=
  if lMilliSec ≤ 0 then ⟨0, 0, 0, 0⟩
  else
    let mSec := lMilliSec % 1000
    let lMilliSec := lMilliSec / 1000
    let seconds := lMilliSec % 60
    let lMilliSec := lMilliSec / 60
    let minutes := lMilliSec % 60
    let lMilliSec := lMilliSec / 60
    if 24 ≤ lMilliSec then ⟨0, 0, 0, 0⟩ else ⟨lMilliSec, minutes, seconds, mSec⟩

def charAt (sz : Bytes) (i : Nat) : UInt8 := sz.getD i 0

def skipSpace (sz : Bytes) : Bytes := sz.dropWhile HB_ISSPACE

def number (c : UInt8) : ℤ := digitValue c

def twoDigits (sz : Bytes) : ℤ := number (charAt sz 0) * 10 + number (charAt sz 1)

def fourDigits (sz : Bytes) : ℤ :=
  ((number (charAt sz 0) * 10 + number (charAt sz 1)) * 10 + number (charAt sz 2)) * 10 +
    number (charAt sz 3)

def threeDigits (sz : Bytes) : ℤ :=
  (number (charAt sz 0) * 10 + number (charAt sz 1)) * 10 + number (charAt sz 2)

def formatted (width : Nat) (n : ℤ) : Bytes :=
  if n < 0 then 45 :: padded (width - 1) n.natAbs else padded width n.toNat

def hb_dateStrPut (date : Date) : Bytes :=
  if 0 ≤ date.year ∧ 0 < date.month ∧ 0 < date.day then
    [digit (date.year.toNat / 1000 % 10), digit (date.year.toNat / 100 % 10),
      digit (date.year.toNat / 10 % 10), digit (date.year.toNat % 10),
      digit (date.month.toNat / 10 % 10), digit (date.month.toNat % 10),
      digit (date.day.toNat / 10 % 10), digit (date.day.toNat % 10)]
  else List.replicate 8 48

def hb_dateStrGet (szDate : Bytes) : Date :=
  if isDigit (charAt szDate 0) ∧ isDigit (charAt szDate 1) ∧ isDigit (charAt szDate 2) ∧
      isDigit (charAt szDate 3) ∧ isDigit (charAt szDate 4) ∧ isDigit (charAt szDate 5) ∧
      isDigit (charAt szDate 6) ∧ isDigit (charAt szDate 7) then
    ⟨fourDigits szDate, twoDigits (szDate.drop 4), twoDigits (szDate.drop 6)⟩
  else ⟨0, 0, 0⟩

def oneOrTwo (sz : Bytes) : ℤ × Bytes :=
  if isDigit (charAt sz 1) then (twoDigits sz, sz.drop 2) else (number (charAt sz 0), sz.drop 1)

structure Scan where
  time : Time
  iBlocks : Nat
  rest : Bytes

def fraction (scan : Scan) : Scan :=
  if charAt scan.rest 0 = 46 ∧ isDigit (charAt scan.rest 1) then
    let sz := scan.rest.drop 1
    let iMSec := number (charAt sz 0) * 100
    let sz := sz.drop 1
    let (iMSec, sz) :=
      if isDigit (charAt sz 0) then
        let iMSec := iMSec + number (charAt sz 0) * 10
        let sz := sz.drop 1
        if isDigit (charAt sz 0) then (iMSec + number (charAt sz 0), sz.drop 1) else (iMSec, sz)
      else (iMSec, sz)
    let sz := if isDigit (charAt sz 0) then sz.drop 1 else sz
    ⟨{ scan.time with mSec := iMSec }, scan.iBlocks + 1, sz⟩
  else scan

def seconds (scan : Scan) : Scan :=
  if charAt scan.rest 0 = 58 ∧ isDigit (charAt scan.rest 1) then
    let (iSeconds, sz) := oneOrTwo (scan.rest.drop 1)
    fraction ⟨{ scan.time with seconds := iSeconds }, scan.iBlocks + 1, sz⟩
  else scan

def minutes (scan : Scan) : Scan :=
  if charAt scan.rest 0 = 58 ∧ isDigit (charAt scan.rest 1) then
    let (iMinutes, sz) := oneOrTwo (scan.rest.drop 1)
    seconds ⟨{ scan.time with minutes := iMinutes }, scan.iBlocks + 1, sz⟩
  else scan

/-- `pm` or `am`; the hour 24 makes a time wrong. -/
def halfDay (scan : Scan) : Scan :=
  let iHour := scan.time.hour
  let isM := charAt scan.rest 1 = 109 ∨ charAt scan.rest 1 = 77
  if (charAt scan.rest 0 = 112 ∨ charAt scan.rest 0 = 80) ∧ isM then
    ⟨{ scan.time with hour := if iHour = 0 then 24 else if iHour ≠ 12 then iHour + 12 else iHour },
      scan.iBlocks + 1, scan.rest.drop 2⟩
  else if (charAt scan.rest 0 = 97 ∨ charAt scan.rest 0 = 65) ∧ isM then
    ⟨{ scan.time with hour := if iHour = 0 then 24 else if iHour = 12 then 0 else iHour },
      scan.iBlocks + 1, scan.rest.drop 2⟩
  else scan

def hb_timeStrGet (szTime : Option Bytes) : Bool × Time :=
  match szTime with
  | none => (false, ⟨0, 0, 0, 0⟩)
  | some szTime =>
    let sz := skipSpace szTime
    if isDigit (charAt sz 0) then
      let (iHour, sz) := oneOrTwo sz
      let scan := minutes ⟨⟨iHour, 0, 0, 0⟩, 0, sz⟩
      let scan := halfDay { scan with rest := skipSpace scan.rest }
      if charAt (skipSpace scan.rest) 0 = 0 ∧ 0 < scan.iBlocks ∧ scan.time.hour < 24 ∧
          scan.time.minutes < 60 ∧ scan.time.seconds < 60 then (true, scan.time)
      else (false, ⟨0, 0, 0, 0⟩)
    else (false, ⟨0, 0, 0, 0⟩)

def digitCount (sz : Bytes) : Nat := ((sz.take 10).takeWhile isDigit).length

def hb_timeStrRawGet (szTime : Option Bytes) : Time :=
  match szTime with
  | none => ⟨0, 0, 0, 0⟩
  | some sz =>
    let iLen := digitCount sz
    if 2 ≤ iLen ∧ (iLen % 2 = 0 ∨ iLen = 7 ∨ iLen = 9) then
      let iHour := twoDigits sz
      let sz := sz.drop 2
      let iLen := iLen - 2
      if 2 ≤ iLen then
        let iMinutes := twoDigits sz
        let sz := sz.drop 2
        let iLen := iLen - 2
        if 2 ≤ iLen then
          let iSeconds := twoDigits sz
          let sz := sz.drop 2
          let iLen := iLen - 2
          let iMSec :=
            if iLen = 4 ∨ iLen = 3 then threeDigits sz
            else if iLen = 2 then twoDigits sz * 10
            else if iLen = 1 then number (charAt sz 0) * 100
            else 0
          ⟨iHour, iMinutes, iSeconds, iMSec⟩
        else ⟨iHour, iMinutes, 0, 0⟩
      else ⟨iHour, 0, 0, 0⟩
    else ⟨0, 0, 0, 0⟩

/-- `hb_timeStampStrRawPut`; `hb_snprintf` has room for nine characters. -/
def hb_timeStampStrRawPut (lJulian lMilliSec : ℤ) : Bytes :=
  let t := hb_timeDecode lMilliSec
  hb_dateStrPut (hb_dateDecode lJulian) ++
    (formatted 2 t.hour ++ formatted 2 t.minutes ++ formatted 2 t.seconds ++
      formatted 3 t.mSec).take 9

/-- `hb_timeStampStrRawGet`, the julian day and the milliseconds. -/
def hb_timeStampStrRawGet (szDateTime : Bytes) : ℤ × ℤ :=
  let iLen := digitCount szDateTime
  let hasDate := iLen = 8 ∨ 10 ≤ iLen
  let date := hb_dateStrGet szDateTime
  let lJulian := if hasDate then hb_dateEncode date.year date.month date.day else 0
  let szTime := if hasDate then szDateTime.drop 8 else szDateTime
  let iLen := if hasDate then iLen - 8 else iLen
  (lJulian, if 2 ≤ iLen then hb_timeEncode (hb_timeStrRawGet (some szTime)) else 0)

/-- `hb_timeStampStr`; `hb_snprintf` has room for 23 characters. -/
def hb_timeStampStr (lJulian lMilliSec : ℤ) : Bytes :=
  let date := hb_dateDecode lJulian
  let t := hb_timeDecode lMilliSec
  (formatted 4 date.year ++ 45 :: formatted 2 date.month ++ 45 :: formatted 2 date.day ++
    32 :: formatted 2 t.hour ++ 58 :: formatted 2 t.minutes ++ 58 :: formatted 2 t.seconds ++
    46 :: formatted 3 t.mSec).take 23

/-- The date that `hb_timeStampStrGet` reads after the four digits of a year and a separator, as a
calendar date, a week date or an ordinal date, with what is after it. -/
def scanDate (sz : Bytes) : Option (Date × Bytes) :=
  let iYear := fourDigits sz
  if isDigit (charAt sz 5) ∧ isDigit (charAt sz 6) ∧ charAt sz 7 = charAt sz 4 ∧
      isDigit (charAt sz 8) ∧ isDigit (charAt sz 9) ∧ ¬ isDigit (charAt sz 10) then
    let iMonth := twoDigits (sz.drop 5)
    let iDay := twoDigits (sz.drop 8)
    if hb_dateEncode iYear iMonth iDay ≠ 0 ∨ (iYear = 0 ∧ iMonth = 0 ∧ iDay = 0) then
      some (⟨iYear, iMonth, iDay⟩, sz.drop 10)
    else none
  else if (charAt sz 5 = 87 ∨ charAt sz 5 = 119) ∧ isDigit (charAt sz 6) ∧ isDigit (charAt sz 7) ∧
      charAt sz 8 = charAt sz 4 ∧ isDigit (charAt sz 9) ∧ ¬ isDigit (charAt sz 10) then
    let lDate := hb_dateEncWeek iYear (twoDigits (sz.drop 6)) (number (charAt sz 9))
    if lDate ≠ 0 then some (hb_dateDecode lDate, sz.drop 10) else none
  else if charAt sz 4 = 45 ∧ isDigit (charAt sz 5) ∧ isDigit (charAt sz 6) ∧
      isDigit (charAt sz 7) ∧ ¬ isDigit (charAt sz 8) then
    let iDay := threeDigits (sz.drop 5)
    if 0 < iDay ∧ (iDay ≤ 365 ∨ (iDay = 366 ∧ iYear % 4 = 0 ∧
        (iYear % 100 ≠ 0 ∨ iYear % 400 = 0))) then
      let lDate := hb_dateEncode iYear 1 1
      if lDate ≠ 0 then some (hb_dateDecode (lDate + iDay - 1), sz.drop 8) else none
    else none
  else none

/-- What is between a date and a time: whether the date may stand alone, and the time, none where
the text ends. -/
def afterDate (sz : Bytes) : Bool × Option Bytes :=
  if charAt sz 0 = 84 ∨ charAt sz 0 = 116 then
    (false, some (if isDigit (charAt sz 1) then sz.drop 1 else sz))
  else
    let sz := if charAt sz 0 = 44 ∨ charAt sz 0 = 59 then sz.drop 1 else sz
    let sz := skipSpace sz
    (true, if charAt sz 0 = 0 then none else some sz)

def datePart (szDateTime : Option Bytes) : Bool × Date × Option Bytes :=
  match szDateTime with
  | none => (false, ⟨0, 0, 0⟩, none)
  | some szDateTime =>
    let sz := skipSpace szDateTime
    if isDigit (charAt sz 0) ∧ isDigit (charAt sz 1) ∧ isDigit (charAt sz 2) ∧
        isDigit (charAt sz 3) ∧ (charAt sz 4 = 45 ∨ charAt sz 4 = 47 ∨ charAt sz 4 = 46) then
      match scanDate sz with
      | some (date, sz) => ((afterDate sz).1, date, (afterDate sz).2)
      | none => (false, ⟨0, 0, 0⟩, none)
    else (false, ⟨0, 0, 0⟩, some sz)

/-- `hb_timeStampStrGet`; `fTime` is whether its caller asks for the time. -/
def hb_timeStampStrGet (szDateTime : Option Bytes) (fTime : Bool) : Bool × Date × Time :=
  let (fValid, date, szTime) := datePart szDateTime
  if fTime then
    match hb_timeStrGet szTime with
    | (true, t) => (true, date, t)
    | (false, t) => (if szTime.isSome then false else fValid, date, t)
  else (if szTime.isSome then false else fValid, date, ⟨0, 0, 0, 0⟩)

def hb_timeStampStrGetDT (szDateTime : Option Bytes) : Bool × ℤ × ℤ :=
  let (fValid, date, t) := hb_timeStampStrGet szDateTime true
  (fValid, hb_dateEncode date.year date.month date.day, hb_timeEncode t)

end Harbour.Common.TimeStamps
