import Harbour.Library.Bytes
import Harbour.Library.Rounding

/-!
The arithmetic operators of the virtual machine over numbers, dates, timestamps and strings. A
`long` has 64 bits, and an arithmetic error is not recovered from.
-/

namespace Harbour.Vm.Operators

open Library.Rounding Rounded

abbrev Double := Rounded 53

abbrev MaxDbl := Rounded 64

/-- Items without objects, less the lengths and decimals of output. An integer is `HB_IT_INTEGER`
or, with `fLong`, `HB_IT_LONG`. -/
inductive Item where
  | nil
  | logical (value : Bool)
  | string (value : Bytes)
  | numInt (fLong : Bool) (value : Int)
  | double (value : Double)
  | date (julian : Int)
  | timestamp (julian time : Int)
deriving DecidableEq

inductive VmError where
  | arg (subCode : Nat) (operation : String)
  | zeroDiv (subCode : Nat) (operation : String)
deriving DecidableEq, Repr

def wrap64 (n : Int) : Int := n.bmod (2 ^ 64)

def LimLong (n : Int) : Prop := -2 ^ 63 ≤ n ∧ n ≤ 2 ^ 63 - 1

def LimInt (n : Int) : Prop := -2 ^ 31 ≤ n ∧ n ≤ 2 ^ 31 - 1

def DblLimLong (q : ℚ) : Prop := -2 ^ 63 ≤ q ∧ q ≤ 2 ^ 63 - 1

def DblLimInt (q : ℚ) : Prop := -2 ^ 31 ≤ q ∧ q ≤ 2 ^ 31 - 1

instance (n : Int) : Decidable (LimLong n) := inferInstanceAs (Decidable (_ ∧ _))
instance (n : Int) : Decidable (LimInt n) := inferInstanceAs (Decidable (_ ∧ _))
instance (q : ℚ) : Decidable (DblLimLong q) := inferInstanceAs (Decidable (_ ∧ _))
instance (q : ℚ) : Decidable (DblLimInt q) := inferInstanceAs (Decidable (_ ∧ _))

def truncate (q : ℚ) : Int := q.num.tdiv q.den

def castLong (d : Double) : Int := wrap64 (truncate d.value)

def fmod (d divisor : Double) : Double :=
  round (d.value - divisor.value * truncate (d.value / divisor.value))

def putNumIntRaw (n : Int) : Item := .numInt (¬ LimInt n) n

/-- `hb_itemPutNumType` of operands that are or are not doubles. -/
def itemPutNumType (dNumber : Double) (fDouble : Bool) : Item :=
  if fDouble then .double dNumber
  else if DblLimInt dNumber.value then .numInt false (truncate dNumber.value)
  else if DblLimLong dNumber.value then .numInt true (truncate dNumber.value)
  else .double dNumber

def millisecsPerDay : Int := 86400000

def normalize (lJulian lMilliSec : Int) : Int × Int :=
  if lJulian < 0 then
    if lMilliSec ≤ -millisecsPerDay then (lJulian - 1, lMilliSec + millisecsPerDay)
    else if lMilliSec > 0 then
      if lMilliSec - millisecsPerDay > 0 then
        (lJulian + 1 + 1, lMilliSec - millisecsPerDay - millisecsPerDay)
      else (lJulian + 1, lMilliSec - millisecsPerDay)
    else (lJulian, lMilliSec)
  else
    if lMilliSec ≥ millisecsPerDay then (lJulian + 1, lMilliSec - millisecsPerDay)
    else if lMilliSec < 0 then
      if lMilliSec + millisecsPerDay < 0 then
        (lJulian - 1 - 1, lMilliSec + millisecsPerDay + millisecsPerDay)
      else (lJulian - 1, lMilliSec + millisecsPerDay)
    else (lJulian, lMilliSec)

def timeStampPackDT (lJulian lMilliSec : Int) : Double :=
  (ofInt lJulian).add ((ofInt lMilliSec).div (ofInt millisecsPerDay))

def timeStampUnpackDT (dTimeStamp : Double) : Int × Int :=
  let llMilliSec := castLong ((dTimeStamp.mul (ofInt millisecsPerDay)).add
    (round (1 / 2)))
  (llMilliSec.tdiv millisecsPerDay, llMilliSec.tmod millisecsPerDay)

def timeStampPut (lJulian lMilliSec : Int) : Item :=
  .timestamp (normalize lJulian lMilliSec).1 (normalize lJulian lMilliSec).2

def timeStampAdd (julian time : Int) (dValue : Double) : Item :=
  let (lJulian, lMilliSec) := timeStampUnpackDT dValue
  timeStampPut (wrap64 (lJulian + julian)) (lMilliSec + time)

def blank : UInt8 := 32

def trimRight (s : Bytes) : Bytes := (s.reverse.dropWhile (· = blank)).reverse

def vmNegate : Item → Except VmError Item
  | .numInt false n =>
    if n < -(2 ^ 31 - 1) then .ok (.numInt true (-n)) else .ok (.numInt false (-n))
  | .numInt true n =>
    if n < -(2 ^ 63 - 1) then .ok (.double (ofInt n).neg) else .ok (.numInt true (-n))
  | .double d => .ok (.double d.neg)
  | _ => .error (.arg 1080 "-")

def vmPlus : Item → Item → Except VmError Item
  | .numInt _ n1, .numInt _ n2 =>
    let nResult := wrap64 (n1 + n2)
    if if n2 ≥ 0 then nResult ≥ n1 else nResult < n1 then .ok (putNumIntRaw nResult)
    else .ok (.double ((ofInt n1).add (ofInt n2)))
  | .numInt _ n1, .double d2 => .ok (.double ((ofInt n1).add d2))
  | .double d1, .numInt _ n2 => .ok (.double (d1.add (ofInt n2)))
  | .double d1, .double d2 => .ok (.double (d1.add d2))
  | .string s1, .string s2 =>
    if s2 ≠ [] then if s1 ≠ [] then .ok (.string (s1 ++ s2)) else .ok (.string s2)
    else .ok (.string s1)
  | .date j1, .date j2 => .ok (.date (wrap64 (j1 + j2)))
  | .date j1, .timestamp j2 t2 => .ok (timeStampPut (wrap64 (j1 + j2)) (0 + t2))
  | .timestamp j1 t1, .date j2 => .ok (timeStampPut (wrap64 (j1 + j2)) (t1 + 0))
  | .timestamp j1 t1, .timestamp j2 t2 => .ok (timeStampPut (wrap64 (j1 + j2)) (t1 + t2))
  | .timestamp j1 t1, .numInt _ n2 => .ok (timeStampPut (wrap64 (j1 + n2)) t1)
  | .timestamp j1 t1, .double d2 => .ok (timeStampAdd j1 t1 d2)
  | .date j1, .numInt _ n2 => .ok (.date (wrap64 (j1 + n2)))
  | .date j1, .double d2 => .ok (.date (wrap64 (j1 + castLong d2)))
  | .numInt _ n1, .timestamp j2 t2 => .ok (timeStampPut (wrap64 (n1 + j2)) t2)
  | .double d1, .timestamp j2 t2 => .ok (timeStampAdd j2 t2 d1)
  | .numInt _ n1, .date j2 => .ok (.date (wrap64 (n1 + j2)))
  | .double d1, .date j2 => .ok (.date (wrap64 (castLong d1 + j2)))
  | _, _ => .error (.arg 1081 "+")

def dateDiff (lJulian lTime : Int) : Item :=
  if lTime ≠ 0 then .double (timeStampPackDT lJulian lTime) else .numInt true lJulian

def vmMinus : Item → Item → Except VmError Item
  | .numInt _ n1, .numInt _ n2 =>
    let nResult := wrap64 (n1 - n2)
    if if n2 ≤ 0 then nResult ≥ n1 else nResult < n1 then .ok (putNumIntRaw nResult)
    else .ok (.double ((ofInt n1).sub (ofInt n2)))
  | .numInt _ n1, .double d2 => .ok (.double ((ofInt n1).sub d2))
  | .double d1, .numInt _ n2 => .ok (.double (d1.sub (ofInt n2)))
  | .double d1, .double d2 => .ok (.double (d1.sub d2))
  | .date j1, .date j2 => .ok (dateDiff (wrap64 (j1 - j2)) 0)
  | .date j1, .timestamp j2 t2 => .ok (dateDiff (wrap64 (j1 - j2)) (0 - t2))
  | .timestamp j1 t1, .date j2 => .ok (dateDiff (wrap64 (j1 - j2)) (t1 - 0))
  | .timestamp j1 t1, .timestamp j2 t2 => .ok (dateDiff (wrap64 (j1 - j2)) (t1 - t2))
  | .timestamp j1 t1, .numInt _ n2 => .ok (timeStampPut (wrap64 (j1 - n2)) t1)
  | .timestamp j1 t1, .double d2 => .ok (timeStampAdd j1 t1 d2.neg)
  | .date j1, .numInt _ n2 => .ok (.date (wrap64 (j1 - n2)))
  | .date j1, .double d2 => .ok (.date (wrap64 (j1 - castLong d2)))
  | .string s1, .string s2 =>
    if s1 = [] then .ok (.string s2)
    else if s2 = [] then .ok (.string s1)
    else .ok (.string (trimRight s1 ++ s2 ++
      List.replicate (s1.length - (trimRight s1).length) blank))
  | _, _ => .error (.arg 1082 "-")

def vmMult : Item → Item → Except VmError Item
  | .numInt false n1, .numInt false n2 => .ok (putNumIntRaw (wrap64 (n1 * n2)))
  | .numInt _ n1, .numInt _ n2 =>
    .ok (itemPutNumType ((ofInt n1).mul (ofInt n2)) false)
  | .numInt _ n1, .double d2 => .ok (itemPutNumType ((ofInt n1).mul d2) true)
  | .double d1, .numInt _ n2 => .ok (itemPutNumType (d1.mul (ofInt n2)) true)
  | .double d1, .double d2 => .ok (itemPutNumType (d1.mul d2) true)
  | _, _ => .error (.arg 1083 "*")

def divideDbl (d1 dDivisor : Double) : Except VmError Item :=
  if dDivisor.value = 0 then .error (.zeroDiv 1340 "/") else .ok (.double (d1.div dDivisor))

def vmDivide : Item → Item → Except VmError Item
  | .numInt _ n1, .numInt _ nDivisor =>
    if nDivisor = 0 then .error (.zeroDiv 1340 "/")
    else .ok (.double ((ofInt n1).div (ofInt nDivisor)))
  | .numInt _ n1, .double d2 => divideDbl (ofInt n1) d2
  | .double d1, .numInt _ n2 => divideDbl d1 (ofInt n2)
  | .double d1, .double d2 => divideDbl d1 d2
  | _, _ => .error (.arg 1084 "/")

def modulusDbl (d1 dDivisor : Double) : Except VmError Item :=
  if dDivisor.value = 0 then .error (.zeroDiv 1341 "%") else .ok (.double (fmod d1 dDivisor))

def vmModulus : Item → Item → Except VmError Item
  | .numInt _ n1, .numInt _ nDivisor =>
    if nDivisor = 0 then .error (.zeroDiv 1341 "%")
    else .ok (.double (ofInt (n1.tmod nDivisor)))
  | .numInt _ n1, .double d2 => modulusDbl (ofInt n1) d2
  | .double d1, .numInt _ n2 => modulusDbl d1 (ofInt n2)
  | .double d1, .double d2 => modulusDbl d1 d2
  | _, _ => .error (.arg 1085 "%")

section Lemmas

variable {n : Int}

theorem wrap64_of_lim (h : LimLong n) : wrap64 n = n := by
  obtain ⟨hlow, hhigh⟩ := h
  exact Int.bmod_eq_of_le (by omega) (by omega)

theorem wrap64_lim (n : Int) : LimLong (wrap64 n) := by
  have hlow := Int.le_bmod (x := n) (m := 2 ^ 64) (by decide)
  have hhigh := Int.bmod_lt (x := n) (m := 2 ^ 64) (by decide)
  unfold wrap64
  constructor
  · omega
  · omega

end Lemmas

end Harbour.Vm.Operators
