import Harbour.Common.CharClass
import Harbour.Common.NumToStr

/-!
The reading of a number in `hbstr.c`.
-/

namespace Harbour.Common.StrToNum

open CharClass Library.Decimal List NumToStr Option

structure Doubles (D : Type) where
  zero : D
  /-- `( double ) l` -/
  ofLong : ℤ → D
  /-- `d * 10.0 + c` -/
  append : D → Nat → D
  neg : D → D
  /-- `d / hb_numPow10( iDec )` -/
  scale : D → Nat → D
  isZero : D → Bool
  /-- `HB_DBL_LENGTH` -/
  length : D → ℤ

variable {D : Type} (doubles : Doubles D)

def HB_DEFAULT_WIDTH : ℤ := 255

def HB_LONG_LENGTH (l : ℤ) : ℤ := if l < -999999999 ∨ 9999999999 < l then 20 else 10

def hexValue (c : UInt8) : Option ℤ :=
  if isDigit c then some (digitValue c)
  else if 65 ≤ c ∧ c ≤ 70 then some (c.toNat - 55)
  else if 97 ≤ c ∧ c ≤ 102 then some (c.toNat - 87)
  else none

def hexDigits : ℤ → Bytes → ℤ
  | lVal, [] => lVal
  | lVal, c :: rest =>
    match hexValue c with
    | some v => hexDigits ((lVal * 16 + v).bmod (2 ^ 64)) rest
    | none => lVal

structure Vars (D : Type) where
  lVal : ℤ
  dVal : D
  fDbl : Bool
  fDec : Bool
  iDec : Nat
  iDecR : Nat
  iWidth : ℤ

/-- A signed number of 64 bits; none when it has overflowed. -/
def checked (l : ℤ) : Option ℤ :=
  if HB_VMLONG_MIN ≤ l ∧ l ≤ HB_VMLONG_MAX then some l else none

def addDigit (vars : Vars D) (k : Nat) : Option (Vars D) :=
  let lLimV := HB_VMLONG_MAX / 10
  let iLimC := HB_VMLONG_MAX % 10
  if vars.fDbl then some { vars with dVal := doubles.append vars.dVal k }
  else if vars.lVal < lLimV ∨ vars.lVal ≤ lLimV ∧ (k : ℤ) ≤ iLimC then
    (checked (vars.lVal * 10 + k)).map fun lVal => { vars with lVal }
  else some { vars with dVal := doubles.append (doubles.ofLong vars.lVal) k, fDbl := true }

/-- The search for a point after a character that is none of a number. -/
def pastPoint : Vars D → Bytes → Vars D
  | vars, [] => if vars.fDec then { vars with iDecR := 0 } else vars
  | vars, c :: rest =>
    if vars.fDec then { vars with iDecR := (c :: rest).length }
    else if c = 46 then pastPoint { vars with fDec := true } rest
    else pastPoint { vars with iWidth := vars.iWidth + 1 } rest

def decimalDigits : Vars D → Bytes → Option (Vars D)
  | vars, [] => some vars
  | vars, c :: rest =>
    if isDigit c then
      (addDigit doubles vars (digitValue c)).bind fun vars =>
        decimalDigits (if vars.fDec then { vars with iDec := vars.iDec + 1 }
          else { vars with iWidth := vars.iWidth + 1 }) rest
    else if c = 46 ∧ ¬ vars.fDec then decimalDigits { vars with fDec := true } rest
    else some (pastPoint vars (c :: rest))

/-- What `hb_str2number` returns: whether it is a double, and the values, decimals and width. -/
structure Number (D : Type) where
  fDbl : Bool
  lVal : ℤ
  dVal : D
  iDec : Nat
  iWidth : ℤ

def numberWidth (fPCode fNeg : Bool) (iLen iWidth : ℤ) (vars : Vars D) (fDbl : Bool)
    (lVal : ℤ) (dVal : D) : ℤ :=
  let length := if fDbl then doubles.length dVal else HB_LONG_LENGTH lVal
  if fPCode then
    if iWidth < 10 ∨ fNeg then length else iWidth + (if vars.iDec = 0 then 1 else 0)
  else if 10 < iWidth then length
  else if vars.iDec + vars.iDecR = 0 then iLen
  else if iWidth = 0 then 1
  else if fNeg ∧ iWidth = 1 ∧ ¬ doubles.isZero dVal then 2
  else iWidth

/-- `hb_str2number`, of the first `nLen` characters; none when a signed value overflows. -/
def hb_str2number (fPCode : Bool) (szNum : Bytes) (nLen : Nat) : Option (Number D) :=
  let szNum := szNum.take (toInt nLen).toNat
  let rest := szNum.dropWhile HB_ISSPACE
  let fNeg := decide (rest.head? = some 45)
  let rest := if rest.head? = some 45 ∨ rest.head? = some 43 then rest.tail else rest
  let iPos := szNum.length - rest.length
  if fPCode ∧ 2 ≤ rest.length ∧ rest.head? = some 48 ∧
      (rest.tail.head? = some 88 ∨ rest.tail.head? = some 120) then
    let lVal := hexDigits 0 (rest.drop 2)
    some ⟨false, if fNeg then negate lVal else lVal, doubles.zero, 0, HB_DEFAULT_WIDTH⟩
  else
    (decimalDigits doubles ⟨0, doubles.zero, false, false, 0, 0, iPos⟩ rest).map fun vars =>
      let dVal := if fNeg ∧ vars.fDbl then doubles.neg vars.dVal else vars.dVal
      let lVal := if fNeg ∧ ¬ vars.fDbl then -vars.lVal else vars.lVal
      let dVal := if ¬ vars.fDbl ∧ vars.fDec then doubles.ofLong lVal else dVal
      let fDbl := vars.fDbl || vars.fDec
      let dVal := if vars.iDec ≠ 0 then doubles.scale dVal vars.iDec else dVal
      ⟨fDbl, lVal, dVal, vars.iDec + vars.iDecR,
        numberWidth doubles fPCode fNeg (toInt nLen) vars.iWidth vars fDbl lVal dVal⟩

def hb_strToNum (szNum : Bytes) : Option (Number D) :=
  hb_str2number doubles false szNum szNum.length

def hb_compStrToNum (szNum : Bytes) (nLen : Nat) : Option (Number D) :=
  hb_str2number doubles true szNum nLen

section Digits

variable (doubles : Doubles D) {vars : Vars D} {digits : Bytes} {v k : Nat}

theorem vmLong_limits : HB_VMLONG_MAX / 10 = 922337203685477580 ∧ HB_VMLONG_MAX % 10 = 7 ∧
    HB_VMLONG_MAX = 9223372036854775807 ∧ HB_VMLONG_MIN = -9223372036854775808 := by decide

section

variable (hdbl : vars.fDbl = false) (hval : vars.lVal = v) (hk : k < 10)

include hdbl hval hk

theorem addDigit_long (hle : ((v * 10 + k : Nat) : ℤ) ≤ HB_VMLONG_MAX) :
    addDigit doubles vars k = some { vars with lVal := ((v * 10 + k : Nat) : ℤ) } := by
  obtain ⟨hlim, hlast, hmax, hmin⟩ := vmLong_limits
  have hroom : vars.lVal < HB_VMLONG_MAX / 10 ∨
      vars.lVal ≤ HB_VMLONG_MAX / 10 ∧ (k : ℤ) ≤ HB_VMLONG_MAX % 10 := by
    omega
  have hsum : vars.lVal * 10 + k = ((v * 10 + k : Nat) : ℤ) := by
    rw [hval]
    rfl
  unfold addDigit checked
  simp only [hdbl, Bool.false_eq_true, if_false, hroom, if_true, hsum]
  rw [if_pos ⟨by omega, hle⟩]
  rfl

theorem addDigit_double (hlt : HB_VMLONG_MAX < ((v * 10 + k : Nat) : ℤ)) :
    ∃ vars', addDigit doubles vars k = some vars' ∧ vars'.fDbl = true ∧ vars'.fDec = vars.fDec := by
  have hfull : ¬ (vars.lVal < HB_VMLONG_MAX / 10 ∨
      vars.lVal ≤ HB_VMLONG_MAX / 10 ∧ (k : ℤ) ≤ HB_VMLONG_MAX % 10) := by
    omega
  unfold addDigit
  simp only [hdbl, Bool.false_eq_true, if_false, hfull]
  exact ⟨_, rfl, rfl, rfl⟩

end

theorem decimalDigits_double (hdbl : vars.fDbl = true) (hdec : vars.fDec = false)
    (hdigits : ∀ c ∈ digits, isDigit c = true) :
    ∃ vars', decimalDigits doubles vars digits = some vars' ∧ vars'.fDbl = true ∧
      vars'.fDec = false := by
  induction digits generalizing vars with
  | nil => exact ⟨vars, rfl, hdbl, hdec⟩
  | cons c digits ih =>
    have hc := hdigits c mem_cons_self
    have hadd : addDigit doubles vars (digitValue c) =
        some { vars with dVal := doubles.append vars.dVal (digitValue c) } := by
      unfold addDigit
      simp only [hdbl, if_true]
    unfold decimalDigits
    simp only [hc, if_true, hadd, bind_some, hdec, Bool.false_eq_true, if_false]
    exact ih hdbl rfl fun c' hc' => hdigits c' (mem_cons_of_mem c hc')

theorem decimalDigits_spec (hdbl : vars.fDbl = false) (hdec : vars.fDec = false)
    (hval : vars.lVal = v) (hv : (v : ℤ) ≤ HB_VMLONG_MAX)
    (hdigits : ∀ c ∈ digits, isDigit c = true) :
    ∃ vars', decimalDigits doubles vars digits = some vars' ∧ vars'.fDec = false ∧
      (vars'.fDbl = false ↔ (valueFrom v digits : ℤ) ≤ HB_VMLONG_MAX) ∧
      (vars'.fDbl = false → vars'.lVal = valueFrom v digits) := by
  induction digits generalizing vars v with
  | nil => exact ⟨vars, rfl, hdec, iff_of_true hdbl hv, fun _ => hval⟩
  | cons c digits ih =>
    have hc := hdigits c mem_cons_self
    have hrest : ∀ c' ∈ digits, isDigit c' = true :=
      fun c' hc' => hdigits c' (mem_cons_of_mem c hc')
    have hgrows := le_valueFrom (v * 10 + digitValue c) digits
    unfold decimalDigits
    rw [valueFrom]
    rcases le_or_gt ((v * 10 + digitValue c : Nat) : ℤ) HB_VMLONG_MAX with hle | hlt
    · simp only [hc, if_true, addDigit_long doubles hdbl hval (digitValue_lt hc) hle,
        bind_some, hdec, Bool.false_eq_true, if_false]
      exact ih hdbl rfl rfl hle hrest
    · obtain ⟨vars', hadd, hdbl', hdec'⟩ :=
        addDigit_double doubles hdbl hval (digitValue_lt hc) hlt
      simp only [hc, if_true, hadd, bind_some, hdec', hdec, Bool.false_eq_true, if_false]
      obtain ⟨vars'', hloop, hdbl'', hdec''⟩ := decimalDigits_double doubles
        (show ({ vars' with iWidth := vars'.iWidth + 1 } : Vars D).fDbl = true from hdbl')
        (hdec'.trans hdec) hrest
      refine ⟨vars'', ?_, hdec'', iff_of_false (by rw [hdbl'']; decide) (by omega), ?_⟩
      · rw [← hloop]
        simp [hdec', hdec]
      · intro hlong
        rw [hdbl''] at hlong
        exact absurd hlong (by decide)

end Digits

section Signs

inductive Sign where
  | none
  | plus
  | minus

def Sign.text : Sign → Bytes
  | .none => []
  | .plus => [43]
  | .minus => [45]

def Sign.isMinus : Sign → Bool
  | .minus => true
  | _ => false

def Sign.apply : Sign → ℤ → ℤ
  | .none, n => n
  | .plus, n => n
  | .minus, n => -n

variable (doubles : Doubles D) {digits : Bytes} {sign : Sign}

def ReadsAs (result : Option (Number D)) (sign : Sign) (n : Nat) : Prop :=
  ∃ r, result = some r ∧ (r.fDbl = false ↔ (n : ℤ) ≤ HB_VMLONG_MAX) ∧
    (r.fDbl = false → r.lVal = sign.apply n)

theorem head?_ne {c : UInt8} (hdigits : ∀ c ∈ digits, isDigit c = true) (hc : isDigit c = false) :
    digits.head? ≠ some c := by
  intro hhead
  have hdigit := hdigits c (mem_of_head? hhead)
  rw [hdigit] at hc
  exact Bool.noConfusion hc

theorem isSpace_of_isDigit {c : UInt8} (hc : isDigit c = true) : HB_ISSPACE c = false := by
  have hne : ∀ c', isDigit c' = false → c ≠ c' := by
    rintro c' hc' rfl
    rw [hc] at hc'
    exact Bool.noConfusion hc'
  unfold HB_ISSPACE
  simp only [hne 32 rfl, hne 9 rfl, hne 10 rfl, hne 13 rfl, decide_false, Bool.or_self]

section

variable (hdigits : ∀ c ∈ digits, isDigit c = true)

include hdigits

theorem dropWhile_isSpace : (sign.text ++ digits).dropWhile HB_ISSPACE = sign.text ++ digits := by
  cases sign with
  | none =>
    cases digits with
    | nil => rfl
    | cons c digits =>
      apply dropWhile_cons_of_neg
      rw [isSpace_of_isDigit (hdigits c mem_cons_self)]
      exact Bool.false_ne_true
  | plus => rfl
  | minus => rfl

theorem decide_minus : decide ((sign.text ++ digits).head? = some 45) = sign.isMinus := by
  cases sign with
  | none => exact decide_eq_false (head?_ne hdigits rfl)
  | plus => rfl
  | minus => rfl

theorem tail_sign :
    (if (sign.text ++ digits).head? = some 45 ∨ (sign.text ++ digits).head? = some 43 then
      (sign.text ++ digits).tail else sign.text ++ digits) = digits := by
  cases sign with
  | none =>
    apply if_neg
    rintro (hminus | hplus)
    · exact head?_ne hdigits rfl hminus
    · exact head?_ne hdigits rfl hplus
  | plus => rfl
  | minus => rfl

end

theorem hb_str2number_digits (fPCode : Bool) (hdigits : ∀ c ∈ digits, isDigit c = true)
    {szNum : Bytes} {nLen : Nat} (htake : szNum.take (toInt nLen).toNat = sign.text ++ digits) :
    ReadsAs (hb_str2number doubles fPCode szNum nLen) sign (value digits) := by
  have htail : ∀ c ∈ digits.tail, isDigit c = true :=
    fun c hc => hdigits c (mem_of_mem_tail hc)
  have hhex : ¬ (fPCode = true ∧ 2 ≤ digits.length ∧ digits.head? = some 48 ∧
      (digits.tail.head? = some 88 ∨ digits.tail.head? = some 120)) := by
    rintro ⟨-, -, -, hx | hx⟩
    · exact head?_ne htail rfl hx
    · exact head?_ne htail rfl hx
  unfold hb_str2number
  simp only [htake, dropWhile_isSpace hdigits, decide_minus hdigits, tail_sign hdigits]
  rw [if_neg hhex]
  obtain ⟨vars, hloop, hdec, hlong, hval⟩ := decimalDigits_spec doubles
    (show (⟨0, doubles.zero, false, false, 0, 0,
      ((sign.text ++ digits).length - digits.length : Nat)⟩ : Vars D).fDbl = false from rfl)
    rfl (show (0 : ℤ) = (0 : Nat) from rfl) (by decide) hdigits
  rw [hloop]
  refine ⟨_, rfl, ?_, ?_⟩
  · simp only [hdec, Bool.or_false]
    exact hlong
  · simp only [hdec, Bool.or_false]
    intro hdbl
    rw [hval hdbl, hdbl]
    cases sign <;> rfl

end Signs

section Exactness

variable (doubles : Doubles D) {szBuf digits : Bytes} {sign : Sign} {l : ℤ}

/-- What the `int` of the length leaves of the digits of a text. -/
def readDigits (sign : Sign) (digits : Bytes) : Bytes :=
  digits.take ((toInt (sign.text ++ digits).length).toNat - sign.text.length)

/-- A text whose number does not depend on what the `int` of its length leaves out: so it is when
the length is an `int`. -/
def Readable (sign : Sign) (digits : Bytes) : Prop :=
  ((value (readDigits sign digits) : ℤ) ≤ HB_VMLONG_MAX ↔ (value digits : ℤ) ≤ HB_VMLONG_MAX) ∧
    ((value digits : ℤ) ≤ HB_VMLONG_MAX → value (readDigits sign digits) = value digits)

theorem readable_of_lt (h : (sign.text ++ digits).length < 2 ^ 31) : Readable sign digits := by
  have hread : readDigits sign digits = digits := by
    unfold readDigits
    rw [toInt_of_lt h, Int.toNat_natCast, length_append, Nat.add_sub_cancel_left,
      take_length]
  unfold Readable
  rw [hread]
  exact ⟨Iff.rfl, fun _ => rfl⟩

theorem Sign.apply_inj {n m : ℤ} (h : sign.apply n = sign.apply m) : n = m := by
  cases sign with
  | none => exact h
  | plus => exact h
  | minus => exact neg_inj.mp h

theorem hb_str2number_readDigits (sign : Sign) (fPCode : Bool)
    (hdigits : ∀ c ∈ digits, isDigit c = true) :
    ReadsAs (hb_str2number doubles fPCode (sign.text ++ digits) (sign.text ++ digits).length)
      sign (value (readDigits sign digits)) := by
  have hread : ∀ c ∈ readDigits sign digits, isDigit c = true :=
    fun c hc => hdigits c (mem_of_mem_take hc)
  rcases Nat.eq_zero_or_pos (toInt (sign.text ++ digits).length).toNat with hzero | hpos
  · -- nothing is left, not even the sign
    have htake : (sign.text ++ digits).take (toInt (sign.text ++ digits).length).toNat =
        Sign.none.text ++ [] := by
      rw [hzero]
      rfl
    obtain ⟨r, hr, hlong, hval⟩ := hb_str2number_digits doubles fPCode
      (fun c hc => absurd hc not_mem_nil) htake
    have hnone : readDigits sign digits = [] := by
      unfold readDigits
      rw [hzero, Nat.zero_sub]
      rfl
    refine ⟨r, hr, ?_, ?_⟩
    · rw [hnone]
      exact hlong
    · intro hdbl
      rw [hval hdbl, hnone]
      cases sign <;> rfl
  · apply hb_str2number_digits doubles fPCode hread
    have hsign : sign.text.length ≤ (toInt (sign.text ++ digits).length).toNat := by
      have hone : sign.text.length ≤ 1 := by cases sign <;> decide
      omega
    rw [take_append, take_of_length_le hsign]
    rfl

theorem readsAs_iff (fPCode : Bool) (hdigits : ∀ c ∈ digits, isDigit c = true) :
    ReadsAs (hb_str2number doubles fPCode (sign.text ++ digits) (sign.text ++ digits).length)
      sign (value digits) ↔ Readable sign digits := by
  obtain ⟨r, hr, hlong, hval⟩ :=
    hb_str2number_readDigits doubles sign fPCode hdigits
  constructor
  · rintro ⟨r', hr', hlong', hval'⟩
    obtain rfl := some.inj (hr.symm.trans hr')
    refine ⟨hlong.symm.trans hlong', fun hle => ?_⟩
    have hdbl := hlong'.mpr hle
    exact_mod_cast Sign.apply_inj ((hval hdbl).symm.trans (hval' hdbl))
  · rintro ⟨hrange, hsame⟩
    refine ⟨r, hr, hlong.trans hrange, fun hdbl => ?_⟩
    rw [hval hdbl, hsame (hrange.mp (hlong.mp hdbl))]

/-- The text of a number is read back as an integer, by both readers. -/
def RoundTrips (doubles : Doubles D) (szBuf : Bytes) (l : ℤ) : Prop :=
  ∃ text, numToStr szBuf l = some text ∧
    (∃ r, hb_strToNum doubles text = some r ∧ r.fDbl = false ∧ r.lVal = l) ∧
    ∃ r, hb_compStrToNum doubles text text.length = some r ∧ r.fDbl = false ∧ r.lVal = l

theorem str2number_decimal (fPCode : Bool) (h : IsLong l) (hmin : l ≠ HB_VMLONG_MIN) :
    ∃ r, hb_str2number doubles fPCode (decimal l) (decimal l).length = some r ∧
      r.fDbl = false ∧ r.lVal = l := by
  obtain ⟨sign, hsign, hdecimal⟩ : ∃ sign : Sign, sign.apply l.natAbs = l ∧
      decimal l = sign.text ++ text l.natAbs := by
    rcases lt_or_ge l 0 with hneg | hneg
    · exact ⟨.minus, by simp only [Sign.apply]; omega, if_pos hneg⟩
    · exact ⟨.none, by simp only [Sign.apply]; omega, if_neg (not_lt.mpr hneg)⟩
  have hlength := decimal_length_le h
  rw [hdecimal] at hlength ⊢
  have hdigits : ∀ c ∈ text l.natAbs, isDigit c = true := fun c hc => isDigit_of_mem_text hc
  obtain ⟨r, hr, hlong, hval⟩ := (readsAs_iff doubles fPCode hdigits).mpr
    (readable_of_lt (lt_of_le_of_lt hlength (by norm_num)))
  rw [value_text] at hlong hval
  obtain ⟨hlo, hhi⟩ := h
  obtain ⟨-, -, hmax, hleast⟩ := vmLong_limits
  have hdbl := hlong.mpr (by omega)
  exact ⟨r, hr, hdbl, (hval hdbl).trans hsign⟩

theorem roundTrips (hl : IsLong l) (hroom : 22 ≤ szBuf.length)
    (h : Formattable szBuf.length l) : RoundTrips doubles szBuf l := by
  have hfew := decimal_length_le hl
  have hfits : (decimal l).length < szBuf.length := by omega
  have hmin := h.ne_min hfits
  have htext := (numToStr_iff hl).mpr h
  rw [expected, if_pos hfits] at htext
  exact ⟨decimal l, htext, str2number_decimal doubles false hl hmin,
    str2number_decimal doubles true hl hmin⟩

/-- `hb_numToStr` gives the text of a number or asterisks that fill the buffer, and with 22 places
the readers give the number back, exactly when the buffer and the number are `Formattable`; and a
text of a sign and digits is an integer exactly when its magnitude is in range, with that value and
without an overflow, exactly when the `int` of its length leaves the number as it is. -/
theorem integerText_iff (doubles : Doubles D) :
    (∀ szBuf l, IsLong l →
      (numToStr szBuf l = some (expected szBuf.length l) ∧
        (22 ≤ szBuf.length → RoundTrips doubles szBuf l) ↔ Formattable szBuf.length l)) ∧
    ∀ fPCode sign digits, (∀ c ∈ digits, isDigit c = true) →
      (ReadsAs (hb_str2number doubles fPCode (sign.text ++ digits) (sign.text ++ digits).length)
        sign (value digits) ↔ Readable sign digits) := by
  constructor
  · intro szBuf l hl
    rw [numToStr_iff hl]
    exact and_iff_left_of_imp fun h hroom => roundTrips doubles hl hroom h
  · intro fPCode sign digits hdigits
    exact readsAs_iff doubles fPCode hdigits

/-- The least integer gets other characters than its digits, in a buffer that its text fits in. -/
theorem integerText_least : ¬ ∀ szBuf l, IsLong l →
    numToStr szBuf l = some (expected szBuf.length l) := by
  intro h
  have hlong : IsLong HB_VMLONG_MIN := by
    unfold IsLong
    decide
  have hformattable := (numToStr_iff hlong).mp (h (replicate 22 0) HB_VMLONG_MIN hlong)
  have hfew := decimal_length_le hlong
  rw [length_replicate] at hformattable
  exact hformattable.ne_min (by omega) rfl

def noDoubles : Doubles Unit := ⟨(), fun _ => (), fun _ _ => (), fun _ => (), fun _ _ => (),
  fun _ => true, fun _ => 10⟩

theorem formattable_small : Formattable (replicate 22 (0 : UInt8)).length (-17) := by
  rw [length_replicate]
  have hsize : toInt 22 = (22 : Nat) := toInt_of_lt (by norm_num)
  exact ⟨by rw [hsize]; norm_num, fun _ => .inl (by decide), fun hother => absurd hsize hother⟩

theorem integerText_small :
    RoundTrips noDoubles (replicate 22 0) (-17) ∧
      ReadsAs (hb_str2number noDoubles true (Sign.plus.text ++ [49, 50])
        (Sign.plus.text ++ [49, 50]).length) .plus (value [49, 50]) := by
  have hlong : IsLong (-17) := by
    unfold IsLong
    decide
  have hdigits : ∀ c ∈ ([49, 50] : Bytes), isDigit c = true := by
    intro c hc
    rcases mem_pair.mp hc with rfl | rfl
    · rfl
    · rfl
  exact ⟨(((integerText_iff noDoubles).1 _ _ hlong).mpr formattable_small).2
      (by rw [length_replicate]),
    ((integerText_iff noDoubles).2 true .plus [49, 50] hdigits).mpr
      (readable_of_lt (by decide))⟩

end Exactness

end Harbour.Common.StrToNum
