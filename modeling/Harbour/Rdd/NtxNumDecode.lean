import Harbour.Library.Rounding
import Harbour.Rdd.NtxNumKey

/-!
The numbers that come back from the keys of an NTX index.
-/

namespace Harbour.Rdd.NtxNumDecode

open Library.Decimal Library.Rounding Common.CharClass Common.NumToStr Common.StrToNum NtxNumKey
  List

variable {D : Type} (doubles : Doubles D)

/-- The item that `hb_itemPutNDLen` or `hb_itemPutNIntLen` stores. -/
inductive NumItem (D : Type) where
  | double (dValue : D) (iLen : ℤ) (iDec : Nat)
  | long (lValue : ℤ) (length : Nat)

def hb_ntxStrToNum (szKeyVal : Bytes) (length : UInt16) : Option (NumItem D) :=
  let ptr :=
    if szKeyVal.head? = some (48 - 4) then
      45 :: ((szKeyVal.takeWhile (· ≠ 0)).map fun c =>
        if c ≠ 46 then 48 - (c - 48 + 4) else c).tail
    else szKeyVal
  (hb_str2number doubles false ptr length.toNat).map fun num =>
    if num.fDbl then .double num.dVal num.iWidth num.iDec else .long num.lVal length.toNat

variable {digits digits' : Bytes} {k : Nat} {c : UInt8}

section Digits

structure Acc (D : Type) where
  lVal : ℤ
  dVal : D
  fDbl : Bool

def Acc.start : Acc D := ⟨0, doubles.zero, false⟩

variable {doubles}

def varsAcc (vars : Vars D) : Acc D := ⟨vars.lVal, vars.dVal, vars.fDbl⟩

def putAcc (vars : Vars D) (acc : Acc D) : Vars D :=
  { vars with lVal := acc.lVal, dVal := acc.dVal, fDbl := acc.fDbl }

variable (doubles)

def accDigit (acc : Acc D) (k : Nat) : Option (Acc D) :=
  (addDigit doubles ⟨acc.lVal, acc.dVal, acc.fDbl, false, 0, 0, 0⟩ k).map varsAcc

def accDigits : Acc D → Bytes → Option (Acc D)
  | acc, [] => some acc
  | acc, c :: digits => (accDigit doubles acc (digitValue c)).bind fun acc => accDigits acc digits

theorem addDigit_eq (vars : Vars D) (k : Nat) :
    addDigit doubles vars k = (accDigit doubles (varsAcc vars) k).map (putAcc vars) := by
  obtain ⟨lVal, dVal, fDbl, fDec, iDec, iDecR, iWidth⟩ := vars
  simp only [accDigit, addDigit, varsAcc]
  cases fDbl with
  | true => rfl
  | false =>
    by_cases hroom : lVal < HB_VMLONG_MAX / 10 ∨
        lVal ≤ HB_VMLONG_MAX / 10 ∧ (k : ℤ) ≤ HB_VMLONG_MAX % 10
    · simp only [Bool.false_eq_true, if_false, hroom, if_true]
      cases checked (lVal * 10 + k) <;> rfl
    · simp only [Bool.false_eq_true, if_false, hroom]
      rfl

def counted (vars : Vars D) (k : Nat) : Vars D :=
  if vars.fDec then { vars with iDec := vars.iDec + k } else { vars with iWidth := vars.iWidth + k }

theorem decimalDigits_append (vars : Vars D) (hdigits : ∀ c ∈ digits, isDigit c = true)
    (rest : Bytes) :
    decimalDigits doubles vars (digits ++ rest) =
      (accDigits doubles (varsAcc vars) digits).bind fun acc =>
        decimalDigits doubles (counted (putAcc vars acc) digits.length) rest := by
  induction digits generalizing vars with
  | nil =>
    have hsame : counted (putAcc vars (varsAcc vars)) 0 = vars := by
      obtain ⟨lVal, dVal, fDbl, fDec, iDec, iDecR, iWidth⟩ := vars
      cases fDec <;> simp [counted, putAcc, varsAcc]
    rw [accDigits, Option.bind_some, length_nil, hsame]
    rfl
  | cons c digits ih =>
    have hc := hdigits c mem_cons_self
    rw [cons_append, decimalDigits, if_pos hc, addDigit_eq, accDigits, Option.bind_map,
      Option.bind_assoc]
    congr 1
    funext acc
    have hstep := ih (counted (putAcc vars acc) 1) fun c' hc' =>
      hdigits c' (mem_cons_of_mem c hc')
    have hacc : varsAcc (counted (putAcc vars acc) 1) = acc := by
      simp only [counted]
      split <;> rfl
    have hcounted : ∀ acc', counted (putAcc (counted (putAcc vars acc) 1) acc') digits.length =
        counted (putAcc vars acc') (digits.length + 1) := by
      obtain ⟨lVal, dVal, fDbl, fDec, iDec, iDecR, iWidth⟩ := vars
      cases fDec <;> simp only [counted, putAcc] <;> simp <;> omega
    rw [hacc] at hstep
    simp only [hcounted] at hstep
    exact hstep

theorem decimalDigits_fraction (iPos : ℤ) (dec : Nat) (hdec : digits'.length = dec)
    (hdigits : ∀ c ∈ digits, isDigit c = true) (hdigits' : ∀ c ∈ digits', isDigit c = true) :
    decimalDigits doubles ⟨0, doubles.zero, false, false, 0, 0, iPos⟩
        (digits ++ fraction dec digits') =
      (accDigits doubles (Acc.start doubles) (digits ++ digits')).map fun acc =>
        ⟨acc.lVal, acc.dVal, acc.fDbl, decide (dec ≠ 0), dec, 0, iPos + digits.length⟩ := by
  rw [decimalDigits_append doubles _ hdigits]
  have happend : ∀ acc, accDigits doubles acc (digits ++ digits') =
      (accDigits doubles acc digits).bind fun acc => accDigits doubles acc digits' := by
    clear hdigits
    intro acc
    induction digits generalizing acc with
    | nil => rfl
    | cons c digits ih =>
      rw [cons_append, accDigits, accDigits, Option.bind_assoc]
      congr 1
      funext acc'
      exact ih acc'
  rw [happend, Option.map_bind]
  congr 1
  funext acc
  rcases Nat.eq_zero_or_pos dec with rfl | hpos
  · obtain rfl := length_eq_zero_iff.mp hdec
    rfl
  · have hne := hpos.ne'
    have hloop := decimalDigits_append doubles
      ⟨acc.lVal, acc.dVal, acc.fDbl, true, 0, 0, iPos + digits.length⟩ hdigits' []
    rw [append_nil] at hloop
    simp only [fraction, if_neg hne]
    change decimalDigits doubles ⟨acc.lVal, acc.dVal, acc.fDbl, false, 0, 0, iPos + digits.length⟩
      (46 :: digits') = _
    rw [decimalDigits, if_neg (by decide), if_pos ⟨rfl, Bool.false_ne_true⟩, hloop]
    rw [Function.comp_apply, Option.map_eq_bind]
    congr 1
    funext acc'
    simp [decimalDigits, counted, putAcc, hdec, hne]

theorem accDigit_zero : accDigit doubles (Acc.start doubles) 0 = some (Acc.start doubles) := by
  simp [accDigit, addDigit, Acc.start, checked, varsAcc, HB_VMLONG_MAX, HB_VMLONG_MIN]

theorem accDigits_zeros (k : Nat) (digits : Bytes) :
    accDigits doubles (Acc.start doubles) (replicate k 48 ++ digits) =
      accDigits doubles (Acc.start doubles) digits := by
  induction k with
  | zero => rfl
  | succ k ih =>
    have hzero : digitValue 48 = 0 := digitValue_digit (k := 0) (by decide)
    rw [replicate_succ, cons_append, accDigits, hzero, accDigit_zero,
      Option.bind_some, ih]

theorem accDigits_long (acc : Acc D) (v : Nat) (hdbl : acc.fDbl = false) (hval : acc.lVal = v)
    (hdigits : ∀ c ∈ digits, isDigit c = true) (hle : (valueFrom v digits : ℤ) ≤ HB_VMLONG_MAX) :
    accDigits doubles acc digits = some { acc with lVal := valueFrom v digits } := by
  induction digits generalizing acc v with
  | nil =>
    rw [accDigits, valueFrom, ← hval]
  | cons c digits ih =>
    have hgrows := le_valueFrom (v * 10 + digitValue c) digits
    rw [valueFrom] at hle ⊢
    have hadd : addDigit doubles ⟨acc.lVal, acc.dVal, acc.fDbl, false, 0, 0, 0⟩ (digitValue c) =
        some _ :=
      addDigit_long doubles hdbl hval (digitValue_lt (hdigits c mem_cons_self)) (by omega)
    rw [accDigits, accDigit, hadd, Option.map_some, Option.bind_some]
    exact ih _ _ hdbl rfl (fun c' hc' => hdigits c' (mem_cons_of_mem c hc')) hle

theorem accDigit_some (acc : Acc D) (hk : k < 10)
    (hacc : acc.fDbl = false → ∃ v : Nat, acc.lVal = v) :
    ∃ acc', accDigit doubles acc k = some acc' ∧
      (acc'.fDbl = false → ∃ v : Nat, acc'.lVal = v) := by
  cases hdbl : acc.fDbl with
  | true =>
    refine ⟨⟨acc.lVal, doubles.append acc.dVal k, acc.fDbl⟩, ?_, fun h => ?_⟩
    · simp only [accDigit, addDigit, hdbl, if_true]
      rfl
    · exact absurd (hdbl.symm.trans h) (by decide)
  | false =>
    obtain ⟨v, hlong⟩ := hacc hdbl
    rcases le_or_gt ((v * 10 + k : Nat) : ℤ) HB_VMLONG_MAX with hle | hlt
    · have hadd : addDigit doubles ⟨acc.lVal, acc.dVal, acc.fDbl, false, 0, 0, 0⟩ k = some _ :=
        addDigit_long doubles hdbl hlong hk hle
      rw [accDigit, hadd]
      exact ⟨_, rfl, fun _ => ⟨_, rfl⟩⟩
    · obtain ⟨vars', hadd, hdbl', -⟩ : ∃ vars', addDigit doubles
          ⟨acc.lVal, acc.dVal, acc.fDbl, false, 0, 0, 0⟩ k = some vars' ∧ vars'.fDbl = true ∧ _ :=
        addDigit_double doubles hdbl hlong hk hlt
      rw [accDigit, hadd]
      exact ⟨_, rfl, fun h => absurd (hdbl'.symm.trans h) (by decide)⟩

theorem accDigits_some (hdigits : ∀ c ∈ digits, isDigit c = true) (acc : Acc D)
    (hacc : acc.fDbl = false → ∃ v : Nat, acc.lVal = v) :
    ∃ acc', accDigits doubles acc digits = some acc' := by
  induction digits generalizing acc with
  | nil => exact ⟨acc, rfl⟩
  | cons c digits ih =>
    obtain ⟨acc', hstep, hacc'⟩ :=
      accDigit_some doubles acc (digitValue_lt (hdigits c mem_cons_self)) hacc
    obtain ⟨acc'', hrest⟩ := ih (fun c' hc' => hdigits c' (mem_cons_of_mem c hc')) acc' hacc'
    refine ⟨acc'', ?_⟩
    rw [accDigits, hstep, Option.bind_some, hrest]

end Digits

/-- What `hb_str2number` makes of the digits it has read. -/
def numberOf (fNeg : Bool) (dec : Nat) (acc : Acc D) : Bool × ℤ × D × Nat :=
  let dVal := if fNeg ∧ acc.fDbl then doubles.neg acc.dVal else acc.dVal
  let lVal := if fNeg ∧ ¬ acc.fDbl then -acc.lVal else acc.lVal
  let dVal := if ¬ acc.fDbl ∧ dec ≠ 0 then doubles.ofLong lVal else dVal
  (acc.fDbl || decide (dec ≠ 0), lVal, if dec ≠ 0 then doubles.scale dVal dec else dVal, dec)

/-- The number that the variables of the loop make up. -/
def finish (fNeg : Bool) (width : Vars D → Bool → ℤ → D → ℤ) (vars : Vars D) : Number D :=
  let dVal := if fNeg ∧ vars.fDbl then doubles.neg vars.dVal else vars.dVal
  let lVal := if fNeg ∧ ¬ vars.fDbl then -vars.lVal else vars.lVal
  let dVal := if ¬ vars.fDbl ∧ vars.fDec then doubles.ofLong lVal else dVal
  let fDbl := vars.fDbl || vars.fDec
  let dVal := if vars.iDec ≠ 0 then doubles.scale dVal vars.iDec else dVal
  ⟨fDbl, lVal, dVal, vars.iDec + vars.iDecR, width vars fDbl lVal dVal⟩

def parts (num : Number D) : Bool × ℤ × D × Nat := (num.fDbl, num.lVal, num.dVal, num.iDec)

theorem hb_str2number_text (blanks : Nat) (fNeg : Bool) (dec : Nat) (hdec : digits'.length = dec)
    (hdigits : ∀ c ∈ digits, isDigit c = true) (hdigits' : ∀ c ∈ digits', isDigit c = true)
    (hne : digits ≠ []) {length : Nat} (hlt : length < 2 ^ 31)
    (hlength : (replicate blanks 32 ++ ((if fNeg then [45] else []) ++
      (digits ++ fraction dec digits'))).length = length) :
    (hb_str2number doubles false (replicate blanks 32 ++ ((if fNeg then [45] else []) ++
        (digits ++ fraction dec digits'))) length).map parts =
      (accDigits doubles (Acc.start doubles) (digits ++ digits')).map
        (numberOf doubles fNeg dec) := by
  have hsize : (toInt length).toNat = length := by
    rw [toInt_of_lt hlt]
    rfl
  have hdrop : ∀ (c : UInt8) (rest : Bytes), HB_ISSPACE c = false →
      (replicate blanks 32 ++ c :: rest).dropWhile HB_ISSPACE = c :: rest := by
    intro c rest hc
    clear hlength
    induction blanks with
    | zero => exact dropWhile_cons_of_neg (by rw [hc]; decide)
    | succ blanks ih =>
      rw [replicate_succ, cons_append, dropWhile_cons_of_pos (by decide), ih]
  obtain ⟨c, ds, rfl⟩ := exists_cons_of_ne_nil hne
  have hc := hdigits c mem_cons_self
  have hc45 := (not_blank_of_isDigit hc).2
  have hc43 : c ≠ 43 := by
    rintro rfl
    exact absurd hc (by decide)
  have hfinish : ∀ (iPos : ℤ) (width : Vars D → Bool → ℤ → D → ℤ),
      ((decimalDigits doubles ⟨0, doubles.zero, false, false, 0, 0, iPos⟩
        ((c :: ds) ++ fraction dec digits')).map (finish doubles fNeg width)).map parts =
      (accDigits doubles (Acc.start doubles) ((c :: ds) ++ digits')).map
        (numberOf doubles fNeg dec) := by
    intro iPos width
    rw [decimalDigits_fraction doubles iPos dec hdec hdigits hdigits', Option.map_map,
      Option.map_map]
    refine congrArg (fun f => Option.map f _) (funext fun acc => ?_)
    simp only [Function.comp_apply, parts, numberOf, finish, decide_eq_true_eq, Nat.add_zero]
  rw [hb_str2number, hsize, take_of_length_le (le_of_eq hlength)]
  cases fNeg with
  | true =>
    rw [if_pos rfl, cons_append, nil_append, hdrop 45 _ (by decide)]
    exact hfinish _ _
  | false =>
    have h45 : ¬ (some c = some (45 : UInt8)) := fun h => hc45 (Option.some.inj h)
    have h43 : ¬ (some c = some (43 : UInt8)) := fun h => hc43 (Option.some.inj h)
    rw [if_neg Bool.false_ne_true, nil_append, cons_append,
      hdrop c _ (isSpace_of_isDigit hc)]
    simp only [head?_cons, h45, h43, or_self, if_false, false_and, decide_false,
      Bool.false_eq_true]
    exact hfinish _ _

section Keys

variable {dec : Nat} {n : ℤ}

def allDigits (dec : Nat) (n : ℤ) : Bytes :=
  text (n.natAbs / 10 ^ dec) ++ field dec (n.natAbs % 10 ^ dec)

theorem isDigit_of_mem_field {width : Nat} (h : c ∈ field width k) :
    isDigit c = true := by
  induction width generalizing k with
  | zero => exact absurd h not_mem_nil
  | succ width ih =>
    rw [field, mem_append, mem_singleton] at h
    rcases h with h | rfl
    · exact ih h
    · exact isDigit_digit_mod k

theorem valueFrom_field (v width k : Nat) (hk : k < 10 ^ width) :
    valueFrom v (field width k) = v * 10 ^ width + k := by
  induction width generalizing k with
  | zero =>
    obtain rfl : k = 0 := by simpa using hk
    simp [field, valueFrom]
  | succ width ih =>
    rw [field, valueFrom_append, ih (k / 10) (by omega), valueFrom, valueFrom,
      digitValue_digit_mod, Nat.pow_succ, Nat.add_mul, Nat.mul_assoc]
    omega

theorem valueFrom_allDigits (dec : Nat) (n : ℤ) : valueFrom 0 (allDigits dec n) = n.natAbs := by
  have hpow : 0 < 10 ^ dec := Nat.pow_pos (by decide)
  rw [allDigits, valueFrom_append, valueFrom_field _ _ _ (Nat.mod_lt _ hpow)]
  change value (text _) * _ + _ = _
  rw [value_text, Nat.mul_comm, Nat.div_add_mod]

theorem isDigit_allDigits (dec : Nat) (n : ℤ) : ∀ c ∈ allDigits dec n, isDigit c = true := by
  intro c hc
  rcases mem_append.mp hc with hc | hc
  · exact isDigit_of_mem_text hc
  · exact isDigit_of_mem_field hc

theorem mirror_inverse (hc : isDigit c = true ∨ c = 46) :
    (if mirror c ≠ 46 then 48 - (mirror c - 48 + 4) else mirror c) = c ∧ mirror c ≠ 0 := by
  rcases hc with hc | rfl
  · have hall : ∀ r < 10, (if mirror (digit r) ≠ 46 then 48 - (mirror (digit r) - 48 + 4)
        else mirror (digit r)) = digit r ∧ mirror (digit r) ≠ 0 := by decide
    have hdigit : digit (digitValue c) = c := by
      have hle := hc
      simp only [isDigit, Bool.and_eq_true, decide_eq_true_eq, UInt8.le_iff_toNat_le] at hle
      have hvalue : 48 + digitValue c = c.toNat := by
        unfold digitValue
        exact Nat.add_sub_cancel' hle.1
      rw [digit, hvalue, UInt8.ofNat_toNat]
    have hdigitValue := hall (digitValue c) (digitValue_lt hc)
    rwa [hdigit] at hdigitValue
  · decide

theorem unmirror_map {bytes : Bytes} (h : ∀ c ∈ bytes, isDigit c = true ∨ c = 46) :
    (((bytes.map mirror).takeWhile (· ≠ 0)).map fun c =>
      if c ≠ 46 then 48 - (c - 48 + 4) else c) = bytes := by
  induction bytes with
  | nil => rfl
  | cons c bytes ih =>
    have hc := mirror_inverse (h c mem_cons_self)
    rw [map_cons, takeWhile_cons_of_pos (by simpa using hc.2), map_cons, hc.1,
      ih fun c' hc' => h c' (mem_cons_of_mem c hc')]

theorem fixed_chars (length dec n : Nat) : ∀ c ∈ fixed length dec n, isDigit c = true ∨ c = 46 := by
  intro c hc
  rcases mem_append.mp hc with hc | hc
  · exact .inl (isDigit_of_mem_field hc)
  · simp only [fraction] at hc
    split at hc
    · exact absurd hc not_mem_nil
    · rcases mem_cons.mp hc with rfl | hc
      · exact .inr rfl
      · exact .inl (isDigit_of_mem_field hc)

theorem hb_ntxStrToNum_key (length : UInt16) (hfits : (numText dec n).length ≤ length.toNat) :
    hb_ntxStrToNum doubles (numToKey (justified length.toNat dec n)) length =
      (hb_str2number doubles false ((if n < 0 then [45] else []) ++
        ((replicate (length.toNat - (numText dec n).length) 48 ++
          text (n.natAbs / 10 ^ dec)) ++
          fraction dec (field dec (n.natAbs % 10 ^ dec)))) length.toNat).map fun num =>
        if num.fDbl then .double num.dVal num.iWidth num.iDec else .long num.lVal length.toNat := by
  have hlength := numText_length dec n
  rw [hb_ntxStrToNum, append_assoc]
  rcases lt_or_ge n 0 with hneg | hnonneg
  · have hzeros := zeros_fixed n.natAbs dec length.toNat
      (length.toNat - (numText dec n).length + 1) (by rw [if_pos hneg] at hlength; omega)
    have hchars := fixed_chars length.toNat dec n.natAbs
    obtain ⟨rest, hcons⟩ := numToKey_neg_cons hneg hfits
    have hhead : (numToKey (justified length.toNat dec n)).head? = some (48 - 4) := by
      rw [hcons]
      rfl
    rw [if_pos hhead, numToKey_neg hneg hfits, unmirror_map hchars, ← hzeros,
      replicate_succ, if_pos hneg]
    rfl
  · have hzeros := zeros_fixed n.natAbs dec length.toNat
      (length.toNat - (numText dec n).length)
      (by rw [if_neg (not_lt.mpr hnonneg)] at hlength; omega)
    obtain ⟨c, rest, hcons, hc⟩ := numToKey_nonneg_cons hnonneg hfits
    have hhead : (numToKey (justified length.toNat dec n)).head? ≠ some (48 - 4) := by
      rw [hcons]
      intro heq
      obtain rfl : c = 48 - 4 := Option.some.inj heq
      exact absurd hc (by decide)
    rw [if_neg hhead, numToKey_nonneg hnonneg hfits, ← hzeros, if_neg (not_lt.mpr hnonneg)]
    rfl

def decimal (dec : Nat) (n : ℤ) : ℚ := n / 10 ^ dec

def NumItem.holds (item : NumItem D) (num : Bool × ℤ × D × Nat) (length : Nat) : Prop :=
  ∃ iLen, item = if num.1 then .double num.2.2.1 iLen num.2.2.2 else .long num.2.1 length

theorem numText_digits (dec : Nat) (n : ℤ) (zeros : Nat) :
    (∀ c ∈ replicate zeros 48 ++ text (n.natAbs / 10 ^ dec), isDigit c = true) ∧
      replicate zeros 48 ++ text (n.natAbs / 10 ^ dec) ≠ [] := by
  constructor
  · intro c hc
    rcases mem_append.mp hc with hc | hc
    · obtain rfl := eq_of_mem_replicate hc
      decide
    · exact isDigit_of_mem_text hc
  · intro hnil
    have htext := text_length_pos (n.natAbs / 10 ^ dec)
    rw [(append_eq_nil_iff.mp hnil).2] at htext
    exact absurd htext (Nat.lt_irrefl 0)

end Keys

section Main

variable {Item : Type} (hb_itemStrBuf : Item → Nat → Nat → Bytes)

structure Prints (pItem : Item) (length dec : UInt16) (n : ℤ) : Prop where
  fits : (numText dec.toNat n).length ≤ length.toNat
  text : hb_itemStrBuf pItem length.toNat dec.toNat = justified length.toNat dec.toNat n

variable {hb_itemStrBuf} {length dec : UInt16} {a b : Item} {n m : ℤ}

theorem key_length (h : Prints hb_itemStrBuf a length dec n) :
    (hb_ntxNumToStr hb_itemStrBuf a length dec).length = length.toNat := by
  have hroom := (fits_digits h.fits n.natAbs).1
  have hfixed : (fixed length.toNat dec.toNat n.natAbs).length = length.toNat := by
    rw [fixed, length_append, field_length, fraction_length]
    rw [fraction_length] at hroom ⊢
    omega
  rw [hb_ntxNumToStr, h.text]
  rcases lt_or_ge n 0 with hneg | hnonneg
  · rw [numToKey_neg hneg h.fits, length_map, hfixed]
  · rw [numToKey_nonneg hnonneg h.fits, hfixed]

theorem hb_ntxStrToNum_reads (h : Prints hb_itemStrBuf a length dec n) :
    ∃ acc num item, accDigits doubles (Acc.start doubles) (allDigits dec.toNat n) = some acc ∧
      hb_str2number doubles false (hb_itemStrBuf a length.toNat dec.toNat) length.toNat =
        some num ∧
      parts num = numberOf doubles (decide (n < 0)) dec.toNat acc ∧
      hb_ntxStrToNum doubles (hb_ntxNumToStr hb_itemStrBuf a length dec) length = some item ∧
      item.holds (parts num) length.toNat := by
  obtain ⟨hfits, htext⟩ := h
  have hlt : length.toNat < 2 ^ 31 := length.toNat_lt.trans (by decide)
  have hfield : ∀ c ∈ field dec.toNat (n.natAbs % 10 ^ dec.toNat), isDigit c = true :=
    fun c hc => isDigit_of_mem_field hc
  obtain ⟨acc, hacc⟩ := accDigits_some doubles (isDigit_allDigits dec.toNat n)
    (Acc.start doubles) fun _ => ⟨0, rfl⟩
  have hsign : (if decide (n < 0) = true then ([45] : Bytes) else []) =
      if n < 0 then [45] else [] := by
    simp only [decide_eq_true_eq]
  -- the text and the key have the same digits, the key with zeros before them
  have hread : ∀ blanks zeros, blanks + zeros = length.toNat - (numText dec.toNat n).length →
      (hb_str2number doubles false (replicate blanks 32 ++ ((if n < 0 then [45] else []) ++
        ((replicate zeros 48 ++ text (n.natAbs / 10 ^ dec.toNat)) ++ fraction dec.toNat
          (field dec.toNat (n.natAbs % 10 ^ dec.toNat))))) length.toNat).map parts =
      some (numberOf doubles (decide (n < 0)) dec.toNat acc) := by
    intro blanks zeros hroom
    obtain ⟨hdigits, hne⟩ := numText_digits dec.toNat n zeros
    have hlength : (replicate blanks 32 ++ ((if n < 0 then [45] else []) ++
        ((replicate zeros 48 ++ text (n.natAbs / 10 ^ dec.toNat)) ++ fraction dec.toNat
          (field dec.toNat (n.natAbs % 10 ^ dec.toNat))))).length = length.toNat := by
      have hnum := numText_length dec.toNat n
      have hsignLength : (if n < 0 then ([45] : Bytes) else []).length =
          if n < 0 then 1 else 0 := by
        split <;> rfl
      simp only [length_append, length_replicate, hsignLength, fraction_length] at hnum ⊢
      omega
    rw [← hsign] at hlength ⊢
    rw [hb_str2number_text doubles blanks (decide (n < 0)) dec.toNat (field_length _ _) hdigits
      hfield hne hlt hlength, append_assoc, accDigits_zeros]
    change (accDigits doubles (Acc.start doubles) (allDigits dec.toNat n)).map _ = _
    rw [hacc]
    rfl
  have hnum := hread (length.toNat - (numText dec.toNat n).length) 0 (Nat.add_zero _)
  have hkey := hread 0 (length.toNat - (numText dec.toNat n).length) (Nat.zero_add _)
  rw [replicate_zero, nil_append] at hnum hkey
  obtain ⟨num, hnum, hparts⟩ := Option.map_eq_some_iff.mp hnum
  obtain ⟨keyNum, hkey, hkeyParts⟩ := Option.map_eq_some_iff.mp hkey
  refine ⟨acc, num, _, hacc, ?_, hparts, ?_, keyNum.iWidth, rfl⟩
  · rw [htext, justified, numText]
    exact hnum
  · rw [hb_ntxNumToStr, htext, hb_ntxStrToNum_key doubles length hfits, hkey, Option.map_some,
      hparts, ← hkeyParts]
    rfl

theorem decimal_lt_iff (dec : Nat) (n m : ℤ) : decimal dec n < decimal dec m ↔ n < m := by
  rw [decimal, decimal, div_lt_div_iff_of_pos_right (pow_pos (by decide) dec), Int.cast_lt]

theorem decimal_inj {dec : Nat} {n m : ℤ} : decimal dec n = decimal dec m ↔ n = m := by
  have hne : ((10 : ℚ) ^ dec) ≠ 0 := pow_ne_zero dec (by decide)
  rw [decimal, decimal, div_left_inj' hne, Int.cast_inj]

theorem hb_ntxValCompare_keys (cdPage : CodePage) (fExact : Bool)
    (ha : Prints hb_itemStrBuf a length dec n) (hb : Prints hb_itemStrBuf b length dec m) :
    hb_ntxValCompare cdPage 78 (hb_ntxNumToStr hb_itemStrBuf a length dec)
      (hb_ntxNumToStr hb_itemStrBuf b length dec) fExact =
        if decimal dec.toNat n < decimal dec.toNat m then -1
        else if decimal dec.toNat n = decimal dec.toNat m then 0 else 1 := by
  rw [hb_ntxValCompare, if_neg (fun h => absurd h.1 (by decide)), key_length ha, key_length hb,
    Nat.min_self, hb_ntxNumToStr, hb_ntxNumToStr, ha.text, hb.text,
    memcmp_numToKey ha.fits hb.fits]
  simp only [decimal_lt_iff, decimal_inj]
  rcases lt_trichotomy n m with hlt | rfl | hgt
  · rw [compare_lt_iff_lt.mpr hlt, if_pos hlt]
    rfl
  · rw [compare_eq_iff_eq.mpr rfl, if_neg (lt_irrefl n), if_pos rfl]
    simp [lengthCompare]
  · rw [compare_gt_iff_gt.mpr hgt, if_neg hgt.asymm, if_neg hgt.ne']
    rfl

theorem holds_long {acc : Acc D} {item : NumItem D} {size : Nat}
    (hacc : accDigits doubles (Acc.start doubles) (allDigits dec.toNat n) = some acc)
    (hle : (n.natAbs : ℤ) ≤ HB_VMLONG_MAX)
    (h : item.holds (numberOf doubles (decide (n < 0)) dec.toNat acc) size) :
    item.holds (decide (dec.toNat ≠ 0), n, doubles.scale (doubles.ofLong n) dec.toNat, dec.toNat)
      size := by
  have hlong := accDigits_long doubles (Acc.start doubles) 0 rfl rfl
    (isDigit_allDigits dec.toNat n) (by rw [valueFrom_allDigits]; exact hle)
  rw [valueFrom_allDigits, hacc, Option.some.injEq] at hlong
  have hvalue : (if n < 0 then -|n| else |n|) = n := by
    split
    · next hneg => rw [abs_of_neg hneg, neg_neg]
    · next hnonneg => exact abs_of_nonneg (not_lt.mp hnonneg)
  obtain ⟨iLen, rfl⟩ := h
  refine ⟨iLen, ?_⟩
  rw [hlong]
  by_cases hdec : dec.toNat = 0
  · simp [numberOf, Acc.start, hdec, hvalue]
  · simp [numberOf, Acc.start, hdec, hvalue]

section Binary64

/-- `hb_numPow10`: a table up to 15, and the `pow` of the C library. -/
def hb_numPow10 (pow : Nat → Rounded 53) (nPrecision : Nat) : Rounded 53 :=
  if nPrecision < 16 then .ofInt (10 ^ nPrecision) else pow nPrecision

def binary64 (pow : Nat → Rounded 53) : Doubles (Rounded 53) where
  zero := .ofInt 0
  ofLong := .ofInt
  append d k := (d.mul (.ofInt 10)).add (.ofInt k)
  neg := .neg
  scale d iDec := d.div (hb_numPow10 pow iDec)
  isZero d := d = .ofInt 0
  length d := if .ofInt 9999999999 < d ∨ d < .ofInt (-999999999) then 20 else 10

def NumItem.value : NumItem (Rounded 53) → ℚ
  | .double dValue _ _ => dValue.value
  | .long lValue _ => lValue

variable {pow : Nat → Rounded 53} {item : NumItem (Rounded 53)} {iDec size : Nat}

theorem NumItem.holds_value (h : item.holds (decide (iDec ≠ 0), n,
      (binary64 pow).scale ((binary64 pow).ofLong n) iDec, iDec) size) :
    item.value = if iDec = 0 then (n : ℚ)
      else roundTo 53 (roundTo 53 n / (hb_numPow10 pow iDec).value) := by
  obtain ⟨iLen, rfl⟩ := h
  rcases Nat.eq_zero_or_pos iDec with rfl | hpos
  · rfl
  · rw [if_neg hpos.ne', if_pos (decide_eq_true hpos.ne')]
    rfl

theorem roundTo_integer (h : |n| ≤ 2 ^ 53) : roundTo 53 (n : ℚ) = n :=
  roundTo_of_representable (representable_intCast h (by decide))

theorem numPow10_value (h : iDec < 16) : (hb_numPow10 pow iDec).value = 10 ^ iDec := by
  have hle : (10 : ℤ) ^ iDec ≤ 10 ^ 15 := pow_le_pow_right₀ (by decide) (by omega)
  have hpos : (0 : ℤ) < 10 ^ iDec := pow_pos (by decide) iDec
  rw [hb_numPow10, if_pos h, Rounded.ofInt_value]
  · push_cast
    rfl
  · rw [abs_of_pos hpos]
    exact hle.trans (by decide)

theorem NumItem.value_nearest (hvalue : item.value = if iDec = 0 then (n : ℚ)
      else roundTo 53 (roundTo 53 n / (hb_numPow10 pow iDec).value))
    (hn : |n| ≤ 2 ^ 53) (hdec : iDec < 16) : item.value = roundTo 53 (decimal iDec n) := by
  rw [hvalue, numPow10_value hdec, roundTo_integer hn, decimal]
  split
  · next hzero => rw [hzero, pow_zero, div_one, roundTo_integer hn]
  · rfl

theorem not_representable_odd : ¬ Representable 53 (2 ^ 53 + 1) := by
  rintro ⟨m, e, hm, heq⟩
  rcases lt_or_ge 0 e with hpos | hneg
  · obtain ⟨k, rfl⟩ := Int.eq_succ_of_zero_lt hpos
    have heven : (2 ^ 53 + 1 : ℤ) = m * 2 ^ (k + 1) := by
      rw [← Nat.cast_succ, zpow_natCast] at heq
      exact_mod_cast heq
    rw [pow_succ 2 k, ← mul_assoc] at heven
    omega
  · have hone : (2 : ℚ) ^ e ≤ 1 := zpow_le_one_of_nonpos₀ one_le_two hneg
    have hle : m * (2 : ℚ) ^ e ≤ |(m : ℚ)| * 1 :=
      mul_le_mul (le_abs_self _) hone (zpow_nonneg two_pos.le e) (abs_nonneg _)
    have hlt : |(m : ℚ)| < 2 ^ 53 := by exact_mod_cast hm
    linarith

end Binary64

/-- The keys of numbers are in the order of the numbers, and each key is read as its text is: where
its digits fit a long as the integer, or that integer as a double divided by the power of ten, which
is the double nearest to the number where neither was rounded. -/
theorem ntxNumKeys (ha : Prints hb_itemStrBuf a length dec n)
    (hb : Prints hb_itemStrBuf b length dec m) :
    (∀ cdPage fExact, hb_ntxValCompare cdPage 78 (hb_ntxNumToStr hb_itemStrBuf a length dec)
      (hb_ntxNumToStr hb_itemStrBuf b length dec) fExact =
        if decimal dec.toNat n < decimal dec.toNat m then -1
        else if decimal dec.toNat n = decimal dec.toNat m then 0 else 1) ∧
    (decimal dec.toNat n = decimal dec.toNat m →
      hb_ntxNumToStr hb_itemStrBuf a length dec = hb_ntxNumToStr hb_itemStrBuf b length dec) ∧
    (∀ (D : Type) (doubles : Doubles D), ∃ num item,
      hb_str2number doubles false (hb_itemStrBuf a length.toNat dec.toNat) length.toNat = some num ∧
      hb_ntxStrToNum doubles (hb_ntxNumToStr hb_itemStrBuf a length dec) length = some item ∧
      item.holds (parts num) length.toNat) ∧
    ∀ pow, |n| ≤ HB_VMLONG_MAX → ∃ item,
      hb_ntxStrToNum (binary64 pow) (hb_ntxNumToStr hb_itemStrBuf a length dec) length =
        some item ∧
      (item.value = if dec.toNat = 0 then (n : ℚ)
        else roundTo 53 (roundTo 53 n / (hb_numPow10 pow dec.toNat).value)) ∧
      (|n| ≤ 2 ^ 53 → dec.toNat < 16 → item.value = roundTo 53 (decimal dec.toNat n)) := by
  refine ⟨fun cdPage fExact => hb_ntxValCompare_keys cdPage fExact ha hb, fun heq => ?_,
    fun D doubles => ?_, fun pow hle => ?_⟩
  · obtain rfl := decimal_inj.mp heq
    rw [hb_ntxNumToStr, hb_ntxNumToStr, ha.text, hb.text]
  · obtain ⟨acc, num, item, -, hnum, -, hitem, hholds⟩ := hb_ntxStrToNum_reads doubles ha
    exact ⟨num, item, hnum, hitem, hholds⟩
  · obtain ⟨acc, num, item, hacc, -, hparts, hitem, hholds⟩ :=
      hb_ntxStrToNum_reads (binary64 pow) ha
    rw [Int.abs_eq_natAbs] at hle
    have hvalue := NumItem.holds_value (holds_long (binary64 pow) hacc hle (hparts ▸ hholds))
    exact ⟨item, hitem, hvalue, NumItem.value_nearest hvalue⟩

/-- The numbers -1.50 and 0.25. -/
theorem ntxNumKeys_two :
    hb_ntxNumToStr (fun n length dec => justified length dec n) (-150) 6 2 =
      [44, 44, 43, 46, 39, 44] ∧
    hb_ntxValCompare ⟨true, fun _ _ => 0⟩ 78
      (hb_ntxNumToStr (fun n length dec => justified length dec n) (-150) 6 2)
      (hb_ntxNumToStr (fun n length dec => justified length dec n) 25 6 2) true = -1 ∧
    ∃ item, hb_ntxStrToNum (binary64 fun _ => .ofInt 0)
        (hb_ntxNumToStr (fun n length dec => justified length dec n) (-150) 6 2) 6 = some item ∧
      item.value = -3 / 2 := by
  have ha : Prints (fun n length dec => justified length dec n) (-150 : ℤ) 6 2 (-150) :=
    ⟨by decide +kernel, rfl⟩
  have hb : Prints (fun n length dec => justified length dec n) (25 : ℤ) 6 2 25 :=
    ⟨by decide +kernel, rfl⟩
  obtain ⟨horder, -, -, hdecode⟩ := ntxNumKeys ha hb
  refine ⟨by decide +kernel, ?_, ?_⟩
  · have hmain := horder ⟨true, fun _ _ => 0⟩ true
    rwa [if_pos ((decimal_lt_iff _ _ _).mpr (by decide))] at hmain
  · obtain ⟨item, hitem, -, hnearest⟩ := hdecode (fun _ => .ofInt 0) (by decide)
    refine ⟨item, hitem, (hnearest (by decide) (by decide)).trans ?_⟩
    have hhalves : decimal 2 (-150) = -3 / 2 := by norm_num [decimal]
    refine (congrArg (roundTo 53) hhalves).trans (roundTo_of_representable ⟨-3, -1, by decide, ?_⟩)
    norm_num

/-- The number 9007199254740993.00. -/
theorem decimal_rounded : ¬ ∀ (Item : Type) (hb_itemStrBuf : Item → Nat → Nat → Bytes) (a : Item)
    (length dec : UInt16) (n : ℤ), Prints hb_itemStrBuf a length dec n →
    ∀ pow, ∃ item,
      hb_ntxStrToNum (binary64 pow) (hb_ntxNumToStr hb_itemStrBuf a length dec) length =
        some item ∧ item.value = decimal dec.toNat n := by
  intro h
  have ha : Prints (fun n length dec => justified length dec n) (900719925474099300 : ℤ) 19 2
      900719925474099300 := ⟨by decide +kernel, rfl⟩
  obtain ⟨item, hitem, hexact⟩ := h _ _ _ _ _ _ ha fun _ => .ofInt 0
  obtain ⟨acc, num, item', hacc, -, hparts, hitem', hholds⟩ :=
    hb_ntxStrToNum_reads (binary64 fun _ => .ofInt 0) ha
  obtain rfl := Option.some.inj (hitem.symm.trans hitem')
  obtain ⟨iLen, rfl⟩ := holds_long (binary64 fun _ => .ofInt 0) hacc (by decide) (hparts ▸ hholds)
  refine not_representable_odd ?_
  have hvalue : (2 : ℚ) ^ 53 + 1 = decimal (2 : UInt16).toNat 900719925474099300 := by
    rw [decimal, show (2 : UInt16).toNat = 2 from rfl]
    norm_num
  rw [hvalue, ← hexact]
  exact ((binary64 fun _ => .ofInt 0).scale (.ofInt 900719925474099300) 2).representable

end Main

end Harbour.Rdd.NtxNumDecode
