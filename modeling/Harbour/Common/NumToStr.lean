import Harbour.Library.Decimal
import Mathlib.Data.List.GetD

/-!
The text of an integer in `hbstr.c`.
-/

namespace Harbour.Common.NumToStr

open Harbour.Library.Decimal List

def toInt (nSize : Nat) : ℤ := (nSize : ℤ).bmod (2 ^ 32)

def HB_VMLONG_MIN : ℤ := -2 ^ 63

def HB_VMLONG_MAX : ℤ := 2 ^ 63 - 1

/-- A negation of 64 bits, which leaves `HB_VMLONG_MIN` as it is. -/
def negate (l : ℤ) : ℤ := (-l).bmod (2 ^ 64)

def digitChar (lNumber : ℤ) : UInt8 := UInt8.ofNat (48 + lNumber.tmod 10).toNat

/-- The loop that stores the digits before `iPos`, with the position it ends at. -/
def storeDigits : (iPos : Nat) → Bytes → ℤ → Bytes × ℤ
  | 0, szBuf, _ => (szBuf, -1)
  | iPos + 1, szBuf, lNumber =>
    let szBuf := szBuf.set iPos (digitChar lNumber)
    if lNumber.tdiv 10 = 0 then (szBuf, iPos) else storeDigits iPos szBuf (lNumber.tdiv 10)

def storeSign (szBuf : Bytes) (iPos : ℤ) : Bytes × ℤ :=
  (if 0 ≤ iPos - 1 then szBuf.set (iPos - 1).toNat 45 else szBuf, iPos - 1)

def fillBuffer (szBuf : Bytes) (iPos : ℤ) : Bytes × Nat :=
  if 0 < iPos then (replicate iPos.toNat 32 ++ szBuf.drop iPos.toNat, iPos.toNat)
  else if iPos < 0 then
    (replicate (szBuf.length - 1) 42 ++ szBuf.drop (szBuf.length - 1), 0)
  else (szBuf, 0)

/-- `hb_numToStr` with the place of its terminating zero. -/
def storeNumber (szBuf : Bytes) (iPos lNumber : ℤ) : Option (Bytes × Nat) :=
  if 0 ≤ iPos ∧ iPos < szBuf.length then
    let szBuf := szBuf.set iPos.toNat 0
    let fNeg := decide (lNumber < 0)
    let lNumber := if fNeg then negate lNumber else lNumber
    let (szBuf, iPos) := storeDigits iPos.toNat szBuf lNumber
    let (szBuf, iPos) := if fNeg then storeSign szBuf iPos else (szBuf, iPos)
    some (fillBuffer szBuf iPos)
  else none

/-- `hb_numToStr`: the buffer and the place of the text in it, none when it stores out of bounds. -/
def hb_numToStr (szBuf : Bytes) (lNumber : ℤ) : Option (Bytes × Nat) :=
  storeNumber szBuf (toInt szBuf.length - 1) lNumber

def stringAt (szBuf : Bytes) (iPos : Nat) : Option Bytes :=
  if 0 ∈ szBuf.drop iPos then some ((szBuf.drop iPos).takeWhile (· ≠ 0)) else none

def numToStr (szBuf : Bytes) (lNumber : ℤ) : Option Bytes :=
  (hb_numToStr szBuf lNumber).bind fun result => stringAt result.1 result.2

section Digits

def digitsOf (l : ℤ) : Bytes :=
  if _h : l.tdiv 10 = 0 then [digitChar l] else digitsOf (l.tdiv 10) ++ [digitChar l]
termination_by l.natAbs
decreasing_by
  rw [Int.natAbs_tdiv]
  have hne : l.natAbs ≠ 0 := by
    intro hzero
    exact _h (by rw [Int.natAbs_eq_zero.mp hzero]; rfl)
  exact Nat.div_lt_self (Nat.pos_of_ne_zero hne) (by decide)

variable {l : ℤ} {n : Nat} {a b : Bytes}

theorem digitsOf_last (h : l.tdiv 10 = 0) : digitsOf l = [digitChar l] := by
  rw [digitsOf, dif_pos h]

theorem digitsOf_more (h : l.tdiv 10 ≠ 0) : digitsOf l = digitsOf (l.tdiv 10) ++ [digitChar l] := by
  rw [digitsOf, dif_neg h]

theorem set_snoc (a : Bytes) (x c : UInt8) (b : Bytes) :
    (a ++ [x] ++ b).set a.length c = a ++ c :: b := by
  rw [append_assoc, set_append_right _ _ (le_refl _), Nat.sub_self]
  rfl

theorem storeDigits_fits (h : (digitsOf l).length ≤ a.length) :
    storeDigits a.length (a ++ b) l =
      (a.take (a.length - (digitsOf l).length) ++ digitsOf l ++ b,
        ((a.length - (digitsOf l).length : Nat) : ℤ)) := by
  induction a using reverseRecOn generalizing l b with
  | nil =>
    rcases eq_or_ne (l.tdiv 10) 0 with hlast | hmore
    · rw [digitsOf_last hlast] at h
      exact absurd h (by simp)
    · rw [digitsOf_more hmore] at h
      exact absurd h (by simp)
  | append_singleton a x ih =>
    rw [length_append, length_singleton, storeDigits]
    simp only [set_snoc]
    rcases eq_or_ne (l.tdiv 10) 0 with hlast | hmore
    · rw [if_pos hlast, digitsOf_last hlast]
      simp
    · rw [digitsOf_more hmore, length_append, length_singleton] at h
      rw [length_append, length_singleton] at h
      rw [if_neg hmore, ih (Nat.le_of_succ_le_succ h), digitsOf_more hmore, length_append,
        length_singleton, Nat.add_sub_add_right, take_append_of_le_length (by omega)]
      simp

theorem storeDigits_short (h : a.length < (digitsOf l).length) :
    ∃ a', a'.length = a.length ∧ storeDigits a.length (a ++ b) l = (a' ++ b, -1) := by
  induction a using reverseRecOn generalizing l b with
  | nil => exact ⟨[], rfl, rfl⟩
  | append_singleton a x ih =>
    rw [length_append, length_singleton] at h ⊢
    rw [storeDigits]
    simp only [set_snoc]
    rcases eq_or_ne (l.tdiv 10) 0 with hlast | hmore
    · rw [digitsOf_last hlast] at h
      exact absurd h (by simp)
    · rw [digitsOf_more hmore, length_append, length_singleton] at h
      obtain ⟨a', hlength, heq⟩ := ih (b := digitChar l :: b) (Nat.lt_of_succ_lt_succ h)
      refine ⟨a' ++ [digitChar l], by simp [hlength], ?_⟩
      rw [if_neg hmore, heq]
      simp

theorem digitChar_natCast (n : Nat) : digitChar n = digit (n % 10) := by
  rfl

theorem digitsOf_natCast (n : Nat) : digitsOf n = text n := by
  induction n using Nat.strongRecOn with
  | ind n ih =>
    have hdiv : (n : ℤ).tdiv 10 = ((n / 10 : Nat) : ℤ) := (Int.ofNat_tdiv n 10).symm
    rcases Nat.lt_or_ge n 10 with hn | hn
    · rw [text_of_lt hn, digitsOf_last (by rw [hdiv, Nat.div_eq_of_lt hn]; rfl),
        digitChar_natCast, Nat.mod_eq_of_lt hn]
    · rw [text_of_ge hn, digitsOf_more (by rw [hdiv]; omega), hdiv, ih (n / 10) (by omega),
        digitChar_natCast]

theorem digitsOf_neg_length (n : Nat) : (digitsOf (-n)).length = (text n).length := by
  induction n using Nat.strongRecOn with
  | ind n ih =>
    have hdiv : (-n : ℤ).tdiv 10 = -((n / 10 : Nat) : ℤ) := by
      rw [Int.neg_tdiv]
      exact congrArg Neg.neg (Int.ofNat_tdiv n 10).symm
    rcases Nat.lt_or_ge n 10 with hn | hn
    · rw [text_of_lt hn, digitsOf_last (by rw [hdiv, Nat.div_eq_of_lt hn]; rfl)]
      rfl
    · rw [text_of_ge hn, digitsOf_more (by rw [hdiv]; omega), hdiv, length_append,
        ih (n / 10) (by omega), length_append]
      rfl

theorem digitsOf_getLast? (l : ℤ) : (digitsOf l).getLast? = some (digitChar l) := by
  rcases eq_or_ne (l.tdiv 10) 0 with hlast | hmore
  · rw [digitsOf_last hlast]
    rfl
  · rw [digitsOf_more hmore, getLast?_concat]

theorem text_getLast? (n : Nat) : (text n).getLast? = some (digit (n % 10)) := by
  rw [← digitsOf_natCast, digitsOf_getLast?, digitChar_natCast]

end Digits

section Formatting

variable {szBuf a b : Bytes} {l : ℤ} {p : Nat}

def decimal (l : ℤ) : Bytes := if l < 0 then 45 :: text l.natAbs else text l.natAbs

def stored (l : ℤ) : Bytes := if l < 0 then 45 :: digitsOf (negate l) else digitsOf l

theorem set_eq_split (hp : p < szBuf.length) :
    szBuf.set p 0 = szBuf.take p ++ 0 :: szBuf.drop (p + 1) :=
  set_eq_take_append_cons_drop.trans (if_pos hp)

theorem fillBuffer_of_nonneg (a b : Bytes) :
    fillBuffer (a ++ b) a.length = (replicate a.length 32 ++ b, a.length) := by
  unfold fillBuffer
  rcases a.length.eq_zero_or_pos with hzero | hpos
  · rw [length_eq_zero_iff.mp hzero]
    rfl
  · rw [if_pos (by omega), Int.toNat_natCast, drop_left]

theorem fillBuffer_of_neg {iPos : ℤ} (hneg : iPos < 0) (szBuf : Bytes) :
    fillBuffer szBuf iPos =
      (replicate (szBuf.length - 1) 42 ++ szBuf.drop (szBuf.length - 1), 0) := by
  unfold fillBuffer
  rw [if_neg (by omega), if_pos hneg]

theorem storeSign_snoc (a : Bytes) (x : UInt8) (b : Bytes) :
    storeSign (a ++ [x] ++ b) (a.length + 1) = (a ++ 45 :: b, (a.length : ℤ)) := by
  unfold storeSign
  rw [add_sub_cancel_right, if_pos (Int.natCast_nonneg _), Int.toNat_natCast, set_snoc]

/-- The size is an `int`, and leaves `p` places before the terminating zero. -/
structure Sized (szBuf : Bytes) (p : Nat) : Prop where
  lt : p < szBuf.length
  size : toInt szBuf.length - 1 = p

theorem hb_numToStr_of_nonneg (h : Sized szBuf p) (hl : 0 ≤ l) :
    hb_numToStr szBuf l =
      some (fillBuffer (storeDigits p (szBuf.take p ++ 0 :: szBuf.drop (p + 1)) l).1
        (storeDigits p (szBuf.take p ++ 0 :: szBuf.drop (p + 1)) l).2) := by
  unfold hb_numToStr
  rw [h.size]
  unfold storeNumber
  rw [if_pos ⟨Int.natCast_nonneg p, Int.ofNat_lt.mpr h.lt⟩]
  simp only [Int.toNat_natCast, set_eq_split h.lt, decide_eq_false (not_lt.mpr hl),
    Bool.false_eq_true, if_false]

theorem hb_numToStr_of_neg (h : Sized szBuf p) (hl : l < 0) :
    hb_numToStr szBuf l =
      let digits := storeDigits p (szBuf.take p ++ 0 :: szBuf.drop (p + 1)) (negate l)
      let signed := storeSign digits.1 digits.2
      some (fillBuffer signed.1 signed.2) := by
  unfold hb_numToStr
  rw [h.size]
  unfold storeNumber
  rw [if_pos ⟨Int.natCast_nonneg p, Int.ofNat_lt.mpr h.lt⟩]
  simp only [Int.toNat_natCast, set_eq_split h.lt, decide_eq_true hl, if_true]

theorem hb_numToStr_fits (h : Sized szBuf p) (hfits : (stored l).length ≤ p) :
    hb_numToStr szBuf l = some (replicate (p - (stored l).length) 32 ++
      (stored l ++ 0 :: szBuf.drop (p + 1)), p - (stored l).length) := by
  have htake : (szBuf.take p).length = p := length_take_of_le h.lt.le
  unfold stored at hfits ⊢
  rcases lt_or_ge l 0 with hl | hl
  · rw [if_pos hl, length_cons] at hfits ⊢
    rw [hb_numToStr_of_neg h hl]
    have hstore := storeDigits_fits (l := negate l) (a := szBuf.take p)
      (b := 0 :: szBuf.drop (p + 1)) (by omega)
    rw [htake, take_take] at hstore
    obtain ⟨k, hk⟩ : ∃ k, p - (digitsOf (negate l)).length = k + 1 :=
      ⟨p - (digitsOf (negate l)).length - 1, by omega⟩
    have hk' : p - ((digitsOf (negate l)).length + 1) = k := by omega
    have hsplit : szBuf.take (min (k + 1) p) = szBuf.take k ++ [szBuf.getD k 0] := by
      rw [Nat.min_eq_left (by omega), take_add_one, getD_eq_getElem?_getD,
        getElem?_eq_getElem (by have := h.lt; omega)]
      rfl
    have hlength : (szBuf.take k).length = k := length_take_of_le (by have := h.lt; omega)
    have hsign := storeSign_snoc (szBuf.take k) (szBuf.getD k 0)
    have hfill := fillBuffer_of_nonneg (szBuf.take k)
    rw [hlength] at hsign hfill
    simp only [hstore, hk, hk', hsplit, append_assoc, Nat.cast_add, Nat.cast_one] at hsign ⊢
    rw [hsign, hfill]
    rfl
  · rw [if_neg (not_lt.mpr hl)] at hfits ⊢
    rw [hb_numToStr_of_nonneg h hl]
    have hstore := storeDigits_fits (l := l) (a := szBuf.take p)
      (b := 0 :: szBuf.drop (p + 1)) (by omega)
    rw [htake, take_take, Nat.min_eq_left (Nat.sub_le _ _)] at hstore
    have hlength : (szBuf.take (p - (digitsOf l).length)).length = p - (digitsOf l).length :=
      length_take_of_le (by have := h.lt; omega)
    have hfill := fillBuffer_of_nonneg (szBuf.take (p - (digitsOf l).length))
    rw [hlength] at hfill
    rw [hstore, append_assoc, hfill]

theorem storeDigits_full (h : a.length ≤ (digitsOf l).length) :
    ∃ a' iPos, a'.length = a.length ∧ iPos ≤ 0 ∧
      storeDigits a.length (a ++ b) l = (a' ++ b, iPos) := by
  rcases h.lt_or_eq with hlt | heq
  · obtain ⟨a', hlength, hstore⟩ := storeDigits_short (b := b) hlt
    exact ⟨a', -1, hlength, by decide, hstore⟩
  · refine ⟨digitsOf l, 0, heq.symm, le_refl 0, ?_⟩
    rw [storeDigits_fits heq.ge, heq, Nat.sub_self]
    rfl

theorem fillBuffer_short {a a' b : Bytes} {iPos : ℤ} (hneg : iPos < 0)
    (hlength : a'.length = a.length) (hb : b ≠ []) :
    fillBuffer (a' ++ b) iPos = (replicate ((a ++ b).length - 1) 42 ++
      (a ++ b).drop ((a ++ b).length - 1), 0) := by
  have hpos := length_pos_iff.mpr hb
  have hlast : ∀ c : Bytes, c.length = a.length →
      (c ++ b).drop (a.length + b.length - 1) = b.drop (b.length - 1) := by
    intro c hc
    have hrest : a.length + b.length - 1 - c.length = b.length - 1 := by omega
    rw [drop_append, drop_eq_nil_of_le (by omega), hrest]
    rfl
  rw [fillBuffer_of_neg hneg, length_append, length_append, hlength, hlast a' hlength,
    hlast a rfl]

theorem hb_numToStr_short (h : Sized szBuf p) (hshort : p < (stored l).length) :
    hb_numToStr szBuf l = some (replicate (szBuf.length - 1) 42 ++
      (szBuf.set p 0).drop (szBuf.length - 1), 0) := by
  have htake : (szBuf.take p).length = p := length_take_of_le h.lt.le
  have hsplit := set_eq_split h.lt
  have hlength : (szBuf.take p ++ 0 :: szBuf.drop (p + 1)).length = szBuf.length := by
    rw [← hsplit, length_set]
  unfold stored at hshort
  rcases lt_or_ge l 0 with hl | hl
  · rw [if_pos hl, length_cons] at hshort
    obtain ⟨a', iPos, ha', hiPos, hstore⟩ := storeDigits_full (l := negate l) (a := szBuf.take p)
      (b := 0 :: szBuf.drop (p + 1)) (by omega)
    rw [htake] at hstore
    have hsign : storeSign (a' ++ 0 :: szBuf.drop (p + 1)) iPos =
        (a' ++ 0 :: szBuf.drop (p + 1), iPos - 1) := by
      unfold storeSign
      rw [if_neg (by omega)]
    rw [hb_numToStr_of_neg h hl]
    simp only [hstore, hsign]
    rw [fillBuffer_short (by omega) ha' (cons_ne_nil _ _), hlength, hsplit]
  · rw [if_neg (not_lt.mpr hl)] at hshort
    obtain ⟨a', ha', hstore⟩ := storeDigits_short (l := l) (a := szBuf.take p)
      (b := 0 :: szBuf.drop (p + 1)) (by omega)
    rw [htake] at hstore
    have hneg : (-1 : ℤ) < 0 := by decide
    rw [hb_numToStr_of_nonneg h hl, hstore, fillBuffer_short hneg ha' (cons_ne_nil _ _),
      hlength, hsplit]

theorem digitChar_ne_zero (l : ℤ) : digitChar l ≠ 0 := by
  have hlo := Int.lt_tmod_of_pos l (show (0 : ℤ) < 10 by decide)
  have hhi := Int.tmod_lt_of_pos l (show (0 : ℤ) < 10 by decide)
  unfold digitChar
  generalize l.tmod 10 = r at hlo hhi
  interval_cases r <;> decide

theorem digitsOf_ne_zero {c : UInt8} (h : c ∈ digitsOf l) : c ≠ 0 := by
  induction l using digitsOf.induct with
  | case1 l hlast =>
    rw [digitsOf_last hlast, mem_singleton] at h
    rw [h]
    exact digitChar_ne_zero l
  | case2 l hmore ih =>
    rw [digitsOf_more hmore, mem_append, mem_singleton] at h
    rcases h with h | rfl
    · exact ih h
    · exact digitChar_ne_zero l

theorem stored_ne_zero {c : UInt8} (h : c ∈ stored l) : c ≠ 0 := by
  unfold stored at h
  split_ifs at h
  · rcases mem_cons.mp h with rfl | h
    · decide
    · exact digitsOf_ne_zero h
  · exact digitsOf_ne_zero h

theorem stringAt_append {t : Bytes} (htext : ∀ c ∈ t, c ≠ 0) (before rest : Bytes) :
    stringAt (before ++ (t ++ 0 :: rest)) before.length = some t := by
  unfold stringAt
  rw [drop_left, if_pos (by simp), takeWhile_append_of_pos (by simpa using htext),
    takeWhile_cons_of_neg (by decide), append_nil]

theorem numToStr_fits (h : Sized szBuf p) (hfits : (stored l).length ≤ p) :
    numToStr szBuf l = some (stored l) := by
  have hstring := stringAt_append (fun c => stored_ne_zero (l := l))
    (replicate (p - (stored l).length) 32) (szBuf.drop (p + 1))
  rw [length_replicate] at hstring
  unfold numToStr
  rw [hb_numToStr_fits h hfits]
  exact hstring

/-- What `hb_numToStr` is to return: the decimal text, or asterisks that fill the buffer. -/
def expected (nSize : Nat) (l : ℤ) : Bytes :=
  if (decimal l).length < nSize then decimal l else replicate (nSize - 1) 42

def IsLong (l : ℤ) : Prop := HB_VMLONG_MIN ≤ l ∧ l ≤ HB_VMLONG_MAX

theorem negate_eq (h : IsLong l) (hmin : l ≠ HB_VMLONG_MIN) : negate l = -l := by
  obtain ⟨hlo, hhi⟩ := h
  have hlo := lt_of_le_of_ne hlo hmin.symm
  unfold HB_VMLONG_MIN at hlo
  unfold HB_VMLONG_MAX at hhi
  apply Int.bmod_eq_of_le <;> norm_num at * <;> omega

theorem stored_eq (h : IsLong l) (hmin : l ≠ HB_VMLONG_MIN) : stored l = decimal l := by
  unfold stored decimal
  split_ifs with hneg
  · have habs : -l = (l.natAbs : ℤ) := by omega
    rw [negate_eq h hmin, habs, digitsOf_natCast]
  · have habs : l = (l.natAbs : ℤ) := by omega
    conv_lhs => rw [habs, digitsOf_natCast]

theorem stored_min_eq : stored HB_VMLONG_MIN = 45 :: digitsOf (-(2 ^ 63 : Nat)) := by
  have hneg : HB_VMLONG_MIN < 0 := by decide
  have hnegate : negate HB_VMLONG_MIN = -(2 ^ 63 : Nat) := by decide
  unfold stored
  rw [if_pos hneg, hnegate]

theorem decimal_min_eq : decimal HB_VMLONG_MIN = 45 :: text (2 ^ 63) := by
  rfl

theorem stored_length (h : IsLong l) : (stored l).length = (decimal l).length := by
  rcases eq_or_ne l HB_VMLONG_MIN with rfl | hmin
  · rw [stored_min_eq, decimal_min_eq, length_cons, length_cons, digitsOf_neg_length]
  · rw [stored_eq h hmin]

theorem stored_min : stored HB_VMLONG_MIN ≠ decimal HB_VMLONG_MIN := by
  intro h
  have hlast := congrArg getLast? (List.cons.inj h).2
  rw [digitsOf_getLast?, text_getLast?] at hlast
  exact absurd hlast (by decide)

theorem decimal_length_le (h : IsLong l) : (decimal l).length ≤ 20 := by
  have habs : l.natAbs < 10 ^ 19 := by
    obtain ⟨hlo, hhi⟩ := h
    unfold HB_VMLONG_MIN at hlo
    unfold HB_VMLONG_MAX at hhi
    omega
  have htext := length_text_le (k := 19) (by decide) habs
  unfold decimal
  split_ifs
  · rw [length_cons]
    omega
  · omega

theorem not_mem_decimal : (42 : UInt8) ∉ decimal l := by
  have htext : (42 : UInt8) ∉ text l.natAbs :=
    fun h => absurd (isDigit_of_mem_text h) (by decide)
  unfold decimal
  split_ifs
  · exact not_mem_cons_of_ne_of_not_mem (by decide) htext
  · exact htext

theorem toInt_le (n : Nat) : toInt n ≤ n := by
  unfold toInt
  rw [Int.bmod_def]
  split_ifs <;> norm_num at * <;> omega

theorem toInt_of_lt {n : Nat} (hn : n < 2 ^ 31) : toInt n = n := by
  apply Int.bmod_eq_of_le
  · norm_num
  · norm_num at hn ⊢
    omega

theorem sized_of_pos (hpos : 1 ≤ toInt szBuf.length) :
    Sized szBuf (toInt szBuf.length - 1).toNat := by
  have hle := toInt_le szBuf.length
  exact ⟨by omega, (Int.toNat_of_nonneg (by omega)).symm⟩

/-- When the size of a buffer and a number are such that `hb_numToStr` does what it should: the
size is that of an `int` and the number is not the least one, or does not fit; or the size becomes
another `int` that the text of the number fits in. -/
structure Formattable (nSize : Nat) (l : ℤ) : Prop where
  pos : 1 ≤ toInt nSize
  same : toInt nSize = nSize → l ≠ HB_VMLONG_MIN ∨ nSize ≤ (decimal l).length
  other : toInt nSize ≠ nSize → l ≠ HB_VMLONG_MIN ∧ (decimal l).length < toInt nSize

theorem Formattable.ne_min {nSize : Nat} (h : Formattable nSize l)
    (hfits : (decimal l).length < nSize) : l ≠ HB_VMLONG_MIN := by
  rcases eq_or_ne (toInt nSize) nSize with hsame | hother
  · exact (h.same hsame).resolve_right (not_le.mpr hfits)
  · exact (h.other hother).1

theorem numToStr_none (h : ¬ 1 ≤ toInt szBuf.length) : numToStr szBuf l = none := by
  have hnone : hb_numToStr szBuf l = none := by
    unfold hb_numToStr storeNumber
    rw [if_neg (by omega)]
  unfold numToStr
  rw [hnone]
  rfl

theorem numToStr_short (h : Sized szBuf p) (hshort : p < (stored l).length)
    (hlong : 1 < szBuf.length) {text : Bytes} (htext : numToStr szBuf l = some text) :
    42 ∈ text := by
  unfold numToStr at htext
  rw [hb_numToStr_short h hshort, Option.bind_some] at htext
  obtain ⟨n, hn⟩ : ∃ n, szBuf.length - 1 = n + 1 := ⟨szBuf.length - 2, by omega⟩
  unfold stringAt at htext
  split_ifs at htext with hzero
  rw [← Option.some.inj htext, hn, replicate_succ, drop_zero, cons_append,
    takeWhile_cons_of_pos (by decide)]
  exact mem_cons_self

theorem numToStr_asterisks (h : Sized szBuf p) (hshort : p < (stored l).length)
    (hsize : szBuf.length = p + 1) : numToStr szBuf l = some (replicate p 42) := by
  have hstring := stringAt_append (t := replicate p 42)
    (fun c hc => by rw [eq_of_mem_replicate hc]; decide) [] (szBuf.drop (p + 1))
  have htake : (szBuf.take p).length = p := length_take_of_le h.lt.le
  have hlast : (szBuf.set p 0).drop p = 0 :: szBuf.drop (p + 1) := by
    rw [set_eq_split h.lt]
    conv_lhs => rw [← htake, htake, drop_left' htake]
  unfold numToStr
  rw [hb_numToStr_short h hshort, hsize, Nat.add_sub_cancel, hlast]
  exact hstring

theorem numToStr_iff (h : IsLong l) :
    numToStr szBuf l = some (expected szBuf.length l) ↔ Formattable szBuf.length l := by
  rcases em (1 ≤ toInt szBuf.length) with hpos | hpos
  · have hsized := sized_of_pos hpos
    have hlength := stored_length h
    have hle := toInt_le szBuf.length
    obtain ⟨p, hp⟩ : ∃ p, p = (toInt szBuf.length - 1).toNat := ⟨_, rfl⟩
    rw [← hp] at hsized
    rcases Nat.lt_or_ge p (stored l).length with hshort | hfits
    · rcases eq_or_ne (toInt szBuf.length) szBuf.length with hsame | hother
      · -- asterisks in a buffer whose size is an `int`
        have hbuf : szBuf.length = p + 1 := by omega
        have hfull : szBuf.length ≤ (decimal l).length := by omega
        have hexpected : expected szBuf.length l = replicate p 42 := by
          unfold expected
          rw [if_neg (not_lt.mpr hfull), hbuf, Nat.add_sub_cancel]
        rw [numToStr_asterisks hsized hshort hbuf, hexpected]
        exact iff_of_true rfl ⟨hpos, fun _ => .inr hfull, fun hother => absurd hsame hother⟩
      · -- asterisks over the terminating zero
        have hlong : ¬ szBuf.length < 2 ^ 31 := fun hlt => hother (toInt_of_lt hlt)
        have hfew := decimal_length_le h
        rw [expected, if_pos (by omega)]
        apply iff_of_false
        · intro heq
          exact not_mem_decimal (numToStr_short hsized hshort (by omega) heq)
        · intro hcond
          have hroom := (hcond.other hother).2
          omega
    · have hroom : (decimal l).length < szBuf.length := by
        omega
      rw [numToStr_fits hsized hfits, expected, if_pos hroom, Option.some_inj]
      constructor
      · intro heq
        have hmin : l ≠ HB_VMLONG_MIN := by
          rintro rfl
          exact stored_min heq
        exact ⟨hpos, fun _ => .inl hmin, fun _ => ⟨hmin, by omega⟩⟩
      · exact fun hcond => stored_eq h (hcond.ne_min hroom)
  · rw [numToStr_none hpos]
    exact iff_of_false (by simp) (fun hcond => hpos hcond.pos)

end Formatting

end Harbour.Common.NumToStr
