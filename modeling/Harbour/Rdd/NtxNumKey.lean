import Mathlib.Data.Rat.Cast.Order
import Mathlib.Algebra.Order.Field.Basic
import Harbour.Common.StrToNum

/-!
The keys that an NTX index makes of numbers, and their order.
-/

namespace Harbour.Rdd.NtxNumKey

open Library.Decimal List

def memcmp : (n : Nat) → Bytes → Bytes → Ordering
  | n + 1, a :: as, b :: bs => (compare a b).then (memcmp n as bs)
  | _, _, _ => .eq

def lengthCompare (iResult : Ordering) (len1 len2 : Nat) (fExact : Bool) : ℤ :=
  match iResult with
  | .eq => if len1 > len2 then 1 else if len1 < len2 ∧ fExact then -1 else 0
  | .gt => 1
  | .lt => -1

/-- The code page of the area: whether it sorts by bytes, and `hb_cdpcmp`. -/
structure CodePage where
  isBinSort : Bool
  cdpcmp : Bytes → Bytes → ℤ

def hb_ntxValCompare (cdPage : CodePage) (KeyType : UInt8) (val1 val2 : Bytes) (fExact : Bool) :
    ℤ :=
  let iLimit := min val1.length val2.length
  if KeyType = 67 ∧ 0 < iLimit ∧ ¬ cdPage.isBinSort then -cdPage.cdpcmp val2 val1
  else lengthCompare (memcmp iLimit val1 val2) val1.length val2.length fExact

/-- `hb_ntxNumToStr`, on the text that `hb_itemStrBuf` has stored. -/
def numToKey (szBuffer : Bytes) : Bytes :=
  let blanks := (szBuffer.takeWhile (· = 32)).length
  let ptr := szBuffer.drop blanks
  let szBuffer := replicate blanks 48 ++ ptr
  if ptr.head? = some 45 then
    (szBuffer.set blanks 48).map fun c => if isDigit c then 48 - (c - 48) - 4 else c
  else szBuffer

def hb_ntxNumToStr {Item : Type} (hb_itemStrBuf : Item → Nat → Nat → Bytes) (pItem : Item)
    (length dec : UInt16) : Bytes :=
  numToKey (hb_itemStrBuf pItem length.toNat dec.toNat)

variable {c : UInt8} {m n : ℤ}

section Texts

def fraction (dec : Nat) (digits : Bytes) : Bytes := if dec = 0 then [] else 46 :: digits

def numText (dec : Nat) (n : ℤ) : Bytes :=
  (if n < 0 then [45] else []) ++
    (text (n.natAbs / 10 ^ dec) ++ fraction dec (field dec (n.natAbs % 10 ^ dec)))

def justified (length dec : Nat) (n : ℤ) : Bytes :=
  replicate (length - (numText dec n).length) 32 ++ numText dec n

def fixed (length dec n : Nat) : Bytes :=
  field (length - (fraction dec (field dec n)).length) (n / 10 ^ dec) ++
    fraction dec (field dec (n % 10 ^ dec))

/-- What a character becomes in the key of a negative number. -/
def mirror (c : UInt8) : UInt8 := if isDigit c then 48 - (c - 48) - 4 else c

variable {n m length dec : Nat}

theorem fraction_length (dec n : Nat) :
    (fraction dec (field dec n)).length = if dec = 0 then 0 else dec + 1 := by
  unfold fraction
  split
  · rfl
  · rw [length_cons, field_length]

theorem lt_pow_text (n : Nat) : n < 10 ^ (text n).length := by
  induction n using Nat.strongRecOn with
  | ind n ih =>
    rcases Nat.lt_or_ge n 10 with hn | hn
    · rw [text_of_lt hn]
      exact hn
    · have hdiv := ih (n / 10) (by omega)
      rw [text_of_ge hn, length_append, length_singleton, Nat.pow_succ]
      omega

theorem text_length_pos (n : Nat) : 0 < (text n).length := by
  rcases Nat.lt_or_ge n 10 with hn | hn
  · rw [text_of_lt hn]
    exact Nat.one_pos
  · rw [text_of_ge hn, length_append]
    exact Nat.succ_pos _

theorem zeros_text (k n : Nat) : replicate k 48 ++ text n = field (k + (text n).length) n := by
  have hpos := text_length_pos n
  have hlt : n < 10 ^ (k + (text n).length) :=
    (lt_pow_text n).trans_le (Nat.pow_le_pow_right (by decide) (by omega))
  rw [← padded_eq_field (by omega) hlt, padded, Nat.add_sub_cancel]

theorem zeros_fixed (n dec length k : Nat) (hlength : k + (text (n / 10 ^ dec)).length +
    (fraction dec (field dec n)).length = length) :
    replicate k 48 ++ (text (n / 10 ^ dec) ++ fraction dec (field dec (n % 10 ^ dec))) =
      fixed length dec n := by
  rw [fixed, ← append_assoc, zeros_text, ← hlength, Nat.add_sub_cancel]

theorem text_cons (n : Nat) : ∃ c rest, text n = c :: rest ∧ isDigit c = true := by
  have hpos := text_length_pos n
  obtain ⟨c, rest, h⟩ := exists_cons_of_length_pos hpos
  exact ⟨c, rest, h, isDigit_of_mem_text (h ▸ mem_cons_self)⟩

theorem not_blank_of_isDigit (hc : isDigit c = true) : c ≠ 32 ∧ c ≠ 45 := by
  constructor <;> rintro rfl <;> exact absurd hc (by decide)

theorem takeWhile_blanks (k : Nat) (hc : c ≠ 32) (rest : Bytes) :
    ((replicate k 32 ++ c :: rest).takeWhile (· = 32)).length = k := by
  induction k with
  | zero =>
    rw [replicate_zero, nil_append, takeWhile_cons_of_neg (by simpa using hc)]
    rfl
  | succ k ih =>
    rw [replicate_succ, cons_append, takeWhile_cons_of_pos (by decide),
      length_cons, ih]

end Texts

section KeyTexts

variable {length dec : Nat}

theorem numText_nonneg (h : 0 ≤ n) : numText dec n =
    text (n.natAbs / 10 ^ dec) ++ fraction dec (field dec (n.natAbs % 10 ^ dec)) := by
  rw [numText, if_neg (not_lt.mpr h), nil_append]

theorem numText_neg (h : n < 0) : numText dec n =
    45 :: (text (n.natAbs / 10 ^ dec) ++ fraction dec (field dec (n.natAbs % 10 ^ dec))) := by
  rw [numText, if_pos h]
  rfl

theorem numText_length (dec : Nat) (n : ℤ) : (numText dec n).length =
    (if n < 0 then 1 else 0) + (text (n.natAbs / 10 ^ dec)).length +
      (fraction dec (field dec n.natAbs)).length := by
  rw [fraction_length]
  rcases lt_or_ge n 0 with hneg | hnonneg
  · rw [numText_neg hneg, length_cons, length_append, fraction_length, if_pos hneg]
    omega
  · rw [numText_nonneg hnonneg, length_append, fraction_length, if_neg (not_lt.mpr hnonneg)]
    omega

theorem numToKey_nonneg (h : 0 ≤ n) (hfits : (numText dec n).length ≤ length) :
    numToKey (justified length dec n) = fixed length dec n.natAbs := by
  have hlength := numText_length dec n
  obtain ⟨c, rest, htext, hc⟩ := text_cons (n.natAbs / 10 ^ dec)
  have hzeros := zeros_fixed n.natAbs dec length
    (length - (numText dec n).length) (by rw [if_neg (not_lt.mpr h)] at hlength; omega)
  unfold numToKey justified
  rw [numText_nonneg h] at hzeros ⊢
  rw [htext, cons_append] at hzeros ⊢
  dsimp only
  rw [takeWhile_blanks _ (not_blank_of_isDigit hc).1, drop_left' length_replicate,
    head?_cons, if_neg (fun heq => (not_blank_of_isDigit hc).2 (Option.some.inj heq))]
  exact hzeros

theorem numToKey_neg (h : n < 0) (hfits : (numText dec n).length ≤ length) :
    numToKey (justified length dec n) = (fixed length dec n.natAbs).map mirror := by
  have hlength := numText_length dec n
  have hzeros := zeros_fixed n.natAbs dec length
    (length - (numText dec n).length + 1) (by rw [if_pos h] at hlength; omega)
  unfold numToKey justified
  rw [replicate_succ', append_assoc, singleton_append] at hzeros
  rw [← hzeros]
  rw [numText_neg h]
  dsimp only
  rw [takeWhile_blanks _ (by decide), drop_left' length_replicate, head?_cons,
    if_pos rfl, set_append_right _ _ (by rw [length_replicate]),
    length_replicate, Nat.sub_self]
  rfl

end KeyTexts

section Order

variable {length dec : Nat}

theorem memcmp_append (as as' bs bs' : Bytes) (m : Nat) (h : as.length = as'.length) :
    memcmp (as.length + m) (as ++ bs) (as' ++ bs') =
      (memcmp as.length as as').then (memcmp m bs bs') := by
  induction as generalizing as' with
  | nil =>
    obtain rfl := length_eq_zero_iff.mp h.symm
    rw [length_nil, Nat.zero_add]
    rfl
  | cons a as ih =>
    obtain ⟨a', as', rfl⟩ := exists_cons_of_length_eq_add_one h.symm
    have hstep := ih as' (Nat.succ.inj h)
    rw [length_cons, Nat.add_right_comm, cons_append, cons_append, memcmp, memcmp,
      hstep, Ordering.then_assoc]

theorem memcmp_singleton (a b : UInt8) : memcmp 1 [a] [b] = compare a b := by
  rw [memcmp, memcmp, Ordering.then_eq]
  simp

theorem compare_div_mod (b n m : Nat) :
    compare n m = (compare (n / b) (m / b)).then (compare (n % b) (m % b)) := by
  have hn := Nat.div_add_mod n b
  have hm := Nat.div_add_mod m b
  rcases Nat.lt_trichotomy (n / b) (m / b) with hlt | heq | hgt
  · have hless : n < m := by
      by_contra hge
      exact absurd (Nat.div_le_div_right (not_lt.mp hge)) (not_le.mpr hlt)
    rw [Nat.compare_eq_lt.mpr hless, Nat.compare_eq_lt.mpr hlt]
    rfl
  · rw [Nat.compare_eq_eq.mpr heq]
    rw [heq] at hn
    rcases Nat.lt_trichotomy (n % b) (m % b) with h | h | h
    · rw [Nat.compare_eq_lt.mpr h, Nat.compare_eq_lt.mpr (by omega)]
      rfl
    · rw [Nat.compare_eq_eq.mpr h, Nat.compare_eq_eq.mpr (by omega)]
      rfl
    · rw [Nat.compare_eq_gt.mpr h, Nat.compare_eq_gt.mpr (by omega)]
      rfl
  · have hless : m < n := by
      by_contra hge
      exact absurd (Nat.div_le_div_right (not_lt.mp hge)) (not_le.mpr hgt)
    rw [Nat.compare_eq_gt.mpr hless, Nat.compare_eq_gt.mpr hgt]
    rfl

/-- What a change of the characters does to the order of the digits. -/
structure Turns (g : UInt8 → UInt8) (o : Ordering → Ordering) : Prop where
  digit : ∀ r < 10, ∀ s < 10, compare (g (digit r)) (g (digit s)) = o (compare r s)
  eq : o .eq = .eq
  then_ : ∀ a b, o (a.then b) = (o a).then (o b)

theorem turns_id : Turns id id :=
  ⟨by decide, rfl, fun _ _ => rfl⟩

theorem turns_mirror : Turns mirror Ordering.swap :=
  ⟨by decide, rfl, fun a b => by cases a <;> rfl⟩

variable {g : UInt8 → UInt8} {o : Ordering → Ordering}

theorem memcmp_field (h : Turns g o) (w n m : Nat) (hn : n < 10 ^ w) (hm : m < 10 ^ w) :
    memcmp w ((field w n).map g) ((field w m).map g) = o (compare n m) := by
  induction w generalizing n m with
  | zero =>
    obtain rfl : n = 0 := by simpa using hn
    obtain rfl : m = 0 := by simpa using hm
    exact h.eq.symm
  | succ w ih =>
    have happend := memcmp_append ((field w (n / 10)).map g) ((field w (m / 10)).map g)
      [g (digit (n % 10))] [g (digit (m % 10))] 1 (by simp)
    rw [length_map, field_length] at happend
    rw [field, field, map_append, map_append, map_singleton, map_singleton,
      happend, ih _ _ (by omega) (by omega), compare_div_mod 10 n m, h.then_,
      ← h.digit _ (Nat.mod_lt _ (by decide)) _ (Nat.mod_lt _ (by decide)), memcmp_singleton]

theorem memcmp_fraction (h : Turns g o) (n m : Nat) (hn : n < 10 ^ dec) (hm : m < 10 ^ dec) :
    memcmp (fraction dec (field dec n)).length ((fraction dec (field dec n)).map g)
      ((fraction dec (field dec m)).map g) = o (compare n m) := by
  rw [fraction_length]
  unfold fraction
  by_cases hdec : dec = 0
  · subst hdec
    obtain rfl : n = 0 := by simpa using hn
    obtain rfl : m = 0 := by simpa using hm
    exact h.eq.symm
  · have hdot : compare (g 46) (g 46) = .eq := Std.ReflCmp.compare_self
    rw [if_neg hdec, if_neg hdec, if_neg hdec, map_cons, map_cons, memcmp,
      memcmp_field h dec n m hn hm, hdot]
    rfl

theorem memcmp_fixed (h : Turns g o) {n m : Nat}
    (hlength : (fraction dec (field dec n)).length ≤ length)
    (hn : n / 10 ^ dec < 10 ^ (length - (fraction dec (field dec n)).length))
    (hm : m / 10 ^ dec < 10 ^ (length - (fraction dec (field dec n)).length)) :
    memcmp length ((fixed length dec n).map g) ((fixed length dec m).map g) = o (compare n m) := by
  have hpow : 0 < 10 ^ dec := Nat.pow_pos (by decide)
  have hsame : ∀ k, (fraction dec (field dec k)).length = (fraction dec (field dec n)).length :=
    fun k => by rw [fraction_length, fraction_length]
  have happend := memcmp_append
    ((field (length - (fraction dec (field dec n)).length) (n / 10 ^ dec)).map g)
    ((field (length - (fraction dec (field dec n)).length) (m / 10 ^ dec)).map g)
    ((fraction dec (field dec (n % 10 ^ dec))).map g)
    ((fraction dec (field dec (m % 10 ^ dec))).map g) (fraction dec (field dec n)).length (by simp)
  rw [length_map, field_length, Nat.sub_add_cancel hlength] at happend
  rw [fixed, fixed, hsame m, map_append, map_append, happend, memcmp_field h _ _ _ hn hm,
    ← hsame (n % 10 ^ dec), memcmp_fraction h _ _ (Nat.mod_lt n hpow) (Nat.mod_lt m hpow),
    compare_div_mod (10 ^ dec) n m, h.then_]

theorem fits_digits (hfits : (numText dec n).length ≤ length) (k : Nat) :
    (fraction dec (field dec k)).length ≤ length ∧
      n.natAbs / 10 ^ dec < 10 ^ (length - (fraction dec (field dec k)).length) := by
  have hlength := numText_length dec n
  have hsame : (fraction dec (field dec k)).length =
      (fraction dec (field dec n.natAbs)).length := by
    rw [fraction_length, fraction_length]
  refine ⟨by omega, (lt_pow_text _).trans_le (Nat.pow_le_pow_right (by decide) (by omega))⟩

theorem numToKey_neg_cons (h : n < 0) (hfits : (numText dec n).length ≤ length) :
    ∃ rest, numToKey (justified length dec n) = 44 :: rest := by
  have hlength := numText_length dec n
  have hzeros := zeros_fixed n.natAbs dec length
    (length - (numText dec n).length + 1) (by rw [if_pos h] at hlength; omega)
  rw [numToKey_neg h hfits, ← hzeros, replicate_succ]
  exact ⟨_, rfl⟩

theorem numToKey_nonneg_cons (h : 0 ≤ n) (hfits : (numText dec n).length ≤ length) :
    ∃ c rest, numToKey (justified length dec n) = c :: rest ∧ isDigit c = true := by
  have hlength := numText_length dec n
  have hzeros := zeros_fixed n.natAbs dec length
    (length - (numText dec n).length) (by rw [if_neg (not_lt.mpr h)] at hlength; omega)
  obtain ⟨c, rest, htext, hc⟩ := text_cons (n.natAbs / 10 ^ dec)
  rw [numToKey_nonneg h hfits, ← hzeros, htext]
  cases length - (numText dec n).length with
  | zero => exact ⟨c, _, rfl, hc⟩
  | succ k => exact ⟨48, _, rfl, by decide⟩

theorem memcmp_mixed (hn : n < 0) (hm : 0 ≤ m) (hnfits : (numText dec n).length ≤ length)
    (hmfits : (numText dec m).length ≤ length) (hpos : 0 < length) :
    memcmp length (numToKey (justified length dec n)) (numToKey (justified length dec m)) = .lt ∧
      memcmp length (numToKey (justified length dec m)) (numToKey (justified length dec n)) =
        .gt := by
  obtain ⟨rest, hneg⟩ := numToKey_neg_cons hn hnfits
  obtain ⟨c, rest', hnonneg, hc⟩ := numToKey_nonneg_cons hm hmfits
  obtain ⟨length, rfl⟩ := Nat.exists_eq_add_one_of_ne_zero hpos.ne'
  have hlt : (44 : UInt8) < c := by
    simp only [isDigit, Bool.and_eq_true, decide_eq_true_eq] at hc
    exact UInt8.lt_of_lt_of_le (by decide) hc.1
  have hne : ¬ c < 44 ∧ c ≠ 44 := ⟨UInt8.not_lt.mpr (UInt8.le_of_lt hlt), (UInt8.ne_of_lt hlt).symm⟩
  have hless : compare 44 c = .lt := if_pos hlt
  have hgreater : compare c 44 = .gt := by
    change (if c < 44 then Ordering.lt else if c = 44 then .eq else .gt) = .gt
    rw [if_neg hne.1, if_neg hne.2]
  rw [hneg, hnonneg, memcmp, memcmp, hless, hgreater]
  exact ⟨rfl, rfl⟩

theorem compare_congr {k l : Nat} (hlt : n < m ↔ k < l) (heq : n = m ↔ k = l) :
    compare k l = compare n m := by
  rcases lt_trichotomy n m with h | h | h
  · rw [compare_lt_iff_lt.mpr h, Nat.compare_eq_lt.mpr (hlt.mp h)]
  · rw [compare_eq_iff_eq.mpr h, Nat.compare_eq_eq.mpr (heq.mp h)]
  · rw [compare_gt_iff_gt.mpr h, Nat.compare_eq_gt.mpr (by omega)]

theorem memcmp_numToKey (hn : (numText dec n).length ≤ length)
    (hm : (numText dec m).length ≤ length) :
    memcmp length (numToKey (justified length dec n)) (numToKey (justified length dec m)) =
      compare n m := by
  have hpos : 0 < length := by
    have hlength := numText_length dec n
    have htext := text_length_pos (n.natAbs / 10 ^ dec)
    omega
  obtain ⟨hroom, hnlt⟩ := fits_digits hn n.natAbs
  obtain ⟨-, hmlt⟩ := fits_digits hm n.natAbs
  rcases lt_or_ge n 0 with hnneg | hnnonneg <;> rcases lt_or_ge m 0 with hmneg | hmnonneg
  · rw [numToKey_neg hnneg hn, numToKey_neg hmneg hm, memcmp_fixed turns_mirror hroom hnlt hmlt]
    exact (Nat.compare_swap _ _).trans (compare_congr (by omega) (by omega))
  · rw [(memcmp_mixed hnneg hmnonneg hn hm hpos).1, compare_lt_iff_lt.mpr (by omega)]
  · rw [(memcmp_mixed hmneg hnnonneg hm hn hpos).2, compare_gt_iff_gt.mpr (by omega)]
  · have hsame := memcmp_fixed turns_id hroom hnlt hmlt
    rw [map_id, map_id] at hsame
    rw [numToKey_nonneg hnnonneg hn, numToKey_nonneg hmnonneg hm, hsame]
    exact compare_congr (by omega) (by omega)

end Order

end Harbour.Rdd.NtxNumKey
