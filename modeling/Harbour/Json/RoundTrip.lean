import Mathlib.Tactic.NormNum
import Harbour.Json.Text
import Harbour.Json.Decode

namespace Harbour.Json.RoundTrip

open Items List Encode Text Decode Vm.HashTable Rtl.Cdpapi Option
open Library.Decimal (isDigit)

variable {D : Type}

def IsWs (text : Bytes) : Prop :=
  ∀ c ∈ text, c = 0x20 ∨ c = 0x09 ∨ c = 0x0A ∨ c = 0x0D

variable {text : Bytes} {nVal : Int64} {c : UInt8}

theorem IsWs.append {text' : Bytes} (h : IsWs text) (h' : IsWs text') :
    IsWs (text ++ text') := by
  intro c hc
  rcases mem_append.mp hc with hc | hc
  · exact h c hc
  · exact h' c hc

theorem skipws_append (h : IsWs text) (rest : Bytes) :
    skipws (text ++ rest) = skipws rest := by
  induction text with
  | nil => rfl
  | cons c text ih =>
    rw [cons_append, skipws, if_pos (h c (by simp))]
    exact ih fun c hc => h c (by simp [hc])

theorem isWs_indentText (ctx : EncodeCtx) (nLevel : Nat) : IsWs (indentText ctx nLevel) := by
  intro c hc
  unfold indentText jsonCtxAddIndent at hc
  split at hc
  · simp only [nil_append, mem_replicate] at hc
    rw [hc.2]
    split <;> simp
  · cases hc

theorem isWs_lineStart {ctx : EncodeCtx} (h : ctx.iIndent = 0 ∨ IsWs ctx.szEol)
    (nLevel : Nat) : IsWs (lineStart ctx nLevel) := by
  unfold lineStart
  split
  · intro c hc
    cases hc
  · rename_i hindent
    exact (h.resolve_left hindent).append (isWs_indentText ctx nLevel)

/-! ### String literals -/

theorem hexChar_control : ∀ control : Fin 32,
    hexChar 0x30 0x30 (hexDigit (UInt8.ofNat control >>> 4))
      (hexDigit (UInt8.ofNat control &&& 0x0F)) = some (UInt16.ofNat control) := by
  decide

/-- The control characters without an escape of their own, written with their number. -/
def IsNumbered (uch : UInt8) : Prop :=
  uch < 0x20 ∧ uch ≠ 0x08 ∧ uch ≠ 0x0C ∧ uch ≠ 0x0A ∧ uch ≠ 0x0D ∧ uch ≠ 0x09

instance (uch : UInt8) : Decidable (IsNumbered uch) :=
  inferInstanceAs (Decidable (_ ∧ _))

def byteInPage (vmCdp : CodePage) (uch : UInt8) : Bytes :=
  if IsNumbered uch then cdpU16ToStr vmCdp (UInt16.ofNat uch.toNat) else [uch]

/-- The string with every numbered control character in the encoding of the page. -/
def inPage (vmCdp : CodePage) (szString : Bytes) : Bytes :=
  szString.flatMap (byteInPage vmCdp)

theorem inPage_of_keepsControls {vmCdp : CodePage} (hcdp : KeepsControls vmCdp)
    (szString : Bytes) : inPage vmCdp szString = szString := by
  have hbyte : ∀ uch, byteInPage vmCdp uch = [uch] := by
    intro uch
    unfold byteInPage
    split
    · rename_i hnumbered
      have hkept := hcdp ⟨uch.toNat, UInt8.lt_iff_toNat_lt.mp hnumbered.1⟩
      rwa [UInt8.ofNat_toNat] at hkept
    · rfl
  rw [inPage, funext hbyte, flatMap_singleton']

theorem decodeString_escape (vmCdp : CodePage) (uch : UInt8) (rest : Bytes) :
    decodeString vmCdp (jsonEscape uch ++ rest) =
      (decodeString vmCdp rest).map fun parsed =>
        (byteInPage vmCdp uch ++ parsed.1, parsed.2) := by
  unfold jsonEscape
  split_ifs with hplain h5C h22 h08 h0C h0A h0D h09
  · have hbyte : byteInPage vmCdp uch = [uch] :=
      if_neg fun hnumbered => absurd hnumbered.1 (UInt8.not_lt.mpr hplain.1)
    simp only [singleton_append, decodeString.eq_def vmCdp (_ :: _), hplain, if_false,
      if_true, hbyte]
  · subst h5C
    simp [decodeString.eq_def vmCdp (_ :: _), unescape, byteInPage, IsNumbered]
  · subst h22
    simp [decodeString.eq_def vmCdp (_ :: _), unescape, byteInPage, IsNumbered]
  · subst h08
    simp [decodeString.eq_def vmCdp (_ :: _), unescape, byteInPage, IsNumbered]
  · subst h0C
    simp [decodeString.eq_def vmCdp (_ :: _), unescape, byteInPage, IsNumbered]
  · subst h0A
    simp [decodeString.eq_def vmCdp (_ :: _), unescape, byteInPage, IsNumbered]
  · subst h0D
    simp [decodeString.eq_def vmCdp (_ :: _), unescape, byteInPage, IsNumbered]
  · subst h09
    simp [decodeString.eq_def vmCdp (_ :: _), unescape, byteInPage, IsNumbered]
  · have hlt : uch.toNat < 32 := by
      by_contra hge
      exact hplain ⟨UInt8.le_iff_toNat_le.mpr (by simpa using hge), h5C, h22⟩
    have hbyte : byteInPage vmCdp uch = cdpU16ToStr vmCdp (UInt16.ofNat uch.toNat) :=
      if_pos ⟨UInt8.lt_iff_toNat_lt.mpr hlt, h08, h0C, h0A, h0D, h09⟩
    have hchar := hexChar_control ⟨uch.toNat, hlt⟩
    rw [UInt8.ofNat_toNat] at hchar
    simp [decodeString.eq_def vmCdp (_ :: _), hchar, hbyte]

theorem decodeString_text (vmCdp : CodePage) (szString rest : Bytes) :
    decodeString vmCdp (szString.flatMap jsonEscape ++ 0x22 :: rest) =
      some (inPage vmCdp szString, rest) := by
  induction szString with
  | nil => simp [decodeString.eq_def vmCdp (_ :: _), inPage]
  | cons uch szString ih =>
    rw [flatMap_cons, append_assoc, decodeString_escape, ih]
    simp [inPage]

/-! ### Integers -/

def Delimited (rest : Bytes) : Prop :=
  ∀ c ∈ rest.head?, ¬ isDigit c ∧ c ≠ 0x2E ∧ c ≠ 0x65 ∧ c ≠ 0x45

theorem digit_cases (h : 0 ≤ nVal.toInt) :
    nVal % 10 = 0 ∨ nVal % 10 = 1 ∨ nVal % 10 = 2 ∨ nVal % 10 = 3 ∨ nVal % 10 = 4 ∨
      nVal % 10 = 5 ∨ nVal % 10 = 6 ∨ nVal % 10 = 7 ∨ nVal % 10 = 8 ∨ nVal % 10 = 9 := by
  have hmod : (nVal % 10).toInt = nVal.toInt % 10 := by
    rw [Int64.toInt_mod]
    exact Int.tmod_eq_emod_of_nonneg h
  simp only [← Int64.toInt_inj, hmod]
  simp only [Int64.reduceToInt]
  omega

theorem digit_byte (h : 0 ≤ nVal.toInt) :
    isDigit (nVal % 10 + 0x30).toInt8.toUInt8 ∧
      (nVal % 10 + 0x30).toInt8.toUInt8.toUInt64.toInt64 = nVal % 10 + 0x30 := by
  rcases digit_cases h with h | h | h | h | h | h | h | h | h | h <;> rw [h] <;> decide

theorem toInt_div_ten (nVal : Int64) : (nVal / 10).toInt = nVal.toInt.tdiv 10 := by
  rw [Int64.toInt_div_of_ne_right _ _ (by decide)]
  rfl

theorem div_ten_add_mod_ten (h : 0 ≤ nVal.toInt) :
    nVal / 10 * 10 + (nVal % 10 + 0x30) - 0x30 = nVal := by
  rw [← Int64.add_assoc, Int64.add_sub_cancel, ← Int64.toInt_inj, Int64.toInt_add,
    Int64.toInt_mul, toInt_div_ten, Int64.toInt_mod]
  have hten : (10 : Int64).toInt = 10 := rfl
  have hlt := nVal.toInt_lt
  rw [hten, Int.tdiv_eq_ediv_of_nonneg h, Int.tmod_eq_emod_of_nonneg h]
  have hquot : (nVal.toInt / 10 * 10).bmod (2 ^ 64) = nVal.toInt / 10 * 10 :=
    Int.bmod_eq_of_le (by omega) (by omega)
  rw [hquot, Int.bmod_eq_of_le (by omega) (by omega)]
  omega

theorem decodeDigits_digitLoop {slots : Nat} (hnonneg : 0 ≤ nVal.toInt)
    (hslots : nVal.toInt < 10 ^ slots) (buf : Bytes) :
    decodeDigits 0 (digitLoop slots nVal buf) = decodeDigits nVal buf := by
  induction slots generalizing nVal buf with
  | zero =>
    have hzero : nVal = 0 := by
      rw [← Int64.toInt_inj]
      change nVal.toInt = 0
      omega
    rw [hzero]
    rfl
  | succ slots ih =>
    have hstep : decodeDigits (nVal / 10) ((nVal % 10 + 0x30).toInt8.toUInt8 :: buf) =
        decodeDigits nVal buf := by
      rw [decodeDigits, if_pos (digit_byte hnonneg).1, (digit_byte hnonneg).2,
        div_ten_add_mod_ten hnonneg]
    rw [digitLoop]
    split
    · rw [ih, hstep]
      · rw [toInt_div_ten, Int.tdiv_eq_ediv_of_nonneg hnonneg]
        omega
      · rw [toInt_div_ten, Int.tdiv_eq_ediv_of_nonneg hnonneg]
        omega
    · rename_i hzero
      rw [← hstep, not_not.mp hzero]

theorem digitLoop_head (slots : Nat) (hnonneg : 0 ≤ nVal.toInt) (buf : Bytes) :
    ∃ c digits, digitLoop (slots + 1) nVal buf = c :: digits ∧ isDigit c := by
  induction slots generalizing nVal buf with
  | zero =>
    simp only [digitLoop, ite_self]
    exact ⟨_, _, rfl, (digit_byte hnonneg).1⟩
  | succ slots ih =>
    rw [digitLoop]
    split
    · apply ih
      rw [toInt_div_ten, Int.tdiv_eq_ediv_of_nonneg hnonneg]
      omega
    · exact ⟨_, _, rfl, (digit_byte hnonneg).1⟩

theorem digitLoop_append (slots : Nat) (nVal : Int64) (buf rest : Bytes) :
    digitLoop slots nVal buf ++ rest = digitLoop slots nVal (buf ++ rest) := by
  induction slots generalizing nVal buf with
  | zero => rfl
  | succ slots ih =>
    rw [digitLoop, digitLoop]
    split
    · exact ih _ _
    · rfl

theorem decodeDigits_delimited {rest : Bytes} (hrest : Delimited rest) (nValue : Int64) :
    decodeDigits nValue rest = (nValue, rest) := by
  cases rest with
  | nil => rfl
  | cons c rest =>
    rw [decodeDigits, if_neg (hrest c rfl).1]

theorem decodeNumber_integer (ops : DoubleOps D) (nValue : Int64) {szSource rest : Bytes}
    (hrest : Delimited rest)
    (hdigits : decodeDigits 0 (if szSource.head? = some 0x2D then szSource.tail
      else szSource) = (nValue, rest)) :
    decodeNumber ops szSource =
      (.numInt (if szSource.head? = some 0x2D then -nValue else nValue), rest) := by
  have hpoint : rest.head? ≠ some 0x2E := fun h => (hrest _ h).2.1 rfl
  have hexp : ¬ (rest.head? = some 0x65 ∨ rest.head? = some 0x45) := by
    rintro (h | h)
    · exact (hrest _ h).2.2.1 rfl
    · exact (hrest _ h).2.2.2 rfl
  simp only [decodeNumber, hdigits, hpoint, hexp, if_false]
  rfl

theorem decodeNumber_text (ops : DoubleOps D) (hmin : nVal ≠ Int64.minValue) {rest : Bytes}
    (hrest : Delimited rest) :
    decodeNumber ops (jsonIntText nVal ++ rest) = (.numInt nVal, rest) := by
  have hlt := nVal.toInt_lt
  unfold jsonIntText
  split
  · rename_i hneg
    have hle : nVal.toInt < 0 := by simpa using Int64.lt_iff_toInt_lt.mp hneg
    have hge := nVal.le_toInt
    have hne : nVal.toInt ≠ -2 ^ 63 := fun h => hmin (Int64.toInt_inj.mp (h.trans rfl))
    have hneg' : (-nVal).toInt = -nVal.toInt := by
      rw [Int64.toInt_neg]
      exact Int.bmod_eq_of_le (by omega) (by omega)
    rw [cons_append, digitLoop_append, nil_append,
      decodeNumber_integer ops (-nVal) hrest]
    · simp
    · rw [head?_cons, if_pos rfl, tail_cons, decodeDigits_digitLoop,
        decodeDigits_delimited hrest]
      · omega
      · rw [hneg']
        omega
  · rename_i hnonneg
    have hle : 0 ≤ nVal.toInt := by
      have := mt Int64.lt_iff_toInt_lt.mpr hnonneg
      simpa using this
    obtain ⟨c, digits, hhead, hdigit⟩ := digitLoop_head 23 hle rest
    have hsign : (digitLoop 24 nVal rest).head? ≠ some 0x2D := by
      rw [hhead, head?_cons]
      intro h
      rw [some.inj h] at hdigit
      exact absurd hdigit (by decide)
    rw [digitLoop_append, nil_append, decodeNumber_integer ops nVal hrest]
    · rw [if_neg hsign]
    · rw [if_neg hsign, decodeDigits_digitLoop hle, decodeDigits_delimited hrest]
      omega

/-! ### The keys of a decoded hash -/

section

variable (collate : Bool → Bytes → Bytes → Int)

include collate

theorem stringKeyCmp_zero (key1 key2 : Bytes) :
    stringKeyCmp collate hashFlagDefault key1 key2 = 0 ↔ key1 = key2 := by
  simp only [stringKeyCmp, hashFlagDefault, if_true]
  constructor
  · intro h
    split_ifs at h <;> first | assumption | exact absurd h (by decide)
  · rintro rfl
    simp

theorem stringKeyCmp_neg (key1 key2 : Bytes) :
    stringKeyCmp collate hashFlagDefault key1 key2 < 0 ↔
      key1.length < key2.length ∨ key1.length = key2.length ∧ key1 < key2 := by
  simp only [stringKeyCmp, hashFlagDefault, if_true]
  constructor
  · intro h
    split_ifs at h with hlt hgt hless heq
    · exact .inl hlt
    · exact absurd h (by decide)
    · exact .inr ⟨by omega, hless⟩
    · exact absurd h (by decide)
    · exact absurd h (by decide)
  · rintro (hlt | ⟨heq, hless⟩)
    · rw [if_pos hlt]
      decide
    · rw [if_neg (by omega), if_neg (by omega), if_pos hless]
      decide

theorem stringKeyCmp_pos (key1 key2 : Bytes) : 0 < stringKeyCmp collate hashFlagDefault key1 key2 ↔
      stringKeyCmp collate hashFlagDefault key2 key1 < 0 := by
  rw [stringKeyCmp_neg]
  simp only [stringKeyCmp, hashFlagDefault, if_true]
  constructor
  · intro h
    split_ifs at h with hlt hgt hless heq
    · exact absurd h (by decide)
    · exact .inl hgt
    · exact absurd h (by decide)
    · exact absurd h (by decide)
    · exact .inr ⟨by omega, Std.lt_of_le_of_ne hless (Ne.symm heq)⟩
  · rintro (hlt | ⟨heq, hless⟩)
    · rw [if_neg (by omega), if_pos hlt]
      decide
    · rw [if_neg (by omega), if_neg (by omega), if_neg (fun h => List.lt_irrefl _
        (List.lt_trans h hless)), if_neg (fun h => List.lt_irrefl _ (h ▸ hless))]
      decide

theorem stringKeyCmp_le (key1 key2 : Bytes) : stringKeyCmp collate hashFlagDefault key1 key2 ≤ 0 ↔
      key1 = key2 ∨ stringKeyCmp collate hashFlagDefault key1 key2 < 0 := by
  rw [← stringKeyCmp_zero collate]
  omega

theorem stringKeyCmp_trans {a b c : Bytes} (hab : stringKeyCmp collate hashFlagDefault a b < 0)
    (hbc : stringKeyCmp collate hashFlagDefault b c < 0) :
    stringKeyCmp collate hashFlagDefault a c < 0 := by
  rw [stringKeyCmp_neg] at hab hbc ⊢
  rcases hab with hab | ⟨hab, hab'⟩ <;> rcases hbc with hbc | ⟨hbc, hbc'⟩
  · exact .inl (by omega)
  · exact .inl (by omega)
  · exact .inl (by omega)
  · exact .inr ⟨by omega, List.lt_trans hab' hbc'⟩

theorem stringKeyCmp_order : TotalPreorder (stringKeyCmp collate hashFlagDefault) where
  swap := stringKeyCmp_pos collate
  trans := by
    intro a b c hab hbc
    rcases (stringKeyCmp_le collate a b).mp hab with rfl | hab
    · exact hbc
    · rcases (stringKeyCmp_le collate b c).mp hbc with rfl | hbc
      · exact Int.le_of_lt hab
      · exact Int.le_of_lt (stringKeyCmp_trans collate hab hbc)
  lt_trans := by
    intro a b c hab hbc
    rcases (stringKeyCmp_le collate b c).mp hbc with rfl | hbc
    · exact hab
    · exact stringKeyCmp_trans collate hab hbc

end

/-! ### Nested values -/

def DistinctKeys : Value D → Prop
  | .hash pairs => (pairs.map Prod.fst).Nodup
  | _ => True

def NotDouble : Value D → Prop
  | .double _ _ => False
  | _ => True

/-- Negating the smallest integer is the one overflow of the encoder. -/
def NotMinValue : Value D → Prop
  | .numInt nVal => nVal ≠ Int64.minValue
  | _ => True

def IsStart (c : UInt8) : Prop :=
  ¬ (c = 0x20 ∨ c = 0x09 ∨ c = 0x0A ∨ c = 0x0D) ∧ c ≠ 0x5D ∧ c ≠ 0x7D

theorem isStart_digit (h : isDigit c) : IsStart c := by
  simp only [isDigit, Bool.and_eq_true, decide_eq_true_eq, UInt8.le_iff_toNat_le] at h
  refine ⟨?_, ?_, ?_⟩
  · rintro (rfl | rfl | rfl | rfl) <;> simp at h
  · rintro rfl
    simp at h
  · rintro rfl
    simp at h

theorem jsonIntText_head (nVal : Int64) :
    ∃ c text, jsonIntText nVal = c :: text ∧ (c = 0x2D ∨ isDigit c) := by
  unfold jsonIntText
  split
  · exact ⟨_, _, rfl, .inl rfl⟩
  · rename_i hnonneg
    have hle : 0 ≤ nVal.toInt := by
      have := mt Int64.lt_iff_toInt_lt.mpr hnonneg
      simpa using this
    obtain ⟨c, digits, hhead, hdigit⟩ := digitLoop_head 23 hle []
    exact ⟨c, digits, hhead, .inr hdigit⟩

theorem jsonText_start (ctx : EncodeCtx) (nLevel : Nat) (value : Value D) :
    ∃ c text, jsonText ctx nLevel value = c :: text ∧ IsStart c := by
  have hfixed : ∀ c : UInt8, ∀ text : Bytes, IsStart c →
      ∃ c' text', c :: text = c' :: text' ∧ IsStart c' :=
    fun c text h => ⟨c, text, rfl, h⟩
  cases value with
  | numInt nVal =>
    obtain ⟨c, text, htext, rfl | hdigit⟩ := jsonIntText_head nVal
    · exact ⟨_, text, htext, by unfold IsStart; decide⟩
    · exact ⟨c, text, htext, isStart_digit hdigit⟩
  | logical value => cases value <;> exact hfixed _ _ (by unfold IsStart; decide)
  | array items => cases items <;> exact hfixed _ _ (by unfold IsStart; decide)
  | hash pairs =>
    rcases pairs with _ | ⟨⟨key, item⟩, pairs⟩ <;>
      exact hfixed _ _ (by unfold IsStart; decide)
  | _ => exact hfixed _ _ (by unfold IsStart; decide)

theorem skipws_start (h : IsStart c) (text : Bytes) :
    skipws (c :: text) = c :: text := by
  rw [skipws, if_neg h.1]

theorem delimited_ws (h : IsWs text) (rest : Bytes) (hc : Delimited (c :: rest)) :
    Delimited (text ++ c :: rest) := by
  cases text with
  | nil => exact hc
  | cons b text =>
    intro b' hb'
    cases hb'
    rcases h b (by simp) with rfl | rfl | rfl | rfl <;> decide

theorem everywhereItems_iff {p : Value D → Prop} {items : List (Value D)} :
    EverywhereItems p items ↔ ∀ item ∈ items, Everywhere p item := by
  induction items with
  | nil => simp [EverywhereItems]
  | cons item items ih => simp [EverywhereItems, ih]

theorem everywherePairs_iff {p : Value D → Prop} {pairs : List (Bytes × Value D)} :
    EverywherePairs p pairs ↔ ∀ pair ∈ pairs, Everywhere p pair.2 := by
  induction pairs with
  | nil => simp [EverywherePairs]
  | cons pair pairs ih =>
    simp [EverywherePairs, ih]

/-- The strings and the keys are the same in the encoding of the page. -/
def KeptInPage (vmCdp : CodePage) : Value D → Prop
  | .string szString => inPage vmCdp szString = szString
  | .hash pairs => ∀ pair ∈ pairs, inPage vmCdp pair.1 = pair.1
  | _ => True

section Decoder

variable (ops : DoubleOps D) (vmCdp : CodePage) (collate : Bool → Bytes → Bytes → Int)
variable (ctx : EncodeCtx)

mutual

/-- The value with its strings and keys in the encoding of the page.  The pairs are
added one after another, so that equal keys meet in one pair. -/
def valueInPage : Value D → Value D
  | .nil => .nil
  | .logical value => .logical value
  | .numInt value => .numInt value
  | .double value decimals => .double value decimals
  | .string szString => .string (inPage vmCdp szString)
  | .array items => .array (itemsInPage items)
  | .hash pairs => .hash (pairsInPage hashNew pairs).pPairs

def itemsInPage : List (Value D) → List (Value D)
  | [] => []
  | item :: items => valueInPage item :: itemsInPage items

def pairsInPage : (done : BaseHash Bytes (Value D)) → List (Bytes × Value D) →
    BaseHash Bytes (Value D)
  | done, [] => done
  | done, (key, item) :: pairs => pairsInPage
      (hashAdd (stringKeyCmp collate) done (inPage vmCdp key) (valueInPage item)) pairs

end

def Reads (value : Value D) : Prop :=
  ∀ nLevel fuel rest, (jsonText ctx nLevel value).length ≤ fuel → Delimited rest →
    jsonDecode ops vmCdp collate fuel (jsonText ctx nLevel value ++ rest) =
      some (valueInPage vmCdp collate value, rest)

variable {ops vmCdp collate ctx}

theorem reads_string (szString : Bytes) {fuel : Nat} (hfuel : 0 < fuel) (rest : Bytes) :
    jsonDecode ops vmCdp collate fuel (jsonStringText szString ++ rest) =
      some (.string (inPage vmCdp szString), rest) := by
  rcases fuel with _ | fuel
  · omega
  simp only [jsonStringText, cons_append, nil_append, append_assoc, jsonDecode,
    if_true, decodeString_text, map_some]

theorem reads_numInt (hmin : nVal ≠ Int64.minValue) :
    Reads ops vmCdp collate ctx (.numInt nVal) := by
  intro nLevel fuel rest hfuel hrest
  rw [jsonText] at hfuel ⊢
  have hnumber := decodeNumber_text ops hmin hrest
  obtain ⟨c, text, htext, hc⟩ := jsonIntText_head nVal
  rw [htext] at hfuel hnumber ⊢
  rcases fuel with _ | fuel
  · simp at hfuel
  have hquote : c ≠ 0x22 := by
    rintro rfl
    exact absurd hc (by decide)
  rw [cons_append] at hnumber ⊢
  rw [jsonDecode, if_neg hquote, if_pos hc, hnumber, valueInPage]

section

variable (hctx : ctx.iIndent = 0 ∨ IsWs ctx.szEol)

include hctx

theorem skipws_line (nLevel : Nat) (hc : ¬ (c = 0x20 ∨ c = 0x09 ∨ c = 0x0A ∨ c = 0x0D))
    (rest : Bytes) : skipws (lineStart ctx nLevel ++ c :: rest) = c :: rest := by
  rw [skipws_append (isWs_lineStart hctx nLevel), skipws, if_neg hc]

theorem skipws_jsonText (nLevel nLevel' : Nat) (value : Value D) (rest : Bytes) :
    skipws (lineStart ctx nLevel ++ (jsonText ctx nLevel' value ++ rest)) =
      jsonText ctx nLevel' value ++ rest := by
  obtain ⟨c, text, htext, hc⟩ := jsonText_start ctx nLevel' value
  rw [htext, cons_append, skipws_line hctx nLevel hc.1]

section

variable {nLevel : Nat} {item item' : Value D} {items : List (Value D)} {fuel : Nat}
  (hread : Reads ops vmCdp collate ctx item)
  (hfuel : (jsonText ctx (nLevel + 1) item).length ≤ fuel) (done : List (Value D)) (rest : Bytes)

include hread hfuel

theorem decodeItems_cons : decodeItems ops vmCdp collate (fuel + 1) done
        (jsonText ctx (nLevel + 1) item ++ (itemsText ctx nLevel (item' :: items) ++ rest)) =
      decodeItems ops vmCdp collate fuel (done ++ [valueInPage vmCdp collate item])
        (jsonText ctx (nLevel + 1) item' ++ (itemsText ctx nLevel items ++ rest)) := by
  have hcomma : ∀ text, skipws (0x2C :: text) = 0x2C :: text := fun _ => rfl
  simp only [itemsText, append_assoc, cons_append, nil_append]
  rw [decodeItems, hread _ _ _ hfuel (by intro c hc; cases hc; decide)]
  simp only [hcomma, if_true]
  rw [skipws_jsonText hctx]

theorem decodeItems_last : decodeItems ops vmCdp collate (fuel + 1) done
        (jsonText ctx (nLevel + 1) item ++ (lineStart ctx nLevel ++ 0x5D :: rest)) =
      some (.array (done ++ [valueInPage vmCdp collate item]), rest) := by
  rw [decodeItems, hread _ _ _ hfuel
    (delimited_ws (isWs_lineStart hctx nLevel) rest (by intro c hc; cases hc; decide))]
  simp only [skipws_line hctx nLevel (c := 0x5D) (by decide)]
  rfl

end

theorem decodeItems_text (nLevel : Nat) (item : Value D) (items done : List (Value D)) (fuel : Nat)
    (rest : Bytes) (hreads : ∀ value ∈ item :: items, Reads ops vmCdp collate ctx value)
    (hfuel : (jsonText ctx (nLevel + 1) item ++ itemsText ctx nLevel items).length < fuel) :
    decodeItems ops vmCdp collate fuel done
        (jsonText ctx (nLevel + 1) item ++ (itemsText ctx nLevel items ++
          (lineStart ctx nLevel ++ 0x5D :: rest))) =
      some (.array (done ++ itemsInPage vmCdp collate (item :: items)), rest) := by
  rcases fuel with _ | fuel
  · omega
  rw [length_append] at hfuel
  induction items generalizing item done fuel with
  | nil => exact decodeItems_last hctx (hreads item (by simp)) (by omega) done rest
  | cons item' items ih =>
    simp only [itemsText, length_append, length_cons] at hfuel
    rw [decodeItems_cons hctx (hreads item (by simp)) (by omega)]
    rcases fuel with _ | fuel
    · omega
    rw [ih item' _ (fun value hvalue => hreads value (by simp [hvalue])) fuel (by omega)]
    simp [itemsInPage]

theorem colonText_eq (nLevel : Nat) (value : Value D) :
    ∃ ws, IsWs ws ∧ colonText ctx nLevel value = 0x3A :: ws := by
  unfold colonText
  split_ifs
  · exact ⟨[], by simp [IsWs], rfl⟩
  · exact ⟨lineStart ctx (nLevel + 1), isWs_lineStart hctx _, rfl⟩
  · exact ⟨[0x20], by simp [IsWs], rfl⟩

end

def pairText (ctx : EncodeCtx) (nLevel : Nat) (pair : Bytes × Value D) : Bytes :=
  jsonStringText pair.1 ++ (colonText ctx nLevel pair.2 ++ jsonText ctx (nLevel + 1) pair.2)

theorem pairText_length (ctx : EncodeCtx) (nLevel : Nat) (pair : Bytes × Value D) :
    (jsonText ctx (nLevel + 1) pair.2).length + 2 ≤ (pairText ctx nLevel pair).length := by
  simp only [pairText, jsonStringText, length_append, length_singleton]
  omega

theorem pairsText_cons (nLevel : Nat) (pair : Bytes × Value D) (pairs : List (Bytes × Value D)) :
    pairsText ctx nLevel (pair :: pairs) =
      0x2C :: (lineStart ctx (nLevel + 1) ++ (pairText ctx nLevel pair ++
        pairsText ctx nLevel pairs)) := by
  simp [pairsText, pairText]

theorem skipws_pairText (hctx : ctx.iIndent = 0 ∨ IsWs ctx.szEol) (nLevel : Nat)
    (pair : Bytes × Value D) (rest : Bytes) :
    skipws (lineStart ctx (nLevel + 1) ++ (pairText ctx nLevel pair ++ rest)) =
      pairText ctx nLevel pair ++ rest :=
  skipws_line hctx (nLevel + 1) (c := 0x22) (by decide) _

section

variable (hctx : ctx.iIndent = 0 ∨ IsWs ctx.szEol)

include hctx

section

variable {nLevel fuel : Nat} {pair pair' : Bytes × Value D} {pairs : List (Bytes × Value D)}
  (hfuel : (pairText ctx nLevel pair).length ≤ fuel) (done : BaseHash Bytes (Value D))
  (rest : Bytes)

include hfuel

theorem decodePairs_pair :
    decodePairs ops vmCdp collate (fuel + 1) done (pairText ctx nLevel pair ++ rest) =
      match jsonDecode ops vmCdp collate fuel (jsonText ctx (nLevel + 1) pair.2 ++ rest) with
      | none => none
      | some (pItemValue, szSource) =>
        match skipws szSource with
        | [] => none
        | c :: rest =>
          if c = 0x2C then decodePairs ops vmCdp collate fuel
            (hashAdd (stringKeyCmp collate) done (inPage vmCdp pair.1) pItemValue) (skipws rest)
          else if c = 0x7D then
            some (.hash (hashAdd (stringKeyCmp collate) done (inPage vmCdp pair.1)
              pItemValue).pPairs, rest)
          else none := by
  obtain ⟨key, value⟩ := pair
  have hkey := pairText_length ctx nLevel (key, value)
  obtain ⟨ws, hws, hcolon⟩ := colonText_eq hctx nLevel value
  have hcolonWs : ∀ text, skipws (0x3A :: text) = 0x3A :: text := fun _ => rfl
  have hvalueWs : skipws (ws ++ (jsonText ctx (nLevel + 1) value ++ rest)) =
      jsonText ctx (nLevel + 1) value ++ rest := by
    obtain ⟨c, text', htext, hc⟩ := jsonText_start ctx (nLevel + 1) value
    rw [skipws_append hws, htext, cons_append, skipws_start hc]
  rw [pairText, append_assoc, decodePairs, reads_string key (by omega)]
  simp only [hcolon, cons_append, append_assoc, hcolonWs, if_true, hvalueWs]
  all_goals rfl

variable (hread : Reads ops vmCdp collate ctx pair.2)

include hread

theorem decodePairs_cons : decodePairs ops vmCdp collate (fuel + 1) done
        (pairText ctx nLevel pair ++ (pairsText ctx nLevel (pair' :: pairs) ++ rest)) =
      decodePairs ops vmCdp collate fuel (pairsInPage vmCdp collate done [pair])
        (pairText ctx nLevel pair' ++ (pairsText ctx nLevel pairs ++ rest)) := by
  have hlength := pairText_length ctx nLevel pair
  have hcomma : ∀ text, skipws (0x2C :: text) = 0x2C :: text := fun _ => rfl
  rw [decodePairs_pair hctx hfuel, pairsText_cons, cons_append,
    hread _ _ _ (by omega) (by intro c hc; cases hc; decide)]
  simp only [hcomma, if_true, append_assoc]
  rw [skipws_pairText hctx]
  rfl

theorem decodePairs_last : decodePairs ops vmCdp collate (fuel + 1) done
        (pairText ctx nLevel pair ++ (lineStart ctx nLevel ++ 0x7D :: rest)) =
      some (.hash (pairsInPage vmCdp collate done [pair]).pPairs, rest) := by
  have hlength := pairText_length ctx nLevel pair
  rw [decodePairs_pair hctx hfuel, hread _ _ _ (by omega)
    (delimited_ws (isWs_lineStart hctx nLevel) rest (by intro c hc; cases hc; decide))]
  simp only [skipws_line hctx nLevel (c := 0x7D) (by decide)]
  rfl

end

theorem decodePairs_text (nLevel : Nat) (pair : Bytes × Value D)
    (pairs : List (Bytes × Value D))
    (done : BaseHash Bytes (Value D)) (fuel : Nat) (rest : Bytes)
    (hreads : ∀ entry ∈ pair :: pairs, Reads ops vmCdp collate ctx entry.2)
    (hfuel : (pairText ctx nLevel pair ++ pairsText ctx nLevel pairs).length < fuel) :
    decodePairs ops vmCdp collate fuel done
        (pairText ctx nLevel pair ++ (pairsText ctx nLevel pairs ++
          (lineStart ctx nLevel ++ 0x7D :: rest))) =
      some (.hash (pairsInPage vmCdp collate done (pair :: pairs)).pPairs, rest) := by
  rcases fuel with _ | fuel
  · omega
  rw [length_append] at hfuel
  induction pairs generalizing pair done fuel with
  | nil =>
    rw [pairsText, nil_append, decodePairs_last hctx (by omega) _ _ (hreads pair (by simp))]
  | cons pair' pairs ih =>
    simp only [pairsText_cons, length_cons, length_append] at hfuel
    rw [decodePairs_cons hctx (by omega) _ _ (hreads pair (by simp))]
    rcases fuel with _ | fuel
    · omega
    rw [ih pair' _ (fun entry hentry => hreads entry (by simp [hentry])) fuel (by omega)]
    rfl

end

theorem jsonText_array (nLevel : Nat) (item : Value D) (items : List (Value D)) :
    jsonText ctx nLevel (.array (item :: items)) =
      0x5B :: (lineStart ctx (nLevel + 1) ++ (jsonText ctx (nLevel + 1) item ++
        (itemsText ctx nLevel items ++ (lineStart ctx nLevel ++ [0x5D])))) := by
  simp [jsonText]

theorem jsonText_hash (nLevel : Nat) (pair : Bytes × Value D) (pairs : List (Bytes × Value D)) :
    jsonText ctx nLevel (.hash (pair :: pairs)) =
      0x7B :: (lineStart ctx (nLevel + 1) ++ (pairText ctx nLevel pair ++
        (pairsText ctx nLevel pairs ++ (lineStart ctx nLevel ++ [0x7D])))) := by
  simp [jsonText, pairText]

section

variable (hctx : ctx.iIndent = 0 ∨ IsWs ctx.szEol) (nLevel fuel : Nat)

include hctx nLevel fuel

theorem jsonDecode_array (item : Value D) (rest : Bytes) : jsonDecode ops vmCdp collate (fuel + 1)
        (0x5B :: (lineStart ctx nLevel ++ (jsonText ctx nLevel item ++ rest))) =
      decodeItems ops vmCdp collate fuel [] (jsonText ctx nLevel item ++ rest) := by
  obtain ⟨c, text, htext, hc⟩ := jsonText_start ctx nLevel item
  have hskip := skipws_jsonText hctx nLevel nLevel item rest
  rw [htext, cons_append] at hskip ⊢
  rw [jsonDecode, hskip]
  simp [isDigit, hc.2.1]

theorem jsonDecode_hash (pair : Bytes × Value D) (rest : Bytes) :
    jsonDecode ops vmCdp collate (fuel + 1)
        (0x7B :: (lineStart ctx (nLevel + 1) ++ (pairText ctx nLevel pair ++ rest))) =
      decodePairs ops vmCdp collate fuel hashNew (pairText ctx nLevel pair ++ rest) := by
  obtain ⟨text, htext⟩ : ∃ text, pairText ctx nLevel pair = 0x22 :: text := ⟨_, rfl⟩
  have hskip := skipws_pairText hctx nLevel pair rest
  rw [htext, cons_append] at hskip ⊢
  rw [jsonDecode, hskip]
  simp [isDigit]

end

theorem reads_value (hctx : ctx.iIndent = 0 ∨ IsWs ctx.szEol) (value : Value D)
    (hdouble : Everywhere NotDouble value) (hmin : Everywhere NotMinValue value) :
    Reads ops vmCdp collate ctx value := by
  induction value using Value.inductionOn with
  | double value decimals => exact hdouble.elim
  | numInt nVal => exact reads_numInt hmin
  | nil =>
    intro nLevel fuel rest hfuel hrest
    rcases fuel with _ | fuel
    · simp [jsonText, nullText] at hfuel
    rfl
  | logical value =>
    intro nLevel fuel rest hfuel hrest
    obtain ⟨fuel, rfl⟩ : ∃ n, fuel = n + 1 := ⟨fuel - 1, by
      cases value <;> simp [jsonText, trueText, falseText] at hfuel <;> omega⟩
    cases value <;> rfl
  | string szString =>
    intro nLevel fuel rest hfuel hrest
    rw [jsonText] at hfuel ⊢
    exact reads_string szString (by simp [jsonStringText] at hfuel; omega) rest
  | array items ih =>
    intro nLevel fuel rest hfuel hrest
    simp only [Everywhere, everywhereItems_iff] at hdouble hmin
    cases items with
    | nil =>
      rcases fuel with _ | fuel
      · simp [jsonText] at hfuel
      rfl
    | cons item items =>
      rw [jsonText_array] at hfuel ⊢
      simp only [length_cons, length_append] at hfuel
      rcases fuel with _ | fuel
      · omega
      have hitems := decodeItems_text hctx nLevel item items [] fuel rest
        (fun value hvalue => ih value hvalue (hdouble.2 value hvalue) (hmin.2 value hvalue))
        (by simp only [length_append]; omega)
      simp only [cons_append, append_assoc, nil_append]
      rw [jsonDecode_array hctx]
      exact hitems
  | hash pairs ih =>
    intro nLevel fuel rest hfuel hrest
    simp only [Everywhere, everywherePairs_iff] at hdouble hmin
    rcases pairs with _ | ⟨pair, pairs⟩
    · rcases fuel with _ | fuel
      · simp [jsonText] at hfuel
      rfl
    · rw [jsonText_hash] at hfuel ⊢
      simp only [length_cons, length_append] at hfuel
      rcases fuel with _ | fuel
      · omega
      have hpairs := decodePairs_text hctx nLevel pair pairs hashNew fuel rest
        (fun pair hpair => ih pair hpair (hdouble.2 pair hpair) (hmin.2 pair hpair))
        (by simp only [length_append]; omega)
      simp only [cons_append, append_assoc, nil_append]
      rw [jsonDecode_hash hctx]
      exact hpairs

/-! ### What the page keeps -/

theorem map_eq_self {α : Type} {f : α → α} {l : List α} : l.map f = l ↔ ∀ a ∈ l, f a = a := by
  simpa using map_inj_left (l := l) (f := f) (g := id)

theorem absent_of_nodup {done : BaseHash Bytes (Value D)} (hflags : done.iFlags = hashFlagDefault)
    {key : Bytes} {keys : List Bytes} (hkeys : (done.pPairs.map Prod.fst ++ key :: keys).Nodup) :
    ∀ entry ∈ done.pPairs, stringKeyCmp collate done.iFlags entry.1 key ≠ 0 := by
  intro entry hentry hzero
  rw [hflags, stringKeyCmp_zero] at hzero
  exact (nodup_append.mp hkeys).2.2 entry.1 (mem_map_of_mem hentry) key (by simp) hzero

section

variable {done : BaseHash Bytes (Value D)} {pairs : List (Bytes × Value D)}

/-- Different keys are put behind one another, whatever they were before. -/
theorem pairsInPage_of_nodup (hdone : done.WellFormed (stringKeyCmp collate))
    (hflags : done.iFlags = hashFlagDefault)
    (hkeys : (done.pPairs.map Prod.fst ++ pairs.map fun pair => inPage vmCdp pair.1).Nodup) :
    (pairsInPage vmCdp collate done pairs).pPairs = done.pPairs ++
      pairs.map fun pair => (inPage vmCdp pair.1, valueInPage vmCdp collate pair.2) := by
  induction pairs generalizing done with
  | nil => simp [pairsInPage]
  | cons pair pairs ih =>
    obtain ⟨hadd, haddFlags, haddWf⟩ :=
      hashAdd_absent hdone (by rw [hflags]; rfl) (absent_of_nodup hflags hkeys)
        (valueInPage vmCdp collate pair.2)
    rw [pairsInPage, ih haddWf (haddFlags.trans hflags) (by simpa [hadd] using hkeys), hadd]
    simp

theorem pairsInPage_keys (hsorted : done.iFlags.resort = false) {key : Bytes}
    (h : key ∈ (pairsInPage vmCdp collate done pairs).pPairs.map Prod.fst) :
    key ∈ done.pPairs.map Prod.fst ∨ key ∈ pairs.map fun pair => inPage vmCdp pair.1 := by
  induction pairs generalizing done with
  | nil => exact .inl h
  | cons pair pairs ih =>
    obtain ⟨hkeys, haddSorted⟩ := hashAdd_keys (stringKeyCmp collate) hsorted
      (inPage vmCdp pair.1) (valueInPage vmCdp collate pair.2)
    rcases ih haddSorted h with hold | hnew
    · rcases mem_cons.mp (hkeys hold) with rfl | hdone
      · exact .inr (by simp)
      · exact .inl hdone
    · exact .inr (by simp [hnew])

/-- As many keys come back as were there only if no two of them became equal. -/
theorem pairsInPage_eq_iff (hkeys : (pairs.map Prod.fst).Nodup) :
    (pairsInPage vmCdp collate hashNew pairs).pPairs = pairs ↔
      ∀ pair ∈ pairs, inPage vmCdp pair.1 = pair.1 ∧
        valueInPage vmCdp collate pair.2 = pair.2 := by
  have hmap : (pairs.map fun pair => inPage vmCdp pair.1).Nodup →
      (pairsInPage vmCdp collate hashNew pairs).pPairs =
        pairs.map fun pair => (inPage vmCdp pair.1, valueInPage vmCdp collate pair.2) := by
    intro hnodup
    exact pairsInPage_of_nodup (hashNew_wellFormed (stringKeyCmp_order collate)) rfl
      (by simpa using hnodup)
  constructor
  · intro heq
    have hsubset : pairs.map Prod.fst ⊆ pairs.map fun pair => inPage vmCdp pair.1 := by
      intro key hkey
      rw [← heq] at hkey
      exact (pairsInPage_keys rfl hkey).resolve_left (by simp)
    have hperm : (pairs.map Prod.fst).Perm (pairs.map fun pair => inPage vmCdp pair.1) :=
      (hkeys.subperm hsubset).perm_of_length_le (by simp)
    rw [hmap (hperm.nodup_iff.mp hkeys), map_eq_self] at heq
    exact fun pair hpair => Prod.ext_iff.mp (heq pair hpair)
  · intro hkept
    have hsame : (pairs.map fun pair => inPage vmCdp pair.1) = pairs.map Prod.fst :=
      map_congr_left fun pair hpair => (hkept pair hpair).1
    rw [hmap (hsame ▸ hkeys), map_eq_self]
    exact fun pair hpair => Prod.ext_iff.mpr (hkept pair hpair)

end

theorem itemsInPage_eq (items : List (Value D)) :
    itemsInPage vmCdp collate items = items.map (valueInPage vmCdp collate) := by
  induction items with
  | nil => rfl
  | cons item items ih => rw [itemsInPage, ih, map_cons]

theorem valueInPage_eq_iff (value : Value D) (hkeys : Everywhere DistinctKeys value) :
    valueInPage vmCdp collate value = value ↔ Everywhere (KeptInPage vmCdp) value := by
  induction value using Value.inductionOn with
  | string szString => simp [valueInPage, Everywhere, KeptInPage]
  | array items ih =>
    simp only [Everywhere, everywhereItems_iff] at hkeys
    simp only [valueInPage, itemsInPage_eq, Everywhere, everywhereItems_iff, KeptInPage,
      true_and, Value.array.injEq, map_eq_self]
    exact forall₂_congr fun item hitem => ih item hitem (hkeys.2 item hitem)
  | hash pairs ih =>
    simp only [Everywhere, everywherePairs_iff] at hkeys
    simp only [valueInPage, Everywhere, everywherePairs_iff, KeptInPage, Value.hash.injEq,
      pairsInPage_eq_iff hkeys.1, forall₂_and]
    exact and_congr_right fun _ =>
      forall₂_congr fun pair hpair => ih pair hpair (hkeys.2 pair hpair)
  | _ => simp [valueInPage, Everywhere, KeptInPage]

/-! ### The smallest integer -/

variable (ops vmCdp collate ctx) in
/-- The decoder refuses the text, or stops behind its sign. -/
def Misreads (value : Value D) : Prop :=
  ∀ nLevel fuel rest, (jsonText ctx nLevel value).length ≤ fuel →
    jsonDecode ops vmCdp collate fuel (jsonText ctx nLevel value ++ rest) = none ∨
    ∃ tail, jsonDecode ops vmCdp collate fuel (jsonText ctx nLevel value ++ rest) =
      some (.numInt 0, 0x27 :: tail)

theorem jsonIntText_minValue : ∃ text,
    jsonIntText Int64.minValue = 0x2D :: 0x27 :: text :=
  ⟨(jsonIntText Int64.minValue).drop 2, by decide⟩

theorem misreads_minValue : Misreads ops vmCdp collate ctx (.numInt Int64.minValue) := by
  intro nLevel fuel rest hfuel
  obtain ⟨text, htext⟩ := jsonIntText_minValue
  simp only [jsonText, htext] at hfuel ⊢
  rcases fuel with _ | fuel
  · simp at hfuel
  exact .inr ⟨text ++ rest, by simp [jsonDecode, isDigit, decodeNumber, decodeDigits]⟩

theorem decodeItems_misread {item : Value D} (h : Misreads ops vmCdp collate ctx item)
    {nLevel fuel : Nat} (hfuel : (jsonText ctx nLevel item).length ≤ fuel)
    (done : List (Value D)) (rest : Bytes) :
    decodeItems ops vmCdp collate (fuel + 1) done (jsonText ctx nLevel item ++ rest) = none := by
  rcases h nLevel fuel rest hfuel with hnone | ⟨tail, hsome⟩
  · rw [decodeItems, hnone]
  · rw [decodeItems, hsome]
    rfl

section

variable (hctx : ctx.iIndent = 0 ∨ IsWs ctx.szEol)

include hctx

theorem decodeItems_misreads (nLevel : Nat) (item : Value D) (items done : List (Value D))
    (fuel : Nat) (rest : Bytes) (hreads : ∀ value ∈ item :: items,
      Reads ops vmCdp collate ctx value ∨ Misreads ops vmCdp collate ctx value)
    (hmisreads : ∃ value ∈ item :: items, Misreads ops vmCdp collate ctx value)
    (hfuel : (jsonText ctx (nLevel + 1) item ++ itemsText ctx nLevel items).length < fuel) :
    decodeItems ops vmCdp collate fuel done
      (jsonText ctx (nLevel + 1) item ++ (itemsText ctx nLevel items ++ rest)) = none := by
  rcases fuel with _ | fuel
  · omega
  rw [length_append] at hfuel
  by_cases hitem : Misreads ops vmCdp collate ctx item
  · exact decodeItems_misread hitem (by omega) done _
  · have hread := (hreads item (by simp)).resolve_right hitem
    rw [exists_mem_cons_iff, or_iff_right hitem] at hmisreads
    cases items with
    | nil => simp at hmisreads
    | cons item' items =>
      simp only [itemsText, length_append, length_cons] at hfuel
      rw [decodeItems_cons hctx hread (by omega)]
      exact decodeItems_misreads nLevel item' items _ fuel rest
        (fun value hvalue => hreads value (by simp [hvalue])) hmisreads
        (by simp only [length_append]; omega)

theorem decodePairs_misread {nLevel fuel : Nat} {pair : Bytes × Value D}
    (h : Misreads ops vmCdp collate ctx pair.2) (hfuel : (pairText ctx nLevel pair).length ≤ fuel)
    (done : BaseHash Bytes (Value D)) (rest : Bytes) :
    decodePairs ops vmCdp collate (fuel + 1) done (pairText ctx nLevel pair ++ rest) = none := by
  have hlength := pairText_length ctx nLevel pair
  rw [decodePairs_pair hctx hfuel]
  rcases h (nLevel + 1) fuel rest (by omega) with hnone | ⟨tail, hsome⟩
  · rw [hnone]
  · rw [hsome]
    rfl

theorem decodePairs_misreads (nLevel : Nat) (pair : Bytes × Value D)
    (pairs : List (Bytes × Value D))
    (done : BaseHash Bytes (Value D)) (fuel : Nat) (rest : Bytes)
    (hreads : ∀ entry ∈ pair :: pairs,
      Reads ops vmCdp collate ctx entry.2 ∨ Misreads ops vmCdp collate ctx entry.2)
    (hmisreads : ∃ entry ∈ pair :: pairs, Misreads ops vmCdp collate ctx entry.2)
    (hfuel : (pairText ctx nLevel pair ++ pairsText ctx nLevel pairs).length < fuel) :
    decodePairs ops vmCdp collate fuel done
      (pairText ctx nLevel pair ++ (pairsText ctx nLevel pairs ++ rest)) = none := by
  rcases fuel with _ | fuel
  · omega
  rw [length_append] at hfuel
  by_cases hpair : Misreads ops vmCdp collate ctx pair.2
  · exact decodePairs_misread hctx hpair (by omega) done _
  · have hread := (hreads pair (by simp)).resolve_right hpair
    rw [exists_mem_cons_iff, or_iff_right hpair] at hmisreads
    cases pairs with
    | nil => simp at hmisreads
    | cons pair' pairs =>
      simp only [pairsText_cons, length_append, length_cons] at hfuel
      rw [decodePairs_cons hctx (by omega) _ _ hread]
      exact decodePairs_misreads nLevel pair' pairs _ fuel rest
        (fun entry hentry => hreads entry (by simp [hentry])) hmisreads
        (by simp only [length_append]; omega)

theorem reads_or_misreads {value : Value D} (hdouble : Everywhere NotDouble value)
    (h : ¬ Everywhere NotMinValue value → Misreads ops vmCdp collate ctx value) :
    Reads ops vmCdp collate ctx value ∨ Misreads ops vmCdp collate ctx value := by
  by_cases hmin : Everywhere NotMinValue value
  · exact .inl (reads_value hctx value hdouble hmin)
  · exact .inr (h hmin)

theorem misreads_value (value : Value D)
    (hdouble : Everywhere NotDouble value) (hmin : ¬ Everywhere NotMinValue value) :
    Misreads ops vmCdp collate ctx value := by
  induction value using Value.inductionOn with
  | numInt nVal =>
    rw [not_not.mp hmin]
    exact misreads_minValue
  | array items ih =>
    intro nLevel fuel rest hfuel
    simp only [Everywhere, everywhereItems_iff] at hdouble
    simp only [Everywhere, NotMinValue, everywhereItems_iff, true_and, not_forall] at hmin
    obtain ⟨bad, hbad, hbadMin⟩ := hmin
    cases items with
    | nil => cases hbad
    | cons item items =>
      rw [jsonText_array] at hfuel ⊢
      simp only [length_cons, length_append] at hfuel
      rcases fuel with _ | fuel
      · omega
      simp only [cons_append, append_assoc]
      rw [jsonDecode_array hctx]
      exact .inl (decodeItems_misreads hctx nLevel item items [] fuel _
        (fun value hvalue => reads_or_misreads hctx (hdouble.2 value hvalue)
          (ih value hvalue (hdouble.2 value hvalue)))
        ⟨bad, hbad, ih bad hbad (hdouble.2 bad hbad) hbadMin⟩
        (by simp only [length_append]; omega))
  | hash pairs ih =>
    intro nLevel fuel rest hfuel
    simp only [Everywhere, everywherePairs_iff] at hdouble
    simp only [Everywhere, NotMinValue, everywherePairs_iff, true_and, not_forall] at hmin
    obtain ⟨bad, hbad, hbadMin⟩ := hmin
    cases pairs with
    | nil => cases hbad
    | cons pair pairs =>
      rw [jsonText_hash] at hfuel ⊢
      simp only [length_cons, length_append] at hfuel
      rcases fuel with _ | fuel
      · omega
      simp only [cons_append, append_assoc]
      rw [jsonDecode_hash hctx]
      exact .inl (decodePairs_misreads hctx nLevel pair pairs hashNew fuel _
        (fun entry hentry => reads_or_misreads hctx (hdouble.2 entry hentry)
          (ih entry hentry (hdouble.2 entry hentry)))
        ⟨bad, hbad, ih bad hbad (hdouble.2 bad hbad) hbadMin⟩
        (by simp only [length_append]; omega))
  | double value decimals => exact hdouble.elim
  | _ => exact absurd trivial hmin

end

/-! ### Encoding and decoding -/

theorem exists_of_mem_right {α β : Type} {R : α → β → Prop} {l : List α} {r : List β}
    (h : Forall₂ R l r) {b : β} (hb : b ∈ r) : ∃ a ∈ l, R a b := by
  obtain ⟨i, hi, rfl⟩ := mem_iff_getElem.mp hb
  exact ⟨l.get ⟨i, h.length_eq ▸ hi⟩, getElem_mem _, h.get (h.length_eq ▸ hi) hi⟩

theorem notDouble_of_valueOf {heap : Heap D} {depth : Nat} {item : Item D} {value : Value D}
    (h : valueOf heap depth item = some value) : Everywhere NotDouble value := by
  induction depth generalizing item value with
  | zero =>
    cases item <;> simp only [valueOf, Option.some.injEq, reduceCtorEq] at h <;>
      subst h <;> simp [Everywhere, NotDouble]
  | succ depth ih =>
    cases item with
    | container id =>
      cases id with
      | array index =>
        obtain ⟨values, rfl, hvalues⟩ := valueOf_array.mp h
        rw [Everywhere, everywhereItems_iff]
        refine ⟨trivial, fun value hvalue => ?_⟩
        obtain ⟨item, -, hitem⟩ := exists_of_mem_right hvalues hvalue
        exact ih hitem
      | hash index =>
        obtain ⟨pairs, rfl, hpairs⟩ := valueOf_hash.mp h
        rw [Everywhere, everywherePairs_iff]
        refine ⟨trivial, fun pair hpair => ?_⟩
        obtain ⟨entry, -, hentry⟩ := exists_of_mem_right hpairs hpair
        exact ih (pairValueOf_eq_some hentry).2
    | _ =>
      simp only [valueOf, Option.some.injEq, reduceCtorEq] at h <;>
        subst h <;> simp [Everywhere, NotDouble]

/-- The text of an item is decoded to its value, up to trailing white space. -/
def RoundTrips (ops : DoubleOps D) (vmCdp : CodePage) (collate : Bool → Bytes → Bytes → Int)
    (texts : ItemTexts D) (heap : Heap D) (iIndent : Int) (setEol conNewLine : Bytes)
    (item : Item D) (value : Value D) : Prop :=
  ∃ text n, jsonEncodeCP texts heap iIndent setEol conNewLine item = some text ∧
    jsonDecodeCP ops vmCdp collate text = some (value, n) ∧ IsWs (text.drop n)

theorem jsonDecodeCP_jsonText (value : Value D) (rest : Bytes) :
    jsonDecodeCP ops vmCdp collate (jsonText ctx 0 value ++ rest) =
      (jsonDecode ops vmCdp collate (2 * (jsonText ctx 0 value ++ rest).length + 2)
        (jsonText ctx 0 value ++ rest)).map
        fun parsed => (parsed.1, (jsonText ctx 0 value ++ rest).length - parsed.2.length) := by
  obtain ⟨c, text, htext, hc⟩ := jsonText_start ctx 0 value
  rw [jsonDecodeCP, htext, cons_append, skipws_start hc]

/-- A value whose text shows its own end. -/
def SelfDelimiting : Value D → Prop
  | .nil | .logical _ | .string _ | .array [] | .hash [] => True
  | _ => False

theorem reads_selfDelimiting {value : Value D} (h : SelfDelimiting value) {fuel : Nat}
    (hfuel : (jsonText ctx 0 value).length ≤ fuel) (rest : Bytes) :
    jsonDecode ops vmCdp collate fuel (jsonText ctx 0 value ++ rest) =
      some (valueInPage vmCdp collate value, rest) := by
  obtain ⟨fuel, rfl⟩ : ∃ n, fuel = n + 1 := by
    obtain ⟨c, text, htext, -⟩ := jsonText_start ctx 0 value
    exact ⟨fuel - 1, by simp [htext] at hfuel; omega⟩
  cases value with
  | nil => rfl
  | logical value => cases value <;> rfl
  | string szString =>
    exact reads_string szString (by omega) rest
  | array items =>
    cases items with
    | nil => rfl
    | cons _ _ => exact h.elim
  | hash pairs =>
    cases pairs with
    | nil => rfl
    | cons _ _ => exact h.elim
  | _ => exact h.elim

/-- With an end of line made of white space, or without indentation, exactly the
values without the smallest integer come back whose strings and keys the page keeps.
Any other end of line is left unread behind a value that shows its own end. -/
theorem roundTrips_iff (ops : DoubleOps D) (vmCdp : CodePage)
    (collate : Bool → Bytes → Bytes → Int) (texts : ItemTexts D) (heap : Heap D)
    (iIndent : Int) (setEol conNewLine : Bytes) (item : Item D) (value : Value D)
    (hvalue : Denotes heap item value) (hkeys : Everywhere DistinctKeys value) :
    (iIndent = 0 ∨ IsWs (if setEol = [] then conNewLine else setEol) →
      (RoundTrips ops vmCdp collate texts heap iIndent setEol conNewLine item value ↔
        Everywhere NotMinValue value ∧ Everywhere (KeptInPage vmCdp) value)) ∧
    (¬ (iIndent = 0 ∨ IsWs (if setEol = [] then conNewLine else setEol)) →
      SelfDelimiting value →
        ¬ RoundTrips ops vmCdp collate texts heap iIndent setEol conNewLine item value) := by
  obtain ⟨ctx, hiIndent, hszEol, htext⟩ :=
    jsonEncodeCP_text texts heap iIndent setEol conNewLine hvalue
  rw [← hszEol, ← hiIndent] at *
  have hdouble : Everywhere NotDouble value := notDouble_of_valueOf hvalue.choose_spec
  have hfuel : (jsonText ctx 0 value).length ≤
      2 * (jsonText ctx 0 value ++ lineStart ctx 0).length + 2 := by
    rw [length_append]
    omega
  have hdelimited : (ctx.iIndent = 0 ∨ IsWs ctx.szEol) → Delimited (lineStart ctx 0) := by
    intro hctx c hc
    have hws := isWs_lineStart hctx 0
    rcases hws c (mem_of_mem_head? hc) with rfl | rfl | rfl | rfl <;> decide
  refine ⟨fun hctx => ⟨?_, fun ⟨hmin, hkept⟩ => ?_⟩, fun hctx hself => ?_⟩
  · rintro ⟨text, n, hencode, hdecode, -⟩
    obtain rfl : _ = text := some.inj (htext.symm.trans hencode)
    rw [jsonDecodeCP_jsonText] at hdecode
    by_cases hmin : Everywhere NotMinValue value
    · rw [reads_value hctx value hdouble hmin 0 _ _ hfuel (hdelimited hctx), map_some] at hdecode
      exact ⟨hmin, (valueInPage_eq_iff value hkeys).mp (Prod.ext_iff.mp (some.inj hdecode)).1⟩
    · rcases misreads_value hctx value hdouble hmin 0 _ (lineStart ctx 0) hfuel with
        hnone | ⟨tail, hsome⟩
      · rw [hnone] at hdecode
        cases hdecode
      · rw [hsome] at hdecode
        cases hdecode
        have hzero : (0 : Int64) ≠ Int64.minValue := by decide
        exact absurd hzero hmin
  · refine ⟨_, (jsonText ctx 0 value).length, htext, ?_, ?_⟩
    · rw [jsonDecodeCP_jsonText,
        reads_value hctx value hdouble hmin 0 _ _ hfuel (hdelimited hctx),
        (valueInPage_eq_iff value hkeys).mpr hkept]
      simp
    · rw [drop_left]
      exact isWs_lineStart hctx 0
  · rintro ⟨text, n, hencode, hdecode, hws⟩
    obtain rfl : _ = text := some.inj (htext.symm.trans hencode)
    rw [jsonDecodeCP_jsonText, reads_selfDelimiting hself hfuel] at hdecode
    obtain rfl : (jsonText ctx 0 value).length = n := by
      simpa using congrArg (Option.map Prod.snd) hdecode
    rw [drop_left, lineStart, if_neg (fun h => hctx (.inl h))] at hws
    exact hctx (.inr fun c hc => hws c (mem_append_left _ hc))

end Decoder

/-- Doubles replaced by nothing: no double occurs in the values below. -/
def unitOps : DoubleOps Unit where
  ofMaxInt _ := ()
  one := ()
  divTen _ := ()
  addDigit _ _ _ := ()
  numExpConv _ _ := ()
  numRound _ _ := ()
  neg _ := ()

def noTexts : ItemTexts Unit where
  double _ _ := []
  date _ := []
  timestamp _ _ := []

def sampleHeap : Heap Unit where
  arrays := [[.numInt (-15), .string [0x01, 0x22], .container (.hash 0)]]
  hashes := [[(.string [0x61], .nil), (.string [0x62], .logical true)]]

def sampleValue : Value Unit :=
  .array [.numInt (-15), .string [0x01, 0x22],
    .hash [([0x61], .nil), ([0x62], .logical true)]]

def utf16leChars : Bytes → List UInt16
  | lo :: hi :: pSrc => (lo.toUInt16 ||| hi.toUInt16 <<< 8) :: utf16leChars pSrc
  | _ => []

/-- The page UTF-16LE, of two bytes for each character. -/
def utf16le : CodePage :=
  .custom (fun uc pSrc => utf16leChars (uc :: pSrc)) fun wc =>
    [wc.toUInt8, (wc >>> 8).toUInt8]

def plainHeap : Heap Unit where
  arrays := [[.string [0x48, 0x0A], .numInt 7]]
  hashes := []

theorem roundTrips_sample :
    RoundTrips unitOps .utf8 (fun _ _ _ => 0) noTexts sampleHeap 2 [] [0x0A]
      (.container (.array 0)) sampleValue ∧
    RoundTrips unitOps utf16le (fun _ _ _ => 0) noTexts plainHeap 2 [] [0x0A]
      (.container (.array 0)) (.array [.string [0x48, 0x0A], .numInt 7]) := by
  have hne : (-15 : Int64) ≠ Int64.minValue := by decide
  have hne' : (7 : Int64) ≠ Int64.minValue := by decide
  constructor
  · refine ((roundTrips_iff unitOps .utf8 (fun _ _ _ => 0) noTexts sampleHeap 2 [] [0x0A]
      (.container (.array 0)) sampleValue ⟨2, rfl⟩ ?_).1 (.inr (by simp [IsWs]))).mpr ⟨?_, ?_⟩
    · simp [Everywhere, EverywhereItems, EverywherePairs, sampleValue, DistinctKeys]
    · simp [Everywhere, EverywhereItems, EverywherePairs, sampleValue, NotMinValue, hne]
    · simp [Everywhere, EverywhereItems, EverywherePairs, sampleValue, KeptInPage,
        inPage_of_keepsControls keepsControls_utf8]
  · refine ((roundTrips_iff unitOps utf16le (fun _ _ _ => 0) noTexts plainHeap 2 [] [0x0A]
      (.container (.array 0)) (.array [.string [0x48, 0x0A], .numInt 7]) ⟨1, rfl⟩ ?_).1
      (.inr (by simp [IsWs]))).mpr ⟨?_, ?_⟩
    · simp [Everywhere, EverywhereItems, DistinctKeys]
    · simp [Everywhere, EverywhereItems, NotMinValue, hne']
    · have hkept : inPage utf16le [0x48, 0x0A] = [0x48, 0x0A] := by decide
      simp [Everywhere, EverywhereItems, KeptInPage, hkept]

/-- The smallest integer is encoded as a minus sign and bytes below the digits; a
control character comes back as two bytes where the page is UTF-16LE. -/
theorem not_roundTrips_minValue :
    (Denotes (⟨[], []⟩ : Heap Unit) (.numInt Int64.minValue) (.numInt Int64.minValue) ∧
      Everywhere DistinctKeys (.numInt Int64.minValue : Value Unit) ∧
      ¬ RoundTrips unitOps .utf8 (fun _ _ _ => 0) noTexts ⟨[], []⟩ 0 [] [0x0A]
        (.numInt Int64.minValue) (.numInt Int64.minValue)) ∧
    ¬ RoundTrips unitOps utf16le (fun _ _ _ => 0) noTexts ⟨[], []⟩ 0 [] [0x0A]
      (.string [0x01]) (.string [0x01]) := by
  refine ⟨⟨⟨0, rfl⟩, trivial, ?_⟩, ?_⟩
  · rintro ⟨text, n, hencode, hdecode, -⟩
    obtain ⟨tail, htail⟩ := jsonIntText_minValue
    have htext : jsonEncodeCP noTexts (⟨[], []⟩ : Heap Unit) 0 [] [0x0A]
        (.numInt Int64.minValue) = some (0x2D :: 0x27 :: tail) := by
      simp [jsonEncodeCP, jsonEncode, Heap.isFilled, htail]
    obtain rfl : _ = text := some.inj (htext.symm.trans hencode)
    simp [jsonDecodeCP, skipws, jsonDecode, isDigit, decodeNumber, decodeDigits] at hdecode
    have hne : (0 : Int64) ≠ Int64.minValue := by decide
    exact hne hdecode.1
  · rintro ⟨text, n, hencode, hdecode, -⟩
    obtain rfl : [0x22, 0x5C, 0x75, 0x30, 0x30, 0x30, 0x31, 0x22] = text :=
      some.inj hencode
    cases hdecode

end Harbour.Json.RoundTrip
