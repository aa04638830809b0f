import Harbour.Rtl.Utf8Strings

/-!
The UTF-8 string functions agree on the characters of a string.
-/

namespace Harbour.Rtl.Utf8Strings

open Cdpapi List

variable {b n nPos : Nat} {uc : UInt8} {wc : UInt16}

section Incomplete

/-- The bytes that have to follow a byte where a character begins. -/
def needed (uc : UInt8) : Nat :=
  if uc < 0xc0 then 0
  else if uc < 0xe0 then 1
  else if uc < 0xf0 then 2
  else if uc < 0xf8 then 3
  else if uc < 0xfc then 4
  else if uc < 0xfe then 5
  else 0

def gathered (wc : UInt16) (tail : Bytes) : UInt16 :=
  tail.foldl (fun wc uc => (wc <<< 6) ||| (uc &&& 0x3f).toUInt16) wc

def leadBits (uc : UInt8) : UInt16 := (uc &&& (0x3f >>> UInt8.ofNat (needed uc))).toUInt16

def Inside (uc : UInt8) : Prop := uc &&& 0xc0 = 0x80

instance (uc : UInt8) : Decidable (Inside uc) := inferInstanceAs (Decidable (_ = _))

/-- The string ends before all bytes of its last character, and what there is of its value is
not 0. -/
def Incomplete (pSrc : Bytes) : Prop :=
  ∃ before lead tail, pSrc = before ++ lead :: tail ∧ (∀ uc ∈ tail, Inside uc) ∧
    tail.length < needed lead ∧ gathered (leadBits lead) tail ≠ 0

variable {pSrc : Bytes} {c : Cursor}

theorem nextChar_lead (h : 0 < needed uc) (wc : UInt16) :
    cdpUTF8ToU16NextChar uc 0 wc = (true, needed uc, leadBits uc) := by
  unfold leadBits
  unfold needed at h ⊢
  unfold cdpUTF8ToU16NextChar
  rw [if_neg (Nat.lt_irrefl 0)]
  split_ifs at h ⊢
  all_goals first | rfl | exact absurd h (Nat.lt_irrefl 0)

theorem nextChar_inside (hn : 0 < n) (h : Inside uc) (wc : UInt16) :
    cdpUTF8ToU16NextChar uc n wc = (true, n - 1, (wc <<< 6) ||| (uc &&& 0x3f).toUInt16) := by
  unfold cdpUTF8ToU16NextChar
  unfold Inside at h
  rw [if_pos hn, if_neg (not_not.mpr h)]

theorem nextChar_outside (hn : 0 < n) (h : ¬ Inside uc) (wc : UInt16) :
    cdpUTF8ToU16NextChar uc n wc = (false, 0, wc) := by
  unfold cdpUTF8ToU16NextChar
  unfold Inside at h
  rw [if_pos hn, if_pos h]

theorem nextChar_needed (uc : UInt8) (wc : UInt16) :
    (cdpUTF8ToU16NextChar uc 0 wc).2.1 = needed uc := by
  unfold cdpUTF8ToU16NextChar needed
  rw [if_neg (Nat.lt_irrefl 0)]
  split_ifs <;> rfl

theorem drop_eq (h : nPos < pSrc.length) :
    pSrc.drop nPos = pSrc.getD nPos 0 :: pSrc.drop (nPos + 1) := by
  rw [drop_eq_getElem_cons h, getD_eq_getElem?_getD, getElem?_eq_getElem h,
    Option.getD_some]

theorem Cursor.next_inside (hn : 0 < c.n) (h : Inside (pSrc.getD c.nPos 0)) :
    c.next pSrc =
      ⟨c.nPos + 1, c.n - 1, (c.wc <<< 6) ||| (pSrc.getD c.nPos 0 &&& 0x3f).toUInt16⟩ := by
  unfold Cursor.next
  rw [nextChar_inside hn h]
  rfl

theorem Cursor.next_outside (hn : 0 < c.n) (h : ¬ Inside (pSrc.getD c.nPos 0)) :
    c.next pSrc = ⟨c.nPos, 0, c.wc⟩ := by
  unfold Cursor.next
  rw [nextChar_outside hn h]
  rfl

theorem Cursor.next_le : (c.next pSrc).nPos ≤ c.nPos + 1 := by
  unfold Cursor.next
  simp only
  split_ifs
  · exact le_refl _
  · exact Nat.le_succ _

theorem missing_ne_zero_iff (hn : 0 < c.n) :
    missing pSrc c ≠ 0 ↔ (∀ uc ∈ pSrc.drop c.nPos, Inside uc) ∧ pSrc.length - c.nPos < c.n := by
  fun_induction missing pSrc c with
  | case1 c hlt hend =>
    rw [drop_eq hlt]
    constructor
    · intro h
      exact absurd rfl h
    · rintro ⟨hinside, hfew⟩
      rw [c.next_inside hn (hinside _ mem_cons_self)] at hend
      simp only at hend
      omega
  | case2 c hlt hgoes ih =>
    have hinside : Inside (pSrc.getD c.nPos 0) := by
      by_contra houtside
      rw [c.next_outside hn houtside] at hgoes
      exact hgoes rfl
    rw [ih (Nat.pos_of_ne_zero hgoes), drop_eq hlt, forall_mem_cons,
      and_iff_right hinside, c.next_inside hn hinside]
    apply and_congr_right
    simp only at hgoes ⊢
    omega
  | case3 c hge =>
    rw [drop_eq_nil_of_le (Nat.le_of_not_lt hge),
      Nat.sub_eq_zero_of_le (Nat.le_of_not_lt hge)]
    exact iff_of_true (Nat.ne_of_gt hn) ⟨fun uc huc => absurd huc not_mem_nil, hn⟩

theorem getLoop_broken (hn : 0 < c.n) (hinside : ∀ uc ∈ pSrc.drop c.nPos, Inside uc)
    (hfew : pSrc.length - c.nPos < c.n) (hc : c.nPos ≤ pSrc.length) :
    getLoop pSrc c = some (gathered c.wc (pSrc.drop c.nPos), pSrc.length) := by
  fun_induction getLoop pSrc c with
  | case1 c hlt hend =>
    rw [drop_eq hlt] at hinside
    rw [c.next_inside hn (hinside _ mem_cons_self)] at hend
    simp only at hend
    omega
  | case2 c hlt hgoes ih =>
    rw [drop_eq hlt] at hinside ⊢
    obtain ⟨hfirst, hrest⟩ := forall_mem_cons.mp hinside
    rw [c.next_inside hn hfirst] at ih ⊢
    simp only at ih
    rw [ih (by omega) hrest (by omega) hlt]
    rfl
  | case3 c hge hn' =>
    have hend : c.nPos = pSrc.length := le_antisymm hc (Nat.le_of_not_lt hge)
    rw [hend, drop_length]
    rfl
  | case4 c hge hn' => exact absurd hn hn'

theorem getLoop_le {v : UInt16} {q : Nat} (h : getLoop pSrc c = some (v, q))
    (hb : ¬ Inside (pSrc.getD b 0)) (hlen : b < pSrc.length)
    (hc : c.nPos < b ∨ c.nPos = b ∧ 0 < c.n) : q ≤ b := by
  fun_induction getLoop pSrc c with
  | case1 c hlt hend =>
    obtain ⟨-, rfl⟩ := Prod.mk.inj (Option.some.inj h)
    rcases hc with hbefore | ⟨rfl, hn⟩
    · exact (c.next_le).trans hbefore
    · rw [c.next_outside hn hb]
  | case2 c hlt hgoes ih =>
    apply ih h
    rcases hc with hbefore | ⟨rfl, hn⟩
    · rcases Nat.lt_or_eq_of_le ((c.next_le).trans hbefore) with hlt' | heq
      · exact .inl hlt'
      · exact .inr ⟨heq, Nat.pos_of_ne_zero hgoes⟩
    · rw [c.next_outside hn hb] at hgoes
      exact absurd rfl hgoes
  | case3 c hge hn => omega
  | case4 c hge hn => exact absurd h (by simp)

theorem exists_placeFrom {nIndex : Nat} (hb : ¬ Inside (pSrc.getD b 0)) (hlen : b < pSrc.length)
    (h : nIndex ≤ b) : ∃ i, placeFrom pSrc nIndex i = b := by
  rcases Nat.eq_or_lt_of_le h with rfl | hlt
  · exact ⟨0, rfl⟩
  · obtain ⟨v, q, hget⟩ := hb_cdpUTF8_get_of_lt (hlt.trans hlen)
    have hprogress := (hb_cdpUTF8_get_bounds hget).1
    obtain ⟨i, hi⟩ := exists_placeFrom hb hlen (getLoop_le hget hb hlen (.inl hlt))
    exact ⟨i + 1, (placeFrom_succ hget i).trans hi⟩
termination_by b - nIndex

/-- The character that begins at a byte is broken off. -/
def BrokenAt (pSrc : Bytes) (nPos : Nat) : Prop :=
  (∀ uc ∈ pSrc.drop (nPos + 1), Inside uc) ∧
    pSrc.length - (nPos + 1) < needed (pSrc.getD nPos 0)

theorem BrokenAt.next (h : BrokenAt pSrc nPos) :
    (Cursor.mk nPos 0 0).next pSrc =
      ⟨nPos + 1, needed (pSrc.getD nPos 0), leadBits (pSrc.getD nPos 0)⟩ := by
  unfold Cursor.next
  rw [nextChar_lead (Nat.zero_lt_of_lt h.2)]
  rfl

theorem missing_ne_zero_iff_brokenAt (h : nPos < pSrc.length) :
    missing pSrc ⟨nPos, 0, 0⟩ ≠ 0 ↔ BrokenAt pSrc nPos := by
  have hn : ((Cursor.mk nPos 0 0).next pSrc).n = needed (pSrc.getD nPos 0) :=
    nextChar_needed _ _
  have hnPos : ((Cursor.mk nPos 0 0).next pSrc).nPos = nPos + 1 := Cursor.next_of_start _ rfl
  rw [missing, dif_pos h]
  split
  · next hend =>
    refine iff_of_false (fun hne => hne rfl) fun hbroken => ?_
    rw [hn] at hend
    exact absurd hbroken.2 (by rw [hend]; exact Nat.not_lt_zero _)
  · next hgoes =>
    rw [missing_ne_zero_iff (Nat.pos_of_ne_zero hgoes), hnPos, hn]
    rfl

theorem BrokenAt.get (h : BrokenAt pSrc nPos) (hlt : nPos < pSrc.length) :
    hb_cdpUTF8_get pSrc nPos =
      some (gathered (leadBits (pSrc.getD nPos 0)) (pSrc.drop (nPos + 1)), pSrc.length) := by
  have hneeded : 0 < needed (pSrc.getD nPos 0) := Nat.zero_lt_of_lt h.2
  unfold hb_cdpUTF8_get
  rw [getLoop, dif_pos hlt, h.next, if_neg (Nat.ne_of_gt hneeded)]
  exact getLoop_broken hneeded h.1 h.2 hlt

set_option maxRecDepth 4000 in
theorem needed_of_inside (h : Inside uc) : needed uc = 0 := by
  have hall : ∀ uc : Fin 256, Inside (UInt8.ofNat uc) → needed (UInt8.ofNat uc) = 0 := by decide
  have hfin := hall ⟨uc.toNat, uc.toNat_lt⟩
  rw [UInt8.ofNat_toNat] at hfin
  exact hfin h

theorem incomplete_iff : Incomplete pSrc ↔ ∃ nPos < pSrc.length, BrokenAt pSrc nPos ∧
    gathered (leadBits (pSrc.getD nPos 0)) (pSrc.drop (nPos + 1)) ≠ 0 := by
  constructor
  · rintro ⟨before, lead, tail, rfl, hinside, hfew, hvalue⟩
    have hlead : (before ++ lead :: tail).getD before.length 0 = lead := by simp
    have htail : (before ++ lead :: tail).drop (before.length + 1) = tail := by simp
    refine ⟨before.length, by simp, ⟨?_, ?_⟩, ?_⟩
    · rw [htail]
      exact hinside
    · rw [← length_drop, htail, hlead]
      exact hfew
    · rw [hlead, htail]
      exact hvalue
  · rintro ⟨nPos, hlt, ⟨hinside, hfew⟩, hvalue⟩
    refine ⟨pSrc.take nPos, pSrc.getD nPos 0, pSrc.drop (nPos + 1), ?_, hinside, ?_, hvalue⟩
    · rw [← drop_eq hlt, take_append_drop]
    · rw [length_drop]
      exact hfew

theorem peek_iff : (∀ i, hb_cdpUTF8StringPeek pSrc i = (characters pSrc).getD i 0) ↔
    ¬ Incomplete pSrc := by
  constructor
  · intro hpeek hincomplete
    obtain ⟨b, hlt, hbroken, hvalue⟩ := incomplete_iff.mp hincomplete
    have houtside : ¬ Inside (pSrc.getD b 0) := fun hinside =>
      absurd hbroken.2 (by rw [needed_of_inside hinside]; exact Nat.not_lt_zero _)
    obtain ⟨i, rfl⟩ := exists_placeFrom houtside hlt (Nat.zero_le b)
    have hi := hpeek i
    rw [hb_cdpUTF8StringPeek_eq, if_neg ((missing_ne_zero_iff_brokenAt hlt).mpr hbroken),
      getD_eq_getElem?_getD, getElem?_characters, hbroken.get hlt] at hi
    exact hvalue hi.symm
  · intro hcomplete i
    rw [hb_cdpUTF8StringPeek_eq]
    split
    · rfl
    · next hmissing =>
      rw [getD_eq_getElem?_getD, getElem?_characters]
      rcases Nat.lt_or_ge (placeFrom pSrc 0 i) pSrc.length with hlt | hge
      · have hbroken := (missing_ne_zero_iff_brokenAt hlt).mp hmissing
        rw [hbroken.get hlt]
        by_contra hvalue
        exact hcomplete (incomplete_iff.mpr ⟨_, hlt, hbroken, Ne.symm hvalue⟩)
      · rw [hb_cdpUTF8_get_end hge]
        rfl

end Incomplete

end Harbour.Rtl.Utf8Strings

/-!
UTF-8 coding is lossless, and the string functions describe one sequence of characters.
-/

namespace Harbour.Rtl.Utf8Strings

open Cdpapi

def lowByte (wc : UInt16) : UInt8 := (0x80 : UInt8) ||| (wc &&& 0x3f).toUInt8

theorem of_forall_fin {P : UInt16 → Prop} (hall : ∀ a : Fin n, P (UInt16.ofNat a))
    (h : wc.toNat < n) : P wc := by
  have hwc := hall ⟨wc.toNat, h⟩
  rwa [UInt16.ofNat_toNat] at hwc

theorem lowByte_bits (wc : UInt16) :
    Inside (lowByte wc) ∧ (lowByte wc &&& 0x3f).toUInt16 = wc &&& 0x3f := by
  have hall : ∀ b : Fin 64, Inside ((0x80 : UInt8) ||| (UInt16.ofNat b).toUInt8) ∧
      (((0x80 : UInt8) ||| (UInt16.ofNat b).toUInt8) &&& 0x3f).toUInt16 = UInt16.ofNat b := by
    decide
  refine of_forall_fin (P := fun b => Inside ((0x80 : UInt8) ||| b.toUInt8) ∧
    (((0x80 : UInt8) ||| b.toUInt8) &&& 0x3f).toUInt16 = b) hall ?_
  exact Nat.lt_of_le_of_lt Nat.and_le_right (by decide)

theorem joined (wc : UInt16) : ((wc >>> 6) <<< 6) ||| (wc &&& 0x3f) = wc := by
  have hwc : wc.toNat < 65536 := wc.toNat_lt
  have hlow : wc.toNat &&& 63 = wc.toNat % 64 := Nat.and_two_pow_sub_one_eq_mod wc.toNat 6
  apply UInt16.toNat.inj
  calc (((wc >>> 6) <<< 6) ||| (wc &&& 0x3f)).toNat
      = (wc.toNat >>> 6 <<< 6) % 65536 ||| (wc.toNat &&& 63) := by
        rfl
    _ = wc.toNat >>> 6 <<< 6 ||| wc.toNat % 64 := by
        rw [hlow, Nat.mod_eq_of_lt (by omega)]
    _ = wc.toNat >>> 6 <<< 6 + wc.toNat % 64 :=
        (Nat.shiftLeft_add_eq_or_of_lt (Nat.mod_lt _ (by decide)) _).symm
    _ = wc.toNat := by omega

theorem lead_two {wc : UInt16} (h : wc < 0x0800) :
    cdpUTF8ToU16NextChar ((0xc0 : UInt8) ||| ((wc >>> 6) &&& 0x1f).toUInt8) 0 0 =
      (true, 1, wc >>> 6) := by
  have hall : ∀ a : Fin 32,
      cdpUTF8ToU16NextChar ((0xc0 : UInt8) ||| (UInt16.ofNat a &&& 0x1f).toUInt8) 0 0 =
        (true, 1, UInt16.ofNat a) := by
    decide
  have hlt : wc.toNat < 2048 := UInt16.lt_iff_toNat_lt.mp h
  refine of_forall_fin (P := fun wc => cdpUTF8ToU16NextChar (_ ||| (wc &&& 0x1f).toUInt8) 0 0 =
    (true, 1, wc)) hall ?_
  change wc.toNat >>> 6 < 32
  omega

theorem lead_three (wc : UInt16) :
    cdpUTF8ToU16NextChar ((0xe0 : UInt8) ||| ((wc >>> 12) &&& 0x0f).toUInt8) 0 0 =
      (true, 2, wc >>> 12) := by
  have hall : ∀ a : Fin 16,
      cdpUTF8ToU16NextChar ((0xe0 : UInt8) ||| (UInt16.ofNat a &&& 0x0f).toUInt8) 0 0 =
        (true, 2, UInt16.ofNat a) := by
    decide
  have hlt : wc.toNat < 65536 := wc.toNat_lt
  refine of_forall_fin (P := fun wc => cdpUTF8ToU16NextChar (_ ||| (wc &&& 0x0f).toUInt8) 0 0 =
    (true, 2, wc)) hall ?_
  change wc.toNat >>> 12 < 16
  omega

theorem lead_one (h : wc < 0x0080) :
    cdpUTF8ToU16NextChar wc.toUInt8 0 0 = (true, 0, wc) := by
  have hall : ∀ a : Fin 128,
      cdpUTF8ToU16NextChar (UInt16.ofNat a).toUInt8 0 0 = (true, 0, UInt16.ofNat a) := by
    decide
  exact of_forall_fin (P := fun wc => cdpUTF8ToU16NextChar wc.toUInt8 0 0 = (true, 0, wc)) hall
    (UInt16.lt_iff_toNat_lt.mp h)

theorem getLoop_used {before rest : Bytes} {n' : Nat} {wc' : UInt16}
    (h : cdpUTF8ToU16NextChar uc n wc = (true, n', wc')) :
    getLoop (before ++ uc :: rest) ⟨before.length, n, wc⟩ =
      if n' = 0 then some (wc', before.length + 1)
      else getLoop ((before ++ [uc]) ++ rest) ⟨(before ++ [uc]).length, n', wc'⟩ := by
  have hnext : (Cursor.mk before.length n wc).next (before ++ uc :: rest) =
      ⟨before.length + 1, n', wc'⟩ := by
    have huc : (before ++ uc :: rest).getD before.length 0 = uc := by simp
    unfold Cursor.next
    simp only [huc, h, if_true]
  rw [getLoop, dif_pos (by simp), hnext, List.append_assoc, List.length_append]
  rfl

theorem cdpU16CharToUTF8_eq (wc : UInt16) : cdpU16CharToUTF8 wc =
    if wc < 0x0080 then [wc.toUInt8]
    else if wc < 0x0800 then [(0xc0 : UInt8) ||| ((wc >>> 6) &&& 0x1f).toUInt8, lowByte wc]
    else [(0xe0 : UInt8) ||| ((wc >>> 12) &&& 0x0f).toUInt8, lowByte (wc >>> 6), lowByte wc] := rfl

theorem shiftRight_twelve (wc : UInt16) : wc >>> 12 = (wc >>> 6) >>> 6 := by
  apply UInt16.toNat.inj
  exact Nat.shiftRight_add wc.toNat 6 6

theorem get_unit (before rest : Bytes) (wc : UInt16) :
    hb_cdpUTF8_get (before ++ (cdpU16CharToUTF8 wc ++ rest)) before.length =
      some (wc, before.length + cdpUTF8CharSize wc) := by
  have hlow := lowByte_bits wc
  have hmiddle := lowByte_bits (wc >>> 6)
  rw [cdpU16CharToUTF8_eq]
  unfold hb_cdpUTF8_get cdpUTF8CharSize
  split
  · next hone => rw [List.singleton_append, getLoop_used (lead_one hone), if_pos rfl]
  split
  · next htwo =>
    rw [List.cons_append, getLoop_used (lead_two htwo), if_neg one_ne_zero, List.singleton_append,
      getLoop_used (nextChar_inside Nat.one_pos hlow.1 _), if_pos rfl, hlow.2, joined,
      List.length_append]
    rfl
  · rw [List.cons_append, getLoop_used (lead_three wc), if_neg two_ne_zero, List.cons_append,
      getLoop_used (nextChar_inside Nat.two_pos hmiddle.1 _), show 2 - 1 = 1 from rfl,
      if_neg one_ne_zero, hmiddle.2, shiftRight_twelve, joined, List.singleton_append,
      getLoop_used (nextChar_inside Nat.one_pos hlow.1 _), if_pos rfl, hlow.2, joined,
      List.length_append, List.length_append]
    rfl

def encoded (units : List UInt16) : Bytes := units.flatMap cdpU16CharToUTF8

def unitsSize (units : List UInt16) : Nat := (units.map cdpUTF8CharSize).sum

theorem delivered_encoded (before : Bytes) (units : List UInt16) :
    (delivered (before ++ encoded units) before.length).map Prod.fst = units := by
  induction units generalizing before with
  | nil => rw [delivered_end (by rw [List.length_append]; rfl)]; rfl
  | cons wc units ih =>
    have hget := get_unit before (encoded units) wc
    rw [← cdpUTF8CharSize_eq, ← List.length_append] at hget
    change (delivered (before ++ (cdpU16CharToUTF8 wc ++ encoded units)) _).map _ = _
    rw [delivered_of_get hget, List.map_cons, ← List.append_assoc, ih]

theorem unitsSize_cons (wc : UInt16) (units : List UInt16) :
    unitsSize (wc :: units) = cdpUTF8CharSize wc + unitsSize units := by
  unfold unitsSize
  rw [List.map_cons, List.sum_cons]

theorem placeFrom_encoded (before : Bytes) (units : List UInt16) (i : Nat) :
    placeFrom (before ++ encoded units) before.length i =
      before.length + unitsSize (units.take i) := by
  induction units generalizing before i with
  | nil =>
    change placeFrom (before ++ []) _ _ = _
    rw [List.append_nil, List.take_nil]
    cases i with
    | zero => rfl
    | succ i => exact placeFrom_end (le_refl _) i
  | cons wc units ih =>
    have hget := get_unit before (encoded units) wc
    rw [← cdpUTF8CharSize_eq, ← List.length_append] at hget
    change placeFrom (before ++ (cdpU16CharToUTF8 wc ++ encoded units)) _ _ = _
    cases i with
    | zero => rw [placeFrom_zero]; rfl
    | succ i =>
      rw [placeFrom_succ hget, ← List.append_assoc, ih, List.length_append, List.take_succ_cons,
        unitsSize_cons, cdpUTF8CharSize_eq]
      exact Nat.add_assoc _ _ _

/-- Units come back from their string, each over as many bytes as `hb_cdpUTF8CharSize` gives; and
the string functions describe the characters that `hb_cdpUTF8_get` delivers from any string, but
that `hb_cdpUTF8StringPeek` reads an incomplete one at the end as 0. -/
theorem utf8_strings_agree (units : List UInt16) (pSrc : Bytes) :
    (characters (encoded units) = units ∧
      ∀ i ≤ units.length, placeFrom (encoded units) 0 i = unitsSize (units.take i)) ∧
    hb_cdpUTF8StringLength pSrc = (characters pSrc).length ∧
    (∀ i k, hb_cdpUTF8StringSubstr pSrc i k =
      if 0 < k ∧ i < (characters pSrc).length then some (charactersSlice pSrc i (i + k))
      else none) ∧
    ((∀ i, hb_cdpUTF8StringPeek pSrc i = (characters pSrc).getD i 0) ↔ ¬ Incomplete pSrc) := by
  refine ⟨⟨delivered_encoded [] units, fun i _ => ?_⟩, hb_cdpUTF8StringLength_eq pSrc,
    hb_cdpUTF8StringSubstr_eq, peek_iff⟩
  exact (placeFrom_encoded [] units i).trans (Nat.zero_add _)

/-- The first byte of a character of three bytes alone. -/
theorem utf8_peek_lost : ¬ ∀ pSrc i, i < (characters pSrc).length →
    hb_cdpUTF8StringPeek pSrc i = (characters pSrc).getD i 0 := by
  intro h
  have hbroken : BrokenAt [0xe2] 0 := ⟨fun uc huc => absurd huc List.not_mem_nil, by decide⟩
  have hfirst : 0 < (characters [0xe2]).length := placeFrom_lt.mp (by decide)
  have hpeek := h [0xe2] 0 hfirst
  rw [hb_cdpUTF8StringPeek_eq, List.getD_eq_getElem?_getD, getElem?_characters, placeFrom_zero,
    if_neg ((missing_ne_zero_iff_brokenAt (by decide)).mpr hbroken),
    hbroken.get (by decide)] at hpeek
  exact absurd hpeek (by decide)

end Harbour.Rtl.Utf8Strings
