import Harbour.Rtl.Cdpapi

/-!
The UTF-8 string functions of `cdpapi.c`.
-/

namespace Harbour.Rtl.Utf8Strings

open Cdpapi Option List

/-- Where a loop over a UTF-8 string stands: the next byte, the count of missing bytes of the
character that has begun, and its value so far. -/
structure Cursor where
  nPos : Nat
  n : Nat
  wc : UInt16

variable (pSrc : Bytes)

/-- `hb_cdpUTF8ToU16NextChar` of the next byte, which is passed when it is used. -/
def Cursor.next (c : Cursor) : Cursor :=
  let r := cdpUTF8ToU16NextChar (pSrc.getD c.nPos 0) c.n c.wc
  ⟨if r.1 then c.nPos + 1 else c.nPos, r.2.1, r.2.2⟩

def Cursor.weight (c : Cursor) : Nat := 2 * (pSrc.length - c.nPos) + if c.n = 0 then 0 else 1

theorem nextChar_cases (uc : UInt8) (n : Nat) (wc : UInt16) :
    (cdpUTF8ToU16NextChar uc n wc).1 = true ∨
      0 < n ∧ cdpUTF8ToU16NextChar uc n wc = (false, 0, wc) := by
  unfold cdpUTF8ToU16NextChar
  split_ifs with hn hcont
  · exact .inr ⟨hn, rfl⟩
  all_goals exact .inl rfl

variable {pSrc} in
theorem Cursor.next_weight {c : Cursor} (h : c.nPos < pSrc.length) :
    (c.next pSrc).weight pSrc < c.weight pSrc := by
  unfold Cursor.next Cursor.weight
  rcases nextChar_cases (pSrc.getD c.nPos 0) c.n c.wc with hused | ⟨hn, hrefused⟩
  · simp only [hused, if_true]
    split_ifs <;> omega
  · simp only [hrefused, Bool.false_eq_true, if_false, if_true]
    rw [if_neg (Nat.ne_of_gt hn)]
    omega

def getLoop (c : Cursor) : Option (UInt16 × Nat) :=
  if _h : c.nPos < pSrc.length then
    if (c.next pSrc).n = 0 then some ((c.next pSrc).wc, (c.next pSrc).nPos)
    else getLoop (c.next pSrc)
  else if 0 < c.n then some (c.wc, c.nPos)
  else none
termination_by c.weight pSrc
decreasing_by exact Cursor.next_weight _h

def hb_cdpUTF8_get (nIndex : Nat) : Option (UInt16 × Nat) := getLoop pSrc ⟨nIndex, 0, 0⟩

def lengthLoop (c : Cursor) (nDst : Nat) : Nat :=
  if _h : c.nPos < pSrc.length then
    lengthLoop (c.next pSrc) (if (c.next pSrc).n = 0 then nDst + 1 else nDst)
  else if 0 < c.n then nDst + 1
  else nDst
termination_by c.weight pSrc
decreasing_by exact Cursor.next_weight _h

def hb_cdpUTF8StringLength : Nat := lengthLoop pSrc ⟨0, 0, 0⟩ 0

/-- The loop of `hb_cdpUTF8StringPeek` and `hb_cdpUTF8StringSubstr` that passes characters. -/
def skipLoop (c : Cursor) (nCount : Nat) : Cursor :=
  if _h : c.nPos < pSrc.length ∧ 0 < nCount then
    skipLoop (c.next pSrc) (if (c.next pSrc).n = 0 then nCount - 1 else nCount)
  else c
termination_by c.weight pSrc
decreasing_by exact Cursor.next_weight _h.1

/-- The loop of `hb_cdpUTF8StringPeek` that reads a character. -/
def peekLoop (c : Cursor) : UInt16 :=
  if _h : c.nPos < pSrc.length then
    if (c.next pSrc).n = 0 then (c.next pSrc).wc else peekLoop (c.next pSrc)
  else 0
termination_by c.weight pSrc
decreasing_by exact Cursor.next_weight _h

def hb_cdpUTF8StringPeek (nPos : Nat) : UInt16 :=
  let c := skipLoop pSrc ⟨0, 0, 0⟩ nPos
  if c.nPos < pSrc.length then peekLoop pSrc { c with n := 0 } else 0

/-- `hb_cdpUTF8StringSubstr`, none where it returns no buffer. -/
def hb_cdpUTF8StringSubstr (nFrom nCount : Nat) : Option Bytes :=
  if 0 < nCount ∧ 0 < pSrc.length then
    let c := skipLoop pSrc ⟨0, 0, 0⟩ nFrom
    if c.nPos < pSrc.length then
      let nPos := (skipLoop pSrc { c with n := 0 } nCount).nPos
      some ((pSrc.drop c.nPos).take (nPos - c.nPos))
    else none
  else none

variable {nIndex q : Nat} {v : UInt16}

section Characters

variable {pSrc} {c : Cursor}

theorem Cursor.nPos_le_next (h : c.nPos < pSrc.length) :
    c.nPos ≤ (c.next pSrc).nPos ∧ (c.next pSrc).nPos ≤ pSrc.length := by
  unfold Cursor.next
  simp only
  split_ifs <;> omega

theorem Cursor.next_of_start (c : Cursor) (h : c.n = 0) : (c.next pSrc).nPos = c.nPos + 1 := by
  unfold Cursor.next
  rcases nextChar_cases (pSrc.getD c.nPos 0) c.n c.wc with hused | ⟨hn, -⟩
  · simp only [hused, if_true]
  · exact absurd h (Nat.ne_of_gt hn)

theorem getLoop_bounds (h : getLoop pSrc c = some (v, q)) (hc : c.nPos ≤ pSrc.length) :
    c.nPos ≤ q ∧ q ≤ pSrc.length := by
  fun_induction getLoop pSrc c with
  | case1 c hlt hn =>
    obtain ⟨-, rfl⟩ := Prod.mk.inj (some.inj h)
    exact c.nPos_le_next hlt
  | case2 c hlt hn ih =>
    obtain ⟨hle, hle'⟩ := c.nPos_le_next hlt
    obtain ⟨hq, hq'⟩ := ih h hle'
    exact ⟨hle.trans hq, hq'⟩
  | case3 c hlt hn =>
    obtain ⟨-, rfl⟩ := Prod.mk.inj (some.inj h)
    exact ⟨le_refl _, hc⟩
  | case4 c hlt hn => exact absurd h (by simp)

theorem hb_cdpUTF8_get_bounds (h : hb_cdpUTF8_get pSrc nIndex = some (v, q)) :
    nIndex < q ∧ q ≤ pSrc.length := by
  unfold hb_cdpUTF8_get at h
  rw [getLoop] at h
  split at h
  · next hlt =>
    have hnext : ((Cursor.mk nIndex 0 0).next pSrc).nPos = nIndex + 1 := Cursor.next_of_start _ rfl
    obtain ⟨hle, hle'⟩ := Cursor.nPos_le_next hlt
    split at h
    · obtain ⟨-, rfl⟩ := Prod.mk.inj (some.inj h)
      rw [hnext] at hle' ⊢
      exact ⟨Nat.lt_succ_self _, hle'⟩
    · obtain ⟨hq, hq'⟩ := getLoop_bounds h hle'
      rw [hnext] at hq
      exact ⟨hq, hq'⟩
  · rw [if_neg (Nat.lt_irrefl 0)] at h
    exact absurd h (by simp)

theorem getLoop_isSome (c : Cursor) (h : c.nPos < pSrc.length ∨ 0 < c.n) :
    (getLoop pSrc c).isSome := by
  fun_induction getLoop pSrc c with
  | case1 c hlt hn => rfl
  | case2 c hlt hn ih => exact ih (.inr (Nat.pos_of_ne_zero hn))
  | case3 c hlt hn => rfl
  | case4 c hlt hn => exact absurd h (not_or.mpr ⟨hlt, hn⟩)

theorem hb_cdpUTF8_get_of_lt (h : nIndex < pSrc.length) :
    ∃ v q, hb_cdpUTF8_get pSrc nIndex = some (v, q) := by
  obtain ⟨⟨v, q⟩, hget⟩ := Option.isSome_iff_exists.mp
    (getLoop_isSome ⟨nIndex, 0, 0⟩ (.inl h))
  exact ⟨v, q, hget⟩

theorem hb_cdpUTF8_get_or_end (pSrc : Bytes) (nIndex : Nat) :
    (∃ v q, hb_cdpUTF8_get pSrc nIndex = some (v, q)) ∨ pSrc.length ≤ nIndex :=
  (Nat.lt_or_ge nIndex pSrc.length).imp_left hb_cdpUTF8_get_of_lt

theorem Cursor.next_start (nPos : Nat) (wc wc' : UInt16) :
    (Cursor.mk nPos 0 wc).next pSrc = (Cursor.mk nPos 0 wc').next pSrc := by
  unfold Cursor.next cdpUTF8ToU16NextChar
  simp only [Nat.lt_irrefl, gt_iff_lt, if_false]

theorem getLoop_start (nPos : Nat) (wc : UInt16) :
    getLoop pSrc ⟨nPos, 0, wc⟩ = hb_cdpUTF8_get pSrc nPos := by
  unfold hb_cdpUTF8_get
  conv_lhs => rw [getLoop]
  conv_rhs => rw [getLoop]
  rw [Cursor.next_start nPos wc 0]
  simp only [Nat.lt_irrefl, if_false]

theorem lengthLoop_get (h : getLoop pSrc c = some (v, q)) (nDst : Nat) :
    lengthLoop pSrc c nDst = lengthLoop pSrc ⟨q, 0, v⟩ (nDst + 1) := by
  fun_induction getLoop pSrc c generalizing nDst with
  | case1 c hlt hn =>
    obtain ⟨rfl, rfl⟩ := Prod.mk.inj (some.inj h)
    rw [lengthLoop, dif_pos hlt, if_pos hn, ← hn]
  | case2 c hlt hn ih =>
    rw [lengthLoop, dif_pos hlt, if_neg hn]
    exact ih h nDst
  | case3 c hlt hn =>
    obtain ⟨rfl, rfl⟩ := Prod.mk.inj (some.inj h)
    rw [lengthLoop, dif_neg hlt, if_pos hn, lengthLoop, dif_neg hlt, if_neg (Nat.lt_irrefl 0)]
  | case4 c hlt hn => exact absurd h (by simp)

theorem lengthLoop_none (h : ¬ q < pSrc.length) (wc : UInt16) (nDst : Nat) :
    lengthLoop pSrc ⟨q, 0, wc⟩ nDst = nDst := by
  rw [lengthLoop, dif_neg h, if_neg (Nat.lt_irrefl 0)]

theorem skipLoop_get (h : getLoop pSrc c = some (v, q)) (nCount : Nat) :
    (skipLoop pSrc c (nCount + 1)).nPos = (skipLoop pSrc ⟨q, 0, v⟩ nCount).nPos := by
  fun_induction getLoop pSrc c with
  | case1 c hlt hn =>
    obtain ⟨rfl, rfl⟩ := Prod.mk.inj (some.inj h)
    rw [skipLoop, dif_pos ⟨hlt, Nat.succ_pos _⟩, if_pos hn, Nat.add_sub_cancel, ← hn]
  | case2 c hlt hn ih =>
    rw [skipLoop, dif_pos ⟨hlt, Nat.succ_pos _⟩, if_neg hn]
    exact ih h
  | case3 c hlt hn =>
    obtain ⟨rfl, rfl⟩ := Prod.mk.inj (some.inj h)
    rw [skipLoop, dif_neg (fun hgoes => hlt hgoes.1), skipLoop,
      dif_neg (fun hgoes => hlt hgoes.1)]
  | case4 c hlt hn => exact absurd h (by simp)

def missing (pSrc : Bytes) (c : Cursor) : Nat :=
  if _h : c.nPos < pSrc.length then
    if (c.next pSrc).n = 0 then 0 else missing pSrc (c.next pSrc)
  else c.n
termination_by c.weight pSrc
decreasing_by exact Cursor.next_weight _h

theorem peekLoop_get (h : getLoop pSrc c = some (v, q)) :
    peekLoop pSrc c = if missing pSrc c = 0 then v else 0 := by
  fun_induction getLoop pSrc c with
  | case1 c hlt hn =>
    obtain ⟨rfl, -⟩ := Prod.mk.inj (some.inj h)
    rw [peekLoop, dif_pos hlt, if_pos hn, missing, dif_pos hlt, if_pos hn, if_pos rfl]
  | case2 c hlt hn ih =>
    rw [peekLoop, dif_pos hlt, if_neg hn, missing, dif_pos hlt, if_neg hn]
    exact ih h
  | case3 c hlt hn =>
    rw [peekLoop, dif_neg hlt, missing, dif_neg hlt, if_neg (Nat.ne_of_gt hn)]
  | case4 c hlt hn => exact absurd h (by simp)

theorem missing_start (nPos : Nat) (wc : UInt16) :
    missing pSrc ⟨nPos, 0, wc⟩ = missing pSrc ⟨nPos, 0, 0⟩ := by
  conv_lhs => rw [missing]
  conv_rhs => rw [missing]
  rw [Cursor.next_start nPos wc 0]

end Characters

section Delivered

variable {pSrc}

/-- The characters that `hb_cdpUTF8_get` delivers from a place on, each with the place after it. -/
def delivered (pSrc : Bytes) (nIndex : Nat) : List (UInt16 × Nat) :=
  match _h : hb_cdpUTF8_get pSrc nIndex with
  | some (wc, nNext) => (wc, nNext) :: delivered pSrc nNext
  | none => []
termination_by pSrc.length - nIndex
decreasing_by
  obtain ⟨hlt, hle⟩ := hb_cdpUTF8_get_bounds _h
  omega

/-- The place of a character counted from one that begins at `nIndex`, the end of the string past
the last one. -/
def placeFrom (pSrc : Bytes) (nIndex k : Nat) : Nat :=
  (nIndex :: (delivered pSrc nIndex).map Prod.snd).getD k pSrc.length

theorem delivered_of_get (h : hb_cdpUTF8_get pSrc nIndex = some (v, q)) :
    delivered pSrc nIndex = (v, q) :: delivered pSrc q := by
  rw [delivered]
  split
  · next v' q' hget =>
    obtain ⟨rfl, rfl⟩ := Prod.mk.inj (some.inj (hget.symm.trans h))
    rfl
  · next hget => exact absurd (hget.symm.trans h) (by simp)

theorem hb_cdpUTF8_get_end (h : pSrc.length ≤ nIndex) : hb_cdpUTF8_get pSrc nIndex = none := by
  unfold hb_cdpUTF8_get
  rw [getLoop, dif_neg (Nat.not_lt.mpr h), if_neg (Nat.lt_irrefl 0)]

theorem delivered_end (h : pSrc.length ≤ nIndex) : delivered pSrc nIndex = [] := by
  rw [delivered]
  split
  · next v q hget => exact absurd ((hb_cdpUTF8_get_end h).symm.trans hget) (by simp)
  · rfl

theorem placeFrom_zero : placeFrom pSrc nIndex 0 = nIndex := rfl

theorem placeFrom_succ (h : hb_cdpUTF8_get pSrc nIndex = some (v, q)) (k : Nat) :
    placeFrom pSrc nIndex (k + 1) = placeFrom pSrc q k := by
  unfold placeFrom
  rw [delivered_of_get h]
  rfl

theorem placeFrom_end (h : pSrc.length ≤ nIndex) (k : Nat) :
    placeFrom pSrc nIndex (k + 1) = pSrc.length := by
  unfold placeFrom
  rw [delivered_end h]
  rfl

theorem getElem?_delivered (k : Nat) (h : nIndex ≤ pSrc.length) :
    (delivered pSrc nIndex)[k]? = hb_cdpUTF8_get pSrc (placeFrom pSrc nIndex k) := by
  induction k generalizing nIndex with
  | zero =>
    rw [placeFrom_zero]
    rcases hb_cdpUTF8_get_or_end pSrc nIndex with ⟨v, q, hget⟩ | hge
    · rw [delivered_of_get hget, hget]
      rfl
    · rw [delivered_end hge, hb_cdpUTF8_get_end hge]
      rfl
  | succ k ih =>
    rcases hb_cdpUTF8_get_or_end pSrc nIndex with ⟨v, q, hget⟩ | hge
    · rw [delivered_of_get hget, placeFrom_succ hget, getElem?_cons_succ]
      exact ih (hb_cdpUTF8_get_bounds hget).2
    · rw [delivered_end hge, placeFrom_end hge, hb_cdpUTF8_get_end (le_refl _)]
      rfl

theorem skipLoop_place (k : Nat) (wc : UInt16) (h : nIndex ≤ pSrc.length) :
    (skipLoop pSrc ⟨nIndex, 0, wc⟩ k).nPos = placeFrom pSrc nIndex k := by
  induction k generalizing nIndex wc with
  | zero => rw [skipLoop, dif_neg (fun hgoes => absurd hgoes.2 (Nat.lt_irrefl 0)), placeFrom_zero]
  | succ k ih =>
    rcases hb_cdpUTF8_get_or_end pSrc nIndex with ⟨v, q, hget⟩ | hge
    · rw [placeFrom_succ hget, skipLoop_get ((getLoop_start nIndex wc).trans hget)]
      exact ih v (hb_cdpUTF8_get_bounds hget).2
    · rw [placeFrom_end hge, skipLoop, dif_neg (fun hgoes => Nat.not_lt.mpr hge hgoes.1)]
      exact le_antisymm h hge

theorem lengthLoop_delivered (wc : UInt16) (nDst : Nat) :
    lengthLoop pSrc ⟨nIndex, 0, wc⟩ nDst = nDst + (delivered pSrc nIndex).length := by
  induction hdelivered : delivered pSrc nIndex generalizing nIndex wc nDst with
  | nil =>
    rcases hb_cdpUTF8_get_or_end pSrc nIndex with ⟨v, q, hget⟩ | hge
    · exact absurd (hdelivered.symm.trans (delivered_of_get hget)) (by simp)
    · exact lengthLoop_none (Nat.not_lt.mpr hge) wc nDst
  | cons vq rest ih =>
    rcases hb_cdpUTF8_get_or_end pSrc nIndex with ⟨v, q, hget⟩ | hge
    · obtain ⟨-, rfl⟩ := List.cons.inj (hdelivered.symm.trans (delivered_of_get hget))
      rw [lengthLoop_get ((getLoop_start nIndex wc).trans hget), ih v (nDst + 1) rfl,
        length_cons]
      omega
    · exact absurd (hdelivered.symm.trans (delivered_end hge)) (by simp)

theorem placeFrom_le (h : nIndex ≤ pSrc.length) (k : Nat) :
    placeFrom pSrc nIndex k ≤ pSrc.length := by
  induction k generalizing nIndex with
  | zero => exact h
  | succ k ih =>
    rcases hb_cdpUTF8_get_or_end pSrc nIndex with ⟨v, q, hget⟩ | hge
    · rw [placeFrom_succ hget]
      exact ih (hb_cdpUTF8_get_bounds hget).2
    · exact (placeFrom_end hge k).le

end Delivered

section Agreement

def characters : List UInt16 := (delivered pSrc 0).map Prod.fst

/-- The bytes from the place of the character `nFrom` to the place of the character `nTo`. -/
def charactersSlice (nFrom nTo : Nat) : Bytes :=
  (pSrc.drop (placeFrom pSrc 0 nFrom)).take (placeFrom pSrc 0 nTo - placeFrom pSrc 0 nFrom)

theorem hb_cdpUTF8StringLength_eq : hb_cdpUTF8StringLength pSrc = (characters pSrc).length := by
  unfold hb_cdpUTF8StringLength characters
  rw [lengthLoop_delivered, Nat.zero_add, length_map]

variable {pSrc}

theorem getElem?_characters (i : Nat) :
    (characters pSrc)[i]? = (hb_cdpUTF8_get pSrc (placeFrom pSrc 0 i)).map Prod.fst := by
  unfold characters
  rw [getElem?_map, getElem?_delivered i (Nat.zero_le _)]

theorem placeFrom_lt {i : Nat} :
    placeFrom pSrc 0 i < pSrc.length ↔ i < (characters pSrc).length := by
  have hindex : i < (characters pSrc).length ↔ (characters pSrc)[i]?.isSome = true := by simp
  rw [hindex, getElem?_characters, isSome_map]
  constructor
  · intro hlt
    obtain ⟨v, q, hget⟩ := hb_cdpUTF8_get_of_lt hlt
    rw [hget]
    rfl
  · intro hsome
    by_contra hge
    rw [hb_cdpUTF8_get_end (Nat.le_of_not_lt hge)] at hsome
    exact absurd hsome (by simp)

theorem placeFrom_add (i k : Nat) :
    placeFrom pSrc (placeFrom pSrc nIndex i) k = placeFrom pSrc nIndex (i + k) := by
  induction i generalizing nIndex with
  | zero => rw [placeFrom_zero, Nat.zero_add]
  | succ i ih =>
    rw [Nat.succ_add]
    rcases hb_cdpUTF8_get_or_end pSrc nIndex with ⟨v, q, hget⟩ | hge
    · rw [placeFrom_succ hget, placeFrom_succ hget]
      exact ih
    · rw [placeFrom_end hge, placeFrom_end hge]
      cases k with
      | zero => rfl
      | succ k => exact placeFrom_end (le_refl _) k

theorem hb_cdpUTF8StringSubstr_eq (nFrom nCount : Nat) :
    hb_cdpUTF8StringSubstr pSrc nFrom nCount =
      if 0 < nCount ∧ nFrom < (characters pSrc).length then
        some (charactersSlice pSrc nFrom (nFrom + nCount))
      else none := by
  unfold hb_cdpUTF8StringSubstr
  have hskip : (skipLoop pSrc ⟨0, 0, 0⟩ nFrom).nPos = placeFrom pSrc 0 nFrom :=
    skipLoop_place nFrom 0 (Nat.zero_le _)
  split
  · next hfull =>
    simp only
    rw [hskip]
    split
    · next hlt =>
      have hcount := skipLoop_place nCount (skipLoop pSrc ⟨0, 0, 0⟩ nFrom).wc (Nat.le_of_lt hlt)
      rw [placeFrom_add] at hcount
      rw [if_pos ⟨hfull.1, placeFrom_lt.mp hlt⟩, hcount]
      rfl
    · next hge => rw [if_neg fun h => hge (placeFrom_lt.mpr h.2)]
  · next hempty =>
    rw [if_neg fun h => hempty ⟨h.1, Nat.lt_of_le_of_lt (Nat.zero_le _) (placeFrom_lt.mpr h.2)⟩]

theorem hb_cdpUTF8StringPeek_eq (nPos : Nat) :
    hb_cdpUTF8StringPeek pSrc nPos =
      if missing pSrc ⟨placeFrom pSrc 0 nPos, 0, 0⟩ = 0 then (characters pSrc).getD nPos 0
      else 0 := by
  unfold hb_cdpUTF8StringPeek
  have hskip : (skipLoop pSrc ⟨0, 0, 0⟩ nPos).nPos = placeFrom pSrc 0 nPos :=
    skipLoop_place nPos 0 (Nat.zero_le _)
  simp only
  rw [getD_eq_getElem?_getD, getElem?_characters, hskip]
  split
  · next hlt =>
    obtain ⟨v, q, hget⟩ := hb_cdpUTF8_get_of_lt hlt
    rw [peekLoop_get ((getLoop_start _ _).trans hget), missing_start, hget]
    rfl
  · next hge =>
    rw [hb_cdpUTF8_get_end (Nat.le_of_not_lt hge)]
    exact (ite_self 0).symm

end Agreement

end Harbour.Rtl.Utf8Strings
