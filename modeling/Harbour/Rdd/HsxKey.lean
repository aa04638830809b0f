import Mathlib.Data.List.GetD
import Harbour.Library.BitSignature

/-!
The keys of a HiPer-SEEK index, and how a text is compared with the text that is sought.
-/

namespace Harbour.Rdd.HsxKey

open Library.BitSignature List

section Model

/-- `hb_hsxHashArray`, for the pairs of the letters from A to Z. -/
def hsxHashArray : List Nat :=
  [7, 102, 222, 185, 19, 48, 167, 4, 173, 4, 79, 251, 194,
    250, 7, 187, 7, 251, 209, 249, 41, 101, 39, 29, 71, 40,
  156, 3, 7, 7, 149, 7, 7, 7, 172, 7, 7, 100, 7,
    7, 148, 7, 7, 107, 38, 7, 126, 7, 7, 7, 7, 7,
  234, 7, 38, 7, 229, 7, 7, 208, 145, 7, 116, 106, 7,
    7, 253, 7, 7, 166, 40, 237, 129, 7, 7, 7, 63, 4,
  125, 4, 4, 29, 253, 7, 28, 7, 226, 7, 7, 3, 3,
    4, 128, 7, 7, 124, 44, 4, 115, 7, 4, 7, 37, 7,
  193, 37, 236, 198, 114, 94, 105, 3, 44, 7, 4, 245, 159,
    251, 93, 151, 36, 248, 253, 252, 36, 70, 28, 147, 19, 4,
  92, 7, 7, 7, 123, 78, 7, 7, 180, 7, 7, 150, 7,
    7, 122, 7, 7, 104, 4, 35, 55, 7, 7, 7, 7, 7,
  121, 7, 7, 7, 195, 7, 2, 86, 77, 7, 7, 85, 2,
    76, 55, 7, 7, 179, 27, 4, 54, 7, 7, 7, 63, 7,
  197, 7, 7, 7, 228, 7, 7, 7, 164, 7, 7, 18, 4,
    1, 220, 7, 7, 99, 7, 62, 35, 7, 7, 7, 169, 7,
  192, 98, 250, 207, 155, 143, 158, 1, 7, 7, 1, 212, 163,
    248, 250, 97, 7, 178, 225, 252, 142, 120, 7, 4, 7, 84,
  4, 7, 7, 7, 34, 7, 7, 6, 6, 6, 6, 6, 6,
    6, 15, 6, 6, 6, 6, 6, 34, 6, 6, 6, 6, 6,
  15, 6, 6, 6, 135, 6, 6, 6, 69, 6, 6, 4, 6,
    14, 14, 6, 6, 6, 14, 6, 6, 6, 6, 6, 27, 6,
  253, 4, 13, 62, 251, 18, 4, 6, 255, 6, 26, 213, 17,
    6, 238, 13, 6, 6, 83, 162, 154, 12, 6, 6, 134, 6,
  216, 54, 6, 6, 254, 6, 6, 6, 231, 6, 6, 6, 68,
    12, 223, 140, 6, 6, 4, 6, 146, 6, 6, 6, 4, 6,
  230, 6, 204, 202, 252, 53, 246, 6, 227, 4, 53, 4, 4,
    43, 205, 4, 6, 11, 201, 251, 75, 52, 11, 6, 33, 4,
  74, 96, 161, 171, 33, 73, 168, 17, 133, 4, 10, 243, 244,
    248, 82, 219, 6, 250, 210, 215, 191, 52, 119, 51, 32, 4,
  186, 6, 6, 6, 232, 6, 6, 224, 160, 6, 6, 190, 6,
    6, 217, 26, 6, 189, 32, 90, 67, 6, 6, 6, 51, 6,
  6, 6, 6, 6, 6, 6, 6, 6, 6, 6, 6, 6, 6,
    6, 6, 6, 6, 6, 6, 111, 6, 6, 6, 6, 6, 6,
  249, 89, 117, 113, 250, 47, 110, 47, 252, 6, 46, 25, 199,
    112, 249, 109, 6, 139, 183, 144, 138, 50, 10, 6, 153, 6,
  81, 6, 175, 5, 218, 9, 5, 170, 247, 5, 43, 66, 50,
    16, 206, 177, 4, 5, 176, 252, 182, 5, 9, 5, 61, 5,
  242, 5, 16, 4, 249, 5, 5, 221, 248, 5, 5, 25, 8,
    5, 241, 5, 5, 250, 49, 132, 152, 5, 4, 5, 181, 4,
  80, 95, 88, 61, 60, 8, 46, 5, 60, 5, 5, 214, 196,
    184, 45, 131, 5, 203, 188, 174, 5, 5, 5, 4, 5, 5,
  137, 5, 5, 5, 200, 5, 5, 5, 130, 5, 5, 5, 5,
    5, 49, 5, 5, 5, 5, 5, 4, 5, 5, 5, 5, 5,
  136, 5, 5, 5, 65, 5, 5, 31, 59, 5, 4, 4, 5,
    23, 58, 5, 5, 4, 4, 5, 5, 5, 5, 5, 5, 5,
  4, 5, 23, 5, 31, 5, 5, 5, 24, 5, 5, 5, 5,
    5, 22, 22, 5, 5, 5, 45, 5, 5, 5, 5, 30, 5,
  30, 21, 42, 72, 21, 5, 4, 5, 4, 4, 4, 127, 20,
    103, 20, 87, 4, 64, 108, 4, 4, 4, 4, 4, 4, 4,
  42, 4, 4, 4, 56, 4, 4, 4, 24, 4, 4, 4, 4,
    4, 41, 4, 4, 4, 4, 4, 4, 4, 4, 4, 3, 4]

/-- The settings of an index, with the sizes that `hb_hsxCreate` allows. -/
structure HsxInfo where
  uiRecordSize : Nat
  fIgnoreCase : Bool
  iFilterType : Nat
  fUseHash : Bool
  size : uiRecordSize = 16 ∨ uiRecordSize = 32 ∨ uiRecordSize = 64
  sizeOfHash : fUseHash = true → uiRecordSize = 32

def hsxSettings (iKeySize : Int) (fIgnoreCase : Bool) (iFilter : Int) : HsxInfo :=
  let iKeySize := if iKeySize < 1 ∨ 3 < iKeySize then 2 else iKeySize
  let iFilter := if iFilter < 1 ∨ 3 < iFilter then 1 else iFilter
  have hkey : iKeySize = 1 ∨ iKeySize = 2 ∨ iKeySize = 3 := by
    change (if _ then _ else _) = _ ∨ (if _ then _ else _) = _ ∨ (if _ then _ else _) = _
    split <;> omega
  { uiRecordSize := 8 <<< iKeySize.toNat
    fIgnoreCase
    iFilterType := iFilter.toNat
    fUseHash := fIgnoreCase && iKeySize == 2 && iFilter != 3
    size := by rcases hkey with h | h | h <;> simp [h]
    sizeOfHash := by
      intro h
      simp only [Bool.and_eq_true, beq_iff_eq] at h
      simp [h.1.2] }

variable (p : HsxInfo) (upper : UInt8 → UInt8)

/-- A character without its case; `upper` is the table of the code page. -/
def HsxInfo.fold (c : UInt8) : UInt8 :=
  if p.fIgnoreCase then
    if p.iFilterType = 3 then upper c
    else if 97 ≤ c ∧ c ≤ 122 then c - 32 else c
  else c

def HsxInfo.filter (c : UInt8) : UInt8 :=
  if p.iFilterType = 1 then
    let c := c &&& 0x7F
    if c < 0x20 ∨ c = 0x7F then 0x20 else c
  else c

def HsxInfo.bitNum (c1 c2 : UInt8) : Nat :=
  if c1 = 32 ∨ c2 = 32 ∨ c1 = 0 ∨ c2 = 0 then 0
  else if p.fUseHash ∧ 65 ≤ c1 ∧ c1 ≤ 90 ∧ 65 ≤ c2 ∧ c2 ≤ 90 then
    hsxHashArray.getD ((c1.toNat - 65) * 26 + (c2.toNat - 65)) 0 + 1
  else
    let iBitNum := (c1.toNat + c2.toNat * 78) % (p.uiRecordSize * 8 - 1) + 1
    if iBitNum = 1 then iBitNum + 1 else iBitNum

def hsxHashVal (c1 c2 : UInt8) : Nat :=
  p.bitNum (p.filter (p.fold upper c1)) (p.filter (p.fold upper c2))

def hsxHashLoop : UInt8 → Bytes → Bytes → Bytes
  | _, [], pKey => pKey
  | c1, c2 :: pStr, pKey =>
    let iBitNum := hsxHashVal p upper c1 c2
    hsxHashLoop c2 pStr (if iBitNum = 0 then pKey else setBit pKey (iBitNum - 1))

def hsxHashStr : Bytes → Bytes
  | [] => List.replicate p.uiRecordSize 0
  | c1 :: pStr => hsxHashLoop p upper c1 pStr (List.replicate p.uiRecordSize 0)

def hsxSame : (pSub pStr : Bytes) → Bool
  | [], _ => true
  | _ :: _, [] => false
  | c1 :: pSub, c2 :: pStr => p.fold upper c1 == p.fold upper c2 && hsxSame pSub pStr

def hsxStrCmpLoop (pSub : Bytes) : Bytes → Bool
  | [] => decide (pSub.length ≤ 0) && hsxSame p upper pSub []
  | c :: pStr =>
    if pSub.length ≤ pStr.length + 1 then
      hsxSame p upper pSub (c :: pStr) || hsxStrCmpLoop pSub pStr
    else false

def hsxStrCmp (pSub pStr : Bytes) : Bool :=
  if pSub = [] then false else hsxStrCmpLoop p upper pSub pStr

/-- The modes of `hb_hsxVerify`; every other number is the phrase. -/
inductive VerifyType where
  | verifyBegin
  | verifyEnd
  | verifyAnd
  | verifyPhrase
deriving DecidableEq, Repr

def hsxVerifyAnd (szText : Bytes) : Bytes → Bool
  | [] => true
  | c :: szSub =>
    let rest := (c :: szSub).dropWhile (· = 32)
    let word := rest.takeWhile (· ≠ 32)
    if hsxStrCmp p upper word szText then hsxVerifyAnd szText ((rest.drop word.length).drop 1)
    else false
termination_by szSub => szSub.length
decreasing_by
  have hle := (dropWhile_sublist (fun d => decide (d = 32)) (l := c :: szSub)).length_le
  simp only [length_drop, length_cons] at hle ⊢
  omega

/-- `hb_hsxVerify` of a text and a sought text, true for `HSX_SUCCESS`. -/
def hsxVerify (szText szSub : Bytes) (iType : VerifyType) : Bool :=
  if szText.length < szSub.length ∨ szSub.length = 0 then false
  else match iType with
    | .verifyBegin => hsxStrCmp p upper szSub (szText.take szSub.length)
    | .verifyEnd => hsxStrCmp p upper szSub (szText.drop (szText.length - szSub.length))
    | .verifyAnd => hsxVerifyAnd p upper szText szSub
    | .verifyPhrase => hsxStrCmp p upper szSub szText

end Model

section Keys

variable {p : HsxInfo} {upper : UInt8 → UInt8} {c1 c2 a b : UInt8} {pStr pKey pText : Bytes}

theorem hsxHashArray_bounds : ∀ n ∈ hsxHashArray, 1 ≤ n ∧ n ≤ 255 := by decide +kernel

theorem HsxInfo.bitNum_bounds (p : HsxInfo) (c1 c2 : UInt8) :
    p.bitNum c1 c2 = 0 ∨ 2 ≤ p.bitNum c1 c2 ∧ p.bitNum c1 c2 ≤ p.uiRecordSize * 8 := by
  have hsize := p.size
  unfold bitNum
  split
  · exact .inl rfl
  · split
    · rename_i hletters
      obtain ⟨hhash, hlow1, hhigh1, hlow2, hhigh2⟩ := hletters
      have hrecord := p.sizeOfHash hhash
      have hlt : (c1.toNat - 65) * 26 + (c2.toNat - 65) < hsxHashArray.length := by
        have hlength : hsxHashArray.length = 676 := by decide +kernel
        have hfirst : c1.toNat ≤ 90 := hhigh1
        have hsecond : c2.toNat ≤ 90 := hhigh2
        omega
      rw [getD_eq_getElem _ _ hlt]
      have hbounds := hsxHashArray_bounds _ (getElem_mem hlt)
      omega
    · have hmod : (c1.toNat + c2.toNat * 78) % (p.uiRecordSize * 8 - 1) <
          p.uiRecordSize * 8 - 1 := Nat.mod_lt _ (by omega)
      dsimp only
      split <;> omega

theorem hsxHashVal_bounds (p : HsxInfo) (upper : UInt8 → UInt8) (c1 c2 : UInt8) :
    hsxHashVal p upper c1 c2 = 0 ∨
      2 ≤ hsxHashVal p upper c1 c2 ∧ hsxHashVal p upper c1 c2 ≤ p.uiRecordSize * 8 :=
  p.bitNum_bounds _ _

theorem hsxHashLoop_length : (hsxHashLoop p upper c1 pStr pKey).length = pKey.length := by
  induction pStr generalizing c1 pKey with
  | nil => rfl
  | cons c2 pStr ih =>
    rw [hsxHashLoop, ih]
    split
    · rfl
    · exact setBit_length _ _

theorem hsxHashStr_length (p : HsxInfo) (upper : UInt8 → UInt8) (pStr : Bytes) :
    (hsxHashStr p upper pStr).length = p.uiRecordSize := by
  cases pStr with
  | nil => exact length_replicate
  | cons c1 pStr =>
    rw [hsxHashStr, hsxHashLoop_length]
    exact length_replicate

theorem hsxHashLoop_unmarked (h : pKey.getD 0 0 &&& 0x80 = 0) :
    (hsxHashLoop p upper c1 pStr pKey).getD 0 0 &&& 0x80 = 0 := by
  induction pStr generalizing c1 pKey with
  | nil => exact h
  | cons c2 pStr ih =>
    have hbounds := hsxHashVal_bounds p upper c1 c2
    apply ih
    split
    · exact h
    · exact setBit_top h (by omega)

theorem hsxHashStr_unmarked (p : HsxInfo) (upper : UInt8 → UInt8) (pStr : Bytes) :
    (hsxHashStr p upper pStr).getD 0 0 &&& 0x80 = 0 := by
  have hzero : (List.replicate p.uiRecordSize (0 : UInt8)).getD 0 0 &&& 0x80 = 0 := by
    rcases p.size with h | h | h <;> rw [h] <;> rfl
  cases pStr with
  | nil => exact hzero
  | cons c1 pStr => exact hsxHashLoop_unmarked hzero

theorem hsxHashLoop_keeps {n : Nat} (h : HasBit pKey n) :
    HasBit (hsxHashLoop p upper c1 pStr pKey) n := by
  induction pStr generalizing c1 pKey with
  | nil => exact h
  | cons c2 pStr ih =>
    apply ih
    split
    · exact h
    · exact h.setBit _

theorem hsxHashLoop_hasBit (hlength : pKey.length = p.uiRecordSize)
    (h : Adjacent (c1 :: pStr) a b) (hne : hsxHashVal p upper a b ≠ 0) :
    HasBit (hsxHashLoop p upper c1 pStr pKey) (hsxHashVal p upper a b - 1) := by
  induction pStr generalizing c1 pKey with
  | nil => exact absurd h (not_adjacent_singleton _ _ _)
  | cons c2 pStr ih =>
    rw [hsxHashLoop]
    rcases adjacent_cons_cons.mp h with ⟨rfl, rfl⟩ | h
    · have hbounds := hsxHashVal_bounds p upper a b
      rw [if_neg hne]
      apply hsxHashLoop_keeps
      apply hasBit_setBit
      omega
    · apply ih
      · split
        · exact hlength
        · rw [setBit_length, hlength]
      · exact h

theorem hsxHashStr_hasBit (h : Adjacent pStr a b) (hne : hsxHashVal p upper a b ≠ 0) :
    HasBit (hsxHashStr p upper pStr) (hsxHashVal p upper a b - 1) := by
  cases pStr with
  | nil => exact absurd h.length_le (by simp)
  | cons c1 pStr => exact hsxHashLoop_hasBit length_replicate h hne

theorem hsxHashLoop_covered (hcovers : Covers pText pKey)
    (h : ∀ a b, Adjacent (c1 :: pStr) a b → hsxHashVal p upper a b ≠ 0 →
      HasBit pText (hsxHashVal p upper a b - 1)) :
    Covers pText (hsxHashLoop p upper c1 pStr pKey) := by
  induction pStr generalizing c1 pKey with
  | nil => exact hcovers
  | cons c2 pStr ih =>
    apply ih
    · split
      · exact hcovers
      · rename_i hne
        exact hcovers.setBit (h c1 c2 (adjacent_cons_cons.mpr (.inl ⟨rfl, rfl⟩)) hne)
    · exact fun a b hab => h a b (adjacent_cons_cons.mpr (.inr hab))

theorem hsxHashStr_covered (h : ∀ a b, Adjacent pStr a b → hsxHashVal p upper a b ≠ 0 →
      HasBit pText (hsxHashVal p upper a b - 1)) : Covers pText (hsxHashStr p upper pStr) := by
  cases pStr with
  | nil => exact covers_replicate _ _
  | cons c1 pStr => exact hsxHashLoop_covered (covers_replicate _ _) h

end Keys

section Verify

variable {p : HsxInfo} {upper : UInt8 → UInt8} {pSub pStr szText szSub : Bytes} {a b : UInt8}

theorem hsxHashVal_congr {a' b' : UInt8} (ha : p.fold upper a' = p.fold upper a)
    (hb : p.fold upper b' = p.fold upper b) :
    hsxHashVal p upper a' b' = hsxHashVal p upper a b := by
  rw [hsxHashVal, ha, hb, hsxHashVal]

theorem hsxSame_iff : hsxSame p upper pSub pStr = true ↔
    pSub.map (p.fold upper) <+: pStr.map (p.fold upper) := by
  induction pSub generalizing pStr with
  | nil => simp [hsxSame]
  | cons c1 pSub ih =>
    cases pStr with
    | nil => simp [hsxSame]
    | cons c2 pStr =>
      rw [hsxSame, Bool.and_eq_true, beq_iff_eq, map_cons, map_cons,
        cons_prefix_cons, ih]

theorem hsxStrCmpLoop_iff : hsxStrCmpLoop p upper pSub pStr = true ↔
    pSub.map (p.fold upper) <:+: pStr.map (p.fold upper) := by
  induction pStr with
  | nil => cases pSub <;> simp [hsxStrCmpLoop, hsxSame]
  | cons c pStr ih =>
    rw [hsxStrCmpLoop]
    split
    · rw [Bool.or_eq_true, hsxSame_iff, ih, map_cons, infix_cons_iff]
    · rename_i hlong
      refine iff_of_false (by simp) fun h => hlong ?_
      simpa using h.length_le

theorem hsxStrCmp_iff : hsxStrCmp p upper pSub pStr = true ↔
    pSub ≠ [] ∧ pSub.map (p.fold upper) <:+: pStr.map (p.fold upper) := by
  rw [← hsxStrCmpLoop_iff, hsxStrCmp]
  split <;> simp_all

theorem hsxStrCmp_hasBit (hfound : pSub.map (p.fold upper) <:+: szText.map (p.fold upper))
    (hpair : Adjacent pSub a b) (hne : hsxHashVal p upper a b ≠ 0) :
    HasBit (hsxHashStr p upper szText) (hsxHashVal p upper a b - 1) := by
  have hfolded : Adjacent (szText.map (p.fold upper)) (p.fold upper a) (p.fold upper b) :=
    (hpair.map (p.fold upper)).trans hfound
  obtain ⟨a', b', htext, ha, hb⟩ := adjacent_of_map hfolded
  have hsame : hsxHashVal p upper a' b' = hsxHashVal p upper a b := hsxHashVal_congr ha hb
  rw [← hsame]
  exact hsxHashStr_hasBit htext (hsame ▸ hne)

theorem hsxHashVal_blank (hblank : upper 32 = 32) (h : a = 32 ∨ b = 32) :
    hsxHashVal p upper a b = 0 := by
  have hfold : p.filter (p.fold upper 32) = 32 := by
    have hupper : p.fold upper 32 = 32 := by
      unfold HsxInfo.fold
      split_ifs
      · exact hblank
      · rename_i hletter
        exact absurd hletter.1 (by decide)
      · rfl
      · rfl
    rw [hupper]
    unfold HsxInfo.filter
    split_ifs <;> rfl
  unfold hsxHashVal HsxInfo.bitNum
  rcases h with rfl | rfl
  · rw [hfold, if_pos (.inl rfl)]
  · rw [hfold, if_pos (.inr (.inl rfl))]

theorem hsxVerifyAnd_hasBit (hblank : upper 32 = 32) (h : hsxVerifyAnd p upper szText szSub = true)
    (hpair : Adjacent szSub a b) (hne : hsxHashVal p upper a b ≠ 0) :
    HasBit (hsxHashStr p upper szText) (hsxHashVal p upper a b - 1) := by
  have ha : a ≠ 32 := fun heq => hne (hsxHashVal_blank hblank (.inl heq))
  have hb : b ≠ 32 := fun heq => hne (hsxHashVal_blank hblank (.inr heq))
  induction szSub using hsxVerifyAnd.induct p upper szText with
  | case1 => exact absurd hpair.length_le (by simp)
  | case2 c szSub rest word hword ih =>
    rw [hsxVerifyAnd] at h
    rw [if_pos hword] at h
    have hrest : Adjacent rest a b := hpair.dropWhile ha
    have hdrop : rest.drop word.length = rest.dropWhile (· ≠ 32) := by
      have happend := takeWhile_append_dropWhile (p := fun d => decide (d ≠ 32)) (l := rest)
      calc rest.drop word.length = (word ++ rest.dropWhile (· ≠ 32)).drop word.length := by
            rw [happend]
        _ = rest.dropWhile (· ≠ 32) := drop_left
    have hsplit : word ++ rest.drop word.length = rest := by
      rw [hdrop]
      exact takeWhile_append_dropWhile
    cases htail : rest.drop word.length with
    | nil =>
      rw [htail, append_nil] at hsplit
      exact hsxStrCmp_hasBit (hsxStrCmp_iff.mp hword).2 (hsplit ▸ hrest) hne
    | cons d tail =>
      have hd : d = 32 := by
        have hhead := head?_dropWhile_not (fun d => decide (d ≠ 32)) rest
        rw [← hdrop, htail] at hhead
        simpa using hhead
      rw [htail] at ih
      rw [htail, hd] at hsplit
      rw [← hsplit] at hrest
      rcases hrest.split ha hb with hin | hin
      · exact hsxStrCmp_hasBit (hsxStrCmp_iff.mp hword).2 hin hne
      · exact ih (by rw [← htail]; exact h) hin
  | case3 c szSub rest word hword =>
    rw [hsxVerifyAnd] at h
    rw [if_neg hword] at h
    cases h

theorem hsxVerify_covers (hblank : upper 32 = 32) (iType : VerifyType)
    (h : hsxVerify p upper szText szSub iType = true) :
    Covers (hsxHashStr p upper szText) (hsxHashStr p upper szSub) := by
  refine hsxHashStr_covered fun a b hpair hne => ?_
  unfold hsxVerify at h
  split at h
  · cases h
  · cases iType with
    | verifyBegin =>
      have hstart := take_prefix szSub.length szText
      have hfound := (hsxStrCmp_iff.mp h).2.trans (hstart.map _).isInfix
      exact hsxStrCmp_hasBit hfound hpair hne
    | verifyEnd =>
      have hrest := drop_suffix (szText.length - szSub.length) szText
      have hfound := (hsxStrCmp_iff.mp h).2.trans (hrest.map _).isInfix
      exact hsxStrCmp_hasBit hfound hpair hne
    | verifyAnd => exact hsxVerifyAnd_hasBit hblank h hpair hne
    | verifyPhrase => exact hsxStrCmp_hasBit (hsxStrCmp_iff.mp h).2 hpair hne

end Verify

end Harbour.Rdd.HsxKey
