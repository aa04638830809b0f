import Mathlib.Order.Basic
import Harbour.Rtl.CdpCollateKeys

/-!
The search for a key in the pages of a CDX tag.
-/

namespace Harbour.Rdd.CdxSeek

open Library.Bytes List Rtl.CdpCollate

section Compare

inductive CmpMode where
  | exact
  | beginning
  deriving DecidableEq

structure CdxTag where
  uiType : UInt8
  uiLen : Nat
  sortTab : Option (UInt8 → UInt8)
  fSortCDP : Bool
  cdPage : CodePage

/-- The comparison up to the shorter length by a table; that of `memcmp` by the bytes. -/
def tabCompare (sortTab : UInt8 → UInt8) : Bytes → Bytes → ℤ
  | x :: val1, y :: val2 =>
    if sortTab x = sortTab y then tabCompare sortTab val1 val2
    else ((sortTab x).toNat : ℤ) - (sortTab y).toNat
  | _, _ => 0

def lengthCompare (iResult : ℤ) (len1 len2 : Nat) (exact : Bool) : ℤ :=
  if iResult = 0 then
    if len1 > len2 then 1 else if len1 < len2 ∧ exact then -1 else 0
  else if iResult > 0 then 1 else -1

variable (tag : CdxTag)

def CdxTag.byCodePage : Bool := tag.uiType = 67 ∧ tag.sortTab = none ∧ tag.fSortCDP

/-- `hb_cdxValCompare` in the modes without dates. -/
def hb_cdxValCompare (val1 val2 : Bytes) (iMode : CmpMode) : ℤ :=
  if tag.uiType = 67 then
    if 0 < min val1.length val2.length ∧ tag.sortTab = none ∧ tag.fSortCDP then
      -cdpcmp tag.cdPage val2 val1 false
    else
      lengthCompare (tabCompare (tag.sortTab.getD id) val1 val2) val1.length val2.length
        (iMode = .exact)
  else lengthCompare (tabCompare id val1 val2) val1.length val2.length true

end Compare

structure Entry where
  val : Bytes
  recNo : Nat
  deriving DecidableEq, Inhabited

inductive Page where
  | leaf (keys : List Entry)
  | branch (keys : List Entry) (child : Nat → Page)

namespace Page

def entries : Page → List Entry
  | leaf keys => keys
  | branch keys child => (range keys.length).flatMap fun i => (child i).entries

def Valid : Page → Prop
  | leaf _ => True
  | branch keys child =>
    keys ≠ [] ∧ ∀ i < keys.length, (child i).Valid ∧ (child i).entries.getLast? = keys[i]?

/-- The entries before the place that the current keys of the pages lead to. -/
def position : Page → List Nat → Nat
  | leaf _, iCurKey :: _ => iCurKey
  | branch _ child, iCurKey :: path =>
    ((range iCurKey).flatMap fun i => (child i).entries).length +
      (child iCurKey).position path
  | _, [] => 0

def curKey : Page → List Nat → Option Entry
  | leaf keys, iCurKey :: _ => keys[iCurKey]?
  | branch _ child, iCurKey :: path => (child iCurKey).curKey path
  | _, [] => none

end Page

section Seek

abbrev CDX_IGNORE_REC_NUM : Nat := 0

abbrev CDX_MAX_REC_NUM : Nat := 0xFFFFFFFF

structure CdxKey where
  val : Bytes
  mode : CmpMode

variable (tag : CdxTag) (pKey : CdxKey) (ulKeyRec : Nat)

def valueCompare (entry : Entry) : ℤ := hb_cdxValCompare tag pKey.val entry.val pKey.mode

def keyCompare (entry : Entry) : ℤ :=
  let k := valueCompare tag pKey entry
  if k = 0 ∧ ulKeyRec ≠ CDX_MAX_REC_NUM ∧ ulKeyRec ≠ CDX_IGNORE_REC_NUM then
    if ulKeyRec > entry.recNo then 1 else if ulKeyRec < entry.recNo then -1 else 0
  else k

def loopCompare (entry : Entry) : ℤ :=
  if valueCompare tag pKey entry = 0 ∧ ulKeyRec = CDX_MAX_REC_NUM then 1
  else keyCompare tag pKey ulKeyRec entry

/-- The loop: the key it ends at, the last key it has compared, and that comparison. -/
def seekLoop (compare : Nat → ℤ) (l r : Nat) (n : Option Nat) (k : ℤ) : Nat × Option Nat × ℤ :=
  if l < r then
    let n := (l + r) / 2
    let k := compare n
    if 0 < k then seekLoop compare (n + 1) r (some n) k else seekLoop compare l n (some n) k
  else (l, n, k)
termination_by r - l

/-- The result, and the current keys of the pages from this one down. -/
def hb_cdxPageSeekKey : Page → ℤ × List Nat
  | .leaf keys =>
    let k := if ulKeyRec = CDX_MAX_REC_NUM then -1 else 1
    if keys.length = 0 then (k, [0])
    else
      let (l, n, k) := seekLoop (fun n => loopCompare tag pKey ulKeyRec (keys.getD n default)) 0
        (keys.length - 1) none k
      let k := if n ≠ some l ∨ ulKeyRec = CDX_MAX_REC_NUM then
        keyCompare tag pKey ulKeyRec (keys.getD l default) else k
      if ulKeyRec = CDX_MAX_REC_NUM then
        if 0 < l ∧ k < 0 then (valueCompare tag pKey (keys.getD (l - 1) default), [l - 1])
        else (k, [l])
      else if 0 < k then (k, [l + 1])
      else (k, [l])
  | .branch keys child =>
    let k := if ulKeyRec = CDX_MAX_REC_NUM then -1 else 1
    if keys.length = 0 then (k, [0])
    else
      let (l, _, _) := seekLoop (fun n => loopCompare tag pKey ulKeyRec (keys.getD n default)) 0
        (keys.length - 1) none k
      let (k, path) := hb_cdxPageSeekKey (child l)
      if ulKeyRec = CDX_MAX_REC_NUM ∧ 0 < l ∧ k < 0 then
        let (k, path) := hb_cdxPageSeekKey (child (l - 1))
        (k, (l - 1) :: path)
      else (k, l :: path)

end Seek

section Order

variable (tag : CdxTag)

theorem lengthCompare_bounds (iResult : ℤ) (len1 len2 : Nat) (exact : Bool) :
    -1 ≤ lengthCompare iResult len1 len2 exact ∧ lengthCompare iResult len1 len2 exact ≤ 1 := by
  rw [lengthCompare]
  split_ifs <;> omega

section

variable (sortTab : UInt8 → UInt8)

include sortTab

theorem lengthCompare_tab_cons (exact : Bool) (x y : UInt8) (val1 val2 : Bytes) :
    lengthCompare (tabCompare sortTab (x :: val1) (y :: val2)) (x :: val1).length
        (y :: val2).length exact =
      if (sortTab x).toNat = (sortTab y).toNat then
        lengthCompare (tabCompare sortTab val1 val2) val1.length val2.length exact
      else if (sortTab x).toNat < (sortTab y).toNat then -1 else 1 := by
  rw [tabCompare]
  simp only [← UInt8.toNat_inj]
  split
  · simp only [lengthCompare, length_cons, gt_iff_lt, Nat.add_lt_add_iff_right]
  · rw [lengthCompare, if_neg (by omega)]
    split <;> split <;> first | rfl | omega

theorem lengthCompare_tab_anti (exact : Bool) (val a b : Bytes) (hlength : a.length = b.length)
    (hle : lengthCompare (tabCompare sortTab a b) a.length b.length true ≤ 0) :
    lengthCompare (tabCompare sortTab val b) val.length b.length exact ≤
      lengthCompare (tabCompare sortTab val a) val.length a.length exact := by
  induction val generalizing a b with
  | nil => simp only [tabCompare, hlength, le_refl]
  | cons x val ih =>
    cases a with
    | nil =>
      obtain rfl := eq_nil_of_length_eq_zero hlength.symm
      exact le_refl _
    | cons y a =>
      obtain ⟨z, b, rfl⟩ := exists_cons_of_length_pos
        (show 0 < b.length by rw [← hlength]; exact Nat.succ_pos _)
      have hlower :=
        (lengthCompare_bounds (tabCompare sortTab val a) val.length a.length exact).1
      have hupper :=
        (lengthCompare_bounds (tabCompare sortTab val b) val.length b.length exact).2
      rw [lengthCompare_tab_cons] at hle
      rw [lengthCompare_tab_cons, lengthCompare_tab_cons]
      rcases Nat.lt_trichotomy (sortTab y).toNat (sortTab z).toNat with hlt | heq | hgt
      · split_ifs <;> omega
      · rw [if_pos heq] at hle
        have hrest := ih a b (Nat.succ.inj hlength) hle
        split_ifs <;> omega
      · rw [if_neg (by omega), if_neg (by omega)] at hle
        omega

theorem lengthCompare_tab_eq (val a : Bytes)
    (hzero : lengthCompare (tabCompare sortTab val a) val.length a.length true = 0) :
    val.map sortTab = a.map sortTab := by
  induction val generalizing a with
  | nil =>
    cases a with
    | nil => rfl
    | cons y a => simp [lengthCompare, tabCompare] at hzero
  | cons x val ih =>
    cases a with
    | nil => simp [lengthCompare, tabCompare] at hzero
    | cons y a =>
      rw [lengthCompare_tab_cons] at hzero
      split_ifs at hzero with heq
      · rw [map_cons, map_cons, ih a hzero, UInt8.toNat_inj.mp heq]
      · exact absurd hzero one_ne_zero

theorem lengthCompare_tab_self (a b : Bytes) (hsame : a.map sortTab = b.map sortTab)
    (exact : Bool) : lengthCompare (tabCompare sortTab a b) a.length b.length exact = 0 := by
  induction a generalizing b with
  | nil =>
    obtain rfl := map_eq_nil_iff.mp hsame.symm
    rfl
  | cons x a ih =>
    cases b with
    | nil => exact absurd hsame (cons_ne_nil _ _)
    | cons y b =>
      rw [map_cons, map_cons, List.cons.injEq] at hsame
      rw [lengthCompare_tab_cons, hsame.1, if_pos rfl, ih b hsame.2]

end

variable {tag}

section

variable {keys : Set Bytes} {val : Bytes}
  (hpages : tag.byCodePage → Collates (cdpcmp tag.cdPage · · false) keys val) {a b : Bytes}
  (ha : a ∈ keys) (hb : b ∈ keys) (hlength : a.length = b.length)

include hpages ha hb hlength

theorem hb_cdxValCompare_anti (hle : hb_cdxValCompare tag a b .exact ≤ 0) (iMode : CmpMode) :
    hb_cdxValCompare tag val b iMode ≤ hb_cdxValCompare tag val a iMode := by
  rw [hb_cdxValCompare] at hle
  rw [hb_cdxValCompare, hb_cdxValCompare]
  split_ifs at hle with hchar hpage
  · rw [if_pos hchar, if_pos hchar]
    rw [Nat.lt_min, ← hlength, and_self] at hpage
    have hcollates := hpages (by simp [CdxTag.byCodePage, hchar, hpage])
    by_cases hval : 0 < val.length
    · rw [if_pos ⟨Nat.lt_min.mpr ⟨hval, hlength ▸ hpage.1⟩, hpage.2⟩,
        if_pos ⟨Nat.lt_min.mpr ⟨hval, hpage.1⟩, hpage.2⟩]
      exact neg_le_neg (hcollates.mono a ha b hb (by omega))
    · obtain rfl := eq_nil_of_length_eq_zero (Nat.eq_zero_of_not_pos hval)
      simp only [length_nil, Nat.zero_min, Nat.lt_irrefl, false_and, if_false, tabCompare,
        hlength, le_refl]
  · rw [if_pos hchar, if_pos hchar]
    have hanti := lengthCompare_tab_anti (tag.sortTab.getD id) (iMode = .exact) val a b hlength
      (by simpa using hle)
    by_cases hkeys : 0 < a.length
    · have hnone : ¬ (tag.sortTab = none ∧ tag.fSortCDP) := fun h =>
        hpage ⟨Nat.lt_min.mpr ⟨hkeys, hlength ▸ hkeys⟩, h⟩
      rw [if_neg fun h => hnone h.2, if_neg fun h => hnone h.2]
      exact hanti
    · rw [Nat.eq_zero_of_not_pos hkeys] at hlength
      simp only [← hlength, Nat.eq_zero_of_not_pos hkeys, Nat.min_zero, Nat.lt_irrefl, false_and,
        if_false] at hanti ⊢
      exact hanti
  · rw [if_neg hchar, if_neg hchar]
    exact lengthCompare_tab_anti id true val a b hlength hle

end

theorem lengthCompare_self (iResult : ℤ) (len : Nat) (exact : Bool) :
    lengthCompare iResult len len exact = lengthCompare iResult len len true := by
  simp only [lengthCompare, gt_iff_lt, Nat.lt_irrefl, false_and, if_false]

theorem lengthCompare_tab_tie {sortTab : UInt8 → UInt8} {val a b : Bytes} {exact : Bool}
    (hlength : a.length = b.length) (hfull : val.length = a.length ∨ exact = true)
    (ha : lengthCompare (tabCompare sortTab val a) val.length a.length exact = 0)
    (hb : lengthCompare (tabCompare sortTab val b) val.length b.length exact = 0) (exact' : Bool) :
    lengthCompare (tabCompare sortTab a b) a.length b.length exact' = 0 := by
  have hexact : ∀ c : Bytes, c.length = a.length →
      lengthCompare (tabCompare sortTab val c) val.length c.length exact = 0 →
      lengthCompare (tabCompare sortTab val c) val.length c.length true = 0 := by
    intro c hc hzero
    obtain hval | rfl := hfull
    · rw [hc, ← hval, lengthCompare_self] at hzero
      rwa [hc, ← hval]
    · exact hzero
  have ha' := lengthCompare_tab_eq _ _ _ (hexact a rfl ha)
  have hb' := lengthCompare_tab_eq _ _ _ (hexact b hlength.symm hb)
  exact lengthCompare_tab_self _ _ _ (ha'.symm.trans hb') _

theorem hb_cdxValCompare_tie {keys : Set Bytes} {a b val : Bytes} {iMode : CmpMode}
    (hpages : tag.byCodePage → Collates (cdpcmp tag.cdPage · · false) keys val)
    (ha : a ∈ keys) (hb : b ∈ keys) (hlength : a.length = b.length)
    (hfull : val.length = a.length ∨ iMode = .exact ∧ ¬ tag.byCodePage)
    (hza : hb_cdxValCompare tag val a iMode = 0) (hzb : hb_cdxValCompare tag val b iMode = 0)
    (hle : hb_cdxValCompare tag a b .exact ≤ 0) : hb_cdxValCompare tag a b .exact = 0 := by
  rw [hb_cdxValCompare] at hza hzb hle ⊢
  by_cases hchar : tag.uiType = 67
  · rw [if_pos hchar] at hza hzb hle ⊢
    by_cases hpage : tag.sortTab = none ∧ tag.fSortCDP
    · have hby : tag.byCodePage := by simp [CdxTag.byCodePage, hchar, hpage]
      by_cases hkeys : 0 < a.length
      · have hval : val.length = a.length := hfull.resolve_right fun h => h.2 hby
        simp only [hval, ← hlength, Nat.min_self, hkeys, hpage, and_self, if_true,
          neg_eq_zero] at hza hzb hle ⊢
        exact (hpages hby).tie a ha b hb hza hzb hval.symm (by omega)
      · have hnil := eq_nil_of_length_eq_zero (Nat.eq_zero_of_not_pos hkeys)
        subst hnil
        obtain rfl := eq_nil_of_length_eq_zero hlength.symm
        simp [tabCompare, lengthCompare]
    · simp only [hpage, and_false, if_false] at hza hzb ⊢
      refine lengthCompare_tab_tie hlength ?_ hza hzb _
      exact hfull.imp_right fun h => by simp [h.1]
  · rw [if_neg hchar] at hza hzb ⊢
    exact lengthCompare_tab_tie hlength (Or.inr rfl) hza hzb _

end Order

end Harbour.Rdd.CdxSeek
