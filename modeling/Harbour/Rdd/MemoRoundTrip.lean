import Harbour.Rdd.MemoSmt
import Harbour.Rdd.MemoSix
import Harbour.Rdd.MemoFlex

namespace Harbour.Rdd.MemoRoundTrip

open Library.Bytes Rtl.Cdpapi MemoItem MemoFormat MemoSmt MemoSix MemoFlex

/-- The cast of 32 stored bits to `long` gives the date back. -/
def DateKept (platform : Platform) (julian : Int) : Prop :=
  platform.long64 → 0 ≤ julian ∧ julian < 2 ^ 32

/-- The cast of 32 stored bits to `long` gives integers and dates back. -/
def LongKept (platform : Platform) : Item → Prop
  | .numInt value _ => platform.long64 → 0 ≤ value
  | .date julian => DateKept platform julian
  | _ => True

/-- FLEX stores the integers of 8 and of 16 bits apart. -/
def FlexLongKept (platform : Platform) : Item → Prop
  | .numInt value _ => platform.long64 → 0 ≤ value ∨ limInt16 value
  | .date julian => DateKept platform julian
  | _ => True

mutual

def NulBehind (iTrans : Trans) (u : Nat) : Item → Prop
  | .string value => strNul iTrans u value ≠ []
  | .array items => NulBehindItems iTrans u False items
  | _ => False

def NulBehindItems (iTrans : Trans) (u : Nat) : Prop → List Item → Prop
  | behind, [] => behind
  | _, item :: items => NulBehindItems iTrans u (NulBehind iTrans u item) items

end

section

variable {platform : Platform} {six : Bool} {iTrans : Trans}

theorem castLong_date {julian : Int} (h : Storable platform iTrans (.date julian)) :
    platform.castLong (unsigned 32 julian) = julian ↔ DateKept platform julian := by
  simp only [Storable] at h
  unfold Platform.castLong DateKept
  cases hlong : platform.long64 with
  | false =>
    simp only [hlong, Bool.false_eq_true, if_false] at h ⊢
    simp [signed_unsigned (show 0 < 32 by decide) h.1 h.2]
  | true =>
    simp only [if_true, forall_const]
    constructor
    · intro hcast
      have hlt := unsigned_lt 32 julian
      omega
    · rintro ⟨hnonneg, hlt⟩
      exact unsigned_of_nonneg 32 hnonneg hlt

theorem castLong_numInt {value : Int} {length : Nat}
    (h : Storable platform iTrans (.numInt value length)) :
    platform.castLong (unsigned 32 value) = value ↔ (platform.long64 → 0 ≤ value) := by
  simp only [Storable] at h
  unfold Platform.castLong
  cases hlong : platform.long64 with
  | false => simp [signed_unsigned (show 0 < 32 by decide) h.1 h.2]
  | true =>
    simp only [if_true, forall_const]
    constructor
    · intro hcast
      omega
    · intro hnonneg
      exact unsigned_of_nonneg 32 hnonneg (by omega)

theorem spill_eq_nil_iff {layout : Layout} {u : Nat} (h : layout.leafSpill = strSpill iTrans u)
    (item : Item) : layout.spill item = [] ↔ ¬ NulBehind iTrans u item := by
  have hitems : ∀ (items : List Item) (bytes : Bytes) (behind : Prop),
      (∀ item ∈ items, layout.spill item = [] ↔ ¬ NulBehind iTrans u item) →
      (bytes = [] ↔ ¬ behind) →
      (layout.itemsSpill bytes items = [] ↔ ¬ NulBehindItems iTrans u behind items) := by
    intro items
    induction items with
    | nil => exact fun _ _ _ h => h
    | cons item items ih =>
      intro bytes behind hall _
      exact ih _ _ (fun item hitem => hall item (by simp [hitem])) (hall item (by simp))
  induction item using Item.inductionOn with
  | array items ih =>
    exact hitems items [] False ih (by simp)
  | leaf item hitem =>
    rw [layout.spill_leaf hitem, h]
    cases item with
    | string value => rw [strSpill, NulBehind, not_not]
    | array items => exact absurd rfl (hitem items)
    | _ => simp [strSpill, NulBehind]

theorem everywhere_congr {p q : Item → Prop} {item : Item}
    (hstorable : item.Everywhere (Storable platform iTrans))
    (h : ∀ item, Storable platform iTrans item → (p item ↔ q item)) :
    item.Everywhere p ↔ item.Everywhere q := by
  induction item using Item.inductionOn with
  | array items ih =>
    rw [Item.everywhere_array] at hstorable ⊢
    rw [Item.everywhere_array, h _ hstorable.1]
    refine and_congr_right fun _ => forall₂_congr fun item hitem => ?_
    exact ih item hitem (hstorable.2 item hitem)
  | leaf item hitem =>
    rw [Item.everywhere_leaf hitem] at hstorable ⊢
    rw [Item.everywhere_leaf hitem, h _ hstorable]

section

variable {item : Item} (hstorable : Storable platform iTrans item)

include hstorable

theorem smt_kept :
    ((∀ items, item ≠ .array items) → (smtLeafBack platform item).plain = item.plain) ↔
      LongKept platform item := by
  cases item with
  | array items => simp [LongKept]
  | numInt value length =>
    simp [smtLeafBack, LongKept, itemPutNInt, Item.plain, castLong_numInt hstorable]
  | date julian => simp [smtLeafBack, LongKept, Item.plain, castLong_date hstorable]
  | double dVal iWidth iDec =>
    have hvalue := leValue_double dVal
    simp [smtLeafBack, LongKept, readSMTDouble, smtDoubleBytes, itemPutNDLen, Item.plain, hvalue]
  | _ => simp [smtLeafBack, LongKept]

theorem six_kept :
    ((∀ items, item ≠ .array items) → (sixLeafBack platform item).plain = item.plain) ↔
      LongKept platform item := by
  cases item with
  | array items => simp [LongKept]
  | numInt value length =>
    simp [sixLeafBack, LongKept, itemPutNL, Item.plain, castLong_numInt hstorable]
  | date julian => simp [sixLeafBack, LongKept, Item.plain, castLong_date hstorable]
  | double dVal iWidth iDec => simp [sixLeafBack, LongKept, itemPutNDLen, Item.plain]
  | _ => simp [sixLeafBack, LongKept]

theorem flex_kept :
    ((∀ items, item ≠ .array items) → (flexLeafBack platform item).plain = item.plain) ↔
      FlexLongKept platform item := by
  cases item with
  | array items => simp [FlexLongKept]
  | numInt value length =>
    simp only [flexLeafBack, FlexLongKept]
    split_ifs with hlim
    · have hkept : 0 ≤ value ∨ limInt16 value = true := by
        simp only [limInt8, limInt16, decide_eq_true_eq] at hlim ⊢
        omega
      simp [itemPutNILen, Item.plain, hkept]
    · have h16 : limInt16 value = false := by simpa using (not_or.mp hlim).2
      simp [itemPutNLLen, Item.plain, castLong_numInt hstorable, h16]
  | date julian => simp [flexLeafBack, FlexLongKept, Item.plain, castLong_date hstorable]
  | double dVal iWidth iDec => simp [flexLeafBack, FlexLongKept, itemPutNDLen, Item.plain]
  | _ => simp [flexLeafBack, FlexLongKept]

end

theorem noWideText_narrow {item : Item} (h : ∀ vmCDP, iTrans ≠ .unicode vmCDP) :
    item.Everywhere (NoWideText iTrans) := by
  have hleaf : ∀ item, NoWideText iTrans item := by
    intro item
    cases item with
    | string value =>
      cases iTrans with
      | unicode vmCDP => exact absurd rfl (h vmCDP)
      | _ => trivial
    | _ => trivial
  induction item using Item.inductionOn with
  | array items ih => exact Item.everywhere_array.mpr ⟨hleaf _, ih⟩
  | leaf item hitem => exact (Item.everywhere_leaf hitem).mpr (hleaf item)

theorem roundTrips_format (format : Trans → Format) (layout : Trans → Layout) {u : Nat}
    {kept : Item → Prop}
    (hfollows : Faithful iTrans → Follows (format iTrans) (layout iTrans) platform iTrans)
    (hmisplaces : ∀ vmCDP, Separates vmCDP →
      Misplaces (format (.unicode vmCDP)) (layout (.unicode vmCDP)) platform vmCDP)
    (hspill : (layout iTrans).leafSpill = strSpill iTrans u)
    (hkept : ∀ item, Storable platform iTrans item →
      (((∀ items, item ≠ .array items) → ((layout iTrans).leafBack item).plain = item.plain) ↔
        kept item)) (htrans : Faithful iTrans) {item : Item}
    (hstorable : item.Everywhere (Storable platform iTrans)) :
    RoundTrips (format iTrans) item ↔
      item.Everywhere (NoWideText iTrans) ∧ ¬ NulBehind iTrans u item ∧ item.Everywhere kept := by
  rw [← spill_eq_nil_iff hspill, ← everywhere_congr hstorable hkept,
    ← Layout.back_plain_iff]
  by_cases hwide : ∃ vmCDP, iTrans = .unicode vmCDP
  · obtain ⟨vmCDP, rfl⟩ := hwide
    exact (hmisplaces vmCDP htrans).roundTrips_exact htrans hstorable
  · have hnarrow : item.Everywhere (NoWideText iTrans) :=
      noWideText_narrow fun vmCDP h => hwide ⟨vmCDP, h⟩
    rw [(hfollows htrans).roundTrips_narrow hstorable hnarrow]
    exact ⟨fun h => ⟨hnarrow, h⟩, fun h => h.2⟩

end

/-- Values come back from the memo formats when no text is stored in wide characters,
none is translated at the end of the value, and no number below zero is cast to a
`long` of 64 bits. -/
theorem memoItem_roundTrips (platform : Platform) (six : Bool) (iTrans : Trans) (item : Item)
    (htrans : Faithful iTrans) (hstorable : item.Everywhere (Storable platform iTrans)) :
    (RoundTrips (smtFormat platform iTrans) item ↔
      item.Everywhere (NoWideText iTrans) ∧ ¬ NulBehind iTrans 0xFFFF item ∧
        item.Everywhere (LongKept platform)) ∧
    (RoundTrips (smtRawFormat platform iTrans) item ↔
      item.Everywhere (NoWideText iTrans) ∧ ¬ NulBehind iTrans 0xFFFF item ∧
        item.Everywhere (LongKept platform)) ∧
    (RoundTrips (sixFormat platform six iTrans) item ↔
      item.Everywhere (NoWideText iTrans) ∧ ¬ NulBehind iTrans (sixLimit platform six) item ∧
        item.Everywhere (LongKept platform)) ∧
    (RoundTrips (flexFormat platform iTrans) item ↔
      item.Everywhere (NoWideText iTrans) ∧ ¬ NulBehind iTrans 0xFFFF item ∧
        item.Everywhere (FlexLongKept platform)) := by
  refine ⟨?_, ?_, ?_, ?_⟩
  · exact roundTrips_format (smtFormat platform) (smtLayout platform) smt_follows
      (fun _ => smt_misplaces) rfl (fun _ => smt_kept) htrans hstorable
  · exact roundTrips_format (smtRawFormat platform) (smtLayout platform) smtRaw_follows
      (fun _ => smtRaw_misplaces) rfl (fun _ => smt_kept) htrans hstorable
  · exact roundTrips_format (sixFormat platform six) (sixLayout platform six) six_follows
      (fun _ => six_misplaces) rfl (fun _ => six_kept) htrans hstorable
  · exact roundTrips_format (flexFormat platform) (flexLayout platform) flex_follows
      (fun _ => flex_misplaces) rfl (fun _ => flex_kept) htrans hstorable

def lp64 : Platform where
  long64 := true
  dblLength _ := 10
  ofMaxInt _ := 0
  setDecimals := 2

def sampleItem : Item :=
  .array [.nil, .logical true, .numInt 70000 10, .date 2458849,
    .array [.string [0x41, 0x42], .double 0x3FF8000000000000 10 2, .string []], .string [0x43]]

theorem sampleItem_roundTrips :
    RoundTrips (smtFormat lp64 .none) sampleItem ∧ RoundTrips (smtRawFormat lp64 .none) sampleItem ∧
      RoundTrips (sixFormat lp64 true .none) sampleItem ∧
        RoundTrips (flexFormat lp64 .none) sampleItem := by
  have hstorable : sampleItem.Everywhere (Storable lp64 .none) := by
    simp [sampleItem, Item.Everywhere, Item.EverywhereItems, Storable, lp64]
  have hwide : sampleItem.Everywhere (NoWideText .none) := noWideText_narrow fun _ => by simp
  have hnul : ∀ u, ¬ NulBehind .none u sampleItem := by
    simp [sampleItem, NulBehind, NulBehindItems, strNul]
  have hkept : sampleItem.Everywhere (LongKept lp64) := by
    simp [sampleItem, Item.Everywhere, Item.EverywhereItems, LongKept, DateKept]
  have hflex : sampleItem.Everywhere (FlexLongKept lp64) := by
    simp [sampleItem, Item.Everywhere, Item.EverywhereItems, FlexLongKept, DateKept]
  obtain ⟨h1, h2, h3, h4⟩ := memoItem_roundTrips lp64 true .none sampleItem trivial hstorable
  exact ⟨h1.mpr ⟨hwide, hnul _, hkept⟩, h2.mpr ⟨hwide, hnul _, hkept⟩,
    h3.mpr ⟨hwide, hnul _, hkept⟩, h4.mpr ⟨hwide, hnul _, hflex⟩⟩

/-- No format gives back a string of one letter that is stored in wide characters. -/
theorem letter_not_roundTrips :
    Faithful (.unicode .utf8) ∧
      (Item.string [0x41]).Everywhere (Storable lp64 (.unicode .utf8)) ∧
      ¬ RoundTrips (smtFormat lp64 (.unicode .utf8)) (.string [0x41]) ∧
      ¬ RoundTrips (smtRawFormat lp64 (.unicode .utf8)) (.string [0x41]) ∧
      ¬ RoundTrips (sixFormat lp64 true (.unicode .utf8)) (.string [0x41]) ∧
      ¬ RoundTrips (flexFormat lp64 (.unicode .utf8)) (.string [0x41]) := by
  have hpage : Separates .utf8 := separates_of_keepsControls keepsControls_utf8
  have hstorable : (Item.string [0x41]).Everywhere (Storable lp64 (.unicode .utf8)) := by
    simp only [Item.Everywhere, Storable]
    decide
  have hwide : ¬ (Item.string [0x41]).Everywhere (NoWideText (.unicode .utf8)) := by
    simp [Item.Everywhere, NoWideText]
  refine ⟨hpage, hstorable, ?_, ?_, ?_, ?_⟩
  · exact fun h => hwide (((smt_misplaces hpage).roundTrips_exact hpage hstorable).mp h).1
  · exact fun h => hwide (((smtRaw_misplaces hpage).roundTrips_exact hpage hstorable).mp h).1
  · exact fun h => hwide (((six_misplaces hpage).roundTrips_exact hpage hstorable).mp h).1
  · exact fun h => hwide (((flex_misplaces hpage).roundTrips_exact hpage hstorable).mp h).1

end Harbour.Rdd.MemoRoundTrip
