import Harbour.Rdd.MemoFormat

namespace Harbour.Rdd.MemoSix

open Library.Bytes Library.Memory Rtl.Cdpapi MemoItem MemoFormat List

/-! The size and the types of SIX items. -/

abbrev sixItemBufSize : Nat := 14

abbrev fptitSixNil : Nat := 0x0000
abbrev fptitSixLNum : Nat := 0x0002
abbrev fptitSixDNum : Nat := 0x0008
abbrev fptitSixLDate : Nat := 0x0020
abbrev fptitSixLog : Nat := 0x0080
abbrev fptitSixChar : Nat := 0x0400
abbrev fptitSixArray : Nat := 0x8000

attribute [simp] sixItemBufSize fptitSixNil fptitSixLNum fptitSixDNum fptitSixLDate fptitSixLog
  fptitSixChar fptitSixArray

section Store

variable (platform : Platform) (six : Bool) (iTrans : Trans)

/-- The largest length of a string: 16 bits in files of version SIX, otherwise
`ULONG_MAX`. -/
def sixLimit : Nat :=
  if six then 0xFFFF else if platform.long64 then 2 ^ 64 - 1 else 2 ^ 32 - 1

mutual

def countSixItemLength : Item → Nat
  | .array items =>
    sixItemBufSize +
      countSixItems (if six then min items.length 0xFFFF else items.length) items
  | .string value => sixItemBufSize + countStr iTrans (sixLimit platform six) value
  | _ => sixItemBufSize

def countSixItems : (ulLen : Nat) → List Item → Nat
  | ulLen + 1, item :: items => countSixItemLength item + countSixItems ulLen items
  | _, _ => 0

end

def storeSixDouble (dVal : UInt64) (iWidth iDec : Nat) (bBufPtr : Buffer) : Buffer :=
  ((((bBufPtr.poke 0 (leBytes 2 fptitSixDNum)).poke 2 (leBytes 2 iWidth)).poke 4
    (leBytes 2 iDec)).poke 6 (leBytes 8 dVal.toNat)).advance sixItemBufSize

def storeSixDate (julian : Int) (bBufPtr : Buffer) : Buffer :=
  ((bBufPtr.poke 0 (leBytes 2 fptitSixLDate)).poke 6 (leBytes 4 (unsigned 32 julian))).advance
    sixItemBufSize

def clearSixItem (bBufPtr : Buffer) : Buffer :=
  bBufPtr.poke 0 (replicate sixItemBufSize 0)

mutual

def storeSixItem : Item → Buffer → Buffer
  | .array items, bBufPtr =>
    let ulLen := if six then min items.length 0xFFFF else items.length
    storeSixItems ulLen items
      ((((clearSixItem bBufPtr).poke 0 (leBytes 2 fptitSixArray)).poke 2
        (leBytes 4 ulLen)).advance sixItemBufSize)
  | .numInt iVal iWidth, bBufPtr =>
    if limInt32 iVal then
      (((((clearSixItem bBufPtr).poke 0 (leBytes 2 fptitSixLNum)).poke 2 (leBytes 2 iWidth)).poke 4
        (leBytes 2 0)).poke 6 (leBytes 4 (unsigned 32 iVal))).advance sixItemBufSize
    else storeSixDouble (platform.ofMaxInt iVal) iWidth 0 (clearSixItem bBufPtr)
  | .double dVal iWidth iDec, bBufPtr => storeSixDouble dVal iWidth iDec (clearSixItem bBufPtr)
  | .date julian, bBufPtr => storeSixDate julian (clearSixItem bBufPtr)
  | .timestamp julian _, bBufPtr => storeSixDate julian (clearSixItem bBufPtr)
  | .logical value, bBufPtr =>
    (((clearSixItem bBufPtr).poke 0 (leBytes 2 fptitSixLog)).poke 6
      [if value then 1 else 0]).advance sixItemBufSize
  | .string value, bBufPtr =>
    let stored := storeStr iTrans (sixLimit platform six) sixItemBufSize value
      ((clearSixItem bBufPtr).poke 0 (leBytes 2 fptitSixChar))
    (stored.1.poke 2 (leBytes 4 stored.2)).advance (stored.2 + sixItemBufSize)
  | .nil, bBufPtr =>
    ((clearSixItem bBufPtr).poke 0 (leBytes 2 fptitSixNil)).advance sixItemBufSize
  | .other, bBufPtr =>
    ((clearSixItem bBufPtr).poke 0 (leBytes 2 fptitSixNil)).advance sixItemBufSize

def storeSixItems : (ulLen : Nat) → List Item → Buffer → Buffer
  | ulLen + 1, item :: items, bBufPtr => storeSixItems ulLen items (storeSixItem item bBufPtr)
  | _, _, bBufPtr => bBufPtr

end

def field (memo : Bytes) (off n : Nat) : Nat := leValue ((memo.drop off).take n)

def sixLength (memo : Bytes) : Nat :=
  if six then field memo 2 4 % 0x10000 else field memo 2 4

/-- `hb_fptReadSixItem`: the bytes up to `bBufEnd` are given. -/
def readSixItem : (fuel : Nat) → Bytes → Except ErrCode (Item × Bytes)
  | 0, _ => .error .corrupt
  | fuel + 1, pbMemoBuf =>
    if pbMemoBuf.length ≥ sixItemBufSize then
      let usType := field pbMemoBuf 0 2
      let next := pbMemoBuf.drop sixItemBufSize
      if usType = fptitSixLNum then
        .ok (itemPutNL platform (platform.castLong (field pbMemoBuf 6 4)), next)
      else if usType = fptitSixDNum then
        .ok (itemPutNDLen platform (UInt64.ofNat (field pbMemoBuf 6 8)) (field pbMemoBuf 2 2)
          (field pbMemoBuf 4 2), next)
      else if usType = fptitSixLDate then
        .ok (.date (platform.castLong (field pbMemoBuf 6 4)), next)
      else if usType = fptitSixLog then .ok (.logical (field pbMemoBuf 6 2 ≠ 0), next)
      else if usType = fptitSixChar then do
        let (pszStr, next) ← takeBytes .corrupt (sixLength six pbMemoBuf) next
        .ok (.string (readStr iTrans pszStr), next)
      else if usType = fptitSixArray then do
        let (items, next) ← readItems (readSixItem fuel) (sixLength six pbMemoBuf) next
        .ok (.array items, next)
      else if usType = fptitSixNil then .ok (.nil, next)
      else .error .corrupt
    else .error .corrupt

def sixFormat : Format where
  count := countSixItemLength platform six iTrans
  store := storeSixItem platform six iTrans
  read := readSixItem platform six iTrans

/-! ### The layout -/

def sixHeader (usType ulLen : Nat) : Bytes :=
  leBytes 2 usType ++ leBytes 4 ulLen ++ replicate 8 0

def sixLeafBytes : Item → Bytes
  | .string value => sixHeader fptitSixChar value.length ++ strBytes iTrans value
  | .numInt iVal iWidth =>
    leBytes 2 fptitSixLNum ++ leBytes 2 iWidth ++ leBytes 2 0 ++ leBytes 4 (unsigned 32 iVal) ++
      replicate 4 0
  | .double dVal iWidth iDec =>
    leBytes 2 fptitSixDNum ++ leBytes 2 iWidth ++ leBytes 2 iDec ++ leBytes 8 dVal.toNat
  | .date julian =>
    leBytes 2 fptitSixLDate ++ replicate 4 0 ++ leBytes 4 (unsigned 32 julian) ++
      replicate 4 0
  | .logical value =>
    leBytes 2 fptitSixLog ++ replicate 4 0 ++ [if value then 1 else 0] ++
      replicate 7 0
  | _ => replicate 14 0

def sixLeafBack : Item → Item
  | .numInt iVal _ => itemPutNL platform (platform.castLong (unsigned 32 iVal))
  | .double dVal iWidth iDec =>
    itemPutNDLen platform dVal (iWidth % 0x10000 : Nat) (iDec % 0x10000)
  | .date julian => .date (platform.castLong (unsigned 32 julian))
  | item => item

def sixLayout : Layout where
  header := sixHeader fptitSixArray
  leafBytes := sixLeafBytes iTrans
  leafBack := sixLeafBack platform
  leafSpill
    | .string value => strNul iTrans (sixLimit platform six) value
    | _ => []

end Store

variable {platform : Platform} {six : Bool} {iTrans : Trans}

theorem le_sixLimit : 0xFFFF ≤ sixLimit platform six := by
  unfold sixLimit
  split_ifs <;> omega

@[simp]
theorem sixHeader_length (usType ulLen : Nat) : (sixHeader usType ulLen).length = 14 := by
  simp [sixHeader]

theorem clearSixItem_eq (buf : Buffer) :
    clearSixItem buf = buf.fill (replicate 14 0) 0 := rfl

section

variable (items : List Item)

include items

theorem countSix_array (h : items.length ≤ 0xFFFF) :
    countSixItemLength platform six iTrans (.array items) =
      ((sixLayout platform six iTrans).header items.length).length +
        (items.map (countSixItemLength platform six iTrans)).sum := by
  rw [countSixItemLength, Nat.min_eq_left h, ite_self,
    countItems_eq (countSixItems platform six iTrans) rfl fun _ _ _ => rfl]
  simp [sixLayout]

theorem storeSix_array (buf : Buffer) (h : items.length ≤ 0xFFFF) :
    storeSixItem platform six iTrans (.array items) buf =
      items.foldl (fun buf item => storeSixItem platform six iTrans item buf)
        (buf.fill ((sixLayout platform six iTrans).header items.length)
          ((sixLayout platform six iTrans).header items.length).length) := by
  rw [storeSixItem, Nat.min_eq_left h, ite_self,
    storeItems_eq (storeSixItems platform six iTrans) (fun _ => rfl) fun _ _ _ _ => rfl]
  rw [clearSixItem_eq, Buffer.fill_poke _ _ _ _ _ (by simp), Buffer.fill_poke _ _ _ _ _ (by simp),
    Buffer.fill_advance]
  simp [sixLayout, sixHeader, leBytes, replicate]

end

section

variable {item : Item} (hstorable : Storable platform iTrans item) (hwide : NoWideText iTrans item)
  (hitem : ∀ items, item ≠ .array items)

include hstorable hwide hitem

theorem countSix_leaf :
    countSixItemLength platform six iTrans item = (sixLeafBytes iTrans item).length := by
  cases item with
  | array items => exact absurd rfl (hitem items)
  | string value =>
    rw [countSixItemLength, countStr_eq hstorable hwide le_sixLimit]
    simp [sixLeafBytes]
  | _ => simp [countSixItemLength, sixLeafBytes]

theorem storeSix_leaf (buf : Buffer) : storeSixItem platform six iTrans item buf =
      buf.fill (sixLeafBytes iTrans item ++ (sixLayout platform six iTrans).leafSpill item)
        (sixLeafBytes iTrans item).length := by
  cases item with
  | array items => exact absurd rfl (hitem items)
  | string value =>
    rw [storeSixItem, storeStr_eq hstorable hwide le_sixLimit]
    simp only [clearSixItem_eq]
    rw [Buffer.fill_poke _ _ _ _ _ (by simp), Buffer.fill_poke _ _ _ _ _ (by simp),
      Buffer.fill_poke _ _ _ _ _ (by simp; omega), Buffer.fill_advance]
    simp only [sixLayout, sixLeafBytes, sixHeader, leBytes, replicate]
    simp
    rw [drop_eq_nil_of_le (by simp), append_nil]
  | numInt iVal length =>
    simp [storeSixItem, limInt32_of_storable hstorable, clearSixItem_eq, Buffer.fill_poke,
      Buffer.fill_advance, sixLayout, sixLeafBytes, leBytes, replicate]
  | double dVal iWidth iDec | date julian | logical value | nil =>
    simp [storeSixItem, storeSixDouble, storeSixDate, clearSixItem_eq, Buffer.fill_poke,
      Buffer.fill_advance, sixLayout, sixLeafBytes, leBytes, replicate]
  | timestamp julian milliSec => exact hstorable.elim
  | other => exact hstorable.elim

end

theorem leValue_short {n : Nat} (h : n ≤ 0xFFFF) : leValue (leBytes 4 n) = n := by
  have hlt : n < 256 ^ 4 := by omega
  rw [leValue_leBytes, Nat.mod_eq_of_lt hlt]

theorem sixLength_header (usType : Nat) {ulLen : Nat} (h : ulLen ≤ 0xFFFF) (memo : Bytes) :
    sixLength six (sixHeader usType ulLen ++ memo) = ulLen := by
  have hfield : field (sixHeader usType ulLen ++ memo) 2 4 = ulLen := leValue_short h
  rw [sixLength, hfield, Nat.mod_eq_of_lt (by omega), ite_self]

theorem sixHeader_parts {usType : Nat} (h : usType ≤ 0xFFFF) (ulLen : Nat) (memo : Bytes) :
    (sixHeader usType ulLen ++ memo).length ≥ 14 ∧
      field (sixHeader usType ulLen ++ memo) 0 2 = usType ∧
      (sixHeader usType ulLen ++ memo).drop 14 = memo :=
  ⟨by simp, leValue_leBytes_le h, rfl⟩

theorem readSix_string {ulLen : Nat} (h : ulLen ≤ 0xFFFF) (fuel : Nat) (memo : Bytes) :
    readSixItem platform six iTrans (fuel + 1) (sixHeader fptitSixChar ulLen ++ memo) =
      (takeBytes .corrupt ulLen memo).map
        fun taken => (.string (readStr iTrans taken.1), taken.2) := by
  obtain ⟨hlen, htype, hnext⟩ :=
    sixHeader_parts (show fptitSixChar ≤ 0xFFFF by decide) ulLen memo
  rw [readSixItem, if_pos hlen]
  simp only [htype, hnext, sixLength_header _ h]
  rfl

theorem readSix_array {ulLen : Nat} (h : ulLen ≤ 0xFFFF) (fuel : Nat) (memo : Bytes) :
    readSixItem platform six iTrans (fuel + 1) (sixHeader fptitSixArray ulLen ++ memo) =
      (readItems (readSixItem platform six iTrans fuel) ulLen memo).map
        fun parsed => (.array parsed.1, parsed.2) := by
  obtain ⟨hlen, htype, hnext⟩ :=
    sixHeader_parts (show fptitSixArray ≤ 0xFFFF by decide) ulLen memo
  rw [readSixItem, if_pos hlen]
  simp only [htype, hnext, sixLength_header _ h]
  simp [Except.map, bind, Except.bind]

theorem readSix_leaf (htrans : Faithful iTrans) {item : Item}
    (hstorable : Storable platform iTrans item) (hwide : NoWideText iTrans item)
    (hitem : ∀ items, item ≠ .array items) (fuel : Nat) (tail : Bytes) :
    readSixItem platform six iTrans (fuel + 1) (sixLeafBytes iTrans item ++ tail) =
      .ok (sixLeafBack platform item, tail) := by
  have hlen : (sixLeafBytes iTrans item ++ tail).length ≥ 14 := by
    cases item <;> simp [sixLeafBytes] <;> omega
  cases item with
  | array items => exact absurd rfl (hitem items)
  | string value =>
    have hlen := length_le_of_storable hstorable hwide
    rw [sixLeafBytes, append_assoc, readSix_string hlen,
      takeBytes_append _ (strBytes_length iTrans value)]
    simp only [Except.map, readStr_strBytes htrans hwide]
    rfl
  | numInt iVal length =>
    rw [readSixItem, if_pos hlen]
    generalize hbytes : sixLeafBytes iTrans (.numInt iVal length) ++ tail = memo
    have htype : field memo 0 2 = fptitSixLNum := hbytes ▸ rfl
    have hvalue : field memo 6 4 = unsigned 32 iVal := hbytes ▸ leValue_unsigned iVal
    have hnext : memo.drop 14 = tail := hbytes ▸ rfl
    simp only [htype, hvalue, hnext]
    rfl
  | double dVal iWidth iDec =>
    rw [readSixItem, if_pos hlen]
    generalize hbytes : sixLeafBytes iTrans (.double dVal iWidth iDec) ++ tail = memo
    have htype : field memo 0 2 = fptitSixDNum := hbytes ▸ rfl
    have hwidth : field memo 2 2 = iWidth % 0x10000 := hbytes ▸ leValue_leBytes 2 iWidth
    have hdec : field memo 4 2 = iDec % 0x10000 := hbytes ▸ leValue_leBytes 2 iDec
    have hvalue : UInt64.ofNat (field memo 6 8) = dVal := hbytes ▸ leValue_double dVal
    have hnext : memo.drop 14 = tail := hbytes ▸ rfl
    simp only [htype, hwidth, hdec, hvalue, hnext]
    rfl
  | date julian =>
    rw [readSixItem, if_pos hlen]
    generalize hbytes : sixLeafBytes iTrans (.date julian) ++ tail = memo
    have htype : field memo 0 2 = fptitSixLDate := hbytes ▸ rfl
    have hvalue : field memo 6 4 = unsigned 32 julian := hbytes ▸ leValue_unsigned julian
    have hnext : memo.drop 14 = tail := hbytes ▸ rfl
    simp only [htype, hvalue, hnext]
    rfl
  | logical value =>
    cases value <;> rfl
  | nil => exact if_pos hlen
  | timestamp julian milliSec => exact hstorable.elim
  | other => exact hstorable.elim

theorem six_follows (htrans : Faithful iTrans) :
    Follows (sixFormat platform six iTrans) (sixLayout platform six iTrans) platform iTrans where
  header_length n := by simp [sixLayout]
  leafBytes_length item _ _ := by cases item <;> simp [sixLayout, sixLeafBytes]
  leafSpill_length := strSpill_length iTrans (sixLimit platform six)
  count_leaf _ := countSix_leaf
  count_array := countSix_array
  store_leaf _ buf hstorable hwide hitem := storeSix_leaf hstorable hwide hitem buf
  store_array := storeSix_array
  read_leaf _ fuel tail hstorable hwide hitem :=
    readSix_leaf htrans hstorable hwide hitem fuel tail
  read_array n fuel memo hn _ := readSix_array hn fuel memo

/-! ### Wide text -/

theorem six_misplaces {vmCDP : CodePage} (hpage : Separates vmCDP) :
    Misplaces (sixFormat platform six (.unicode vmCDP)) (sixLayout platform six (.unicode vmCDP))
      platform vmCDP where
  follows := six_follows hpage
  leafSpill item := by cases item <;> rfl
  read_zero _ := ⟨_, rfl⟩
  read_array_ok n fuel memo parsed hn h := by
    simp only [sixFormat, sixLayout, readSix_array hn] at h ⊢
    exact map_ok h
  exposes_leaf value hstorable hne := by
    refine exposes_text (sixLimit platform six) 14 (sixHeader fptitSixChar) hstorable hne (by simp)
      (fun payload n hstr buf => ⟨buf.ptr + 28, payload, by simp, ?_⟩)
      fun fuel memo hn => @readSix_string platform _ _ _ hn fuel memo
    simp only [sixFormat, storeSixItem]
    rw [hstr, Buffer.poke_poke _ (by simp), clearSixItem_eq, Buffer.fill_poke _ _ _ _ _ (by simp),
      Buffer.fill_poke _ _ _ _ _ (by simp), sixHeader_length, Nat.add_assoc buf.ptr,
      Nat.add_comm 14 (n * 2)]
    rfl

end Harbour.Rdd.MemoSix
