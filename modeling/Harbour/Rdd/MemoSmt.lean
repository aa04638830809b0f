import Harbour.Rdd.MemoFormat

namespace Harbour.Rdd.MemoSmt

open Library.Bytes Library.Memory Rtl.Cdpapi MemoItem MemoFormat

/-! The type bytes of SMT items. -/

abbrev smtItNil : UInt8 := 0
abbrev smtItChar : UInt8 := 1
abbrev smtItInt : UInt8 := 2
abbrev smtItDouble : UInt8 := 3
abbrev smtItDate : UInt8 := 4
abbrev smtItLogical : UInt8 := 5
abbrev smtItArray : UInt8 := 6

attribute [simp] smtItNil smtItChar smtItInt smtItDouble smtItDate smtItLogical smtItArray

section Store

variable (platform : Platform) (iTrans : Trans)

mutual

def countSMTItemLength : Item → Nat
  | .array items => 3 + countSMTItems (min items.length 0xFFFF) items
  | .string value => countStr iTrans 0xFFFF value + 3
  | .logical _ => 2
  | .date _ => 5
  | .timestamp _ _ => 5
  | .numInt iVal _ => if limInt32 iVal then 5 else 11
  | .double _ _ _ => 11
  | .nil => 1
  | .other => 1

def countSMTItems : (ulLen : Nat) → List Item → Nat
  | ulLen + 1, item :: items => countSMTItemLength item + countSMTItems ulLen items
  | _, _ => 0

end

def storeSMTDouble (dVal : UInt64) (iWidth iDec : Nat) (bBufPtr : Buffer) : Buffer :=
  let iWidth := if iDec ≠ 0 then iWidth + iDec + 1 else iWidth
  ((((bBufPtr.putByte smtItDouble).putByte (UInt8.ofNat iWidth)).putByte (UInt8.ofNat iDec)).poke 0
    (leBytes 8 dVal.toNat)).advance 8

def storeSMTDate (julian : Int) (bBufPtr : Buffer) : Buffer :=
  ((bBufPtr.putByte smtItDate).poke 0 (leBytes 4 (unsigned 32 julian))).advance 4

mutual

def storeSMTItem : Item → Buffer → Buffer
  | .array items, bBufPtr =>
    let ulLen := min items.length 0xFFFF
    storeSMTItems ulLen items
      (((bBufPtr.putByte smtItArray).poke 0 (leBytes 2 ulLen)).advance 2)
  | .string value, bBufPtr =>
    let stored := storeStr iTrans 0xFFFF 2 value (bBufPtr.putByte smtItChar)
    (stored.1.poke 0 (leBytes 2 stored.2)).advance (stored.2 + 2)
  | .numInt iVal length, bBufPtr =>
    if limInt32 iVal then
      ((bBufPtr.putByte smtItInt).poke 0 (leBytes 4 (unsigned 32 iVal))).advance 4
    else storeSMTDouble (platform.ofMaxInt iVal) length 0 bBufPtr
  | .double dVal iWidth iDec, bBufPtr => storeSMTDouble dVal iWidth iDec bBufPtr
  | .date julian, bBufPtr => storeSMTDate julian bBufPtr
  | .timestamp julian _, bBufPtr => storeSMTDate julian bBufPtr
  | .logical value, bBufPtr =>
    (bBufPtr.putByte smtItLogical).putByte (if value then 1 else 0)
  | .nil, bBufPtr => bBufPtr.putByte smtItNil
  | .other, bBufPtr => bBufPtr.putByte smtItNil

def storeSMTItems : (ulLen : Nat) → List Item → Buffer → Buffer
  | ulLen + 1, item :: items, bBufPtr => storeSMTItems ulLen items (storeSMTItem item bBufPtr)
  | _, _, bBufPtr => bBufPtr

end

def readSMTDouble (buffer : Bytes) : Item :=
  let iWidth : Int := (buffer.getD 0 0).toNat
  let iDec := (buffer.getD 1 0).toNat
  itemPutNDLen platform (UInt64.ofNat (leValue (buffer.drop 2)))
    (if iDec ≠ 0 then iWidth - (iDec + 1) else iWidth) iDec

/-- `hb_fptReadRawSMTItem`: the file from the offset on is given. -/
def readRawSMTItem : (fuel : Nat) → Bytes → Except ErrCode (Item × Bytes)
  | 0, _ => .error .read
  | _ + 1, [] => .error .read
  | fuel + 1, type :: pMemoFile =>
    if type = smtItArray then do
      let (buffer, pMemoFile) ← takeBytes .read 2 pMemoFile
      let (items, pMemoFile) ← readItems (readRawSMTItem fuel) (leValue buffer) pMemoFile
      .ok (.array items, pMemoFile)
    else if type = smtItChar then do
      let (buffer, pMemoFile) ← takeBytes .read 2 pMemoFile
      let (pBuffer, pMemoFile) ← takeBytes .read (leValue buffer) pMemoFile
      .ok (.string (readStr iTrans pBuffer), pMemoFile)
    else if type = smtItInt then do
      let (buffer, pMemoFile) ← takeBytes .read 4 pMemoFile
      .ok (itemPutNInt (platform.castLong (leValue buffer)), pMemoFile)
    else if type = smtItDouble then do
      let (buffer, pMemoFile) ← takeBytes .read 10 pMemoFile
      .ok (readSMTDouble platform buffer, pMemoFile)
    else if type = smtItDate then do
      let (buffer, pMemoFile) ← takeBytes .read 4 pMemoFile
      .ok (.date (platform.castLong (leValue buffer)), pMemoFile)
    else if type = smtItLogical then do
      let (buffer, pMemoFile) ← takeBytes .read 1 pMemoFile
      .ok (.logical (buffer.getD 0 0 ≠ 0), pMemoFile)
    else if type = smtItNil then .ok (.nil, pMemoFile)
    else .error .corrupt

/-- `hb_fptReadSMTItem`: the bytes up to `bBufEnd` are given. -/
def readSMTItem : (fuel : Nat) → Bytes → Except ErrCode (Item × Bytes)
  | 0, _ => .error .corrupt
  | _ + 1, [] => .error .corrupt
  | fuel + 1, type :: pbMemoBuf =>
    if type = smtItArray then do
      let (buffer, pbMemoBuf) ← takeBytes .corrupt 2 pbMemoBuf
      if pbMemoBuf.length < leValue buffer then .error .corrupt
      else do
        let (items, pbMemoBuf) ← readItems (readSMTItem fuel) (leValue buffer) pbMemoBuf
        .ok (.array items, pbMemoBuf)
    else if type = smtItChar then do
      let (buffer, pbMemoBuf) ← takeBytes .corrupt 2 pbMemoBuf
      let (pszStr, pbMemoBuf) ← takeBytes .corrupt (leValue buffer) pbMemoBuf
      .ok (.string (readStr iTrans pszStr), pbMemoBuf)
    else if type = smtItInt then do
      let (buffer, pbMemoBuf) ← takeBytes .corrupt 4 pbMemoBuf
      .ok (itemPutNInt (platform.castLong (leValue buffer)), pbMemoBuf)
    else if type = smtItDouble then do
      let (buffer, pbMemoBuf) ← takeBytes .corrupt 10 pbMemoBuf
      .ok (readSMTDouble platform buffer, pbMemoBuf)
    else if type = smtItDate then do
      let (buffer, pbMemoBuf) ← takeBytes .corrupt 4 pbMemoBuf
      .ok (.date (platform.castLong (leValue buffer)), pbMemoBuf)
    else if type = smtItLogical then do
      let (buffer, pbMemoBuf) ← takeBytes .corrupt 1 pbMemoBuf
      .ok (.logical (buffer.getD 0 0 ≠ 0), pbMemoBuf)
    else if type = smtItNil then .ok (.nil, pbMemoBuf)
    else .error .corrupt

def smtFormat : Format where
  count := countSMTItemLength iTrans
  store := storeSMTItem platform iTrans
  read := readSMTItem platform iTrans

def smtRawFormat : Format where
  count := countSMTItemLength iTrans
  store := storeSMTItem platform iTrans
  read := readRawSMTItem platform iTrans

/-! ### The layout -/

def smtDoubleBytes (dVal : UInt64) (iWidth iDec : Nat) : Bytes :=
  UInt8.ofNat (if iDec ≠ 0 then iWidth + iDec + 1 else iWidth) :: UInt8.ofNat iDec ::
    leBytes 8 dVal.toNat

def smtLeafBytes : Item → Bytes
  | .string value => smtItChar :: (leBytes 2 value.length ++ strBytes iTrans value)
  | .numInt iVal _ => smtItInt :: leBytes 4 (unsigned 32 iVal)
  | .double dVal iWidth iDec => smtItDouble :: smtDoubleBytes dVal iWidth iDec
  | .date julian => smtItDate :: leBytes 4 (unsigned 32 julian)
  | .logical value => [smtItLogical, if value then 1 else 0]
  | _ => [smtItNil]

def smtLeafBack : Item → Item
  | .numInt iVal _ => itemPutNInt (platform.castLong (unsigned 32 iVal))
  | .double dVal iWidth iDec => readSMTDouble platform (smtDoubleBytes dVal iWidth iDec)
  | .date julian => .date (platform.castLong (unsigned 32 julian))
  | item => item

def smtLayout : Layout where
  header n := smtItArray :: leBytes 2 n
  leafBytes := smtLeafBytes iTrans
  leafBack := smtLeafBack platform
  leafSpill
    | .string value => strNul iTrans 0xFFFF value
    | _ => []

end Store

variable {platform : Platform} {iTrans : Trans}

section

variable (items : List Item)

include items

theorem storeSMT_count (h : items.length ≤ 0xFFFF) : countSMTItemLength iTrans (.array items) =
      ((smtLayout platform iTrans).header items.length).length +
        (items.map (countSMTItemLength iTrans)).sum := by
  rw [countSMTItemLength, Nat.min_eq_left h,
    countItems_eq (countSMTItems iTrans) rfl fun _ _ _ => rfl]
  simp [smtLayout]

theorem storeSMT_array (buf : Buffer) (h : items.length ≤ 0xFFFF) :
    storeSMTItem platform iTrans (.array items) buf =
      items.foldl (fun buf item => storeSMTItem platform iTrans item buf)
        (buf.fill ((smtLayout platform iTrans).header items.length)
          ((smtLayout platform iTrans).header items.length).length) := by
  rw [storeSMTItem, Nat.min_eq_left h,
    storeItems_eq (storeSMTItems platform iTrans) (fun _ => rfl) fun _ _ _ _ => rfl]
  congr 1
  exact Buffer.fill_put buf [smtItArray] (leBytes 2 items.length)

end

section

variable {item : Item} (hstorable : Storable platform iTrans item) (hwide : NoWideText iTrans item)
  (hitem : ∀ items, item ≠ .array items)

include hstorable hwide hitem

theorem countSMT_leaf : countSMTItemLength iTrans item = (smtLeafBytes iTrans item).length := by
  cases item with
  | array items => exact absurd rfl (hitem items)
  | string value =>
    rw [countSMTItemLength, countStr_eq hstorable hwide (Nat.le_refl _)]
    simp [smtLeafBytes]
    omega
  | numInt iVal length =>
    simp [countSMTItemLength, smtLeafBytes, limInt32_of_storable hstorable]
  | timestamp julian milliSec => exact hstorable.elim
  | _ => simp [countSMTItemLength, smtLeafBytes, smtDoubleBytes]

theorem storeSMT_leaf (buf : Buffer) : storeSMTItem platform iTrans item buf =
      buf.fill (smtLeafBytes iTrans item ++ (smtLayout platform iTrans).leafSpill item)
        (smtLeafBytes iTrans item).length := by
  cases item with
  | array items => exact absurd rfl (hitem items)
  | string value =>
    rw [storeSMTItem, storeStr_eq hstorable hwide (Nat.le_refl _)]
    simpa [smtLayout, smtLeafBytes] using Buffer.putByte_poke_poke buf smtItChar
      (leBytes 2 value.length) (strBytes iTrans value) (strNul iTrans 0xFFFF value)
  | numInt iVal length =>
    rw [storeSMTItem, limInt32_of_storable hstorable, if_pos rfl]
    simpa [smtLayout, smtLeafBytes, Buffer.putByte_eq_fill] using
      Buffer.fill_put buf [smtItInt] (leBytes 4 (unsigned 32 iVal))
  | double dVal iWidth iDec =>
    have hfirst : buf.putByte smtItDouble = buf.fill [smtItDouble] [smtItDouble].length := rfl
    simp only [storeSMTItem, storeSMTDouble]
    rw [hfirst, Buffer.fill_putByte, Buffer.fill_putByte]
    exact (Buffer.fill_put buf _ (leBytes 8 dVal.toNat)).trans
      (by simp [smtLayout, smtLeafBytes, smtDoubleBytes])
  | date julian =>
    simpa [smtLayout, smtLeafBytes, storeSMTItem, storeSMTDate, Buffer.putByte_eq_fill] using
      Buffer.fill_put buf [smtItDate] (leBytes 4 (unsigned 32 julian))
  | logical value =>
    simpa [smtLayout, smtLeafBytes, storeSMTItem, Buffer.putByte_eq_fill] using
      Buffer.fill_putByte buf [smtItLogical] (if value then 1 else 0)
  | nil => rfl
  | timestamp julian milliSec => exact hstorable.elim
  | other => exact hstorable.elim

end

section

variable {n : Nat} (hn : n ≤ 0xFFFF) (fuel : Nat) (memo : Bytes)

include hn

theorem readSMT_string : readSMTItem platform iTrans (fuel + 1) (smtItChar :: leBytes 2 n ++ memo) =
      (takeBytes .corrupt n memo).map
        fun taken => (.string (readStr iTrans taken.1), taken.2) := by
  simp [readSMTItem, takeBytes_append, bind, Except.bind, leValue_leBytes_le hn]
  rfl

theorem readRawSMT_string :
    readRawSMTItem platform iTrans (fuel + 1) (smtItChar :: leBytes 2 n ++ memo) =
      (takeBytes .read n memo).map fun taken => (.string (readStr iTrans taken.1), taken.2) := by
  simp [readRawSMTItem, takeBytes_append, bind, Except.bind, leValue_leBytes_le hn]
  rfl

theorem readSMT_array :
    readSMTItem platform iTrans (fuel + 1) ((smtLayout platform iTrans).header n ++ memo) =
      if memo.length < n then .error .corrupt
      else (readItems (readSMTItem platform iTrans fuel) n memo).map
        fun parsed => (.array parsed.1, parsed.2) := by
  simp [smtLayout, readSMTItem, takeBytes_append, bind, Except.bind, leValue_leBytes_le hn]
  rfl

theorem readRawSMT_array :
    readRawSMTItem platform iTrans (fuel + 1) ((smtLayout platform iTrans).header n ++ memo) =
      (readItems (readRawSMTItem platform iTrans fuel) n memo).map
        fun parsed => (.array parsed.1, parsed.2) := by
  simp [smtLayout, readRawSMTItem, takeBytes_append, bind, Except.bind, leValue_leBytes_le hn]
  rfl

end

theorem readSMT_leaf (htrans : Faithful iTrans) {item : Item}
    (hstorable : Storable platform iTrans item) (hwide : NoWideText iTrans item)
    (hitem : ∀ items, item ≠ .array items) (fuel : Nat) (tail : Bytes) :
    readSMTItem platform iTrans (fuel + 1) (smtLeafBytes iTrans item ++ tail) =
        .ok (smtLeafBack platform item, tail) ∧
      readRawSMTItem platform iTrans (fuel + 1) (smtLeafBytes iTrans item ++ tail) =
        .ok (smtLeafBack platform item, tail) := by
  cases item with
  | array items => exact absurd rfl (hitem items)
  | string value =>
    have hlen := length_le_of_storable hstorable hwide
    simp [smtLeafBytes, smtLeafBack, readSMTItem, readRawSMTItem, takeBytes_append,
      leValue_leBytes_le hlen, readStr_strBytes htrans hwide, bind, Except.bind]
  | numInt iVal length | date julian =>
    simp [smtLeafBytes, smtLeafBack, readSMTItem, readRawSMTItem, takeBytes_append,
      leValue_unsigned, bind, Except.bind]
  | double dVal iWidth iDec =>
    have hlen : (smtDoubleBytes dVal iWidth iDec).length = 10 := by simp [smtDoubleBytes]
    simp [smtLeafBytes, smtLeafBack, readSMTItem, readRawSMTItem, takeBytes_append _ hlen, bind,
      Except.bind]
  | logical value => cases value <;> exact ⟨rfl, rfl⟩
  | nil => exact ⟨rfl, rfl⟩
  | timestamp julian milliSec => exact hstorable.elim
  | other => exact hstorable.elim

theorem smt_follows (htrans : Faithful iTrans) :
    Follows (smtFormat platform iTrans) (smtLayout platform iTrans) platform iTrans where
  header_length n := by simp [smtLayout]
  leafBytes_length item _ _ := by cases item <;> simp [smtLayout, smtLeafBytes]
  leafSpill_length := strSpill_length iTrans 0xFFFF
  count_leaf _ := countSMT_leaf
  count_array := storeSMT_count
  store_leaf _ buf hstorable hwide hitem := storeSMT_leaf hstorable hwide hitem buf
  store_array := storeSMT_array
  read_leaf _ fuel tail hstorable hwide hitem :=
    (readSMT_leaf htrans hstorable hwide hitem fuel tail).1
  read_array n fuel memo hn hmemo := (readSMT_array hn fuel memo).trans (if_neg (by omega))

theorem smtRaw_follows (htrans : Faithful iTrans) :
    Follows (smtRawFormat platform iTrans) (smtLayout platform iTrans) platform iTrans :=
  { smt_follows htrans with
    read_leaf := fun _ fuel tail hstorable hwide hitem =>
      (readSMT_leaf htrans hstorable hwide hitem fuel tail).2
    read_array := fun _ fuel memo hn _ => readRawSMT_array hn fuel memo }

/-! ### Wide text -/

section

variable {vmCDP : CodePage} (hpage : Separates vmCDP)

include hpage

theorem smt_misplaces :
    Misplaces (smtFormat platform (.unicode vmCDP)) (smtLayout platform (.unicode vmCDP)) platform
      vmCDP where
  follows := smt_follows hpage
  leafSpill item := by cases item <;> rfl
  read_zero _ := ⟨_, rfl⟩
  read_array_ok n fuel memo parsed hn h := by
    simp only [smtFormat, readSMT_array hn] at h ⊢
    split at h
    · cases h
    · exact map_ok h
  exposes_leaf _ hstorable hne := exposes_typed smtItChar hstorable hne (fun _ => rfl)
    fun fuel memo hn => @readSMT_string platform _ _ hn fuel memo

theorem smtRaw_misplaces :
    Misplaces (smtRawFormat platform (.unicode vmCDP)) (smtLayout platform (.unicode vmCDP))
      platform vmCDP where
  follows := smtRaw_follows hpage
  leafSpill item := by cases item <;> rfl
  read_zero _ := ⟨_, rfl⟩
  read_array_ok n fuel memo parsed hn h := by
    simp only [smtRawFormat, readRawSMT_array hn] at h ⊢
    exact map_ok h
  exposes_leaf _ hstorable hne := exposes_typed smtItChar hstorable hne (fun _ => rfl)
    fun fuel memo hn => @readRawSMT_string platform _ _ hn fuel memo

end

end Harbour.Rdd.MemoSmt
