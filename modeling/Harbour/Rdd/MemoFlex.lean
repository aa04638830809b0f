import Harbour.Rdd.MemoFormat

namespace Harbour.Rdd.MemoFlex

open Library.Bytes Library.Memory Rtl.Cdpapi MemoItem MemoFormat List

/-! The type bytes of FLEX items. -/

abbrev flexarNil : UInt8 := 0x00
abbrev flexarUChar : UInt8 := 0x01
abbrev flexarChar : UInt8 := 0x02
abbrev flexarShort : UInt8 := 0x03
abbrev flexarUShort : UInt8 := 0x04
abbrev flexarLong : UInt8 := 0x05
abbrev flexarStr : UInt8 := 0x07
abbrev flexarDouble : UInt8 := 0x09
abbrev flexarDateX : UInt8 := 0x0A
abbrev flexarLogic : UInt8 := 0x0B
abbrev flexarAray : UInt8 := 0x0C
abbrev flexarDateJ : UInt8 := 0x0E
abbrev flexarDouble2 : UInt8 := 0x0F
abbrev flexarUChar1 : UInt8 := 0x11
abbrev flexarChar1 : UInt8 := 0x12
abbrev flexarShort1 : UInt8 := 0x13
abbrev flexarUShort1 : UInt8 := 0x14
abbrev flexarLong1 : UInt8 := 0x15
abbrev flexarNul : UInt8 := 0x18
abbrev flexarTrue : UInt8 := 0x19
abbrev flexarFalse : UInt8 := 0x1A
abbrev flexarLDouble : UInt8 := 0x1B
abbrev flexarUChar2 : UInt8 := 0x1C
abbrev flexarChar2 : UInt8 := 0x1D
abbrev flexarShort2 : UInt8 := 0x1E
abbrev flexarUShort2 : UInt8 := 0x1F
abbrev flexarLong2 : UInt8 := 0x20
abbrev flexarULong2 : UInt8 := 0x21

attribute [simp] flexarNil flexarUChar flexarChar flexarShort flexarUShort flexarLong flexarStr
  flexarDouble flexarDateX flexarLogic flexarAray flexarDateJ flexarDouble2 flexarUChar1
  flexarChar1 flexarShort1 flexarUShort1 flexarLong1 flexarNul flexarTrue flexarFalse
  flexarLDouble flexarUChar2 flexarChar2 flexarShort2 flexarUShort2 flexarLong2 flexarULong2

section Store

variable (platform : Platform) (iTrans : Trans)

mutual

def countFlexItemLength : Item → Nat
  | .array items => 1 + 2 + countFlexItems (items.length % 0x10000) items
  | .string value =>
    let ulLen := countStr iTrans 0xFFFF value
    if ulLen > 0 then 1 + (ulLen + 2) else 1
  | .date _ => 1 + 4
  | .timestamp _ _ => 1 + 4
  | .numInt iVal _ =>
    1 + if limInt8 iVal then 2 else if limInt16 iVal then 3 else if limInt32 iVal then 5 else 10
  | .double _ _ _ => 1 + 10
  | .logical _ => 1
  | .nil => 1
  | .other => 1

def countFlexItems : (ulLen : Nat) → List Item → Nat
  | ulLen + 1, item :: items => countFlexItemLength item + countFlexItems ulLen items
  | _, _ => 0

end

def storeFlexDouble2 (dVal : UInt64) (iWidth iDec : Nat) (bBufPtr : Buffer) : Buffer :=
  ((((bBufPtr.putByte flexarDouble2).putByte (UInt8.ofNat iWidth)).putByte
    (UInt8.ofNat iDec)).poke 0 (leBytes 8 dVal.toNat)).advance 8

def storeFlexDate (julian : Int) (bBufPtr : Buffer) : Buffer :=
  ((bBufPtr.putByte flexarDateJ).poke 0 (leBytes 4 (unsigned 32 julian))).advance 4

mutual

def storeFlexItem : Item → Buffer → Buffer
  | .array items, bBufPtr =>
    let ulLen := items.length % 0x10000
    storeFlexItems ulLen items
      (((bBufPtr.putByte flexarAray).poke 0 (leBytes 2 ulLen)).advance 2)
  | .string value, bBufPtr =>
    if value.length = 0 then bBufPtr.putByte flexarNul
    else
      let stored := storeStr iTrans 0xFFFF 2 value (bBufPtr.putByte flexarStr)
      (stored.1.poke 0 (leBytes 2 stored.2)).advance (stored.2 + 2)
  | .date julian, bBufPtr => storeFlexDate julian bBufPtr
  | .timestamp julian _, bBufPtr => storeFlexDate julian bBufPtr
  | .numInt iVal iWidth, bBufPtr =>
    if limInt8 iVal then
      ((bBufPtr.putByte flexarChar1).putByte (UInt8.ofNat (unsigned 8 iVal))).putByte
        (UInt8.ofNat iWidth)
    else if limInt16 iVal then
      (((bBufPtr.putByte flexarShort1).poke 0 (leBytes 2 (unsigned 16 iVal))).advance 2).putByte
        (UInt8.ofNat iWidth)
    else if limInt32 iVal then
      (((bBufPtr.putByte flexarLong1).poke 0 (leBytes 4 (unsigned 32 iVal))).advance 4).putByte
        (UInt8.ofNat iWidth)
    else storeFlexDouble2 (platform.ofMaxInt iVal) iWidth 0 bBufPtr
  | .double dVal iWidth iDec, bBufPtr =>
    storeFlexDouble2 dVal (if iDec ≠ 0 then iWidth + iDec + 1 else iWidth) iDec bBufPtr
  | .logical value, bBufPtr => bBufPtr.putByte (if value then flexarTrue else flexarFalse)
  | .nil, bBufPtr => bBufPtr.putByte flexarNil
  | .other, bBufPtr => bBufPtr.putByte flexarNil

def storeFlexItems : (ulLen : Nat) → List Item → Buffer → Buffer
  | ulLen + 1, item :: items, bBufPtr => storeFlexItems ulLen items (storeFlexItem item bBufPtr)
  | _, _, bBufPtr => bBufPtr

end

def readNum (n : Nat) (put : Nat → Item) (pbMemoBuf : Bytes) : Except ErrCode (Item × Bytes) := do
  let (buffer, pbMemoBuf) ← takeBytes .corrupt n pbMemoBuf
  .ok (put (leValue buffer), pbMemoBuf)

def readNumLen (n : Nat) (put : Nat → Int → Item) (pbMemoBuf : Bytes) :
    Except ErrCode (Item × Bytes) := do
  let (buffer, pbMemoBuf) ← takeBytes .corrupt (n + 1) pbMemoBuf
  .ok (put (leValue (buffer.take n)) (leValue (buffer.drop n)), pbMemoBuf)

/-- A number of `n` bytes, its width and its decimals: with decimals it becomes a
double. -/
def readNumDec (n : Nat) (cast : Nat → Int) (put : Int → Int → Item) (pbMemoBuf : Bytes) :
    Except ErrCode (Item × Bytes) := do
  let (buffer, pbMemoBuf) ← takeBytes .corrupt (n + 2) pbMemoBuf
  let value := cast (leValue (buffer.take n))
  let iLen : Int := (buffer.getD n 0).toNat
  let iDec := (buffer.getD (n + 1) 0).toNat
  .ok (if iDec ≠ 0 then itemPutNDLen platform (platform.ofMaxInt value) (iLen - (iDec + 1)) iDec
    else put value iLen, pbMemoBuf)

def readFlexDouble2 (pbMemoBuf : Bytes) : Except ErrCode (Item × Bytes) := do
  let (buffer, pbMemoBuf) ← takeBytes .corrupt 10 pbMemoBuf
  let iLen : Int := (buffer.getD 0 0).toNat
  let iDec := (buffer.getD 1 0).toNat
  .ok (itemPutNDLen platform (UInt64.ofNat (leValue (buffer.drop 2)))
    (if iDec ≠ 0 then iLen - (iDec + 1) else iLen) iDec, pbMemoBuf)

/-- The type of the item and the bytes behind it; a root array has no type byte. -/
def flexType (bRoot : Bool) (pbMemoBuf : Bytes) : Except ErrCode (UInt8 × Bytes) :=
  if bRoot then .ok (flexarAray, pbMemoBuf)
  else match pbMemoBuf with
    | [] => .error .corrupt
    | usType :: pbMemoBuf => .ok (usType, pbMemoBuf)

/-- `hb_fptReadFlexItem`: the bytes up to `bBufEnd` are given. -/
def readFlexItem : (fuel : Nat) → (bRoot : Bool) → Bytes → Except ErrCode (Item × Bytes)
  | 0, _, _ => .error .corrupt
  | fuel + 1, bRoot, pbMemoBuf => do
    let (usType, pbMemoBuf) ← flexType bRoot pbMemoBuf
    if usType = flexarNil then .ok (.nil, pbMemoBuf)
    else if usType = flexarTrue then .ok (.logical true, pbMemoBuf)
    else if usType = flexarFalse then .ok (.logical false, pbMemoBuf)
    else if usType = flexarLogic then readNum 1 (fun n => .logical (n ≠ 0)) pbMemoBuf
    else if usType = flexarDateJ ∨ usType = flexarDateX then
      readNum 4 (fun n => .date (platform.castLong n)) pbMemoBuf
    else if usType = flexarChar then readNum 1 (fun n => itemPutNI (signed 8 n)) pbMemoBuf
    else if usType = flexarChar1 then
      readNumLen 1 (fun n iLen => itemPutNILen (signed 8 n) iLen) pbMemoBuf
    else if usType = flexarChar2 then
      readNumDec platform 1 (fun n => signed 8 n) itemPutNILen pbMemoBuf
    else if usType = flexarUChar then readNum 1 (fun n => itemPutNI n) pbMemoBuf
    else if usType = flexarUChar1 then readNumLen 1 (fun n iLen => itemPutNILen n iLen) pbMemoBuf
    else if usType = flexarUChar2 then
      readNumDec platform 1 (fun n => n) itemPutNILen pbMemoBuf
    else if usType = flexarShort then readNum 2 (fun n => itemPutNI (signed 16 n)) pbMemoBuf
    else if usType = flexarShort1 then
      readNumLen 2 (fun n iLen => itemPutNILen (signed 16 n) iLen) pbMemoBuf
    else if usType = flexarShort2 then
      readNumDec platform 2 (fun n => signed 16 n) itemPutNILen pbMemoBuf
    else if usType = flexarUShort then readNum 2 (fun n => itemPutNInt n) pbMemoBuf
    else if usType = flexarUShort1 then
      readNumLen 2 (fun n iLen => itemPutNIntLen n iLen) pbMemoBuf
    else if usType = flexarUShort2 then
      readNumDec platform 2 (fun n => n) itemPutNIntLen pbMemoBuf
    else if usType = flexarLong then
      readNum 4 (fun n => itemPutNL platform (platform.castLong n)) pbMemoBuf
    else if usType = flexarLong1 then
      readNumLen 4 (fun n iLen => itemPutNLLen platform (platform.castLong n) iLen) pbMemoBuf
    else if usType = flexarLong2 then
      readNumDec platform 4 platform.castLong (itemPutNLLen platform) pbMemoBuf
    else if usType = flexarULong2 then
      readNumDec platform 4 (fun n => n) itemPutNIntLen pbMemoBuf
    else if usType = flexarDouble then
      readNum 8 (fun n => itemPutND platform (UInt64.ofNat n)) pbMemoBuf
    else if usType = flexarDouble2 then readFlexDouble2 platform pbMemoBuf
    else if usType = flexarLDouble then readNum 10 (fun _ => itemPutND platform 0) pbMemoBuf
    else if usType = flexarNul then .ok (.string [], pbMemoBuf)
    else if usType = flexarStr then do
      let (buffer, pbMemoBuf) ← takeBytes .corrupt 2 pbMemoBuf
      let (pszStr, pbMemoBuf) ← takeBytes .corrupt (leValue buffer) pbMemoBuf
      .ok (.string (readStr iTrans pszStr), pbMemoBuf)
    else if usType = flexarAray then do
      let (buffer, pbMemoBuf) ← takeBytes .corrupt 2 pbMemoBuf
      if pbMemoBuf.length < leValue buffer then .error .corrupt
      else do
        let (items, pbMemoBuf) ← readItems (readFlexItem fuel false) (leValue buffer) pbMemoBuf
        .ok (.array items, pbMemoBuf)
    else .error .corrupt

def flexFormat : Format where
  count := countFlexItemLength iTrans
  store := storeFlexItem platform iTrans
  read fuel := readFlexItem platform iTrans fuel false

/-! ### The layout -/

def flexLeafBytes : Item → Bytes
  | .string value =>
    if value.length = 0 then [flexarNul]
    else flexarStr :: (leBytes 2 value.length ++ strBytes iTrans value)
  | .numInt iVal iWidth =>
    if limInt8 iVal then flexarChar1 :: leBytes 1 (unsigned 8 iVal) ++ [UInt8.ofNat iWidth]
    else if limInt16 iVal then
      flexarShort1 :: leBytes 2 (unsigned 16 iVal) ++ [UInt8.ofNat iWidth]
    else flexarLong1 :: leBytes 4 (unsigned 32 iVal) ++ [UInt8.ofNat iWidth]
  | .double dVal iWidth iDec =>
    flexarDouble2 :: UInt8.ofNat (if iDec ≠ 0 then iWidth + iDec + 1 else iWidth) ::
      UInt8.ofNat iDec :: leBytes 8 dVal.toNat
  | .date julian => flexarDateJ :: leBytes 4 (unsigned 32 julian)
  | .logical value => [if value then flexarTrue else flexarFalse]
  | _ => [flexarNil]

def flexLeafBack : Item → Item
  | .numInt iVal iWidth =>
    if limInt8 iVal ∨ limInt16 iVal then itemPutNILen iVal (UInt8.ofNat iWidth).toNat
    else itemPutNLLen platform (platform.castLong (unsigned 32 iVal)) (UInt8.ofNat iWidth).toNat
  | .double dVal iWidth iDec =>
    let iLen : Int := (UInt8.ofNat (if iDec ≠ 0 then iWidth + iDec + 1 else iWidth)).toNat
    let iDec := (UInt8.ofNat iDec).toNat
    itemPutNDLen platform dVal (if iDec ≠ 0 then iLen - (iDec + 1) else iLen) iDec
  | .date julian => .date (platform.castLong (unsigned 32 julian))
  | item => item

def flexLayout : Layout where
  header n := flexarAray :: leBytes 2 n
  leafBytes := flexLeafBytes iTrans
  leafBack := flexLeafBack platform
  leafSpill
    | .string value => strNul iTrans 0xFFFF value
    | _ => []

end Store

variable {platform : Platform} {iTrans : Trans}

section

variable (items : List Item)

include items

theorem countFlex_array (h : items.length ≤ 0xFFFF) : countFlexItemLength iTrans (.array items) =
      ((flexLayout platform iTrans).header items.length).length +
        (items.map (countFlexItemLength iTrans)).sum := by
  rw [countFlexItemLength, Nat.mod_eq_of_lt (by omega),
    countItems_eq (countFlexItems iTrans) rfl fun _ _ _ => rfl]
  simp [flexLayout]

theorem storeFlex_array (buf : Buffer) (h : items.length ≤ 0xFFFF) :
    storeFlexItem platform iTrans (.array items) buf =
      items.foldl (fun buf item => storeFlexItem platform iTrans item buf)
        (buf.fill ((flexLayout platform iTrans).header items.length)
          ((flexLayout platform iTrans).header items.length).length) := by
  rw [storeFlexItem, Nat.mod_eq_of_lt (by omega),
    storeItems_eq (storeFlexItems platform iTrans) (fun _ => rfl) fun _ _ _ _ => rfl]
  congr 1
  exact Buffer.fill_put buf [flexarAray] (leBytes 2 items.length)

end

section

variable {item : Item} (hstorable : Storable platform iTrans item) (hwide : NoWideText iTrans item)
  (hitem : ∀ items, item ≠ .array items)

include hstorable hwide hitem

theorem countFlex_leaf : countFlexItemLength iTrans item = (flexLeafBytes iTrans item).length := by
  cases item with
  | array items => exact absurd rfl (hitem items)
  | string value =>
    simp only [countFlexItemLength, countStr_eq hstorable hwide (Nat.le_refl _), flexLeafBytes]
    split_ifs with hpos hzero
    · omega
    · simp
      omega
    · rfl
    · omega
  | numInt iVal length =>
    simp only [countFlexItemLength, limInt32_of_storable hstorable, flexLeafBytes, if_true]
    split_ifs <;> simp
  | timestamp julian milliSec => exact hstorable.elim
  | other => exact hstorable.elim
  | _ => simp [countFlexItemLength, flexLeafBytes]

theorem storeFlex_leaf (buf : Buffer) : storeFlexItem platform iTrans item buf =
      buf.fill (flexLeafBytes iTrans item ++ (flexLayout platform iTrans).leafSpill item)
        (flexLeafBytes iTrans item).length := by
  cases item with
  | array items => exact absurd rfl (hitem items)
  | string value =>
    rw [storeFlexItem, storeStr_eq hstorable hwide (Nat.le_refl _)]
    by_cases hzero : value.length = 0
    · rw [length_eq_zero_iff.mp hzero]
      cases iTrans <;> rfl
    · simpa [flexLayout, flexLeafBytes, hzero] using Buffer.putByte_poke_poke buf flexarStr
        (leBytes 2 value.length) (strBytes iTrans value) (strNul iTrans 0xFFFF value)
  | numInt iVal iWidth =>
    have hput : ∀ (b : UInt8) (bytes : Bytes),
        (((buf.putByte b).poke 0 bytes).advance bytes.length).putByte (UInt8.ofNat iWidth) =
          buf.fill (b :: bytes ++ [UInt8.ofNat iWidth])
            (b :: bytes ++ [UInt8.ofNat iWidth]).length := by
      intro b bytes
      rw [show buf.putByte b = buf.fill [b] [b].length from rfl, Buffer.fill_put,
        Buffer.fill_putByte]
      rfl
    simp only [storeFlexItem, limInt32_of_storable hstorable, flexLayout, flexLeafBytes,
      append_nil, if_true]
    split_ifs
    · exact hput flexarChar1 (leBytes 1 (unsigned 8 iVal))
    · exact hput flexarShort1 (leBytes 2 (unsigned 16 iVal))
    · exact hput flexarLong1 (leBytes 4 (unsigned 32 iVal))
  | double dVal iWidth iDec =>
    have hfirst : buf.putByte flexarDouble2 = buf.fill [flexarDouble2] [flexarDouble2].length :=
      rfl
    simp only [storeFlexItem, storeFlexDouble2]
    rw [hfirst, Buffer.fill_putByte, Buffer.fill_putByte]
    exact (Buffer.fill_put buf _ (leBytes 8 dVal.toNat)).trans
      (by simp [flexLayout, flexLeafBytes])
  | date julian =>
    simpa [flexLayout, flexLeafBytes, storeFlexItem, storeFlexDate, Buffer.putByte_eq_fill] using
      Buffer.fill_put buf [flexarDateJ] (leBytes 4 (unsigned 32 julian))
  | logical value => rfl
  | nil => rfl
  | timestamp julian milliSec => exact hstorable.elim
  | other => exact hstorable.elim

end

theorem signed_leValue {bits : Nat} (width : Nat) (hwidth : (2 : Nat) ^ bits = 256 ^ width)
    (hbits : 0 < bits) {n : Int} (hle : -2 ^ (bits - 1) ≤ n) (hlt : n < 2 ^ (bits - 1)) :
    signed bits (leValue (leBytes width (unsigned bits n))) = n := by
  have hunsigned := unsigned_lt bits n
  rw [hwidth] at hunsigned
  rw [leValue_leBytes, Nat.mod_eq_of_lt hunsigned, signed_unsigned hbits hle hlt]

theorem readNumLen_append (n : Nat) (put : Nat → Int → Item) {bytes : Bytes}
    (hbytes : bytes.length = n) (b : UInt8) (tail : Bytes) :
    readNumLen n put (bytes ++ b :: tail) = .ok (put (leValue bytes) b.toNat, tail) := by
  subst hbytes
  have htake := takeBytes_append .corrupt (Eq.refl (bytes ++ [b]).length) tail
  rw [append_assoc, singleton_append, length_append, length_singleton] at htake
  rw [readNumLen, htake]
  simp [bind, Except.bind, leValue]

theorem readFlex_leaf (htrans : Faithful iTrans) {item : Item}
    (hstorable : Storable platform iTrans item) (hwide : NoWideText iTrans item)
    (hitem : ∀ items, item ≠ .array items) (fuel : Nat) (tail : Bytes) :
    readFlexItem platform iTrans (fuel + 1) false (flexLeafBytes iTrans item ++ tail) =
      .ok (flexLeafBack platform item, tail) := by
  cases item with
  | array items => exact absurd rfl (hitem items)
  | string value =>
    have hlen := length_le_of_storable hstorable hwide
    by_cases hzero : value.length = 0
    · rw [length_eq_zero_iff.mp hzero]
      rfl
    · simp [flexLeafBytes, flexLeafBack, hzero, readFlexItem, flexType, takeBytes_append,
        leValue_leBytes_le hlen, readStr_strBytes htrans hwide, bind, Except.bind]
  | numInt iVal iWidth =>
    by_cases h8 : limInt8 iVal
    · have hvalue : signed 8 (leValue (leBytes 1 (unsigned 8 iVal))) = iVal := by
        simp only [limInt8, decide_eq_true_eq] at h8
        exact signed_leValue 1 rfl (by decide) (by omega) (by omega)
      simp [flexLeafBytes, flexLeafBack, h8, readFlexItem, flexType, readNumLen_append, hvalue,
        bind, Except.bind]
    by_cases h16 : limInt16 iVal
    · have hvalue : signed 16 (leValue (leBytes 2 (unsigned 16 iVal))) = iVal := by
        simp only [limInt16, decide_eq_true_eq] at h16
        exact signed_leValue 2 rfl (by decide) (by omega) (by omega)
      simp [flexLeafBytes, flexLeafBack, h8, h16, readFlexItem, flexType, readNumLen_append,
        hvalue, bind, Except.bind]
    · simp [flexLeafBytes, flexLeafBack, h8, h16, readFlexItem, flexType, readNumLen_append,
        leValue_unsigned, bind, Except.bind]
  | double dVal iWidth iDec =>
    have htake : ∀ b b' : UInt8, takeBytes .corrupt 10
        (b :: b' :: (leBytes 8 dVal.toNat ++ tail)) = .ok (b :: b' :: leBytes 8 dVal.toNat, tail) :=
      fun b b' => takeBytes_append .corrupt
        (show (b :: b' :: leBytes 8 dVal.toNat).length = 10 by simp) tail
    simp [flexLeafBytes, flexLeafBack, readFlexItem, flexType, readFlexDouble2, htake,
      leValue_double,
      bind, Except.bind]
  | date julian =>
    simp [flexLeafBytes, flexLeafBack, readFlexItem, flexType, readNum, takeBytes_append,
      leValue_unsigned, bind,
      Except.bind]
  | logical value => cases value <;> rfl
  | nil => rfl
  | timestamp julian milliSec => exact hstorable.elim
  | other => exact hstorable.elim

section

variable {n : Nat} (hn : n ≤ 0xFFFF) (fuel : Nat) (memo : Bytes)

include hn

theorem readFlex_string :
    readFlexItem platform iTrans (fuel + 1) false (flexarStr :: leBytes 2 n ++ memo) =
      (takeBytes .corrupt n memo).map
        fun taken => (.string (readStr iTrans taken.1), taken.2) := by
  simp [readFlexItem, flexType, takeBytes_append, bind, Except.bind, leValue_leBytes_le hn]
  rfl

theorem readFlex_array :
    readFlexItem platform iTrans (fuel + 1) false ((flexLayout platform iTrans).header n ++ memo) =
      if memo.length < n then .error .corrupt
      else (readItems (readFlexItem platform iTrans fuel false) n memo).map
        fun parsed => (.array parsed.1, parsed.2) := by
  simp [flexLayout, readFlexItem, flexType, takeBytes_append, bind, Except.bind,
    leValue_leBytes_le hn]
  rfl

end

theorem flex_leafBytes_length (item : Item) : 0 < (flexLeafBytes iTrans item).length := by
  cases item with
  | string value | numInt iVal iWidth =>
    simp only [flexLeafBytes]
    split_ifs <;> simp
  | _ => simp [flexLeafBytes]

theorem flex_follows (htrans : Faithful iTrans) :
    Follows (flexFormat platform iTrans) (flexLayout platform iTrans) platform iTrans where
  header_length n := by simp [flexLayout]
  leafBytes_length item _ _ := flex_leafBytes_length item
  leafSpill_length := strSpill_length iTrans 0xFFFF
  count_leaf _ := countFlex_leaf
  count_array := countFlex_array
  store_leaf _ buf hstorable hwide hitem := storeFlex_leaf hstorable hwide hitem buf
  store_array := storeFlex_array
  read_leaf _ fuel tail hstorable hwide hitem :=
    readFlex_leaf htrans hstorable hwide hitem fuel tail
  read_array n fuel memo hn hmemo := (readFlex_array hn fuel memo).trans (if_neg (by omega))

/-! ### Wide text -/

theorem flex_misplaces {vmCDP : CodePage} (hpage : Separates vmCDP) :
    Misplaces (flexFormat platform (.unicode vmCDP)) (flexLayout platform (.unicode vmCDP))
      platform vmCDP where
  follows := flex_follows hpage
  leafSpill item := by cases item <;> rfl
  read_zero _ := ⟨_, rfl⟩
  read_array_ok n fuel memo parsed hn h := by
    simp only [flexFormat, readFlex_array hn] at h ⊢
    split at h
    · cases h
    · exact map_ok h
  exposes_leaf value hstorable hne := by
    have hlength : value.length ≠ 0 := by simpa using hne
    exact exposes_typed flexarStr hstorable hne
      (fun buf => by simp only [flexFormat, storeFlexItem, if_neg hlength])
      fun fuel memo hn => readFlex_string hn fuel memo

end Harbour.Rdd.MemoFlex
