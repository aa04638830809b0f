import Harbour.Library.Memory
import Harbour.Rtl.Cdpapi

/-!
What the three memo formats share: the items they hold, the translation of
strings and the reading of a row of items.
-/

namespace Harbour.Rdd.MemoItem

open Library.Bytes List Library.Memory Rtl.Cdpapi

/-- A virtual machine item with its display lengths; doubles are given by their 64
bits.  `other` stands for the types that are stored as NIL. -/
inductive Item where
  | nil
  | logical (value : Bool)
  | date (julian : Int)
  | timestamp (julian milliSec : Int)
  | numInt (value : Int) (length : Nat)
  | double (value : UInt64) (length decimal : Nat)
  | string (value : Bytes)
  | array (items : List Item)
  | other

@[elab_as_elim]
theorem Item.inductionOn {motive : Item → Prop} (item : Item)
    (array : ∀ items, (∀ item ∈ items, motive item) → motive (.array items))
    (leaf : ∀ item, (∀ items, item ≠ .array items) → motive item) : motive item :=
  Item.rec (motive_1 := motive) (motive_2 := fun items => ∀ item ∈ items, motive item)
    (leaf _ (by simp)) (fun _ => leaf _ (by simp)) (fun _ => leaf _ (by simp))
    (fun _ _ => leaf _ (by simp)) (fun _ _ => leaf _ (by simp)) (fun _ _ _ => leaf _ (by simp))
    (fun _ => leaf _ (by simp)) array (leaf _ (by simp)) (by simp)
    (fun _ _ hhead htail => forall_mem_cons.mpr ⟨hhead, htail⟩) item

mutual

def Item.plain : Item → Item
  | .numInt value _ => .numInt value 0
  | .double value _ _ => .double value 0 0
  | .array items => .array (Item.plainItems items)
  | item => item

def Item.plainItems : List Item → List Item
  | [] => []
  | item :: items => item.plain :: Item.plainItems items

end

theorem Item.plainItems_eq (items : List Item) : Item.plainItems items = items.map Item.plain := by
  induction items with
  | nil => rfl
  | cons item items ih => rw [Item.plainItems, ih, map_cons]

mutual

def Item.Everywhere (p : Item → Prop) : Item → Prop
  | .array items => p (.array items) ∧ Item.EverywhereItems p items
  | item => p item

def Item.EverywhereItems (p : Item → Prop) : List Item → Prop
  | [] => True
  | item :: items => item.Everywhere p ∧ Item.EverywhereItems p items

end

variable {items : List Item} {p : Item → Prop} {n : Nat} {memo : Bytes} {back : Item → Item}
  {bytes : Item → Bytes}

theorem Item.everywhereItems_iff :
    Item.EverywhereItems p items ↔ ∀ item ∈ items, item.Everywhere p := by
  induction items with
  | nil => simp [Item.EverywhereItems]
  | cons item items ih => simp [Item.EverywhereItems, ih]

theorem Item.everywhere_array :
    (Item.array items).Everywhere p ↔
      p (.array items) ∧ ∀ item ∈ items, item.Everywhere p := by
  rw [Item.Everywhere, Item.everywhereItems_iff]

theorem Item.everywhere_leaf {item : Item} (h : ∀ items, item ≠ .array items) :
    item.Everywhere p ↔ p item := by
  cases item with
  | array items => exact absurd rfl (h items)
  | _ =>
    rw [Item.Everywhere]
    exact h

/-! ### Numbers -/

/-- The width of `long`, and the parts of floating point the formats use:
`HB_DBL_LENGTH`, the conversion of an integer and the setting `HB_SET_DECIMALS`. -/
structure Platform where
  long64 : Bool
  dblLength : UInt64 → Nat
  ofMaxInt : Int → UInt64
  setDecimals : Nat

def limInt8 (l : Int) : Bool := decide (-128 ≤ l ∧ l ≤ 127)

def limInt16 (l : Int) : Bool := decide (-32768 ≤ l ∧ l ≤ 32767)

def limInt32 (l : Int) : Bool := decide (-2147483648 ≤ l ∧ l ≤ 2147483647)

def intLength (i : Int) : Nat := if i < -999999999 ∨ i > 999999999 then 20 else 10

def intExpLength (i : Int) : Nat := if i < -999999999 then 20 else 10

def longLength (l : Int) : Nat := if l < -999999999 ∨ l > 9999999999 then 20 else 10

def Platform.castLong (platform : Platform) (n : Nat) : Int :=
  if platform.long64 then n else signed 32 n

def itemPutNInt (nNumber : Int) : Item :=
  .numInt nNumber (if limInt32 nNumber then intExpLength nNumber else longLength nNumber)

def itemPutNI (iNumber : Int) : Item := .numInt iNumber (intLength iNumber)

def itemPutNL (platform : Platform) (lNumber : Int) : Item :=
  .numInt lNumber (if platform.long64 then longLength lNumber else intLength lNumber)

def widthOr (iWidth : Int) (default : Nat) : Nat :=
  if iWidth ≤ 0 ∨ iWidth ≥ 255 then default else iWidth.toNat

def itemPutNILen (iNumber iWidth : Int) : Item :=
  .numInt iNumber (widthOr iWidth (intLength iNumber))

def itemPutNLLen (platform : Platform) (lNumber iWidth : Int) : Item :=
  .numInt lNumber
    (widthOr iWidth (if platform.long64 then longLength lNumber else intLength lNumber))

def itemPutNIntLen (nNumber iWidth : Int) : Item :=
  .numInt nNumber
    (widthOr iWidth (if limInt32 nNumber then intLength nNumber else longLength nNumber))

def itemPutND (platform : Platform) (dNumber : UInt64) : Item :=
  .double dNumber (platform.dblLength dNumber) platform.setDecimals

/-- `hb_itemPutNDLen`, for decimals that are not negative. -/
def itemPutNDLen (platform : Platform) (dNumber : UInt64) (iWidth : Int) (iDec : Nat) : Item :=
  .double dNumber (widthOr iWidth (platform.dblLength dNumber)) iDec

/-! ### Strings -/

/-- The translation of strings: none, to the code page of the area, or to UTF-16. -/
inductive Trans where
  | none
  | cp (vmCDP cdPage : ByteCodePage)
  | unicode (vmCDP : CodePage)

def u16Bytes (text : List UInt16) : Bytes :=
  text.flatMap fun wc => leBytes 2 wc.toNat

def u16Chars : Bytes → List UInt16
  | lo :: hi :: text => UInt16.ofNat (leValue [lo, hi]) :: u16Chars text
  | _ => []

def countStr (iTrans : Trans) (u : Nat) (value : Bytes) : Nat :=
  match iTrans with
  | .unicode vmCDP => cdpStrAsU16Len vmCDP value u * 2
  | .cp _ _ => if value.length > 0 then cdpTransLen value.length u else min value.length u
  | .none => min value.length u

def storeStr (iTrans : Trans) (u off : Nat) (value : Bytes) (bBufPtr : Buffer) : Buffer × Nat :=
  match iTrans with
  | .unicode vmCDP =>
    let ulLen := cdpStrAsU16Len vmCDP value u
    let text := cdpStrToU16 vmCDP value ulLen
    -- the cast binds tighter than the sum, so `off` counts wide characters here
    let end16 : Bytes := if text.length < ulLen then [0, 0] else []
    (bBufPtr.poke (2 * off) (u16Bytes text ++ end16), text.length * 2)
  | .cp vmCDP cdPage =>
    if value.length > 0 then
      let text := cdpTransTo value u vmCDP cdPage
      let nul : Bytes := if text.length < u then [0] else []
      (bBufPtr.poke off (text ++ nul), text.length)
    else (bBufPtr, value.length)
  | .none =>
    if value.length > 0 then (bBufPtr.poke off (value.take u), (value.take u).length)
    else (bBufPtr, value.length)

def readStr (iTrans : Trans) (text : Bytes) : Bytes :=
  match iTrans with
  | .unicode vmCDP => (u16Chars text).flatMap (cdpU16ToStr vmCDP)
  | .cp vmCDP cdPage => if text.length > 0 then cdpnDup text cdPage vmCDP else text
  | .none => text

/-! ### Reading -/

inductive ErrCode where
  | corrupt
  | read
deriving DecidableEq, Repr

def takeBytes (errCode : ErrCode) (n : Nat) (memo : Bytes) : Except ErrCode (Bytes × Bytes) :=
  if memo.length ≥ n then .ok (memo.take n, memo.drop n) else .error errCode

def readItems (read : Bytes → Except ErrCode (Item × Bytes)) :
    (ulLen : Nat) → Bytes → Except ErrCode (List Item × Bytes)
  | 0, memo => .ok ([], memo)
  | ulLen + 1, memo => do
    let (item, memo) ← read memo
    let (items, memo) ← readItems read ulLen memo
    .ok (item :: items, memo)

theorem takeBytes_append (errCode : ErrCode) {bytes : Bytes} (h : bytes.length = n) (tail : Bytes) :
    takeBytes errCode n (bytes ++ tail) = .ok (bytes, tail) := by
  subst h
  simp [takeBytes]

theorem takeBytes_ok {errCode : ErrCode} {taken : Bytes × Bytes}
    (h : takeBytes errCode n memo = .ok taken) : taken.1 = memo.take n := by
  unfold takeBytes at h
  split at h
  · cases h
    rfl
  · cases h

theorem leValue_leBytes_le (h : n ≤ 0xFFFF) : leValue (leBytes 2 n) = n := by
  have hlt : n < 256 ^ 2 := by omega
  rw [leValue_leBytes, Nat.mod_eq_of_lt hlt]

theorem leValue_unsigned (n : Int) : leValue (leBytes 4 (unsigned 32 n)) = unsigned 32 n := by
  have hlt : unsigned 32 n < 256 ^ 4 := unsigned_lt 32 n
  rw [leValue_leBytes, Nat.mod_eq_of_lt hlt]

theorem leValue_double (dVal : UInt64) : UInt64.ofNat (leValue (leBytes 8 dVal.toNat)) = dVal := by
  have hlt : dVal.toNat < 256 ^ 8 := dVal.toNat_lt
  rw [leValue_leBytes, Nat.mod_eq_of_lt hlt]
  exact UInt64.ofNat_toNat

theorem map_ok {read : Except ErrCode (List Item × Bytes)} {parsed : Item × Bytes}
    (h : (read.map fun parsed => (Item.array parsed.1, parsed.2)) = .ok parsed) :
    ∃ items memo, read = .ok (items, memo) ∧ parsed = (.array items, memo) := by
  cases read with
  | error errCode => cases h
  | ok row =>
    cases h
    exact ⟨row.1, row.2, rfl, rfl⟩

theorem countItems_eq {count : Item → Nat} (countItems : (ulLen : Nat) → List Item → Nat)
    (hnil : countItems 0 [] = 0) (hcons : ∀ ulLen item items,
      countItems (ulLen + 1) (item :: items) = count item + countItems ulLen items)
    (items : List Item) : countItems items.length items = (items.map count).sum := by
  induction items with
  | nil => exact hnil
  | cons item items ih => rw [length_cons, hcons, ih, map_cons, sum_cons]

theorem storeItems_eq {store : Item → Buffer → Buffer}
    (storeItems : (ulLen : Nat) → List Item → Buffer → Buffer)
    (hnil : ∀ buf, storeItems 0 [] buf = buf) (hcons : ∀ ulLen item items buf,
      storeItems (ulLen + 1) (item :: items) buf = storeItems ulLen items (store item buf))
    (items : List Item) (buf : Buffer) : storeItems items.length items buf =
      items.foldl (fun buf item => store item buf) buf := by
  induction items generalizing buf with
  | nil => exact hnil buf
  | cons item items ih => rw [length_cons, hcons, ih, foldl_cons]

variable {read : Bytes → Except ErrCode (Item × Bytes)}

theorem readItems_flatMap
    (h : ∀ item ∈ items, ∀ tail, read (bytes item ++ tail) = .ok (back item, tail)) (tail : Bytes) :
    readItems read items.length (items.flatMap bytes ++ tail) = .ok (items.map back, tail) := by
  induction items with
  | nil => rfl
  | cons item items ih =>
    rw [flatMap_cons, append_assoc, length_cons, readItems,
      h item (by simp)]
    simp [bind, Except.bind, ih fun item hitem => h item (by simp [hitem])]

theorem readItems_split {before : List Item}
    (h : ∀ item ∈ before, ∀ tail, read (bytes item ++ tail) = .ok (back item, tail)) {tail : Bytes}
    (hread : readItems read (before.length + (n + 1)) (before.flatMap bytes ++ tail) =
      .ok (items, memo)) :
    ∃ item memo' items', read tail = .ok (item, memo') ∧
      items = before.map back ++ item :: items' := by
  induction before generalizing items with
  | nil =>
    rw [length_nil, Nat.zero_add, flatMap_nil, nil_append, readItems] at hread
    cases hitem : read tail with
    | error errCode => simp [hitem, bind, Except.bind] at hread
    | ok parsed =>
      obtain ⟨item, memo'⟩ := parsed
      cases hitems : readItems read n memo' with
      | error errCode => simp [hitem, hitems, bind, Except.bind] at hread
      | ok parsed =>
        simp only [hitem, hitems, bind, Except.bind, Except.ok.injEq, Prod.mk.injEq] at hread
        exact ⟨item, memo', parsed.1, rfl, by rw [← hread.1]; rfl⟩
  | cons item before ih =>
    rw [length_cons, Nat.add_right_comm, readItems, flatMap_cons, append_assoc,
      h item (by simp)] at hread
    simp only [bind, Except.bind] at hread
    cases hitems : readItems read (before.length + (n + 1)) (before.flatMap bytes ++ tail) with
    | error errCode => simp [hitems] at hread
    | ok parsed =>
      obtain ⟨rest, memo'⟩ := parsed
      simp only [hitems, Except.ok.injEq, Prod.mk.injEq] at hread
      obtain ⟨rfl, rfl⟩ := hread
      obtain ⟨item', memo'', items', hread', rfl⟩ :=
        ih (fun item hitem => h item (by simp [hitem])) hitems
      exact ⟨item', memo'', items', hread', rfl⟩

/-- The values of the round trips: the length of strings and arrays is stored in 16
bits, integers and dates in 32. -/
def Storable (platform : Platform) (iTrans : Trans) : Item → Prop
  | .nil | .logical _ | .double _ _ _ => True
  | .date julian =>
    if platform.long64 then -2 ^ 63 ≤ julian ∧ julian < 2 ^ 63
    else -2 ^ 31 ≤ julian ∧ julian < 2 ^ 31
  | .numInt value _ => -2 ^ 31 ≤ value ∧ value < 2 ^ 31
  | .string value =>
    match iTrans with
    | .unicode vmCDP => cdpStrAsU16Len vmCDP value 0 * 2 ≤ 0xFFFF
    | _ => value.length ≤ 0xFFFF
  | .array items => items.length ≤ 0xFFFF
  | .timestamp _ _ | .other => False

theorem limInt32_of_storable {platform : Platform} {iTrans : Trans} {iVal : Int} {length : Nat}
    (h : Storable platform iTrans (.numInt iVal length)) : limInt32 iVal = true := by
  simp only [Storable] at h
  simp only [limInt32, decide_eq_true_eq]
  omega

def NoWideText (iTrans : Trans) : Item → Prop
  | .string value =>
    match iTrans with
    | .unicode _ => value = []
    | _ => True
  | _ => True

/-- The bytes stored for a string that is not stored in wide characters. -/
def strBytes (iTrans : Trans) (value : Bytes) : Bytes :=
  match iTrans with
  | .cp vmCDP cdPage => value.map (cdpTransByte vmCDP cdPage)
  | _ => value

/-- The NUL stored behind a translated string when the room of `u` bytes is not used
up. -/
def strNul (iTrans : Trans) (u : Nat) (value : Bytes) : Bytes :=
  match iTrans with
  | .cp _ _ => if value.length > 0 ∧ value.length < u then [0] else []
  | _ => []

@[simp]
theorem strBytes_length (iTrans : Trans) (value : Bytes) :
    (strBytes iTrans value).length = value.length := by
  unfold strBytes
  split <;> simp

theorem strNul_length (iTrans : Trans) (u : Nat) (value : Bytes) :
    (strNul iTrans u value).length ≤ 1 := by
  unfold strNul
  split
  · split <;> simp
  · simp

section Strings

variable {platform : Platform} {iTrans : Trans} {value : Bytes} {u : Nat}

section

variable (h : Storable platform iTrans (.string value)) (hwide : NoWideText iTrans (.string value))

include h hwide

theorem length_le_of_storable : value.length ≤ 0xFFFF := by
  cases iTrans with
  | unicode vmCDP =>
    rw [show value = [] from hwide]
    simp
  | _ => exact h

theorem countStr_eq (hu : 0xFFFF ≤ u) : countStr iTrans u value = value.length := by
  have hlen := length_le_of_storable h hwide
  cases iTrans with
  | unicode vmCDP =>
    rw [show value = [] from hwide]
    simp [countStr]
  | cp vmCDP cdPage =>
    simp only [countStr, cdpTransLen]
    split_ifs <;> omega
  | none =>
    simp only [countStr]
    omega

theorem storeStr_eq (hu : 0xFFFF ≤ u) (off : Nat) (bBufPtr : Buffer) :
    storeStr iTrans u off value bBufPtr =
      (bBufPtr.poke off (strBytes iTrans value ++ strNul iTrans u value), value.length) := by
  have hlen := length_le_of_storable h hwide
  have hempty : bBufPtr.poke off [] = bBufPtr := by simp [Buffer.poke]
  cases iTrans with
  | unicode vmCDP =>
    rw [show value = [] from hwide]
    have htext : cdpStrToU16 vmCDP [] 0 = [] :=
      length_eq_zero_iff.mp (Nat.le_zero.mp (cdpStrToU16_length_le vmCDP [] 0))
    simp [storeStr, htext, u16Bytes, strBytes, strNul, Buffer.poke]
  | cp vmCDP cdPage =>
    simp only [storeStr, strBytes, strNul, cdpTransTo, take_of_length_le (hlen.trans hu),
      length_map]
    by_cases hpos : value.length > 0
    · simp [hpos]
    · rw [if_neg hpos, length_eq_zero_iff.mp (by omega : value.length = 0)]
      simp [hempty]
  | none =>
    simp only [storeStr, strBytes, strNul, take_of_length_le (hlen.trans hu),
      append_nil]
    by_cases hpos : value.length > 0
    · rw [if_pos hpos]
    · rw [if_neg hpos, length_eq_zero_iff.mp (by omega : value.length = 0), hempty]

end

/-- What the hypotheses of the round trips say about the translation. -/
def Faithful : Trans → Prop
  | .none => True
  | .cp vmCDP cdPage => Bijective vmCDP cdPage
  | .unicode vmCDP => Separates vmCDP

theorem readStr_strBytes (htrans : Faithful iTrans) (hwide : NoWideText iTrans (.string value)) :
    readStr iTrans (strBytes iTrans value) = value := by
  cases iTrans with
  | unicode vmCDP =>
    rw [show value = [] from hwide]
    rfl
  | cp vmCDP cdPage =>
    simp only [readStr, strBytes, cdpnDup_map htrans, length_map]
    split_ifs with hpos
    · rfl
    · rw [length_eq_zero_iff.mp (by omega : value.length = 0)]
      rfl
  | none => rfl

theorem storeStr_unicode {vmCDP : CodePage}
    (h : Storable platform (.unicode vmCDP) (.string value)) (u off : Nat) :
    ∃ payload n, n * 2 ≤ 0xFFFF ∧ ∀ bBufPtr : Buffer,
      storeStr (.unicode vmCDP) u off value bBufPtr = (bBufPtr.poke (2 * off) payload, n * 2) := by
  refine ⟨_, (cdpStrToU16 vmCDP value (cdpStrAsU16Len vmCDP value u)).length, ?_, fun _ => rfl⟩
  have hchars := cdpStrToU16_length_le vmCDP value (cdpStrAsU16Len vmCDP value u)
  have hlen : cdpStrAsU16Len vmCDP value u ≤ cdpStrAsU16Len vmCDP value 0 := by
    simp only [cdpStrAsU16Len]
    split_ifs <;> omega
  have hstored : cdpStrAsU16Len vmCDP value 0 * 2 ≤ 0xFFFF := h
  omega

theorem readStr_unicode (vmCDP : CodePage) (wc : UInt16) (text : Bytes) :
    readStr (.unicode vmCDP) (leBytes 2 wc.toNat ++ text) =
      cdpU16ToStr vmCDP wc ++ readStr (.unicode vmCDP) text := by
  have hchar : UInt16.ofNat (leValue (leBytes 2 wc.toNat)) = wc := by
    have hlt : wc.toNat < 256 ^ 2 := wc.toNat_lt
    rw [leValue_leBytes, Nat.mod_eq_of_lt hlt]
    exact UInt16.ofNat_toNat
  simp only [readStr, leBytes, cons_append, nil_append, u16Chars,
    flatMap_cons] at hchar ⊢
  rw [hchar]

end Strings

end Harbour.Rdd.MemoItem
