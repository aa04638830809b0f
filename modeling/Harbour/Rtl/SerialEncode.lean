import Harbour.Rtl.CdpSizes
import Harbour.Rtl.SerialRefs

/-!
The items that are serialised, where arrays and hashes are shared by their address, and the two
passes over them: the first one counts the bytes, the second one stores them.
-/

namespace Harbour.Rtl.SerialItems

/-- `HB_ITEM`; the last constructor stands for the types that are mapped to NIL. -/
inductive Item where
  | nil
  | logical (value : Bool)
  | date (julian : Int)
  | timestamp (julian milliSec : Int)
  | numInt (value : Int64) (iWidth : Nat)
  | double (bits : UInt64) (iWidth iDecimal : Nat)
  | symbol (szName : Bytes)
  | string (value : Bytes)
  | container (address : Nat)
  | byRef (item : Item)
  | other
deriving DecidableEq, Repr

def Item.unRef : Item → Item
  | .byRef item => item.unRef
  | item => item

abbrev ClassNames := Option (Bytes × Bytes)

structure ArrayBase where
  nRefs : Nat
  uiClass : ClassNames
  items : List Item

structure HashBase where
  nRefs : Nat
  iFlags : UInt32
  pDefault : Option Item
  pairs : List (Item × Item)

inductive Container where
  | array (base : ArrayBase)
  | hash (base : HashBase)

abbrev Heap := Nat → Container

def Container.nRefs : Container → Nat
  | .array base => base.nRefs
  | .hash base => base.nRefs

/-- The keys and values of a hash in the order in which they are serialised. -/
def HashBase.items (base : HashBase) : List Item :=
  base.pairs.flatMap fun pair => [pair.1, pair.2.unRef]

def Container.items : Container → List Item
  | .array base => base.items
  | .hash base => base.pDefault.toList ++ base.items

def hashResort : UInt32 := 0x08

def hashFlagDefault : UInt32 := 0x62

def HashBase.hasFlags (base : HashBase) : Bool :=
  base.iFlags &&& ~~~hashResort ≠ hashFlagDefault

/-- `HB_SERIALIZE_NUMSIZE` and `HB_SERIALIZE_IGNOREREF`. -/
structure SerializeFlags where
  numSize : Bool
  ignoreRef : Bool

def isZero (bits : UInt64) : Bool := bits = 0 ∨ bits = 0x8000000000000000

end Harbour.Rtl.SerialItems

namespace Harbour.Rtl.SerialEncode

open Library.Bytes CdpSizes SerialItems SerialRefs

/-- `HB_SERIAL_*`. -/
inductive SerialTag where
  | nil | logTrue | logFalse | zero
  | int8 | int16 | int24 | int32 | int64 | double | date
  | string8 | string16 | string32
  | array8 | array16 | array32 | arrayRef8 | arrayRef16 | arrayRef32
  | hash8 | hash16 | hash32 | hashRef8 | hashRef16 | hashRef32
  | symbol | ref | obj
  | strNul | strPad8 | strPad16 | strPad32
  | int8Num | int16Num | int24Num | int32Num | int64Num | dblNum | timestamp
  | hashFlags | hashDefVal | zCompress
  | xhbA | xhbB | xhbC | xhbD | xhbH | xhbL | xhbO | xhbQ | xhbR | xhbN | xhbT | xhbZ
deriving DecidableEq, Repr

def limInt (bits : Nat) (lVal : Int64) : Bool :=
  -2 ^ (bits - 1) ≤ lVal.toInt ∧ lVal.toInt < 2 ^ (bits - 1)

def trailing (szVal : Bytes) : Nat := (szVal.reverse.takeWhile (· = 0x20)).length

/-- The byte behind the first `nSize` bytes of a string, which ends with a NUL. -/
def byteBehind (szVal : Bytes) (nSize : Nat) : UInt8 := szVal.getD nSize 0

/-- `hb_cdpnDupLen` of the first `nSize` bytes of a string. -/
def cdpnDupLen (szVal : Bytes) (nSize : Nat) (cdpIn cdpOut : Option Page) : Nat :=
  (transLen (byteBehind szVal nSize) (szVal.take nSize) cdpIn cdpOut 0).getD 0

/-- `hb_cdpnDup2`. -/
def cdpnDup2 (szVal : Bytes) (nSize nDst : Nat) (cdpIn cdpOut : Option Page) : Stored UInt8 :=
  (transTo (byteBehind szVal nSize) (szVal.take nSize) cdpIn cdpOut nDst).getD ⟨[], false⟩

section Size

variable (cdpIn cdpOut : Option Page) (flags : SerializeFlags) (heap : Heap)

def numIntSize (lVal : Int64) : Nat :=
  let nSize :=
    if lVal = 0 then if flags.numSize then 2 else 1
    else if limInt 8 lVal then 2
    else if limInt 16 lVal then 3
    else if limInt 24 lVal then 4
    else if limInt 32 lVal then 5
    else 9
  if flags.numSize then nSize + 1 else nSize

def doubleSize (bits : UInt64) : Nat :=
  if flags.numSize then 11 else if isZero bits then 1 else 9

def stringSize (szVal : Bytes) : Nat :=
  if szVal.length = 0 then 1
  else
    let u := trailing szVal
    let nLen := cdpnDupLen szVal szVal.length cdpIn cdpOut
    if nLen ≤ 255 then if u > 1 then nLen - u + 3 else nLen + 2
    else if nLen ≤ 65535 then if u > 2 then nLen - u + 5 else nLen + 3
    else if u > 4 then nLen - u + 9 else nLen + 5

def leafSize : Item → Nat
  | .nil | .logical _ => 1
  | .date _ => 4
  | .timestamp _ _ => 9
  | .numInt lVal _ => numIntSize flags lVal
  | .double bits _ _ => doubleSize flags bits
  | .symbol szName => 2 + szName.length
  | .string szVal => stringSize cdpIn cdpOut szVal
  | _ => 1

def classSize : ClassNames → Nat
  | some (szClass, szFunc) => szClass.length + szFunc.length + 3
  | none => 0

def lenSize (nLen : Nat) : Nat :=
  if nLen ≤ 255 then 2 else if nLen ≤ 65535 then 3 else 5

def sizeItems (size : Item → RefList → Nat → Option (Nat × RefList)) :
    List Item → RefList → Nat → Option (Nat × RefList)
  | [], refs, _ => some (0, refs)
  | item :: items, refs, nOffset => do
    let (nSize, refs) ← size item refs nOffset
    let (nMore, refs) ← sizeItems size items refs (nOffset + nSize)
    return (nSize + nMore, refs)

/-- The look at the references of a container; none is taken with `HB_SERIALIZE_IGNOREREF`. -/
def sizeRef (nRefs address nOffset : Nat) (refs : RefList) : Bool × RefList :=
  if ¬ flags.ignoreRef ∧ nRefs > 1 then itemSerialValueRef refs address nOffset else (false, refs)

def sizeArray (size : Item → RefList → Nat → Option (Nat × RefList)) (address : Nat)
    (base : ArrayBase) (refs : RefList) (nOffset : Nat) : Option (Nat × RefList) :=
  let nClass := classSize base.uiClass
  match sizeRef flags base.nRefs address (nOffset + nClass) refs with
  | (true, refs) => some (5, refs)
  | (false, refs) => do
    let nSize := nClass + lenSize base.items.length
    let (nMore, refs) ← sizeItems size base.items refs (nOffset + nSize)
    return (nSize + nMore, refs)

def sizeDefault (size : Item → RefList → Nat → Option (Nat × RefList)) (pDefVal : Option Item)
    (refs : RefList) (nOffset : Nat) : Option (Nat × RefList) :=
  match pDefVal with
  | none => some (0, refs)
  | some item => do
    let (nSize, refs) ← size item refs (nOffset + 1)
    return (1 + nSize, refs)

def sizeHash (size : Item → RefList → Nat → Option (Nat × RefList)) (address : Nat)
    (base : HashBase) (refs : RefList) (nOffset : Nat) : Option (Nat × RefList) :=
  match sizeRef flags base.nRefs address nOffset refs with
  | (true, refs) => some (5, refs)
  | (false, refs) => do
    let nFlags := if base.hasFlags then 3 else 0
    let (nDefault, refs) ← sizeDefault size base.pDefault refs (nOffset + nFlags)
    let nSize := nFlags + nDefault + lenSize base.pairs.length
    let (nMore, refs) ← sizeItems size base.items refs (nOffset + nSize)
    return (nSize + nMore, refs)

def itemSerialSize : (depth : Nat) → Item → RefList → Nat → Option (Nat × RefList)
  | 0, _, _, _ => none
  | depth + 1, item, refs, nOffset =>
    match item.unRef with
    | .container address =>
      match heap address with
      | .array base => sizeArray flags (itemSerialSize depth) address base refs nOffset
      | .hash base => sizeHash flags (itemSerialSize depth) address base refs nOffset
    | item => some (leafSize cdpIn cdpOut flags item, refs)

end Size

section Store

/-- What a pass stores byte after byte; a byte it leaves out is `none`. -/
abbrev Cells := List (Option UInt8)

def stored (bytes : Bytes) : Cells := bytes.map some

/-- A text where there is room for `nLen` bytes: a shorter one gets a NUL behind it. -/
def placed (text : Stored UInt8) (nLen : Nat) : Cells :=
  if text.fNul then
    stored text.data ++ some 0 :: List.replicate (nLen - text.data.length - 1) none
  else stored text.data

def byte : SerialTag → UInt8
  | .nil => 0
  | .logTrue => 1
  | .logFalse => 2
  | .zero => 3
  | .int8 => 4
  | .int16 => 5
  | .int24 => 6
  | .int32 => 7
  | .int64 => 8
  | .double => 9
  | .date => 10
  | .string8 => 11
  | .string16 => 12
  | .string32 => 13
  | .array8 => 14
  | .array16 => 15
  | .array32 => 16
  | .arrayRef8 => 17
  | .arrayRef16 => 18
  | .arrayRef32 => 19
  | .hash8 => 20
  | .hash16 => 21
  | .hash32 => 22
  | .hashRef8 => 23
  | .hashRef16 => 24
  | .hashRef32 => 25
  | .symbol => 26
  | .ref => 27
  | .obj => 28
  | .strNul => 29
  | .strPad8 => 30
  | .strPad16 => 31
  | .strPad32 => 32
  | .int8Num => 33
  | .int16Num => 34
  | .int24Num => 35
  | .int32Num => 36
  | .int64Num => 37
  | .dblNum => 38
  | .timestamp => 39
  | .hashFlags => 40
  | .hashDefVal => 41
  | .zCompress => 42
  | .xhbA => 65
  | .xhbB => 66
  | .xhbC => 67
  | .xhbD => 68
  | .xhbH => 72
  | .xhbL => 76
  | .xhbO => 79
  | .xhbQ => 81
  | .xhbR => 82
  | .xhbN => 78
  | .xhbT => 84
  | .xhbZ => 90

variable (cdpIn cdpOut : Option Page) (flags : SerializeFlags) (heap : Heap)

/-- A number of `nSize` bytes, `HB_PUT_LE_UINT16` and its like. -/
def numBytes (nSize : Nat) (n : Int) : Bytes := leBytes nSize (unsigned 64 n)

def serializeNumInt (lVal : Int64) (iWidth : Nat) : Bytes :=
  let n := lVal.toInt
  if flags.numSize then
    (if limInt 8 lVal then byte .int8Num :: numBytes 1 n
    else if limInt 16 lVal then byte .int16Num :: numBytes 2 n
    else if limInt 24 lVal then byte .int24Num :: numBytes 3 n
    else if limInt 32 lVal then byte .int32Num :: numBytes 4 n
    else byte .int64Num :: numBytes 8 n) ++ leBytes 1 iWidth
  else if lVal = 0 then [byte .zero]
  else if limInt 8 lVal then byte .int8 :: numBytes 1 n
  else if limInt 16 lVal then byte .int16 :: numBytes 2 n
  else if limInt 24 lVal then byte .int24 :: numBytes 3 n
  else if limInt 32 lVal then byte .int32 :: numBytes 4 n
  else byte .int64 :: numBytes 8 n

def serializeDouble (bits : UInt64) (iWidth iDecimal : Nat) : Bytes :=
  if flags.numSize then
    byte .dblNum :: leBytes 8 bits.toNat ++ leBytes 1 iWidth ++ leBytes 1 iDecimal
  else if isZero bits then [byte .zero]
  else byte .double :: leBytes 8 bits.toNat

/-- The name is cut at 255 bytes. -/
def serializeSymbol (szVal : Bytes) : Bytes :=
  let nLen := if szVal.length > 0xFF then 0xFF else szVal.length
  byte .symbol :: leBytes 1 nLen ++ szVal.take nLen

/-- The first `nSize` bytes of a string behind their head, translated to `nLen` bytes. -/
def serializeText (head : Bytes) (szVal : Bytes) (nSize nLen : Nat) : Cells :=
  stored head ++ placed (cdpnDup2 szVal nSize nLen cdpIn cdpOut) nLen

def serializeString (szVal : Bytes) : Cells :=
  if szVal.length = 0 then stored [byte .strNul]
  else
    let n := trailing szVal
    let nLen := cdpnDupLen szVal szVal.length cdpIn cdpOut
    let nSize := szVal.length
    if nLen ≤ 255 then
      if n > 1 then
        serializeText cdpIn cdpOut (byte .strPad8 :: leBytes 1 (nLen - n) ++ leBytes 1 n) szVal
          (nSize - n) (nLen - n)
      else serializeText cdpIn cdpOut (byte .string8 :: leBytes 1 nLen) szVal nSize nLen
    else if nLen ≤ 65535 then
      if n > 2 then
        serializeText cdpIn cdpOut (byte .strPad16 :: leBytes 2 (nLen - n) ++ leBytes 2 n) szVal
          (nSize - n) (nLen - n)
      else serializeText cdpIn cdpOut (byte .string16 :: leBytes 2 nLen) szVal nSize nLen
    else
      if n > 4 then
        serializeText cdpIn cdpOut (byte .strPad32 :: leBytes 4 (nLen - n) ++ leBytes 4 n) szVal
          (nSize - n) (nLen - n)
      else serializeText cdpIn cdpOut (byte .string32 :: leBytes 4 nLen) szVal nSize nLen

def serializeLeaf : Item → Cells
  | .nil => stored [byte .nil]
  | .logical value => stored [if value then byte .logTrue else byte .logFalse]
  | .date julian => stored (byte .date :: numBytes 3 julian)
  | .timestamp julian milliSec =>
    stored (byte .timestamp :: numBytes 4 julian ++ numBytes 4 milliSec)
  | .numInt lVal iWidth => stored (serializeNumInt flags lVal iWidth)
  | .double bits iWidth iDecimal => stored (serializeDouble flags bits iWidth iDecimal)
  | .symbol szName => stored (serializeSymbol szName)
  | .string szVal => serializeString cdpIn cdpOut szVal
  | _ => stored [byte .nil]

def classBytes : ClassNames → Bytes
  | some (szClass, szFunc) => byte .obj :: szClass ++ [0] ++ szFunc ++ [0]
  | none => []

/-- The tags of a container, without and with a reference to it. -/
structure Tags where
  len8 : SerialTag
  len16 : SerialTag
  len32 : SerialTag

def arrayTags : Tags := ⟨.array8, .array16, .array32⟩

def arrayRefTags : Tags := ⟨.arrayRef8, .arrayRef16, .arrayRef32⟩

def hashTags : Tags := ⟨.hash8, .hash16, .hash32⟩

def hashRefTags : Tags := ⟨.hashRef8, .hashRef16, .hashRef32⟩

def lenBytes (tags : Tags) (nLen : Nat) : Bytes :=
  if nLen ≤ 255 then byte tags.len8 :: leBytes 1 nLen
  else if nLen ≤ 65535 then byte tags.len16 :: leBytes 2 nLen
  else byte tags.len32 :: leBytes 4 nLen

def serializeItems (serialize : Item → Nat → Option Cells) : List Item → Nat → Option Cells
  | [], _ => some []
  | item :: items, nOffset => do
    let cells ← serialize item nOffset
    let more ← serializeItems serialize items (nOffset + cells.length)
    return cells ++ more

/-- The look at the references of a container; `HB_SERIAL_DUMMYOFFSET` is `none`. -/
def serializeRef (refs : RefList) (nRefs address nOffset : Nat) : Bool × Option Nat :=
  if nRefs > 1 then itemSerialValueOffset refs address nOffset else (false, none)

def refBytes (nRef : Option Nat) : Bytes := byte .ref :: leBytes 4 (nRef.getD (2 ^ 64 - 1))

def serializeArray (serialize : Item → Nat → Option Cells) (refs : RefList) (address : Nat)
    (base : ArrayBase) (nOffset : Nat) : Option Cells :=
  match serializeRef refs base.nRefs address nOffset with
  | (true, nRef) => some (stored (refBytes nRef))
  | (false, nRef) => do
    let head := classBytes base.uiClass ++
      lenBytes (if nRef = none then arrayTags else arrayRefTags) base.items.length
    let more ← serializeItems serialize base.items (nOffset + head.length)
    return stored head ++ more

def serializeDefault (serialize : Item → Nat → Option Cells) (pDefVal : Option Item)
    (nOffset : Nat) : Option Cells :=
  match pDefVal with
  | none => some []
  | some item => do
    let cells ← serialize item (nOffset + 1)
    return stored [byte .hashDefVal] ++ cells

def flagBytes (base : HashBase) : Bytes :=
  if base.hasFlags then byte .hashFlags :: leBytes 2 base.iFlags.toNat else []

def serializeHash (serialize : Item → Nat → Option Cells) (refs : RefList) (address : Nat)
    (base : HashBase) (nOffset : Nat) : Option Cells :=
  match serializeRef refs base.nRefs address nOffset with
  | (true, nRef) => some (stored (refBytes nRef))
  | (false, nRef) => do
    let nFlags := (flagBytes base).length
    let pDefault ← serializeDefault serialize base.pDefault (nOffset + nFlags)
    let head := lenBytes (if nRef = none then hashTags else hashRefTags) base.pairs.length
    let more ← serializeItems serialize base.items
      (nOffset + (nFlags + pDefault.length + head.length))
    return stored (flagBytes base) ++ pDefault ++ stored head ++ more

def serializeItem (refs : RefList) : (depth : Nat) → Item → Nat → Option Cells
  | 0, _, _ => none
  | depth + 1, item, nOffset =>
    match item.unRef with
    | .container address =>
      match heap address with
      | .array base => serializeArray (serializeItem refs depth) refs address base nOffset
      | .hash base => serializeHash (serializeItem refs depth) refs address base nOffset
    | item => some (serializeLeaf cdpIn cdpOut flags item)

/-- `hb_itemSerializeCP` without compression: the size of the item, and what is stored in
the buffer that is one byte longer. -/
def itemSerializeCP (depth : Nat) (item : Item) : Option (Nat × Cells) := do
  let (nSize, refs) ← itemSerialSize cdpIn cdpOut flags heap depth item [] 0
  let cells ← serializeItem cdpIn cdpOut flags heap (itemSerialUnusedFree refs) depth item 0
  return (nSize, cells)

end Store

end Harbour.Rtl.SerialEncode
