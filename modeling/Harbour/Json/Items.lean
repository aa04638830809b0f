import Harbour.Library.Bytes
import Harbour.Vm.HashTable

/-!
The items handled by the JSON functions.  An array or a hash is a reference to a
container of the heap, so that containers can be shared and cyclic; a `Value` is
what such an item denotes when following the references comes to an end.
-/

namespace Harbour.Json.Items

open Vm.HashTable List Option

/-- The identity of a container: `hb_arrayId` or `hb_hashId`. -/
inductive Id where
  | array (index : Nat)
  | hash (index : Nat)
deriving DecidableEq, Repr

/-- A virtual machine item, over the type `D` of C doubles.  `other` stands for
the types the encoder does not support. -/
inductive Item (D : Type) where
  | nil
  | logical (value : Bool)
  | numInt (value : Int64)
  | double (value : D) (decimals : Int)
  | string (value : Bytes)
  | date (julian : Int)
  | timestamp (julian : Int) (milliSec : Int)
  | container (id : Id)
  | other

/-- The containers: the items of an array, or the pairs of a hash at the
positions `1..nLen`. -/
structure Heap (D : Type) where
  arrays : List (List (Item D))
  hashes : List (List (Item D × Item D))

variable {D : Type}

def Heap.arrayItems (heap : Heap D) (index : Nat) : List (Item D) :=
  heap.arrays.getD index []

def Heap.hashPairs (heap : Heap D) (index : Nat) : List (Item D × Item D) :=
  heap.hashes.getD index []

def Heap.itemSize (heap : Heap D) : Id → Nat
  | .array index => (heap.arrayItems index).length
  | .hash index => (heap.hashPairs index).length

/-- The test by which the encoder tells apart the containers that span several
lines. -/
def Heap.isFilled (heap : Heap D) : Item D → Bool
  | .container id => decide (heap.itemSize id > 0)
  | _ => false

/-- Values of the decoder; the pairs of a hash are in position order. -/
inductive Value (D : Type) where
  | nil
  | logical (value : Bool)
  | numInt (value : Int64)
  | double (value : D) (decimals : Int32)
  | string (value : Bytes)
  | array (items : List (Value D))
  | hash (pairs : List (Bytes × Value D))

@[elab_as_elim]
theorem Value.inductionOn {motive : Value D → Prop} (value : Value D) (nil : motive .nil)
    (logical : ∀ value, motive (.logical value)) (numInt : ∀ value, motive (.numInt value))
    (double : ∀ value decimals, motive (.double value decimals))
    (string : ∀ value, motive (.string value))
    (array : ∀ items, (∀ item ∈ items, motive item) → motive (.array items))
    (hash : ∀ pairs, (∀ pair ∈ pairs, motive pair.2) → motive (.hash pairs)) : motive value :=
  Value.rec (motive_1 := motive) (motive_2 := fun items => ∀ item ∈ items, motive item)
    nil logical numInt double string array hash
    (by simp) (fun _ _ hhead htail => forall_mem_cons.mpr ⟨hhead, htail⟩)
    (by simp) (fun _ _ hhead htail => forall_mem_cons.mpr ⟨hhead, htail⟩)
    (fun _ _ h => h) value

/-- The value denoted by an item, when at most `depth` references lie in a row
below it and it is built from NIL, logicals, integers, strings, arrays and
hashes with string keys only. -/
def valueOf (heap : Heap D) : Nat → Item D → Option (Value D)
  | _, .nil => some .nil
  | _, .logical value => some (.logical value)
  | _, .numInt value => some (.numInt value)
  | _, .string value => some (.string value)
  | depth + 1, .container (.array index) => do
    let items ← (heap.arrayItems index).mapM fun item => valueOf heap depth item
    pure (.array items)
  | depth + 1, .container (.hash index) => do
    let pairs ← (heap.hashPairs index).mapM fun pair =>
      match pair.1 with
      | .string key => (valueOf heap depth pair.2).map fun value => (key, value)
      | _ => none
    pure (.hash pairs)
  | _, _ => none

def Denotes (heap : Heap D) (item : Item D) (value : Value D) : Prop :=
  ∃ depth, valueOf heap depth item = some value

theorem mapM_eq_some_iff {α β : Type} {f : α → Option β} {l : List α} {r : List β} :
    l.mapM f = some r ↔ Forall₂ (fun a b => f a = some b) l r := by
  induction l generalizing r with
  | nil =>
    rw [mapM_nil, forall₂_nil_left_iff]
    exact ⟨fun h => by cases h; rfl, fun h => by rw [h]; rfl⟩
  | cons a l ih =>
    rw [mapM_cons]
    constructor
    · intro h
      simp only [bind, bind_eq_some_iff, pure, Option.some.injEq] at h
      obtain ⟨b, hb, bs, hbs, rfl⟩ := h
      exact Forall₂.cons hb (ih.mp hbs)
    · intro h
      cases h with
      | cons hb hbs => simp [hb, ih.mpr hbs]

def pairValueOf (heap : Heap D) (depth : Nat) (pair : Item D × Item D) :
    Option (Bytes × Value D) :=
  match pair.1 with
  | .string key => (valueOf heap depth pair.2).map fun value => (key, value)
  | _ => none

theorem valueOf_array {heap : Heap D} {depth index : Nat} {value : Value D} :
    valueOf heap (depth + 1) (.container (.array index)) = some value ↔
      ∃ values, value = .array values ∧ Forall₂
        (fun item value => valueOf heap depth item = some value)
        (heap.arrayItems index) values := by
  simp only [valueOf, bind, bind_eq_some_iff, pure, Option.some.injEq,
    mapM_eq_some_iff]
  exact ⟨fun ⟨values, h, heq⟩ => ⟨values, heq.symm, h⟩,
    fun ⟨values, heq, h⟩ => ⟨values, h, heq.symm⟩⟩

theorem valueOf_hash {heap : Heap D} {depth index : Nat} {value : Value D} :
    valueOf heap (depth + 1) (.container (.hash index)) = some value ↔
      ∃ pairs, value = .hash pairs ∧ Forall₂
        (fun pair value => pairValueOf heap depth pair = some value)
        (heap.hashPairs index) pairs := by
  simp only [valueOf, bind, bind_eq_some_iff, pure, Option.some.injEq,
    mapM_eq_some_iff]
  exact ⟨fun ⟨pairs, h, heq⟩ => ⟨pairs, heq.symm, h⟩,
    fun ⟨pairs, heq, h⟩ => ⟨pairs, h, heq.symm⟩⟩

theorem pairValueOf_eq_some {heap : Heap D} {depth : Nat} {pair : Item D × Item D}
    {entry : Bytes × Value D} (h : pairValueOf heap depth pair = some entry) :
    pair.1 = .string entry.1 ∧ valueOf heap depth pair.2 = some entry.2 := by
  unfold pairValueOf at h
  split at h
  · rename_i name hname
    obtain ⟨value, hvalue, rfl⟩ := map_eq_some_iff.mp h
    exact ⟨hname, hvalue⟩
  · cases h

theorem valueOf_succ {heap : Heap D} {depth : Nat} {item : Item D} {value : Value D}
    (h : valueOf heap depth item = some value) : valueOf heap (depth + 1) item = some value := by
  induction depth generalizing item value with
  | zero => cases item <;> simp_all [valueOf]
  | succ depth ih =>
    cases item with
    | container id =>
      cases id with
      | array index =>
        obtain ⟨values, rfl, hvalues⟩ := valueOf_array.mp h
        exact valueOf_array.mpr ⟨values, rfl, hvalues.imp fun _ _ => ih⟩
      | hash index =>
        obtain ⟨pairs, rfl, hpairs⟩ := valueOf_hash.mp h
        refine valueOf_hash.mpr ⟨pairs, rfl, hpairs.imp fun pair entry hentry => ?_⟩
        obtain ⟨hkey, hitem⟩ := pairValueOf_eq_some hentry
        simp [pairValueOf, hkey, ih hitem]
    | _ => simp_all [valueOf]

theorem valueOf_mono {heap : Heap D} {depth depth' : Nat} {item : Item D}
    {value : Value D} (hle : depth ≤ depth') (h : valueOf heap depth item = some value) :
    valueOf heap depth' item = some value := by
  induction hle with
  | refl => exact h
  | step _ ih => exact valueOf_succ ih

end Harbour.Json.Items

namespace Harbour.Json.Encode

open Items

/-- The texts that the encoder takes from other parts of the run-time library:
`hb_snprintf( "%.*f" )`, `hb_itemGetDS` and `hb_itemGetTS`. -/
structure ItemTexts (D : Type) where
  double : D → Int → Bytes
  date : Int → Bytes
  timestamp : Int → Int → Bytes

structure EncodeCtx where
  iIndent : Int
  szEol : Bytes

variable {D : Type}

def jsonCtxAddIndent (ctx : EncodeCtx) (nLevel : Nat) (buffer : Bytes) : Bytes :=
  if nLevel > 0 then
    buffer ++ List.replicate (nLevel * (if ctx.iIndent > 0 then ctx.iIndent.toNat else 1))
      (if ctx.iIndent > 0 then 0x20 else 0x09)
  else buffer

def hexDigit (digit : UInt8) : UInt8 :=
  if digit < 10 then 0x30 + digit else 0x37 + digit

/-- The text of one byte inside a string literal; runs of plain bytes are copied
unchanged. -/
def jsonEscape (uch : UInt8) : Bytes :=
  if uch ≥ 0x20 ∧ uch ≠ 0x5C ∧ uch ≠ 0x22 then [uch]
  else if uch = 0x5C then [0x5C, 0x5C]
  else if uch = 0x22 then [0x5C, 0x22]
  else if uch = 0x08 then [0x5C, 0x62]
  else if uch = 0x0C then [0x5C, 0x66]
  else if uch = 0x0A then [0x5C, 0x6E]
  else if uch = 0x0D then [0x5C, 0x72]
  else if uch = 0x09 then [0x5C, 0x74]
  else [0x5C, 0x75, 0x30, 0x30, hexDigit (uch >>> 4), hexDigit (uch &&& 0x0F)]

def jsonStringText (szString : Bytes) : Bytes :=
  [0x22] ++ szString.flatMap jsonEscape ++ [0x22]

def digitLoop : (slots : Nat) → (nVal : Int64) → (buf : Bytes) → Bytes
  | 0, _, buf => buf
  | slots + 1, nVal, buf =>
    let buf := (nVal % 10 + 0x30).toInt8.toUInt8 :: buf
    if nVal / 10 ≠ 0 then digitLoop slots (nVal / 10) buf else buf

/-- The text of an integer item.  Negating the smallest integer wraps around to
itself. -/
def jsonIntText (nVal : Int64) : Bytes :=
  if nVal < 0 then 0x2D :: digitLoop 24 (-nVal) [] else digitLoop 24 nVal []

def nullText : Bytes := [0x6E, 0x75, 0x6C, 0x6C]
def trueText : Bytes := [0x74, 0x72, 0x75, 0x65]
def falseText : Bytes := [0x66, 0x61, 0x6C, 0x73, 0x65]

def newLine (ctx : EncodeCtx) (nLevel : Nat) (buffer : Bytes) : Bytes :=
  if ctx.iIndent ≠ 0 then jsonCtxAddIndent ctx nLevel (buffer ++ ctx.szEol) else buffer

def isRecursive (pId : List Id) : Item D → Bool
  | .container id => decide (id ∈ pId)
  | _ => false

def encodeItems (encode : Item D → Bytes → Option Bytes) (heap : Heap D)
    (ctx : EncodeCtx) (nLevel : Nat) : (nIndex : Nat) → List (Item D) → Bytes → Option Bytes
  | _, [], buffer => some buffer
  | nIndex, pItem :: items, buffer =>
    let buffer := if nIndex > 1 then buffer ++ [0x2C] else buffer
    let buffer := if ctx.iIndent ≠ 0 then buffer ++ ctx.szEol else buffer
    let buffer := if ctx.iIndent ≠ 0 ∧ ¬ heap.isFilled pItem then
      jsonCtxAddIndent ctx (nLevel + 1) buffer else buffer
    match encode pItem buffer with
    | some buffer => encodeItems encode heap ctx nLevel (nIndex + 1) items buffer
    | none => none

/-- The loop over the pairs of a hash; only pairs with a string key are stored.
`encode` takes the flag `fEOL` of the recursive call. -/
def encodePairs (encode : Bool → Item D → Bytes → Option Bytes) (heap : Heap D)
    (ctx : EncodeCtx) (nLevel : Nat) :
    (nIndex : Nat) → List (Item D × Item D) → Bytes → Option Bytes
  | _, [], buffer => some buffer
  | nIndex, (.string key, pItem) :: pairs, buffer =>
    let buffer := if nIndex > 1 then buffer ++ [0x2C] else buffer
    let buffer := newLine ctx (nLevel + 1) buffer
    match encode false (.string key) buffer with
    | some buffer =>
      let buffer := if ctx.iIndent ≠ 0 then buffer ++ [0x3A, 0x20] else buffer ++ [0x3A]
      let fEOL := decide (ctx.iIndent ≠ 0) && heap.isFilled pItem
      match encode fEOL pItem buffer with
      | some buffer => encodePairs encode heap ctx nLevel (nIndex + 1) pairs buffer
      | none => none
    | none => none
  | nIndex, _ :: pairs, buffer =>
    encodePairs encode heap ctx nLevel (nIndex + 1) pairs buffer

def encodeArray (encode : Item D → Bytes → Option Bytes) (heap : Heap D)
    (ctx : EncodeCtx) (nLevel : Nat) (items : List (Item D)) (buffer : Bytes) : Option Bytes :=
  if items.length > 0 then
    let buffer := if ctx.iIndent ≠ 0 then jsonCtxAddIndent ctx nLevel buffer else buffer
    (encodeItems encode heap ctx nLevel 1 items (buffer ++ [0x5B])).map fun buffer =>
      newLine ctx nLevel buffer ++ [0x5D]
  else some (buffer ++ [0x5B, 0x5D])

def encodeHash (encode : Bool → Item D → Bytes → Option Bytes) (heap : Heap D)
    (ctx : EncodeCtx) (nLevel : Nat) (pairs : List (Item D × Item D)) (buffer : Bytes) :
    Option Bytes :=
  if pairs.length > 0 then
    let buffer := if ctx.iIndent ≠ 0 then jsonCtxAddIndent ctx nLevel buffer else buffer
    (encodePairs encode heap ctx nLevel 1 pairs (buffer ++ [0x7B])).map fun buffer =>
      newLine ctx nLevel buffer ++ [0x7D]
  else some (buffer ++ [0x7B, 0x7D])

/-- `_hb_jsonEncode`.  `pId` lists the containers at the levels below `nLevel`;
every recursive call goes one level up and consumes one unit of `fuel`. -/
def jsonEncode (texts : ItemTexts D) (heap : Heap D) (ctx : EncodeCtx) :
    (fuel : Nat) → (pId : List Id) → (nLevel : Nat) → (fEOL : Bool) →
      Item D → Bytes → Option Bytes
  | 0, _, _, _, _, _ => none
  | fuel + 1, pId, nLevel, fEOL, pValue, buffer =>
    -- a container that is being encoded at a lower level becomes null
    if heap.isFilled pValue ∧ isRecursive pId pValue then
      let buffer := if ¬ fEOL ∧ ctx.iIndent ≠ 0 then
        jsonCtxAddIndent ctx nLevel buffer else buffer
      some (buffer ++ nullText)
    else
      -- the blank after a colon gives way to the end of line
      let buffer := if fEOL then buffer.dropLast ++ ctx.szEol else buffer
      match pValue with
      | .string szString => some (buffer ++ jsonStringText szString)
      | .numInt nVal => some (buffer ++ jsonIntText nVal)
      | .double dblValue iDec => some (buffer ++ texts.double dblValue iDec)
      | .nil => some (buffer ++ nullText)
      | .logical value => some (buffer ++ if value then trueText else falseText)
      | .date julian => some (buffer ++ [0x22] ++ texts.date julian ++ [0x22])
      | .timestamp julian milliSec =>
        some (buffer ++ [0x22] ++ texts.timestamp julian milliSec ++ [0x22])
      | .container (.array index) =>
        encodeArray
          (jsonEncode texts heap ctx fuel (pId ++ [.array index]) (nLevel + 1) false)
          heap ctx nLevel (heap.arrayItems index) buffer
      | .container (.hash index) =>
        encodeHash
          (jsonEncode texts heap ctx fuel (pId ++ [.hash index]) (nLevel + 1))
          heap ctx nLevel (heap.hashPairs index) buffer
      | .other => some (buffer ++ nullText)

def heapIds (heap : Heap D) : List Id :=
  (List.range heap.arrays.length).map .array ++ (List.range heap.hashes.length).map .hash

/-- `hb_jsonEncodeCP` without a code page.  `setEol` is the end-of-line setting
and `conNewLine` the default that replaces an empty one. -/
def jsonEncodeCP (texts : ItemTexts D) (heap : Heap D) (iIndent : Int)
    (setEol conNewLine : Bytes) (pValue : Item D) : Option Bytes :=
  let ctx : EncodeCtx := { iIndent, szEol := if setEol = [] then conNewLine else setEol }
  (jsonEncode texts heap ctx ((heapIds heap).length + 1) [] 0 false pValue []).map
    fun buffer => if iIndent ≠ 0 then buffer ++ ctx.szEol else buffer

end Harbour.Json.Encode
