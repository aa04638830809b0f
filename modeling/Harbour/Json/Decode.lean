import Harbour.Json.Items
import Harbour.Library.Decimal
import Harbour.Rtl.Cdpapi

namespace Harbour.Json.Decode

open Items Vm.HashTable Rtl.Cdpapi
open Library.Decimal (isDigit)

/-- The operations on C doubles used to read a number with a fraction or an
exponent. -/
structure DoubleOps (D : Type) where
  ofMaxInt : Int64 → D
  one : D
  divTen : D → D
  addDigit : D → UInt8 → D → D
  numExpConv : D → Int32 → D
  numRound : D → Int32 → D
  neg : D → D

variable {D : Type}

def skipws : Bytes → Bytes
  | [] => []
  | c :: szSource =>
    if c = 0x20 ∨ c = 0x09 ∨ c = 0x0A ∨ c = 0x0D then skipws szSource else c :: szSource

def hexValue (c : UInt8) : Option UInt16 :=
  if 0x30 ≤ c ∧ c ≤ 0x39 then some (c - 0x30).toUInt16
  else if 0x41 ≤ c ∧ c ≤ 0x46 then some (c - 0x41 + 10).toUInt16
  else if 0x61 ≤ c ∧ c ≤ 0x66 then some (c - 0x61 + 10).toUInt16
  else none

def hexChar (a b c d : UInt8) : Option UInt16 := do
  let a ← hexValue a
  let b ← hexValue b
  let c ← hexValue c
  let d ← hexValue d
  pure ((((a <<< 4) + b) <<< 4 + c) <<< 4 + d)

def unescape (c : UInt8) : Option UInt8 :=
  if c = 0x22 then some 0x22
  else if c = 0x5C then some 0x5C
  else if c = 0x2F then some 0x2F
  else if c = 0x62 then some 0x08
  else if c = 0x66 then some 0x0C
  else if c = 0x6E then some 0x0A
  else if c = 0x72 then some 0x0D
  else if c = 0x74 then some 0x09
  else none

/-- The string literal after its opening quotation mark.  The end of the list is
the terminating zero byte of the source. -/
def decodeString (vmCdp : CodePage) : Bytes → Option (Bytes × Bytes)
  | [] => none
  | c :: szSource =>
    if c = 0x22 then some ([], szSource)
    else if c = 0x5C then
      match szSource with
      | [] => none
      | escape :: szSource =>
        if escape = 0x75 then
          match szSource with
          | h0 :: h1 :: h2 :: h3 :: szSource =>
            match hexChar h0 h1 h2 h3 with
            | some wc =>
              (decodeString vmCdp szSource).map fun parsed =>
                (cdpU16ToStr vmCdp wc ++ parsed.1, parsed.2)
            | none => none
          | _ => none
        else
          match unescape escape with
          | some byte =>
            (decodeString vmCdp szSource).map fun parsed =>
              (byte :: parsed.1, parsed.2)
          | none => none
    else if c ≥ 0x20 then
      (decodeString vmCdp szSource).map fun parsed => (c :: parsed.1, parsed.2)
    else none

def decodeDigits : (nValue : Int64) → Bytes → Int64 × Bytes
  | nValue, [] => (nValue, [])
  | nValue, c :: szSource =>
    if isDigit c then
      decodeDigits (nValue * 10 + c.toUInt64.toInt64 - 0x30) szSource
    else (nValue, c :: szSource)

def decodeFraction (ops : DoubleOps D) :
    (mult dblValue : D) → (iDec : Int32) → Bytes → D × Int32 × Bytes
  | _, dblValue, iDec, [] => (dblValue, iDec, [])
  | mult, dblValue, iDec, c :: szSource =>
    if isDigit c then
      let mult := ops.divTen mult
      decodeFraction ops mult (ops.addDigit dblValue (c - 0x30) mult) (iDec + 1) szSource
    else (dblValue, iDec, c :: szSource)

def decodeExponent : (iExp : Int32) → Bytes → Int32 × Bytes
  | iExp, [] => (iExp, [])
  | iExp, c :: szSource =>
    if isDigit c then
      decodeExponent (iExp * 10 + c.toUInt32.toInt32 - 0x30) szSource
    else (iExp, c :: szSource)

/-- The branch for numbers: an integer as long as neither a fraction nor an
exponent follows the digits. -/
def decodeNumber (ops : DoubleOps D) (szSource : Bytes) : Value D × Bytes :=
  let fNeg := szSource.head? = some 0x2D
  let (nValue, szSource) := decodeDigits 0 (if fNeg then szSource.tail else szSource)
  let (dblValue, fDbl, iDec, szSource) :=
    if szSource.head? = some 0x2E then
      let (dblValue, iDec, szSource) :=
        decodeFraction ops ops.one (ops.ofMaxInt nValue) 0 szSource.tail
      (dblValue, true, iDec, szSource)
    else (ops.ofMaxInt nValue, false, 0, szSource)
  let (dblValue, fDbl, iDec, szSource) :=
    if szSource.head? = some 0x65 ∨ szSource.head? = some 0x45 then
      let szSource := szSource.tail
      let fNegExp := szSource.head? = some 0x2D
      let (iExp, szSource) := decodeExponent 0 (if fNegExp then szSource.tail else szSource)
      (ops.numExpConv dblValue (if fNegExp then iExp else -iExp), true,
        if fNegExp then iDec + iExp else iDec, szSource)
    else (dblValue, fDbl, iDec, szSource)
  if fDbl then
    (.double (ops.numRound (if fNeg then ops.neg dblValue else dblValue) iDec) iDec, szSource)
  else (.numInt (if fNeg then -nValue else nValue), szSource)

/-- `hb_hashItemCmp` of two string keys; `collate` stands for `hb_itemStrICmp`
and `hb_itemStrCmp`. -/
def stringKeyCmp (collate : Bool → Bytes → Bytes → Int) (iFlags : HashFlags)
    (key1 key2 : Bytes) : Int :=
  if iFlags.binary then
    if key1.length < key2.length then -1
    else if key1.length > key2.length then 1
    else if key1 < key2 then -1
    else if key1 = key2 then 0 else 1
  else collate iFlags.ignoreCase key1 key2

section Decoder

variable (ops : DoubleOps D) (vmCdp : CodePage) (collate : Bool → Bytes → Bytes → Int)

mutual

/-- `_hb_jsonDecode`: the value at the start of the source and the source behind
it, or `none` where the code returns NULL. -/
def jsonDecode : (fuel : Nat) → Bytes → Option (Value D × Bytes)
  | 0, _ => none
  | fuel + 1, szSource =>
    match szSource with
    | [] => none
    | c :: rest =>
      if c = 0x22 then
        (decodeString vmCdp rest).map fun parsed => (.string parsed.1, parsed.2)
      else if c = 0x2D ∨ isDigit c then some (decodeNumber ops szSource)
      else if [0x6E, 0x75, 0x6C, 0x6C] <+: szSource then some (.nil, szSource.drop 4)
      else if [0x74, 0x72, 0x75, 0x65] <+: szSource then
        some (.logical true, szSource.drop 4)
      else if [0x66, 0x61, 0x6C, 0x73, 0x65] <+: szSource then
        some (.logical false, szSource.drop 5)
      else if c = 0x5B then
        match skipws rest with
        | [] => none
        | c :: rest =>
          if c = 0x5D then some (.array [], rest)
          else decodeItems fuel [] (c :: rest)
      else if c = 0x7B then
        match skipws rest with
        | [] => none
        | c :: rest =>
          if c = 0x7D then some (.hash [], rest)
          else decodePairs fuel hashNew (c :: rest)
      else none

def decodeItems : (fuel : Nat) → (pValue : List (Value D)) → Bytes →
    Option (Value D × Bytes)
  | 0, _, _ => none
  | fuel + 1, pValue, szSource =>
    match jsonDecode fuel szSource with
    | none => none
    | some (pItem, szSource) =>
      let pValue := pValue ++ [pItem]
      match skipws szSource with
      | [] => none
      | c :: rest =>
        if c = 0x2C then decodeItems fuel pValue (skipws rest)
        else if c = 0x5D then some (.array pValue, rest)
        else none

def decodePairs : (fuel : Nat) → (pValue : BaseHash Bytes (Value D)) → Bytes →
    Option (Value D × Bytes)
  | 0, _, _ => none
  | fuel + 1, pValue, szSource =>
    match jsonDecode fuel szSource with
    | some (.string pItemKey, szSource) =>
      match skipws szSource with
      | [] => none
      | c :: rest =>
        if c = 0x3A then
          match jsonDecode fuel (skipws rest) with
          | none => none
          | some (pItemValue, szSource) =>
            let pValue := hashAdd (stringKeyCmp collate) pValue pItemKey pItemValue
            match skipws szSource with
            | [] => none
            | c :: rest =>
              if c = 0x2C then decodePairs fuel pValue (skipws rest)
              else if c = 0x7D then some (.hash pValue.pPairs, rest)
              else none
        else none
    | _ => none

end

/-- `hb_jsonDecodeCP` without a code page: the value and the number of bytes
decoded.  No call nests deeper than the fuel given here. -/
def jsonDecodeCP (szSource : Bytes) : Option (Value D × Nat) :=
  (jsonDecode ops vmCdp collate (2 * szSource.length + 2) (skipws szSource)).map
    fun parsed => (parsed.1, szSource.length - parsed.2.length)

end Decoder

end Harbour.Json.Decode
