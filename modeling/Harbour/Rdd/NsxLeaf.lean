import Mathlib.Data.List.DropRight
import Harbour.Library.Memory

/-!
The keys of an NSX leaf page, each packed behind the one before it.

The two functions work on the buffer of a page.  The reader fails where it would read behind the
used part of the page or write behind the end of a key.
-/

namespace Harbour.Rdd.NsxLeaf

open Library.Memory Library.Bytes List

abbrev NSX_PAGELEN : Nat := 1024

abbrev NSX_MAXKEYLEN : Nat := 250

abbrev NSX_LEAFKEYOFFSET : Nat := 6

abbrev NSX_RLE_CHAR : UInt8 := 0xFF

structure Tag where
  KeyLength : Nat
  TrailChar : UInt8
  pos : 0 < KeyLength
  le : KeyLength ≤ NSX_MAXKEYLEN

def hb_nsxGetKeyRecSize (page : Mem) : UInt8 := page 1

def dupLoop : (bPrevValue pKeyValue : Bytes) → Nat
  | p :: ps, k :: ks => if p = k then dupLoop ps ks + 1 else 0
  | _, _ => 0

def dupCount (bPrevValue : Option Bytes) (pKeyValue : Bytes) : Nat :=
  bPrevValue.elim 0 fun prev => dupLoop prev pKeyValue

def repeats (uc : UInt8) (pSrc : Bytes) : Nat := (pSrc.takeWhile (· = uc)).length

def packLoop (page : Mem) (pDst : Nat) (iMax : Int) : (pSrc : Bytes) → Mem × Nat × Int
  | [] => (page, pDst, iMax)
  | uc :: pSrc =>
    if uc = NSX_RLE_CHAR then
      if pSrc.head? = some NSX_RLE_CHAR then
        if iMax - 3 ≤ 0 then (page, pDst, iMax - 3)
        else
          let more := repeats NSX_RLE_CHAR (pSrc.drop 1)
          packLoop (page.write pDst [NSX_RLE_CHAR, UInt8.ofNat (more + 2), NSX_RLE_CHAR])
            (pDst + 3) (iMax - 3) (pSrc.drop (1 + more))
      else if iMax - 2 ≤ 0 then (page, pDst, iMax - 2)
      else packLoop (page.write pDst [NSX_RLE_CHAR, 1]) (pDst + 2) (iMax - 2) pSrc
    else if pSrc.take 3 = [uc, uc, uc] then
      if iMax - 3 ≤ 0 then (page, pDst, iMax - 3)
      else
        let more := repeats uc (pSrc.drop 3)
        packLoop (page.write pDst [NSX_RLE_CHAR, UInt8.ofNat (more + 4), uc])
          (pDst + 3) (iMax - 3) (pSrc.drop (3 + more))
    else if iMax - 1 = 0 then (page, pDst, iMax - 1)
    else packLoop (page.write pDst [uc]) (pDst + 1) (iMax - 1) pSrc
termination_by pSrc => pSrc.length
decreasing_by all_goals simp only [length_cons, length_drop]; omega

def hb_nsxLeafPutKey (tag : Tag) (page : Mem) (uiOffset : Nat) (bPrevValue : Option Bytes)
    (pKeyValue : Bytes) (ulRecNo : Nat) : Mem × Nat :=
  let ucSize := hb_nsxGetKeyRecSize page
  if NSX_PAGELEN ≤ uiOffset + ucSize.toNat then (page, 0)
  else
    let recLen := if ucSize = 1 then 1 else if ucSize = 2 then 2 else if ucSize = 3 then 3 else 4
    let page := page.write uiOffset (leBytes recLen ulRecNo)
    let ptr := uiOffset + recLen
    let ucSize := ucSize + 1
    let ucDupCount := dupCount bPrevValue pKeyValue
    let ucLen := tag.KeyLength - ucDupCount
    if ucLen = 0 then (page.write ptr [ucSize], uiOffset + ucSize.toNat)
    else
      let ucSize := ucSize + 1
      if NSX_PAGELEN < uiOffset + ucSize.toNat then (page, 0)
      else
        let page := page.write (ptr + 1) [UInt8.ofNat ucDupCount]
        let pSrc := (pKeyValue.drop ucDupCount).rdropWhile (· = tag.TrailChar)
        if pSrc = [] then (page.write ptr [ucSize], uiOffset + ucSize.toNat)
        else
          let iMax : Int := min ((NSX_PAGELEN : Int) - uiOffset - ucSize.toNat + 1) ucLen
          let (page, pDst, iMax) :=
            if 0 < iMax then packLoop page (ptr + 2) iMax pSrc else (page, ptr + 2, iMax)
          if 0 < iMax then
            let ucSize := ucSize + UInt8.ofNat (pDst - (ptr + 2))
            (page.write ptr [ucSize], uiOffset + ucSize.toNat)
          else
            let uiOffset := uiOffset + ucSize.toNat + ucLen
            if NSX_PAGELEN < uiOffset then (page, 0)
            else
              let page := page.write (ptr + 2) ((pKeyValue.drop ucDupCount).take ucLen)
              (page.write ptr [ucSize + UInt8.ofNat ucLen], uiOffset)

section Get

variable (page : Mem) (used : Nat)

def getBytes (uiOffset n : Nat) : Option Bytes :=
  if uiOffset + n ≤ used then some (page.read uiOffset n) else none

def getByte (uiOffset : Nat) : Option UInt8 :=
  if uiOffset < used then some (page uiOffset) else none

def putBytes (len : Nat) (bPrevValue : Mem) (pos : Nat) (bytes : Bytes) : Option Mem :=
  if pos + bytes.length ≤ len then some (bPrevValue.write pos bytes) else none

def unpackLoop (len : Nat) :
    (ucSize uiOffset ucDupCount : Nat) → (bPrevValue : Mem) → Option (Option (Nat × Nat) × Mem)
  | 0, uiOffset, ucDupCount, bPrevValue => some (some (uiOffset, ucDupCount), bPrevValue)
  | ucSize + 1, uiOffset, ucDupCount, bPrevValue => do
    let uc ← getByte page used uiOffset
    if uc = NSX_RLE_CHAR then
      match ucSize with
      | 0 => some (none, bPrevValue)
      | ucSize + 1 =>
        let ucRepl ← getByte page used (uiOffset + 1)
        if ucRepl ≠ 1 then
          match ucSize with
          | 0 => some (none, bPrevValue)
          | ucSize + 1 =>
            if ucRepl.toNat + ucDupCount > len then some (none, bPrevValue)
            else
              let uc ← getByte page used (uiOffset + 2)
              let bPrevValue ←
                putBytes len bPrevValue ucDupCount (replicate ucRepl.toNat uc)
              unpackLoop len ucSize (uiOffset + 3) (ucDupCount + ucRepl.toNat) bPrevValue
        else if ucDupCount ≥ len then some (none, bPrevValue)
        else
          let bPrevValue ← putBytes len bPrevValue ucDupCount [uc]
          unpackLoop len ucSize (uiOffset + 2) (ucDupCount + 1) bPrevValue
    else if ucDupCount ≥ len then some (none, bPrevValue)
    else
      let bPrevValue ← putBytes len bPrevValue ucDupCount [uc]
      unpackLoop len ucSize (uiOffset + 1) (ucDupCount + 1) bPrevValue

def getChars (tag : Tag) (ucSize uiOffset ucDupCount : Nat) (bPrevValue : Mem) :
    Option (Nat × Mem) :=
  let len := tag.KeyLength
  if ucSize + ucDupCount = len then do
    let bytes ← getBytes page used uiOffset ucSize
    let bPrevValue ← putBytes len bPrevValue ucDupCount bytes
    some (uiOffset + ucSize, bPrevValue)
  else if ucSize + ucDupCount > len then some (0, bPrevValue)
  else do
    match ← unpackLoop page used len ucSize uiOffset ucDupCount bPrevValue with
    | (none, bPrevValue) => some (0, bPrevValue)
    | (some (uiOffset, ucDupCount), bPrevValue) =>
      let bPrevValue ← putBytes len bPrevValue ucDupCount
        (replicate (len - ucDupCount) tag.TrailChar)
      some (uiOffset, bPrevValue)

def hb_nsxLeafGetKey (tag : Tag) (uiOffset : Nat) (bPrevValue : Mem) (ulRecNo : Nat) :
    Option (Nat × Mem × Nat) :=
  let ucRecLen := hb_nsxGetKeyRecSize page
  if ucRecLen.toNat + uiOffset ≥ used then some (0, bPrevValue, ulRecNo)
  else if ¬ (1 ≤ ucRecLen.toNat ∧ ucRecLen.toNat ≤ 4) then some (0, bPrevValue, ulRecNo)
  else do
    let recBytes ← getBytes page used uiOffset ucRecLen.toNat
    let ulRecNo := leValue recBytes
    let uiOffset := uiOffset + ucRecLen.toNat
    let ucSize ← getByte page used uiOffset
    let uiOffset := uiOffset + 1
    if ucSize.toNat ≠ ucRecLen.toNat + 1 then
      let ucSize := ucSize - (ucRecLen + 2)
      if ucSize.toNat > NSX_MAXKEYLEN ∨ uiOffset + ucSize.toNat ≥ used then
        some (0, bPrevValue, ulRecNo)
      else
        let ucDupCount ← getByte page used uiOffset
        let (uiOffset, bPrevValue) ←
          getChars page used tag ucSize.toNat (uiOffset + 1) ucDupCount.toNat bPrevValue
        some (uiOffset, bPrevValue, ulRecNo)
    else some (uiOffset, bPrevValue, ulRecNo)

end Get

end Harbour.Rdd.NsxLeaf
