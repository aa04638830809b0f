import Harbour.Library.Scan
import Harbour.Rtl.CdpMulti
import Harbour.Rtl.Cdpapi

/-!
The conversions of texts between code pages: for each one the function that tells the length, and
the function that writes.
-/

namespace Harbour.Rtl.CdpSizes

open Cdpapi CdpMulti Library.Scan

/-- A code page with a table, which may have characters of two bytes. -/
inductive Own where
  | multi (cdp : CdpMulti.CodePage)
  | table (uniCodes : List UInt16)

inductive Kind where
  | utf8
  | own (page : Own)

/-- `HB_CODEPAGE`: its identity, the identity of its table, and its kind. -/
structure Page where
  cdp : Nat
  uniTable : Nat
  kind : Kind

def Kind.isCustom : Kind → Bool
  | .utf8 => true
  | .own (.multi _) => true
  | .own (.table _) => false

structure Stored (β : Type) where
  data : List β
  fNul : Bool

def Stored.places {β : Type} (out : Stored β) : Nat :=
  out.data.length + if out.fNul then 1 else 0

def finish {β : Type} (nDst : Nat) (out : List β) : Stored β :=
  ⟨out, out.length < nDst⟩

def copy (pSrc : Bytes) (nDst : Nat) : Stored UInt8 :=
  ⟨pSrc.take nDst, pSrc.length < nDst⟩

/-- One turn of a loop that calls `hb_cdpUTF8ToU16NextChar`: a character is complete where no byte
is missing. The state has the rest, the number of the missing bytes and the value so far. -/
def utf8Next : Bytes × Nat × UInt16 → Option (Option UInt16 × Bytes × Nat × UInt16)
  | ([], _, _) => none
  | (ucChar :: pSrc, n, wc) =>
    let r := cdpUTF8ToU16NextChar ucChar n wc
    some (if r.2.1 = 0 then some r.2.2 else none,
      if r.1 then pSrc else ucChar :: pSrc, r.2.1, r.2.2)

/-- `HB_CDPCHAR_GET`, where the byte behind the string is `pEnd`. -/
def Own.get (page : Own) (pEnd : UInt8) : Bytes → Option (Option UInt16 × Bytes)
  | [] => none
  | uc :: rest =>
    match page with
    | .table uniCodes => some (some (tableChar uniCodes uc), rest)
    | .multi cdp =>
      let uc2 := (rest ++ [pEnd]).getD 1 0
      if cdp.starts uc ∧ rest ≠ [] ∧ cdp.seen uc uc2 ≠ 0 then
        some (some (cdp.seen uc uc2), rest.tail)
      else some (some (tableChar cdp.uniCodes uc), rest)

def Own.len (page : Own) (wc : UInt16) : Nat :=
  match page with
  | .multi cdp => cdpMulti_len cdp wc
  | .table _ => 1

def Own.put (page : Own) (nDst : Nat) (pDst : Bytes) (wc : UInt16) : Option Bytes :=
  if pDst.length < nDst then
    match page with
    | .multi cdp => some (cdpMulti_put cdp nDst pDst wc)
    | .table uniCodes =>
      some (pDst ++ [if uniTrans uniCodes wc ≠ 0 then uniTrans uniCodes wc
        else if 0x100 ≤ wc then 0x3F else wc.toUInt8])
  else none

def utf8Put (nDst : Nat) (pDst : Bytes) (wc : UInt16) : Option Bytes :=
  if pDst.length + cdpUTF8CharSize wc ≤ nDst then some (pDst ++ cdpU16CharToUTF8 wc) else none

def ordered (fSwap : Bool) (wc : UInt16) : UInt16 :=
  if fSwap then (wc >>> 8) ||| (wc <<< 8) else wc

def wordNext (fSwap : Bool) : List UInt16 → Option (Option UInt16 × List UInt16)
  | [] => none
  | wc :: pSrc => some (some (ordered fSwap wc), pSrc)

def wordPut (fSwap : Bool) (nDst : Nat) (pDst : List UInt16) (wc : UInt16) :
    Option (List UInt16) :=
  if pDst.length < nDst then some (pDst ++ [ordered fSwap wc]) else none

section Loops

variable {σ α β : Type}

def always {τ : Type} (_ : τ) : Bool := true

def isRoom (nDst : Nat) (pDst : List β) : Bool := pDst.length < nDst

def sizing (next : σ → Option (Option α × σ)) (body : Nat → α → Nat × Bool) (fuel : Nat)
    (source : σ) : Option Nat :=
  (loop next always body fuel source 0).map Prod.snd

def writing (next : σ → Option (Option α × σ)) (more : List β → Bool)
    (put : Nat → List β → α → Option (List β)) (nDst fuel : Nat) (source : σ) :
    Option (Stored β) :=
  (loop next more (putBody (put nDst)) fuel source []).map fun r => finish nDst r.2

end Loops

section Conversions

variable (cdp : Kind) (pEnd : UInt8) (pSrc : Bytes)

def fuelUTF8 (pSrc : Bytes) : Nat := 2 * pSrc.length + 1

def strAsUTF8Len (nMax : Nat) : Option Nat :=
  match cdp with
  | .utf8 => some (atMost nMax pSrc.length)
  | .own page =>
    sizing (page.get pEnd) (sizeBody nMax cdpUTF8CharSize) (pSrc.length + 1) pSrc

def strToUTF8 (nDst : Nat) : Option (Stored UInt8) :=
  match cdp with
  | .utf8 => some (copy pSrc nDst)
  | .own page => writing (page.get pEnd) (isRoom nDst) utf8Put nDst (pSrc.length + 1) pSrc

def utf8AsStrLen (nMax : Nat) : Option Nat :=
  match cdp with
  | .utf8 => some (atMost nMax pSrc.length)
  | .own (.multi cdp) =>
    sizing utf8Next (sizeBody nMax (cdpMulti_len cdp)) (fuelUTF8 pSrc) (pSrc, 0, 0)
  | .own (.table _) => sizing utf8Next (countBody nMax) (fuelUTF8 pSrc) (pSrc, 0, 0)

def utf8ToStr (nDst : Nat) : Option (Stored UInt8) :=
  match cdp with
  | .utf8 => some (copy pSrc nDst)
  | .own page => writing utf8Next (isRoom nDst) page.put nDst (fuelUTF8 pSrc) (pSrc, 0, 0)

def utf8StringLength : Option Nat :=
  (loop utf8Next always (fun n _ => (n + 1, true)) (fuelUTF8 pSrc) (pSrc, 0, 0) 0).map
    fun r => if 0 < r.1.2.1 then r.2 + 1 else r.2

def strAsU16Len (nMax : Nat) : Option Nat :=
  match cdp with
  | .utf8 => (utf8StringLength pSrc).map (atMost nMax)
  | .own (.multi cdp) =>
    sizing ((Own.multi cdp).get pEnd) (countBody nMax) (pSrc.length + 1) pSrc
  | .own (.table _) => some (atMost nMax pSrc.length)

def strToU16 (fSwap : Bool) (nDst : Nat) : Option (Stored UInt16) :=
  match cdp with
  | .utf8 => writing utf8Next (isRoom nDst) (wordPut fSwap) nDst (fuelUTF8 pSrc) (pSrc, 0, 0)
  | .own page =>
    writing (page.get pEnd) (isRoom nDst) (wordPut fSwap) nDst (pSrc.length + 1) pSrc

/-- `hb_cdpU16AsStrLen`, which does not know the byte order. -/
def u16AsStrLen (pSrc : List UInt16) (nMax : Nat) : Option Nat :=
  match cdp with
  | .utf8 => sizing (wordNext false) (sizeBody nMax cdpUTF8CharSize) (pSrc.length + 1) pSrc
  | .own (.multi cdp) =>
    sizing (wordNext false) (sizeBody nMax (cdpMulti_len cdp)) (pSrc.length + 1) pSrc
  | .own (.table _) => some (atMost nMax pSrc.length)

def u16ToStr (fSwap : Bool) (pSrc : List UInt16) (nDst : Nat) : Option (Stored UInt8) :=
  match cdp with
  | .utf8 => writing (wordNext fSwap) always utf8Put nDst (pSrc.length + 1) pSrc
  | .own (.multi cdp) =>
    writing (wordNext fSwap) always (Own.multi cdp).put nDst (pSrc.length + 1) pSrc
  | .own (.table uniCodes) =>
    writing (wordNext fSwap) (isRoom nDst) (Own.table uniCodes).put nDst (pSrc.length + 1) pSrc

def translatedKinds (cdpIn cdpOut : Option Page) : Option (Kind × Kind) :=
  match cdpIn, cdpOut with
  | some cdpIn, some cdpOut =>
    if cdpIn.cdp ≠ cdpOut.cdp ∧ (cdpIn.uniTable ≠ cdpOut.uniTable ∨
        cdpIn.kind.isCustom ∨ cdpOut.kind.isCustom) then
      some (cdpIn.kind, cdpOut.kind)
    else none
  | _, _ => none

def transLen (cdpIn cdpOut : Option Page) (nMax : Nat) : Option Nat :=
  match translatedKinds cdpIn cdpOut with
  | none => some (atMost nMax pSrc.length)
  | some (.utf8, cdpOut) => utf8AsStrLen cdpOut pSrc nMax
  | some (cdpIn, .utf8) => strAsUTF8Len cdpIn pEnd pSrc nMax
  | some (.own (.table _), .own (.table _)) => some (atMost nMax pSrc.length)
  | some (.own page, .own page') =>
    sizing (page.get pEnd) (sizeBody nMax page'.len) (pSrc.length + 1) pSrc

def transByte (uniCodes uniCodes' : List UInt16) (uc : UInt8) : UInt8 :=
  if uniCodes.getD uc.toNat 0 ≠ 0 ∧ uniTrans uniCodes' (uniCodes.getD uc.toNat 0) ≠ 0 then
    uniTrans uniCodes' (uniCodes.getD uc.toNat 0)
  else uc

def transTo (cdpIn cdpOut : Option Page) (nDst : Nat) : Option (Stored UInt8) :=
  match translatedKinds cdpIn cdpOut with
  | none => some (copy pSrc nDst)
  | some (.utf8, cdpOut) => utf8ToStr cdpOut pSrc nDst
  | some (cdpIn, .utf8) => strToUTF8 cdpIn pEnd pSrc nDst
  | some (.own (.table uniCodes), .own (.table uniCodes')) =>
    some (copy (pSrc.map (transByte uniCodes uniCodes')) nDst)
  | some (.own page, .own page') =>
    writing (page.get pEnd) (isRoom nDst) page'.put nDst (pSrc.length + 1) pSrc

/-- Between pages with one byte for each character. -/
theorem transTo_bytes {cdp cdp' : Nat} (hne : cdp ≠ cdp') (cdpIn cdpOut : ByteCodePage)
    (nDst : Nat) : transTo pEnd pSrc (some ⟨cdp, cdpIn.uniTable, .own (.table cdpIn.uniCodes)⟩)
        (some ⟨cdp', cdpOut.uniTable, .own (.table cdpOut.uniCodes)⟩) nDst =
      some ⟨cdpTransTo pSrc nDst cdpIn cdpOut, pSrc.length < nDst⟩ := by
  unfold transTo translatedKinds cdpTransTo cdpTransByte
  by_cases huni : cdpIn.uniTable = cdpOut.uniTable
  · simp [huni, Kind.isCustom, copy]
  · simp [huni, hne, copy]
    rfl

end Conversions

end Harbour.Rtl.CdpSizes
