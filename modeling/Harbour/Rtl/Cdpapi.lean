import Harbour.Library.Bytes

namespace Harbour.Rtl.Cdpapi

/-- The three ways in which the Unicode functions treat a code page: UTF-8, a page
with its own character functions (`get` lists the characters of a string that is
not empty), and a table of 256 Unicode values. -/
inductive CodePage where
  | utf8
  | custom (get : UInt8 → Bytes → List UInt16) (put : UInt16 → Bytes)
  | table (uniCodes : List UInt16)

/-- The reverse table filled by `hb_cdpBuildTransTable`: the last byte whose
nonzero Unicode value is `wc`, or 0. -/
def uniTrans (uniCodes : List UInt16) (wc : UInt16) : UInt8 :=
  (List.range 256).foldl (fun found i =>
    if uniCodes.getD i 0 ≠ 0 ∧ uniCodes.getD i 0 = wc then i.toUInt8 else found) 0

def cdpU16CharToUTF8 (wc : UInt16) : Bytes :=
  if wc < 0x0080 then [wc.toUInt8]
  else if wc < 0x0800 then
    [(0xc0 : UInt8) ||| ((wc >>> 6) &&& 0x1f).toUInt8, (0x80 : UInt8) ||| (wc &&& 0x3f).toUInt8]
  else
    [(0xe0 : UInt8) ||| ((wc >>> 12) &&& 0x0f).toUInt8,
      (0x80 : UInt8) ||| ((wc >>> 6) &&& 0x3f).toUInt8,
      (0x80 : UInt8) ||| (wc &&& 0x3f).toUInt8]

def cdpUTF8CharSize (wc : UInt16) : Nat :=
  if wc < 0x0080 then 1 else if wc < 0x0800 then 2 else 3

theorem cdpUTF8CharSize_eq (wc : UInt16) : (cdpU16CharToUTF8 wc).length = cdpUTF8CharSize wc := by
  unfold cdpU16CharToUTF8 cdpUTF8CharSize
  split
  · rfl
  · split <;> rfl

/-- The bytes that `hb_cdpU16ToStr` stores for one character when the buffer has
room for it. -/
def cdpU16ToStr (cdp : CodePage) (wc : UInt16) : Bytes :=
  match cdp with
  | .utf8 => cdpU16CharToUTF8 wc
  | .custom _ put => put wc
  | .table uniCodes =>
    if uniTrans uniCodes wc ≠ 0 then [uniTrans uniCodes wc]
    else if wc ≥ 0x100 then [0x3F] else [wc.toUInt8]

/-- The page translates the control characters to the bytes of the same value.
Every registered page but UTF-16 does. -/
def KeepsControls (cdp : CodePage) : Prop :=
  ∀ control : Fin 32, cdpU16ToStr cdp (UInt16.ofNat control) = [UInt8.ofNat control]

theorem keepsControls_utf8 : KeepsControls .utf8 := by
  unfold KeepsControls
  decide

/-- There are two characters that no text of the page confuses. -/
def Separates (cdp : CodePage) : Prop :=
  ∃ wc wc', ∀ text text', cdpU16ToStr cdp wc ++ text ≠ cdpU16ToStr cdp wc' ++ text'

theorem separates_of_keepsControls {cdp : CodePage} (h : KeepsControls cdp) : Separates cdp := by
  refine ⟨UInt16.ofNat (1 : Fin 32), UInt16.ofNat (2 : Fin 32), fun text text' heq => ?_⟩
  rw [h 1, h 2] at heq
  exact absurd (List.cons.inj heq).1 (by decide)

/-! ### Strings as UTF-16 -/

/-- `hb_cdpUTF8ToU16NextChar`: whether the byte was used up, the number of bytes
the character still needs and its value so far. -/
def cdpUTF8ToU16NextChar (ucChar : UInt8) (n : Nat) (wc : UInt16) : Bool × Nat × UInt16 :=
  if n > 0 then
    if ucChar &&& 0xc0 ≠ 0x80 then (false, 0, wc)
    else (true, n - 1, (wc <<< 6) ||| (ucChar &&& 0x3f).toUInt16)
  else if ucChar < 0xc0 then (true, 0, ucChar.toUInt16)
  else if ucChar < 0xe0 then (true, 1, (ucChar &&& 0x1f).toUInt16)
  else if ucChar < 0xf0 then (true, 2, (ucChar &&& 0x0f).toUInt16)
  else if ucChar < 0xf8 then (true, 3, (ucChar &&& 0x07).toUInt16)
  else if ucChar < 0xfc then (true, 4, (ucChar &&& 0x03).toUInt16)
  else if ucChar < 0xfe then (true, 5, (ucChar &&& 0x01).toUInt16)
  else (true, 0, ucChar.toUInt16)

/-- The loop over a UTF-8 string: the characters completed on the way and the
number of bytes missing at the end.  A byte that ends a character too early is
looked at once more. -/
def utf8Chars : Bytes → (n : Nat) → (wc : UInt16) → List UInt16 × Nat
  | [], n, _ => ([], n)
  | ucChar :: pSrc, n, wc =>
    let complete := fun (n : Nat) (wc : UInt16) => if n = 0 then [wc] else []
    match cdpUTF8ToU16NextChar ucChar n wc with
    | (true, n, wc) =>
      let (chars, left) := utf8Chars pSrc n wc
      (complete n wc ++ chars, left)
    | (false, n, wc) =>
      let (_, n', wc') := cdpUTF8ToU16NextChar ucChar n wc
      let (chars, left) := utf8Chars pSrc n' wc'
      (wc :: complete n' wc' ++ chars, left)

/-- `hb_cdpUTF8StringLength`; an incomplete character at the end counts. -/
def cdpUTF8StringLength (pSrc : Bytes) : Nat :=
  let (chars, left) := utf8Chars pSrc 0 0
  chars.length + if left > 0 then 1 else 0

/-- The characters of a string of a custom page, as `HB_CDPCHAR_GET` yields them. -/
def customChars (get : UInt8 → Bytes → List UInt16) : Bytes → List UInt16
  | [] => []
  | uc :: pSrc => get uc pSrc

def cdpStrAsU16Len (cdp : CodePage) (pSrc : Bytes) (nMax : Nat) : Nat :=
  let nLen := match cdp with
    | .utf8 => cdpUTF8StringLength pSrc
    | .custom get _ => (customChars get pSrc).length
    | .table _ => pSrc.length
  if nMax ≠ 0 ∧ nLen > nMax then nMax else nLen

def tableChar (uniCodes : List UInt16) (uc : UInt8) : UInt16 :=
  if uniCodes.getD uc.toNat 0 = 0 then uc.toUInt16 else uniCodes.getD uc.toNat 0

def cdpStrToU16 (cdp : CodePage) (pSrc : Bytes) (nDst : Nat) : List UInt16 :=
  let chars := match cdp with
    | .utf8 => (utf8Chars pSrc 0 0).1
    | .custom get _ => customChars get pSrc
    | .table uniCodes => pSrc.map (tableChar uniCodes)
  chars.take nDst

theorem cdpStrToU16_length_le (cdp : CodePage) (pSrc : Bytes) (nDst : Nat) :
    (cdpStrToU16 cdp pSrc nDst).length ≤ nDst := by
  unfold cdpStrToU16
  rw [List.length_take]
  exact Nat.min_le_left _ _

@[simp]
theorem cdpStrAsU16Len_nil (cdp : CodePage) (nMax : Nat) : cdpStrAsU16Len cdp [] nMax = 0 := by
  cases cdp <;> simp [cdpStrAsU16Len, cdpUTF8StringLength, utf8Chars, customChars]

/-! ### Byte translation -/

/-- A code page of one byte for each character; pages that share `uniTable` have
the same characters. -/
structure ByteCodePage where
  uniTable : Nat
  uniCodes : List UInt16

def cdpTransByte (cdpIn cdpOut : ByteCodePage) (uc : UInt8) : UInt8 :=
  if cdpIn.uniTable ≠ cdpOut.uniTable then
    let wc := cdpIn.uniCodes.getD uc.toNat 0
    if wc ≠ 0 ∧ uniTrans cdpOut.uniCodes wc ≠ 0 then uniTrans cdpOut.uniCodes wc else uc
  else uc

def cdpTransLen (nSrc nMax : Nat) : Nat :=
  if nMax ≠ 0 ∧ nSrc > nMax then nMax else nSrc

def cdpTransTo (pSrc : Bytes) (nDst : Nat) (cdpIn cdpOut : ByteCodePage) : Bytes :=
  (pSrc.take nDst).map (cdpTransByte cdpIn cdpOut)

def cdpnDup (pSrc : Bytes) (cdpIn cdpOut : ByteCodePage) : Bytes :=
  cdpTransTo pSrc (cdpTransLen pSrc.length 0 + 1) cdpIn cdpOut

def Bijective (cdp cdp' : ByteCodePage) : Prop :=
  ∀ uc, cdpTransByte cdp' cdp (cdpTransByte cdp cdp' uc) = uc

theorem cdpnDup_eq (pSrc : Bytes) (cdpIn cdpOut : ByteCodePage) :
    cdpnDup pSrc cdpIn cdpOut = pSrc.map (cdpTransByte cdpIn cdpOut) := by
  rw [cdpnDup, cdpTransTo, List.take_of_length_le (by simp [cdpTransLen])]

theorem cdpnDup_map {cdp cdp' : ByteCodePage} (h : Bijective cdp cdp') (pSrc : Bytes) :
    cdpnDup (pSrc.map (cdpTransByte cdp cdp')) cdp' cdp = pSrc := by
  rw [cdpnDup_eq, List.map_map]
  exact (List.map_congr_left fun uc _ => h uc).trans (List.map_id pSrc)

end Harbour.Rtl.Cdpapi
