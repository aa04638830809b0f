import Harbour.Library.Bytes
import Harbour.Library.TieBreak

/-!
The comparison of strings by the weights of a code page, and the same for code pages with
characters of two bytes.
-/

namespace Harbour.Rtl.CdpCollate

/-- A character of two bytes; each of them may be written in two ways. -/
structure MultiChar where
  cFirst : UInt8 × UInt8
  cLast : UInt8 × UInt8
  sortUp : Int
  sortLo : Int

/-- The tables of a code page; `multi1` and `multi2` are the flags `HB_CDP_MULTI1` and
`HB_CDP_MULTI2`. -/
structure CodePage where
  sort : UInt8 → UInt8
  acc : Option (UInt8 → UInt8)
  upper : UInt8 → UInt8
  multi1 : UInt8 → Bool
  multi2 : UInt8 → Bool
  multi : List MultiChar

namespace CodePage

variable (cdp : CodePage)

/-- The place of a byte among those of its weight. -/
def accent (u : UInt8) : UInt8 := (cdp.acc.getD id) u

def sortOf (u : UInt8) : Int := (cdp.sort u).toNat

end CodePage

def sign {α : Type*} [LT α] [DecidableLT α] (n1 n2 : α) : Int := if n1 < n2 then -1 else 1

def finish (fExact : Bool) (iRet iAcc : Int) (nLenFirst nLenSecond : Nat) : Int :=
  if iRet ≠ 0 then iRet
  else if iAcc ≠ 0 then iAcc
  else if nLenFirst < nLenSecond then -1
  else if fExact ∧ nLenSecond < nLenFirst then 1
  else 0

/-- The new `iAcc` at two different characters of the same weight. -/
def tieAcc (cdp : CodePage) (fExact fSame : Bool) (iAcc : Int) (u1 u2 : UInt8) : Int :=
  if iAcc = 0 ∧ (fExact ∨ fSame ∧ cdp.acc.isSome) then sign (cdp.accent u1) (cdp.accent u2)
  else iAcc

section Std

variable (cdp : CodePage) (char : UInt8 → UInt8) (fExact : Bool)

/-- The loop of `hb_cdpStd_cmp` and `hb_cdpStd_cmpi`: `iRet` and `iAcc`. -/
def stdLoop (fSame : Bool) : Int → Bytes → Bytes → Int × Int
  | iAcc, c1 :: szFirst, c2 :: szSecond =>
    let u1 := char c1
    let u2 := char c2
    if u1 ≠ u2 then
      if cdp.sort u1 ≠ cdp.sort u2 then (sign (cdp.sort u1) (cdp.sort u2), iAcc)
      else stdLoop fSame (tieAcc cdp fExact fSame iAcc u1 u2) szFirst szSecond
    else stdLoop fSame iAcc szFirst szSecond
  | iAcc, _, _ => (0, iAcc)

def stdCompare (szFirst szSecond : Bytes) : Int :=
  let result := stdLoop cdp char fExact (szFirst.length = szSecond.length) 0 szFirst szSecond
  finish fExact result.1 result.2 szFirst.length szSecond.length

def cdpStd_cmp : Bytes → Bytes → Int := stdCompare cdp id fExact

def cdpStd_cmpi : Bytes → Bytes → Int := stdCompare cdp cdp.upper fExact

end Std

section Multi

variable (cdp : CodePage)

def multiIs (szChar0 szChar1 : UInt8) (pmulti : MultiChar) : Bool :=
  (szChar0 = pmulti.cFirst.1 ∨ szChar0 = pmulti.cFirst.2) ∧
    (szChar1 = pmulti.cLast.1 ∨ szChar1 = pmulti.cLast.2)

def cdpMulti_weight (szChar0 szChar1 : UInt8) : Int :=
  match cdp.multi.find? (multiIs szChar0 szChar1) with
  | some pmulti => if szChar0 = pmulti.cFirst.1 then pmulti.sortUp else pmulti.sortLo
  | none => 0

def cdpMulti_weightI (szChar0 szChar1 : UInt8) : Int :=
  match cdp.multi.find? (multiIs szChar0 szChar1) with
  | some pmulti => pmulti.sortUp
  | none => 0

/-- A character of a string: its weight and its first byte. -/
structure Letter where
  n : Int
  u : UInt8
deriving DecidableEq, Repr

/-- What the loop keeps of one of the strings: the rest and the number of the characters so far
known. -/
structure Side where
  sz : Bytes
  nLen : Nat

variable (weight : UInt8 → UInt8 → Int) (char : UInt8 → UInt8)

/-- The weight of the character at `nPos`; one of two bytes makes the string shorter. -/
def multiStep (nPos : Nat) (side : Side) : Int × Side :=
  let u := char (side.sz.headD 0)
  let szChar0 := side.sz.headD 0
  let szChar1 := side.sz.tail.headD 0
  if cdp.multi1 u ∧ nPos < side.nLen - 1 ∧ cdp.multi2 szChar1 ∧ weight szChar0 szChar1 ≠ 0 then
    (weight szChar0 szChar1, ⟨side.sz.tail, side.nLen - 1⟩)
  else (cdp.sortOf u, side)

def shorter (nLen nLenOne : Nat) : Nat := if nLenOne < nLen then nLenOne else nLen

theorem shorter_le (nLen nLenOne : Nat) : shorter nLen nLenOne ≤ nLen := by
  unfold shorter
  split_ifs
  · omega
  · exact le_rfl

/-- The loop of `hb_cdpMulti_cmp` and `hb_cdpMulti_cmpi`: `iRet`, `iAcc` and the two lengths. -/
def multiLoop (fExact : Bool) (nLen nPos : Nat) (iAcc : Int) (first second : Side) :
    Int × Int × Nat × Nat :=
  if nPos < nLen then
    let u1 := char (first.sz.headD 0)
    let u2 := char (second.sz.headD 0)
    let n1 := (multiStep cdp weight char nPos first).1
    let n2 := (multiStep cdp weight char nPos second).1
    let first' := (multiStep cdp weight char nPos first).2
    let second' := (multiStep cdp weight char nPos second).2
    if n1 ≠ n2 then
      (if n1 = 0 ∨ n2 = 0 then sign u1 u2 else sign n1 n2, iAcc, first'.nLen, second'.nLen)
    else if u1 ≠ u2 ∧ n1 = 0 then
      (sign u1 u2, iAcc, first'.nLen, second'.nLen)
    else
      let fSame := first'.nLen = second'.nLen
      multiLoop fExact (shorter (shorter nLen first'.nLen) second'.nLen) (nPos + 1)
        (if u1 ≠ u2 then tieAcc cdp fExact fSame iAcc u1 u2 else iAcc)
        ⟨first'.sz.tail, first'.nLen⟩ ⟨second'.sz.tail, second'.nLen⟩
  else (0, iAcc, first.nLen, second.nLen)
termination_by nLen - nPos
decreasing_by
  have hfirst := shorter_le nLen (multiStep cdp weight char nPos first).2.nLen
  have hsecond := shorter_le (shorter nLen (multiStep cdp weight char nPos first).2.nLen)
    (multiStep cdp weight char nPos second).2.nLen
  omega

def multiCompare (fExact : Bool) (szFirst szSecond : Bytes) : Int :=
  let result := multiLoop cdp weight char fExact (min szFirst.length szSecond.length) 0 0
    ⟨szFirst, szFirst.length⟩ ⟨szSecond, szSecond.length⟩
  finish fExact result.1 result.2.1 result.2.2.1 result.2.2.2

def cdpMulti_cmp (fExact : Bool) : Bytes → Bytes → Int :=
  multiCompare cdp (cdpMulti_weight cdp) id fExact

def cdpMulti_cmpi (fExact : Bool) : Bytes → Bytes → Int :=
  multiCompare cdp (cdpMulti_weightI cdp) cdp.upper fExact

def isMulti (c d : UInt8) : Bool :=
  cdp.multi1 (char c) ∧ cdp.multi2 d ∧ weight c d ≠ 0

def letters : Bytes → List Letter
  | [] => []
  | [c] => [⟨cdp.sortOf (char c), char c⟩]
  | c :: d :: sz =>
    if isMulti cdp weight char c d then ⟨weight c d, char c⟩ :: letters sz
    else ⟨cdp.sortOf (char c), char c⟩ :: letters (d :: sz)

end Multi

end Harbour.Rtl.CdpCollate
