import Harbour.Compiler.PCodeSize
import Harbour.Library.Deletion

/-!
The optimiser of jumps: `hb_compOptimizeJumps` and the list of the bytes that it removes.
-/

namespace Harbour.Compiler.Jumps

open Library.Bytes Library.Deletion PCodeSize

/-- `HB_HFUNC`, and whether the compiler gives up. -/
structure Func where
  pCode : Bytes
  pNOOPs : List Nat
  pJumps : List Nat
  fExit : Bool

def setCode (pFunc : Func) (nPos : Nat) (pcode : PCode) : Func :=
  { pFunc with pCode := pFunc.pCode.set nPos pcode.byte }

def compNOOPadd (pFunc : Func) (nPos : Nat) : Func :=
  { setCode pFunc nPos .noop with pNOOPs := pFunc.pNOOPs ++ [nPos] }

def compNOOPfill (pFunc : Func) (nFrom : Nat) : (nCount : Nat) → (fPop fCheck : Bool) → Func
  | 0, _, _ => pFunc
  | nCount + 1, true, fCheck =>
    compNOOPfill (setCode pFunc nFrom .pop) (nFrom + 1) nCount false fCheck
  | nCount + 1, false, fCheck =>
    if fCheck ∧ code (pFunc.pCode.drop nFrom) = .noop ∧ pFunc.pNOOPs ≠ [] ∧
      nFrom ∈ pFunc.pNOOPs then
      compNOOPfill pFunc (nFrom + 1) nCount false fCheck
    else compNOOPfill (compNOOPadd pFunc nFrom) (nFrom + 1) nCount false fCheck

section Shorten

variable (pFunc : Func) (nJumpAddr : Nat)

def limInt (bits : Nat) (nOffset : Int) : Bool :=
  -2 ^ (bits - 1) ≤ nOffset ∧ nOffset < 2 ^ (bits - 1)

def offsetAt (width : Nat) : Int := mkSigned width (pFunc.pCode.drop (nJumpAddr + 1))

def shortenNear (fPop : Bool) : Func :=
  if offsetAt pFunc nJumpAddr 1 = 2 then compNOOPfill pFunc nJumpAddr 2 fPop false else pFunc

def shortenShort (near : PCode) (fPop : Bool) : Func :=
  let nOffset := offsetAt pFunc nJumpAddr 2
  if nOffset = 3 then compNOOPfill pFunc nJumpAddr 3 fPop false
  else if limInt 8 nOffset then
    compNOOPfill (setCode pFunc nJumpAddr near) (nJumpAddr + 2) 1 false false
  else pFunc

def shortenFar (iPass : Nat) (near short : PCode) (fPop : Bool) : Func :=
  let nOffset := offsetAt pFunc nJumpAddr 3
  if nOffset = 4 then compNOOPfill pFunc nJumpAddr 4 fPop false
  else if iPass > 0 ∧ limInt 16 nOffset then
    if limInt 8 nOffset then
      compNOOPfill (setCode pFunc nJumpAddr near) (nJumpAddr + 2) 2 false false
    else compNOOPfill (setCode pFunc nJumpAddr short) (nJumpAddr + 3) 1 false false
  else pFunc

def shortenJump (iPass : Nat) : Func :=
  match code (pFunc.pCode.drop nJumpAddr) with
  | .jumpNear => shortenNear pFunc nJumpAddr false
  | .jumpFalseNear | .jumpTrueNear => shortenNear pFunc nJumpAddr true
  | .jump => shortenShort pFunc nJumpAddr .jumpNear false
  | .jumpFalse => shortenShort pFunc nJumpAddr .jumpFalseNear true
  | .jumpTrue => shortenShort pFunc nJumpAddr .jumpTrueNear true
  | .jumpFar => shortenFar pFunc nJumpAddr iPass .jumpNear .jump false
  | .jumpFalseFar => shortenFar pFunc nJumpAddr iPass .jumpFalseNear .jumpFalse true
  | .jumpTrueFar => shortenFar pFunc nJumpAddr iPass .jumpTrueNear .jumpTrue true
  | _ => pFunc

end Shorten

/-- The jump is dropped from the table when it has been replaced. -/
def isDummy (pCode : Bytes) : Bool := code pCode = .noop ∨ code pCode = .pop

def jumpStep (iPass : Nat) (pFunc : Func) (nJump : Nat) : Func :=
  let nJumpAddr := pFunc.pJumps.getD nJump 0
  let pFunc := shortenJump pFunc nJumpAddr iPass
  if isDummy (pFunc.pCode.drop nJumpAddr) then { pFunc with pJumps := pFunc.pJumps.eraseIdx nJump }
  else pFunc

def shortenJumps (iPass : Nat) : (nJumps : Nat) → Func → Func
  | 0, pFunc => pFunc
  | nJump + 1, pFunc => shortenJumps iPass nJump (jumpStep iPass pFunc nJump)

def size (n : Int) : Nat := unsigned 64 n

/-- What a removed byte does to the offset, `plSizes`, and the address of a jump, `plShifts`. -/
def scanJump (pCode : Bytes) (nNOOP nJumpAddr : Nat) (sizes : Int × Int) : Int × Int :=
  match jumpOffset (pCode.drop nJumpAddr) with
  | none => sizes
  | some nOffset =>
    (if nOffset > 0 then
      if nNOOP > nJumpAddr ∧ nNOOP < size (nJumpAddr + nOffset) then sizes.1 - 1 else sizes.1
    else
      if nNOOP < nJumpAddr ∧ nNOOP ≥ size (nJumpAddr + nOffset) then sizes.1 + 1 else sizes.1,
    if nNOOP < nJumpAddr then sizes.2 + 1 else sizes.2)

def scanNOOPs (pCode : Bytes) (pNOOPs pJumps : List Nat) : List (Int × Int) :=
  pNOOPs.foldl (fun sizes nNOOP => List.zipWith (scanJump pCode nNOOP) pJumps sizes)
    (pJumps.map fun _ => (0, 0))

def putBytes (pCode : Bytes) : (nPos : Nat) → Bytes → Bytes
  | _, [] => pCode
  | nPos, byte :: bytes => putBytes (pCode.set nPos byte) (nPos + 1) bytes

/-- The new offset of a jump; in three bytes unless its code says otherwise. -/
def moveJump (pCode : Bytes) (nJumpAddr : Nat) (nOffset : Int) : Bytes :=
  if nOffset = 0 then pCode
  else
    let width := ((code (pCode.drop nJumpAddr)).offsetWidth).getD 3
    let nOffset := nOffset + mkSigned width (pCode.drop (nJumpAddr + 1))
    putBytes pCode (nJumpAddr + 1) (leBytes width (unsigned 64 nOffset))

/-- The offsets and the table are adjusted; a jump that has none is an error. -/
def adjustJumps (pFunc : Func) : Func :=
  let sizes := scanNOOPs pFunc.pCode pFunc.pNOOPs pFunc.pJumps
  { pFunc with
    pCode := (pFunc.pJumps.zip sizes).foldl
      (fun pCode jump => moveJump pCode jump.1 jump.2.1) pFunc.pCode
    pJumps := List.zipWith (fun (nJumpAddr : Nat) sizes => size (nJumpAddr - sizes.2)) pFunc.pJumps
      sizes
    fExit := pFunc.fExit || pFunc.pNOOPs.any fun _ =>
      pFunc.pJumps.any fun nJumpAddr => (jumpOffset (pFunc.pCode.drop nJumpAddr)).isNone }

def removeNOOPs (pFunc : Func) : Func :=
  { pFunc with pCode := compact pFunc.pNOOPs pFunc.pCode, pNOOPs := [] }

def sortNOOPs (pFunc : Func) : Func :=
  { pFunc with pNOOPs := pFunc.pNOOPs.mergeSort (· ≤ ·) }

/-- What a pass does behind the loop over the table. -/
def compactJumps (pFunc : Func) : Func := removeNOOPs (adjustJumps (sortNOOPs pFunc))

/-- A pass of `hb_compOptimizeJumps`; it is left early when no byte is removed. -/
def jumpPass (iPass : Nat) (pFunc : Func) : Func :=
  let pFunc := shortenJumps iPass pFunc.pJumps.length pFunc
  if pFunc.pNOOPs = [] then pFunc else compactJumps pFunc

end Harbour.Compiler.Jumps
