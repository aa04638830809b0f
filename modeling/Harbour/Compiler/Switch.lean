import Harbour.Compiler.DeadCode

/-!
The compilation of a `SWITCH` statement: the arms, and behind them the table of the cases or the
jump to the arm of a literal.
-/

namespace Harbour.Compiler.Switch

open Library.Bytes PCodeSize Jumps PCode

/-- A reduced expression: a literal, or any other one with the code that pushes its value. -/
inductive Expr where
  | long (n : Int)
  | string (s : Bytes)
  | other (push : Bytes)
  deriving DecidableEq, Repr

namespace Expr

def isLiteral : Expr → Bool
  | long _ => true
  | string _ => true
  | other _ => false

def equal : Expr → Expr → Bool
  | long n, long m => n = m
  | string s, string t => s = t
  | _, _ => false

def invalidStr : Expr → Bool
  | string s => s.length > 255
  | _ => false

end Expr

inductive CompError where
  | notLiteralCase
  | duplCase
  | invalidStr
  | mayhemInCase
  | jumpTooLong
  | stringTooLong
  deriving DecidableEq, Repr

structure SwitchCase where
  nOffset : Nat
  pExpr : Expr
  deriving Repr

structure SwitchCmd where
  pCases : List SwitchCase
  nDefault : Nat
  nOffset : Nat
  pExpr : Expr
  deriving Repr

structure Func where
  pCode : Bytes
  pSwitch : SwitchCmd
  errors : List CompError
  deriving Repr

namespace Func

variable (pFunc : Func)

def genPCode (bytes : Bytes) : Func := { pFunc with pCode := pFunc.pCode ++ bytes }

def genError (error : CompError) : Func := { pFunc with errors := pFunc.errors ++ [error] }

def genJump (nOffset : Int) : Func × Nat :=
  let pFunc := if limInt 24 nOffset then pFunc else pFunc.genError .jumpTooLong
  let pFunc := pFunc.genPCode (jumpFar.byte :: leBytes 3 (unsigned 64 nOffset))
  (pFunc, pFunc.pCode.length - 3)

def genJumpThere (nFrom nTo : Nat) : Func :=
  let nOffset : Int := (nTo : Int) - nFrom + 1
  if limInt 24 nOffset then
    { pFunc with pCode := putBytes pFunc.pCode nFrom (leBytes 3 (unsigned 64 nOffset)) }
  else pFunc.genError .jumpTooLong

def genJumpHere (nOffset : Nat) : Func := pFunc.genJumpThere nOffset pFunc.pCode.length

def genJumpTo (nTo : Nat) : Func :=
  let jump := pFunc.genJump 0
  jump.1.genJumpThere jump.2 nTo

def genPushLong (nNumber : Int) : Func :=
  if limInt 32 nNumber then
    pFunc.genPCode (pushLong.byte :: leBytes 4 (unsigned 64 nNumber))
  else pFunc.genPCode (pushLongLong.byte :: leBytes 8 (unsigned 64 nNumber))

/-- `hb_compGenPushString` in the table of a switch: the text has a zero byte behind it, which is
counted. -/
def genPushString (szText : Bytes) : Func :=
  let nStrLen := szText.length + 1
  if nStrLen > 2 ^ 24 - 1 then pFunc.genError .stringTooLong
  else
    let pFunc := pFunc.genPCode (
      if nStrLen > 2 ^ 16 - 1 then pushStrLarge.byte :: leBytes 3 nStrLen
      else if nStrLen > 2 ^ 8 - 1 then pushStr.byte :: leBytes 2 nStrLen
      else pushStrShort.byte :: leBytes 1 nStrLen)
    pFunc.genPCode (szText ++ [0])

def exprGenPush : Expr → Func
  | .long n => pFunc.genPushLong n
  | .string s => pFunc.genPushString s
  | .other push => pFunc.genPCode push

def switchStart (pExpr : Expr) : Func :=
  { pFunc with pSwitch := ⟨[], 0, pFunc.pCode.length, pExpr⟩ }

def addCase (pExpr : Expr) : Func :=
  { pFunc with pSwitch := { pFunc.pSwitch with
      pCases := pFunc.pSwitch.pCases ++ [⟨pFunc.pCode.length, pExpr⟩] } }

def setDefault : Func :=
  { pFunc with pSwitch := { pFunc.pSwitch with nDefault := pFunc.pCode.length } }

def caseErrors (pExpr : Expr) : List CompError :=
  (if pExpr.isLiteral then
    (pFunc.pSwitch.pCases.filter fun pCase => pExpr.equal pCase.pExpr).map fun _ => .duplCase
  else [.notLiteralCase]) ++ if pExpr.invalidStr then [.invalidStr] else []

/-- `hb_compSwitchAdd`, of a case or of `OTHERWISE`. -/
def switchAdd : Option Expr → Func
  | some pExpr =>
    { pFunc.addCase pExpr with errors := pFunc.errors ++ pFunc.caseErrors pExpr }
  | none => if pFunc.pSwitch.nDefault ≠ 0 then pFunc.genError .mayhemInCase else pFunc.setDefault

/-- The loop for a literal: the jump to the first case that is equal, and whether there is one. -/
def genEqual (pExpr : Expr) : List SwitchCase → Bool × Func
  | [] => (false, pFunc)
  | pCase :: pCases =>
    if pExpr.equal pCase.pExpr then (true, pFunc.genJumpTo pCase.nOffset)
    else genEqual pExpr pCases

/-- The loop over the cases of the table, and how many there are. -/
def genCases : List SwitchCase → (iCount : Nat) → Func → Nat × Func
  | [], iCount, pFunc => (iCount, pFunc)
  | pCase :: pCases, iCount, pFunc =>
    if pCase.pExpr.isLiteral then
      genCases pCases (iCount + 1) ((pFunc.exprGenPush pCase.pExpr).genJumpTo pCase.nOffset)
    else genCases pCases iCount pFunc

def genDefault (iCount : Nat) : Nat × Func :=
  if pFunc.pSwitch.nDefault ≠ 0 then
    (iCount + 1, (pFunc.genPCode [pushNil.byte]).genJumpTo pFunc.pSwitch.nDefault)
  else (iCount, pFunc)

def genEntries : Nat × Func :=
  let (iCount, pFunc) := genCases pFunc.pSwitch.pCases 0 pFunc
  pFunc.genDefault iCount

/-- The part of `hb_compSwitchEnd` for a literal. -/
def genLiteral (pExpr : Expr) : Func :=
  let (fGen, pFunc) := pFunc.genEqual pExpr pFunc.pSwitch.pCases
  if pFunc.pSwitch.nDefault ≠ 0 ∧ fGen = false then pFunc.genJumpTo pFunc.pSwitch.nDefault
  else pFunc

/-- The part of `hb_compSwitchEnd` for any other expression. The count is written in 16 bits. -/
def genTable (pExpr : Expr) : Func :=
  let pFunc := pFunc.exprGenPush pExpr
  let nCountPos := pFunc.pCode.length + 1
  let pFunc := pFunc.genPCode [switch.byte, 0, 0]
  let (iCount, pFunc) := pFunc.genEntries
  { pFunc with pCode := putBytes pFunc.pCode nCountPos (leBytes 2 iCount) }

def genSelect : Func :=
  if pFunc.pSwitch.pExpr.isLiteral then pFunc.genLiteral pFunc.pSwitch.pExpr
  else pFunc.genTable pFunc.pSwitch.pExpr

def switchEnd : Func :=
  let (pFunc, nExitPos) := pFunc.genJump 0
  let pFunc := pFunc.genJumpHere (pFunc.pSwitch.nOffset + 1)
  pFunc.genSelect.genJumpHere nExitPos

end Func

/-- An arm: its literal, or none for `OTHERWISE`, and the code of its statements. -/
structure Arm where
  pExpr : Option Expr
  body : Bytes
  deriving Repr

/-- `SWITCH` to `ENDSWITCH`, behind code that is there. -/
def doSwitch (before : Bytes) (pExpr : Expr) (arms : List Arm) : Func :=
  let pFunc : Func := ⟨before, ⟨[], 0, 0, pExpr⟩, []⟩
  let pFunc := ((pFunc.switchStart pExpr).genJump 0).1
  (arms.foldl (fun pFunc arm => (pFunc.switchAdd arm.pExpr).genPCode arm.body) pFunc).switchEnd

end Harbour.Compiler.Switch
