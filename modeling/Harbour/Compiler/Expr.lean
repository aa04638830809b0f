import Harbour.Vm.Relations

/-!
Expressions over literals and variables, what the code that is generated for them pushes, and their
reduction at compile time. The arithmetic of `long` in the reduction is that of the integers where
the compiler has tested that the result fits.
-/

namespace Harbour.Compiler.Expr

open Vm.Operators Library.Rounding Rounded

inductive Num where
  | long (l : Int)
  | double (d : Double)
deriving DecidableEq

inductive BinaryOp where
  | plus
  | minus
  | mult
  | div
  | mod
  | equal
  | exactEqual
  | ne
  | lt
  | le
  | gt
  | ge
  | inString
  | and
  | or
deriving DecidableEq, Repr

/-- Literals, variables and operators. A date has no time. -/
inductive HbExpr where
  | nil
  | numeric (n : Num)
  | date (lDate : Int)
  | timestamp (lDate lTime : Int)
  | string (s : Bytes)
  | logical (b : Bool)
  | var (name : String)
  | binary (op : BinaryOp) (pLeft pRight : HbExpr)
  | negate (pExpr : HbExpr)
  | not (pExpr : HbExpr)
  | iif (pCond pTrue pFalse : HbExpr)
deriving DecidableEq

/-- The modes of the compiler that change how an expression is reduced or run. -/
structure Modes where
  harbour : Bool
  shortcuts : Bool
  extOpt : Bool
  macroText : Bool
  compiler : Bool

/-- The operators that are computed from both of their operands. -/
def BinaryOp.vm : BinaryOp → Item → Item → Except VmError Item
  | .plus => vmPlus
  | .minus => vmMinus
  | .mult => vmMult
  | .div => vmDivide
  | .mod => vmModulus
  | .equal => vmEqual
  | .exactEqual => vmExactlyEqual
  | .ne => vmNotEqual
  | .lt => vmLess
  | .le => vmLessEqual
  | .gt => vmGreater
  | .ge => vmGreaterEqual
  | .inString => vmInstring
  | .and => vmAnd
  | .or => vmOr

def Num.item : Num → Item
  | .long l => putNumIntRaw l
  | .double d => .double d

/-- What the code of an expression pushes. With shortcuts the second operand of `.AND.` and `.OR.`
is jumped over, or left as it is. -/
def eval (modes : Modes) (env : String → Item) : HbExpr → Except VmError Item
  | .nil => .ok .nil
  | .numeric n => .ok n.item
  | .date lDate => .ok (.date lDate)
  | .timestamp lDate lTime => .ok (.timestamp lDate lTime)
  | .string s => .ok (.string s)
  | .logical b => .ok (.logical b)
  | .var name => .ok (env name)
  | .binary op pLeft pRight => do
    let item1 ← eval modes env pLeft
    if modes.shortcuts ∧ op = .and then
      if ← popLogical item1 then eval modes env pRight else return item1
    else if modes.shortcuts ∧ op = .or then
      if ← popLogical item1 then return item1 else eval modes env pRight
    else
      let item2 ← eval modes env pRight
      op.vm item1 item2
  | .negate pExpr => do
    let item ← eval modes env pExpr
    vmNegate item
  | .not pExpr => do
    let item ← eval modes env pExpr
    vmNot item
  | .iif pCond pTrue pFalse => do
    let item ← eval modes env pCond
    if ← popLogical item then eval modes env pTrue else eval modes env pFalse

theorem eval_binary (modes : Modes) (env : String → Item) {op : BinaryOp} (pLeft pRight : HbExpr)
    (hand : op ≠ .and) (hor : op ≠ .or) :
    eval modes env (.binary op pLeft pRight) =
      (do let item1 ← eval modes env pLeft
          let item2 ← eval modes env pRight
          op.vm item1 item2) := by
  have hand' : ¬ (modes.shortcuts = true ∧ op = .and) := fun h => hand h.2
  have hor' : ¬ (modes.shortcuts = true ∧ op = .or) := fun h => hor h.2
  rw [eval]
  congr 1
  funext item1
  rw [if_neg hand', if_neg hor']

def Num.dbl : Num → Double
  | .long l => ofInt l
  | .double d => d

def Num.castLong : Num → Int
  | .long l => l
  | .double d => Vm.Operators.castLong d

def Num.isZero : Num → Bool
  | .long l => l = 0
  | .double d => d.value = 0

/-- A result that was computed as `HB_MAXDBL`, if it is no `long`. -/
def limited (dVal : MaxDbl) (l : Int) : Num :=
  if DblLimLong dVal.value then .long l else .double (round dVal.value)

def addNums : Num → Num → Num
  | .long l1, .long l2 => limited ((ofInt l1).add (ofInt l2)) (l1 + l2)
  | n1, n2 => .double (n1.dbl.add n2.dbl)

def subNums : Num → Num → Num
  | .long l1, .long l2 => limited ((ofInt l1).sub (ofInt l2)) (l1 - l2)
  | n1, n2 => .double (n1.dbl.sub n2.dbl)

def multNums : Num → Num → Num
  | .long l1, .long l2 => limited ((ofInt l1).mul (ofInt l2)) (l1 * l2)
  | n1, n2 => .double (n1.dbl.mul n2.dbl)

def reduceTimeStampPut (lJulian lMilliSec : Int) : HbExpr :=
  .timestamp (normalize lJulian lMilliSec).1 (normalize lJulian lMilliSec).2

def reduceTimeStampAdd (lDate lTime : Int) (dValue : Double) : HbExpr :=
  let (lJulian, lMilliSec) := timeStampUnpackDT dValue
  reduceTimeStampPut (wrap64 (lJulian + lDate)) (lMilliSec + lTime)

def stampPlus (lDate lTime : Int) : Num → HbExpr
  | .long l => reduceTimeStampPut (wrap64 (lDate + l)) lTime
  | .double d => reduceTimeStampAdd lDate lTime d

def identStart (ch : UInt8) : Bool :=
  65 ≤ ch ∧ ch ≤ 90 ∨ 97 ≤ ch ∧ ch ≤ 122 ∨ ch = 95

def ampersand : UInt8 := 38

def hasMacro (harbour : Bool) : Bytes → Bool
  | [] => false
  | ch :: szText =>
    if ch = ampersand ∧ (harbour = false ∨ szText ≠ [] ∧ identStart (szText.headD 0)) then true
    else hasMacro harbour szText

def joinsMacro (harbour : Bool) (behind : Bytes) : Bytes → Bool
  | [] => false
  | ch :: szText =>
    if ch = ampersand ∧ (identStart ((szText ++ behind).headD 0) ∨ harbour = false) then true
    else joinsMacro harbour behind szText

section Reduce

variable (modes : Modes)

def reducePlusNums : HbExpr → Num → Option HbExpr
  | .binary .plus (.numeric n) pRight, pAdd =>
    some (.binary .plus (.numeric (addNums n pAdd)) pRight)
  | .binary .plus pLeft (.numeric n), pAdd => some (.binary .plus pLeft (.numeric (addNums n pAdd)))
  | .binary .plus (.binary .plus pLeft pRight) pOther, pAdd =>
    (reducePlusNums (.binary .plus pLeft pRight) pAdd).map fun pSum => .binary .plus pSum pOther
  | .binary .plus pOther (.binary .plus pLeft pRight), pAdd =>
    (reducePlusNums (.binary .plus pLeft pRight) pAdd).map fun pSum => .binary .plus pOther pSum
  | _, _ => none

def reducePlusNum (n : Num) (pOther pSelf : HbExpr) : HbExpr :=
  if modes.extOpt ∧ n.isZero then pOther
  else if modes.extOpt then (reducePlusNums pOther n).getD pSelf
  else pSelf

def reducePlusStrings (s1 s2 : Bytes) : HbExpr :=
  if s2 = [] then .string s1
  else if s1 = [] then .string s2
  else if modes.macroText ∧ joinsMacro modes.harbour s2 s1 then .binary .plus (.string s1)
    (.string s2)
  else .string (s1 ++ s2)

def reducePlus : HbExpr → HbExpr → HbExpr
  | .numeric n1, .numeric n2 => .numeric (addNums n1 n2)
  | .numeric n, .date lDate => .date (wrap64 (lDate + n.castLong))
  | .numeric n, .timestamp lDate lTime => stampPlus lDate lTime n
  | .numeric n, pRight => reducePlusNum modes n pRight (.binary .plus (.numeric n) pRight)
  | .date lDate, .numeric n => .date (wrap64 (lDate + n.castLong))
  | .timestamp lDate lTime, .numeric n => stampPlus lDate lTime n
  | pLeft, .numeric n => reducePlusNum modes n pLeft (.binary .plus pLeft (.numeric n))
  | .date d1, .date d2 => .date (wrap64 (d1 + d2))
  | .date d1, .timestamp d2 t2 => reduceTimeStampPut (wrap64 (d1 + d2)) (0 + t2)
  | .timestamp d1 t1, .date d2 => reduceTimeStampPut (wrap64 (d1 + d2)) (t1 + 0)
  | .timestamp d1 t1, .timestamp d2 t2 => reduceTimeStampPut (wrap64 (d1 + d2)) (t1 + t2)
  | .string s1, .string s2 => reducePlusStrings modes s1 s2
  | pLeft, pRight => .binary .plus pLeft pRight

def reduceDateDiff (lDate lTime : Int) : HbExpr :=
  .numeric (if lTime = 0 then .long lDate else .double (timeStampPackDT lDate lTime))

def reduceMinusStrings (s1 s2 : Bytes) : HbExpr :=
  if s2 = [] then .string s1
  else if s1 = [] then .string s2
  else if modes.macroText ∧ joinsMacro modes.harbour s2 (trimRight s1) then
    .binary .minus (.string s1) (.string s2)
  else .string (trimRight s1 ++ s2 ++ List.replicate (s1.length - (trimRight s1).length) blank)

def reduceMinus : HbExpr → HbExpr → HbExpr
  | .numeric n1, .numeric n2 => .numeric (subNums n1 n2)
  | .date d1, .date d2 => reduceDateDiff (wrap64 (d1 - d2)) 0
  | .date d1, .timestamp d2 t2 => reduceDateDiff (wrap64 (d1 - d2)) (0 - t2)
  | .timestamp d1 t1, .date d2 => reduceDateDiff (wrap64 (d1 - d2)) (t1 - 0)
  | .timestamp d1 t1, .timestamp d2 t2 => reduceDateDiff (wrap64 (d1 - d2)) (t1 - t2)
  | .date lDate, .numeric n => .date (wrap64 (lDate - n.castLong))
  | .timestamp lDate lTime, .numeric (.long l) => reduceTimeStampPut (wrap64 (lDate - l)) lTime
  | .timestamp lDate lTime, .numeric (.double d) => reduceTimeStampAdd lDate lTime d.neg
  | .string s1, .string s2 => reduceMinusStrings modes s1 s2
  | pLeft, pRight => .binary .minus pLeft pRight

def reduceMult : HbExpr → HbExpr → HbExpr
  | .numeric n1, .numeric n2 => .numeric (multNums n1 n2)
  | pLeft, pRight => .binary .mult pLeft pRight

def reduceDiv : HbExpr → HbExpr → HbExpr
  | .numeric (.long l1), .numeric (.long l2) =>
    if l2 = 0 then .binary .div (.numeric (.long l1)) (.numeric (.long l2))
    else if l1.tmod l2 = 0 then .numeric (.long (l1.tdiv l2))
    else .numeric (.double ((ofInt l1).div (ofInt l2)))
  | .numeric n1, .numeric n2 =>
    if n2.isZero then .binary .div (.numeric n1) (.numeric n2)
    else .numeric (.double (n1.dbl.div n2.dbl))
  | pLeft, pRight => .binary .div pLeft pRight

def reduceMod : HbExpr → HbExpr → HbExpr
  | .numeric (.long l1), .numeric (.long l2) =>
    if l2 = 0 then .binary .mod (.numeric (.long l1)) (.numeric (.long l2))
    else .numeric (.long (l1.tmod l2))
  | .numeric n1, .numeric n2 =>
    if modes.harbour ∧ n2.dbl.value ≠ 0 then .numeric (.double (fmod n1.dbl n2.dbl))
    else .binary .mod (.numeric n1) (.numeric n2)
  | pLeft, pRight => .binary .mod pLeft pRight

def reduceNegate : HbExpr → HbExpr
  | .numeric (.double d) => .numeric (.double d.neg)
  | .numeric (.long l) =>
    if l < -(2 ^ 63 - 1) then .numeric (.double (ofInt l).neg) else .numeric (.long (-l))
  | .negate pExpr => if modes.extOpt then pExpr else .negate (.negate pExpr)
  | pExpr => .negate pExpr

def reduceIN : HbExpr → HbExpr → HbExpr
  | .string s1, .string s2 =>
    if modes.macroText = false ∨ hasMacro modes.harbour s1 = false ∧
      hasMacro modes.harbour s2 = false
    then
      if s1 = [] then .logical (modes.compiler ∧ modes.harbour = false)
      else .logical (strAt s1 s2 ≠ 0)
    else .binary .inString (.string s1) (.string s2)
  | pLeft, pRight => .binary .inString pLeft pRight

def isConstant : HbExpr → Bool
  | .numeric _ | .logical _ | .date _ | .timestamp _ _ | .string _ => true
  | _ => false

def besideLogical : HbExpr → HbExpr → Option (HbExpr × Bool)
  | .logical b, pExpr => some (pExpr, b)
  | pExpr, .logical b => some (pExpr, b)
  | _, _ => none

/-- Operands of different types: a comparison with the logical value `same` changes nothing. -/
def reduceCompared (op : BinaryOp) (same : Bool) (pLeft pRight : HbExpr) : HbExpr :=
  match if modes.extOpt then besideLogical pLeft pRight else none with
  | some (pExpr, b) =>
    if b = same then pExpr
    else
      match pExpr with
      | .not pExpr => pExpr
      | pExpr => .not pExpr
  | none =>
    if pLeft = .nil ∧ isConstant pRight ∨ pRight = .nil ∧ isConstant pLeft then .logical (! same)
    else .binary op pLeft pRight

def numsEqual : Num → Num → Bool
  | .long l1, .long l2 => l1 = l2
  | n1, n2 => n1.dbl.value = n2.dbl.value

def reduceNE : HbExpr → HbExpr → HbExpr
  | .logical b1, .logical b2 => .logical (b1 ≠ b2)
  | .string s1, .string s2 =>
    if s1 = [] ∧ s2 = [] then .logical false else .binary .ne (.string s1) (.string s2)
  | .numeric n1, .numeric n2 => .logical (! numsEqual n1 n2)
  | .date d1, .date d2 => .logical (d1 ≠ d2)
  | .timestamp d1 t1, .timestamp d2 t2 => .logical (d1 ≠ d2 ∨ t1 ≠ t2)
  | .nil, .nil => .logical false
  | .timestamp d1 _, .date d2 => .logical (d1 ≠ d2)
  | .date d1, .timestamp d2 _ => .logical (d1 ≠ d2)
  | pLeft, pRight => reduceCompared modes .ne false pLeft pRight

/-- `hb_compExprReduceEQ` of `==`, if `fExact`, or of `=`. -/
def reduceEQ (fExact : Bool) : HbExpr → HbExpr → HbExpr
  | .logical b1, .logical b2 => .logical (b1 = b2)
  | .string s1, .string s2 =>
    if s1 = [] ∧ s2 = [] ∨ fExact ∧ (modes.macroText = false ∨
        hasMacro modes.harbour s1 = false ∧ hasMacro modes.harbour s2 = false) then
      .logical (s1 = s2)
    else .binary (if fExact then .exactEqual else .equal) (.string s1) (.string s2)
  | .numeric n1, .numeric n2 => .logical (numsEqual n1 n2)
  | .date d1, .date d2 => .logical (d1 = d2)
  | .timestamp d1 t1, .timestamp d2 t2 => .logical (d1 = d2 ∧ t1 = t2)
  | .nil, .nil => .logical true
  | .timestamp d1 t1, .date d2 => .logical (d1 = d2 ∧ (t1 = 0 ∨ fExact = false))
  | .date d1, .timestamp d2 t2 => .logical (d1 = d2 ∧ (0 = t2 ∨ fExact = false))
  | pLeft, pRight => reduceCompared modes (if fExact then .exactEqual else .equal) true pLeft pRight

def numsOrdered (order : Order) : Num → Num → Bool
  | .long l1, .long l2 => order.holds (· < ·) l1 l2
  | n1, n2 => order.holds (· < ·) n1.dbl.value n2.dbl.value

def reduceOrder (op : BinaryOp) (order : Order) : HbExpr → HbExpr → HbExpr
  | .logical b1, .logical b2 => .logical (order.holds (· < ·) b1 b2)
  | .numeric n1, .numeric n2 => .logical (numsOrdered order n1 n2)
  | .date d1, .date d2 => .logical (order.holdsStamps d1 0 d2 0)
  | .timestamp d1 t1, .timestamp d2 t2 => .logical (order.holdsStamps d1 t1 d2 t2)
  | .timestamp d1 _, .date d2 => .logical (order.holds (· < ·) d1 d2)
  | .date d1, .timestamp d2 _ => .logical (order.holds (· < ·) d1 d2)
  | pLeft, pRight => .binary op pLeft pRight

def reduceLT := reduceOrder .lt less
def reduceLE := reduceOrder .le lessEqual
def reduceGT := reduceOrder .gt greater
def reduceGE := reduceOrder .ge greaterEqual

/-- A logical operator that the value `decides` of an operand decides. -/
def reduceShortcut (op : BinaryOp) (decides : Bool) (pLeft pRight : HbExpr) : HbExpr :=
  match pLeft, pRight with
  | .logical b1, .logical b2 => .logical (if b1 = decides then decides else b2)
  | .logical b, pRight =>
    if modes.shortcuts then if b = decides then .logical decides else pRight
    else .binary op (.logical b) pRight
  | pLeft, .logical b =>
    if modes.shortcuts ∧ (modes.compiler ∨ modes.harbour) then
      if b = decides then .logical decides else pLeft
    else .binary op pLeft (.logical b)
  | pLeft, pRight => .binary op pLeft pRight

def reduceAnd := reduceShortcut modes .and false

def reduceOr := reduceShortcut modes .or true

def reduceNot : HbExpr → HbExpr
  | .logical b => .logical (! b)
  | .not pExpr => if modes.extOpt then pExpr else .not (.not pExpr)
  | pExpr => .not pExpr

/-- `hb_compExprReduceIIF`; a constant condition of another type is an error of compilation. -/
def reduceIIF : HbExpr → HbExpr → HbExpr → HbExpr
  | .logical b, pTrue, pFalse => if b then pTrue else pFalse
  | pCond, pTrue, pFalse => .iif pCond pTrue pFalse

def reduceBinary : BinaryOp → HbExpr → HbExpr → HbExpr
  | .plus => reducePlus modes
  | .minus => reduceMinus modes
  | .mult => reduceMult
  | .div => reduceDiv
  | .mod => reduceMod modes
  | .equal => reduceEQ modes false
  | .exactEqual => reduceEQ modes true
  | .ne => reduceNE modes
  | .lt => reduceLT
  | .le => reduceLE
  | .gt => reduceGT
  | .ge => reduceGE
  | .inString => reduceIN modes
  | .and => reduceAnd modes
  | .or => reduceOr modes

def reduce : HbExpr → HbExpr
  | .binary op pLeft pRight => reduceBinary modes op (reduce pLeft) (reduce pRight)
  | .negate pExpr => reduceNegate modes (reduce pExpr)
  | .not pExpr => reduceNot modes (reduce pExpr)
  | .iif pCond pTrue pFalse => reduceIIF (reduce pCond) (reduce pTrue) (reduce pFalse)
  | pExpr => pExpr

end Reduce

end Harbour.Compiler.Expr
