import Harbour.Common.StrToNum
import Harbour.Pp.Tokens

/-!
The value of the expression of an `#if`.
-/

namespace Harbour.Pp.Calculate

open Tokens Common.StrToNum

abbrev MaxInt := BitVec 64

/-- A double is never asked for. -/
def noDoubles : Doubles Unit where
  zero := ()
  ofLong _ := ()
  append _ _ := ()
  neg _ := ()
  scale _ _ := ()
  isZero _ := true
  length _ := 0

/-- `hb_strValInt`: the value, where there is no overflow. -/
def strValInt (szText : Bytes) : Option MaxInt :=
  match hb_str2number noDoubles true (cString szText) (cString szText).length with
  | some number => if number.fDbl then none else some (BitVec.ofInt 64 number.lVal)
  | none => none

def isTrue (ch : UInt8) : Bool := ch = 0x54 ∨ ch = 0x74 ∨ ch = 0x59 ∨ ch = 0x79

def precNul : Nat := 0

def precLog : Nat := 1

def precNot : Nat := 2

def precRel : Nat := 3

def precBit : Nat := 4

def precPlus : Nat := 5

def precMult : Nat := 6

def precNeg : Nat := 7

def singlePrec : TokenType → Nat
  | .not => precNot
  | .lt | .gt | .equal | .hash | .ne | .le | .ge => precRel
  | .and | .or => precLog
  | .pipe | .ampersand | .power | .bitXor | .shiftL | .shiftR => precBit
  | .plus | .minus => precPlus
  | .mult | .div | .mod => precMult
  | _ => precNul

def doubleOper : TokenType → Option (TokenType × Nat)
  | .lt => some (.shiftL, precBit)
  | .gt => some (.shiftR, precBit)
  | .pipe => some (.or, precLog)
  | .ampersand => some (.and, precLog)
  | _ => none

def isDouble (pToken : Token) (pNext : List Token) : Bool :=
  (doubleOper pToken.type).isSome &&
    pNext.head?.any fun pNext => pNext.type = pToken.type ∧ pNext.spaces = 0

/-- `hb_pp_calcPrecedence`: the tokens behind the operator, the operator and its level. -/
def calcPrecedence (pToken : Token) (pNext : List Token) : List Token × TokenType × Nat :=
  if isDouble pToken pNext then
    (pNext.tail, (doubleOper pToken.type).getD (pToken.type, singlePrec pToken.type))
  else (pNext, pToken.type, singlePrec pToken.type)

/-- `hb_pp_calcReduce`: the new value, and whether the operator is decided. -/
def calcReduce (lValue : MaxInt) : TokenType → MaxInt × Bool
  | .and => (lValue, lValue = 0)
  | .or => if lValue ≠ 0 then (1, true) else (lValue, false)
  | _ => (lValue, false)

def logical (condition : Bool) : MaxInt := if condition then 1 else 0

def calcOperation (lValueLeft lValueRight : MaxInt) : TokenType → MaxInt
  | .equal => logical (lValueLeft = lValueRight)
  | .hash | .ne => logical (lValueLeft ≠ lValueRight)
  | .le => logical (lValueLeft.sle lValueRight)
  | .ge => logical (lValueRight.sle lValueLeft)
  | .lt => logical (lValueLeft.slt lValueRight)
  | .gt => logical (lValueRight.slt lValueLeft)
  | .and => logical (lValueLeft ≠ 0 ∧ lValueRight ≠ 0)
  | .or => logical (lValueLeft ≠ 0 ∨ lValueRight ≠ 0)
  | .pipe => lValueLeft ||| lValueRight
  | .ampersand => lValueLeft &&& lValueRight
  | .power | .bitXor => lValueLeft ^^^ lValueRight
  | .shiftL => lValueLeft <<< lValueRight.toNat
  | .shiftR => lValueLeft.sshiftRight lValueRight.toNat
  | .plus => lValueLeft + lValueRight
  | .minus => lValueLeft - lValueRight
  | .mult => lValueLeft * lValueRight
  | .div => lValueLeft.sdiv lValueRight
  | .mod => lValueLeft.srem lValueRight
  | _ => lValueLeft

def dividesByZero (lValueRight : MaxInt) (iOperation : TokenType) : Bool :=
  (iOperation = .div ∨ iOperation = .mod) ∧ lValueRight = 0

/-- An operation that the language leaves undefined: a quotient that is too large, or a shift by a
count that is not from 0 to 63. -/
def isUndefined (lValueLeft lValueRight : MaxInt) (iOperation : TokenType) : Bool :=
  ((iOperation = .div ∨ iOperation = .mod) ∧
    lValueLeft = BitVec.intMin 64 ∧ lValueRight = -1) ∨
  ((iOperation = .shiftL ∨ iOperation = .shiftR) ∧
    ¬(0 ≤ lValueRight.toInt ∧ lValueRight.toInt < 64))

/-- The value with its flags; `fTrap` tells that an undefined operation has been computed. -/
structure Calc where
  lValue : MaxInt
  fError : Bool
  fUndef : Bool
  fTrap : Bool
deriving DecidableEq

def isRightPb (pToken : List Token) : Bool := pToken.head?.any (·.type = .rightPb)

/-- The first part of `hb_pp_calcValue`, where `value` is `hb_pp_calcValue` itself. -/
def calcOperand (value : List Token → Nat → Calc → Option (List Token × Calc)) (iPrecedense : Nat)
    (s : Calc) : List Token → Option (List Token × Calc)
  | [] => some ([], { s with fError := true })
  | pToken :: pNext =>
    if isEoc (pToken :: pNext) then some (pToken :: pNext, { s with fError := true })
    else
      match pToken.type with
      | .minus => (value pNext precNeg s).map fun r => (r.1, { r.2 with lValue := -r.2.lValue })
      | .plus => value pNext iPrecedense s
      | .not =>
        (value pNext precNot s).map fun r =>
          (r.1, { r.2 with lValue := if r.2.lValue ≠ 0 then 0 else 1 })
      | .leftPb =>
        (value pNext precNul { s with fError := true }).map fun r =>
          if r.2.fError = false ∧ isEoc r.1 = false ∧ isRightPb r.1 = true then (r.1.tail, r.2)
          else (r.1, { r.2 with fError := true })
      | .rightPb => some (pToken :: pNext, s)
      | .number =>
        (strValInt pToken.value).elim
          (some (pToken :: pNext, { s with lValue := 0, fError := true }))
          fun lValue => some (pNext, { s with lValue, fError := false })
      | .logical =>
        some (pNext,
          { s with lValue := logical (isTrue (pToken.value.getD 1 0)), fError := false })
      | .keyword => some (pNext, { s with lValue := 0, fError := false, fUndef := true })
      | _ => some (pToken :: pNext, { s with fError := true })

def calcMerge (s : Calc) (iNextOper : TokenType) (r : Calc) : Calc :=
  let reduced := if s.fUndef then (s.lValue, false) else calcReduce s.lValue iNextOper
  { lValue :=
      if r.fError ∨ dividesByZero r.lValue iNextOper then reduced.1
      else calcOperation reduced.1 r.lValue iNextOper
    fError := r.fError || dividesByZero r.lValue iNextOper
    fUndef := if reduced.2 then false else r.fUndef
    fTrap := r.fTrap || (!r.fError && isUndefined reduced.1 r.lValue iNextOper) }

mutual

/-- `hb_pp_calcValue`. The first argument bounds the depth of the calls. -/
def calcValue : Nat → List Token → Nat → Calc → Option (List Token × Calc)
  | 0, _, _, _ => none
  | fuel + 1, pToken, iPrecedense, s =>
    (calcOperand (calcValue fuel) iPrecedense s pToken).bind fun r =>
      calcLoop fuel iPrecedense r.1 r.2

def calcLoop : Nat → Nat → List Token → Calc → Option (List Token × Calc)
  | 0, _, _, _ => none
  | fuel + 1, iPrecedense, pToken, s =>
    if s.fError || isEoc pToken || isRightPb pToken then some (pToken, s)
    else
      match pToken with
      | [] => some ([], s)
      | pToken :: rest =>
        let next := calcPrecedence pToken rest
        if next.2.2 < precLog then some (pToken :: rest, { s with fError := true })
        else if iPrecedense < next.2.2 then
          (calcValue fuel next.1 next.2.2 { s with lValue := 0, fError := true }).bind fun r =>
            calcLoop fuel iPrecedense r.1 (calcMerge s next.2.1 r.2)
        else some (pToken :: rest, s)

end

/-- The result of an expression, whether it is an error, and whether an undefined operation has
been computed. -/
structure Result where
  lValue : MaxInt
  fError : Bool
  fTrap : Bool
deriving DecidableEq

def calculateValue (pToken : List Token) : Option Result :=
  (calcValue (2 * pToken.length + 2) pToken precNul ⟨0, true, false, false⟩).map fun r =>
    let fError := r.2.fError || !isEoc r.1 || r.2.fUndef
    ⟨if fError then 0 else r.2.lValue, fError, r.2.fTrap⟩

end Harbour.Pp.Calculate

/-!
The expressions of an `#if`, their values, and a reader of them that does not compute.
-/

namespace Harbour.Pp.Calculate

open Tokens

def leafValue (pToken : Token) : Option (MaxInt × Bool) :=
  match pToken.type with
  | .number => (strValInt pToken.value).map fun lValue => (lValue, false)
  | .logical => some (logical (isTrue (pToken.value.getD 1 0)), false)
  | .keyword => some (0, true)
  | _ => none

def isUnary (type : TokenType) : Bool := type = .minus ∨ type = .plus ∨ type = .not

def unaryLevel (level : Nat) : TokenType → Nat
  | .minus => precNeg
  | .not => precNot
  | _ => level

def unaryValue (lValue : MaxInt) : TokenType → MaxInt
  | .minus => -lValue
  | .not => if lValue ≠ 0 then 0 else 1
  | _ => lValue

def operator : List Token → TokenType × Nat
  | [pToken] => (pToken.type, singlePrec pToken.type)
  | [pToken, pNext] =>
    if isDouble pToken [pNext] then (doubleOper pToken.type).getD (pToken.type, precNul)
    else (pToken.type, precNul)
  | _ => (.other, precNul)

/-- An expression, or what is read of one up to the place where something is missing. -/
inductive Tree where
  | gap
  | leaf (pToken : Token)
  | paren (pLeft : Token) (inner : Tree) (pRight : Option Token)
  | unary (pToken : Token) (inner : Tree)
  | binary (left : Tree) (op : List Token) (right : Tree)

namespace Tree

def tokens : Tree → List Token
  | gap => []
  | leaf pToken => [pToken]
  | paren pLeft inner pRight => pLeft :: inner.tokens ++ pRight.toList
  | unary pToken inner => pToken :: inner.tokens
  | binary left op right => left.tokens ++ op ++ right.tokens

def complete : Tree → Bool
  | gap => false
  | leaf _ => true
  | paren _ inner pRight => inner.complete && pRight.isSome
  | unary _ inner => inner.complete
  | binary left _ right => left.complete && right.complete

/-- The value in 64 bits, where an undefined name counts as zero. -/
def value : Tree → MaxInt
  | gap => 0
  | leaf pToken => ((leafValue pToken).map Prod.fst).getD 0
  | paren _ inner _ => inner.value
  | unary pToken inner => unaryValue inner.value pToken.type
  | binary left op right => calcOperation left.value right.value (operator op).1

def divides : Tree → Bool
  | gap => false
  | leaf _ => false
  | paren _ inner _ => inner.divides
  | unary _ inner => inner.divides
  | binary left op right =>
    left.divides || right.divides || dividesByZero right.value (operator op).1

/-- Whether some undefined name is not in an operand whose operator is decided by the left side. -/
def undefined : Tree → Bool
  | gap => false
  | leaf pToken => ((leafValue pToken).map Prod.snd).getD false
  | paren _ inner _ => inner.undefined
  | unary _ inner => inner.undefined
  | binary left op right =>
    left.undefined || (!(calcReduce left.value (operator op).1).2 && right.undefined)

def evaluates (e : Tree) : Bool := e.complete && !e.divides

/-- Whether the evaluation from the left to the right, up to the first error, meets an undefined
operation. -/
def traps : Tree → Bool
  | gap => false
  | leaf _ => false
  | paren _ inner _ => inner.traps
  | unary _ inner => inner.traps
  | binary left op right =>
    left.traps || (left.evaluates && (right.traps ||
      (right.evaluates && isUndefined left.value right.value (operator op).1)))

def infixNot : Tree → Bool
  | gap => false
  | leaf _ => false
  | paren _ inner _ => inner.infixNot
  | unary _ inner => inner.infixNot
  | binary left op right => left.infixNot || right.infixNot || (operator op).1 = .not

/-- The lowest level of what is open at the right end: an operator of a higher level would belong
to the last operand. -/
def edge (level : Nat) : Tree → Nat
  | unary pToken inner =>
    min (unaryLevel level pToken.type) (inner.edge (unaryLevel level pToken.type))
  | binary _ op right => min (operator op).2 (right.edge (operator op).2)
  | _ => precNeg

/-- The grammar: an expression whose outer operators have a level above the given one. Operators of
one level associate to the left. -/
def Fits (level : Nat) : Tree → Prop
  | gap => False
  | leaf pToken => (leafValue pToken).isSome
  | paren pLeft inner pRight =>
    pLeft.type = .leftPb ∧ inner.Fits precNul ∧ pRight.any (·.type = .rightPb)
  | unary pToken inner => isUnary pToken.type ∧ inner.Fits (unaryLevel level pToken.type)
  | binary left op right =>
    level < (operator op).2 ∧ left.Fits level ∧ (operator op).2 ≤ left.edge level ∧
      right.Fits (operator op).2

theorem Fits.complete {e : Tree} {level : Nat} (h : e.Fits level) : e.complete = true := by
  induction e generalizing level with
  | gap => exact h.elim
  | leaf pToken => rfl
  | paren pLeft inner pRight ih =>
    obtain ⟨-, hinner, hright⟩ := h
    cases pRight with
    | none => simp at hright
    | some pRight => simp [Tree.complete, ih hinner]
  | unary pToken inner ih => exact ih h.2
  | binary left op right ihl ihr =>
    simp [Tree.complete, ihl h.2.1, ihr h.2.2.2]

end Tree

def Parses (pToken : List Token) (e : Tree) : Prop :=
  ∃ rest, e.tokens ++ rest = pToken ∧ isEoc rest = true ∧ e.Fits precNul

def levelOf : List Token → Nat
  | [] => precNul
  | pToken :: pNext => (calcPrecedence pToken pNext).2.2

def operTokens (pToken : Token) (pNext : List Token) : List Token :=
  if isDouble pToken pNext then pToken :: pNext.take 1 else [pToken]

def parseOperand (parse : Nat → List Token → Tree × List Token) (level : Nat) :
    List Token → Tree × List Token
  | [] => (.gap, [])
  | pToken :: pNext =>
    if isEoc (pToken :: pNext) then (.gap, pToken :: pNext)
    else if isUnary pToken.type then
      let r := parse (unaryLevel level pToken.type) pNext
      (.unary pToken r.1, r.2)
    else if pToken.type = .leftPb then
      let r := parse precNul pNext
      if r.1.complete && isRightPb r.2 then (.paren pToken r.1 r.2.head?, r.2.tail)
      else (.paren pToken r.1 none, r.2)
    else if (leafValue pToken).isSome then (.leaf pToken, pNext)
    else (.gap, pToken :: pNext)

mutual

/-- What can be read of an expression at a level, and the tokens behind. -/
def parse : Nat → Nat → List Token → Tree × List Token
  | 0, _, pToken => (.gap, pToken)
  | fuel + 1, level, pToken =>
    let r := parseOperand (parse fuel) level pToken
    parseLoop fuel level r.1 r.2

def parseLoop : Nat → Nat → Tree → List Token → Tree × List Token
  | 0, _, _, pToken => (.gap, pToken)
  | fuel + 1, level, e, pToken =>
    if !e.complete || isEoc pToken || isRightPb pToken then (e, pToken)
    else
      match pToken with
      | [] => (e, [])
      | pToken :: rest =>
        let next := calcPrecedence pToken rest
        if next.2.2 < precLog then (.binary e [] .gap, pToken :: rest)
        else if level < next.2.2 then
          let r := parse fuel next.2.2 next.1
          parseLoop fuel level (.binary e (operTokens pToken rest) r.1) r.2
        else (e, pToken :: rest)

end

def read (pToken : List Token) : Tree × List Token :=
  parse (2 * pToken.length + 2) precNul pToken

end Harbour.Pp.Calculate
