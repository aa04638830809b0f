import Harbour.Pp.Replace

/-!
The expansion of a line or of the expression of a conditional directive, one token position
or one substitution at a time.
-/

namespace Harbour.Pp.Process

open Tokens Matching Patterns Replace Rules

def maxRepeats : Nat := 128

/-- Where the expansion stands: at the head of the loop of `hb_pp_preprocessToken`, or in the
loop of one of the three functions it calls. -/
inductive Phase where
  | top
  | define
  | translate
  | command
  | done
  deriving DecidableEq, Repr

/-- The state of the expansion. The pointer of the loop stands between the tokens `before`
and `toks`. `iCycle` is the counter of the preprocessor, `iRepeat` the one of the function;
`fInner` says that the loop over the translations has been entered already. -/
structure Config where
  phase : Phase
  fLine : Bool
  before : List Token
  toks : List Token
  pPrev : Option Nat
  fSubst : Bool
  fRepeat : Bool
  fInner : Bool
  iCycle : Nat
  iRepeat : Nat

/-- What a step does: a substitution, one that ends with the error of a cyclic rule, a move
to another position, or none of these. -/
inductive Label where
  | subst (kind : RuleKind)
  | cyclic (kind : RuleKind)
  | moved
  deriving DecidableEq, Repr

/-- The result of a step; a fault looks behind the last token of the line. -/
inductive Outcome where
  | next (label : Label) (c : Config)
  | final
  | fault

def firstMatch {n : Nat} (fCommand : Bool) :
    List Rule → Line n → Line n × Option (Rule × Matching n)
  | [], line => (line, none)
  | pRule :: rest, line =>
    match patternCmp pRule line fCommand with
    | (state, true) => (state.line, some (pRule, state))
    | (state, false) => firstMatch fCommand rest state.line

def concatenateKeywords : List Token → List Token
  | [] => []
  | [pToken] => [pToken]
  | pToken :: pNext :: rest =>
    if pToken.type = .keyword ∧ pNext.spaces = 0 ∧ pNext.type = .keyword then
      concatenateKeywords ({ pToken with value := pToken.value ++ pNext.value } :: rest)
    else
      pToken :: concatenateKeywords (pNext :: rest)
termination_by toks => toks.length

/-- `hb_pp_tokenListFreeCmd`: the tokens behind the end of the command. -/
def tokenListFreeCmd : List Token → List Token
  | [] => []
  | pToken :: rest => if isEoc (pToken :: rest) then rest else tokenListFreeCmd rest

def szText : Bytes := [84, 69, 88, 84]

/-- Whether a command is `TEXT` with the names of two functions, which starts a stream. -/
def isText : List Token → Bool
  | pToken :: pOut :: pComma :: pEnd :: rest =>
    !isEoc [pToken] && pToken.valueCmp szText .dbase && decide (pOut.type = .keyword) &&
      decide (pComma.type = .comma) && decide (pEnd.type = .keyword) && isEoc rest
  | _ => false

def isDirective (toks : List Token) : Bool :=
  toks.head?.any fun pToken => pToken.type = .directive ∨ pToken.type = .hash

namespace Config

def rewind (c : Config) : Config := { c with before := [], toks := c.before ++ c.toks }

def enter (c : Config) (phase : Phase) : Config :=
  { c.rewind with
    phase, pPrev := none, fSubst := false, fRepeat := false, fInner := false, iRepeat := 0 }

def leave (c : Config) (next : Config → Config) : Config :=
  if !c.fLine then { c.rewind with phase := .done }
  else if c.fSubst then { c.rewind with phase := .top }
  else next c

/-- A pass over the definitions that starts again at the position `k`. -/
def restart (c : Config) (k : Nat) : Config :=
  { c with
    before := (c.before ++ c.toks).take k
    toks := (c.before ++ c.toks).drop k
    pPrev := none
    fRepeat := false }

def advance (c : Config) (pToken : Token) (rest : List Token) : Config :=
  { c with before := c.before ++ [pToken], toks := rest, fInner := false, iRepeat := 0 }

end Config

section Step

variable (tables : Tables) (iMaxCycles : Nat) (pFile : Source) (look : LetterMap)

def lookAt (kind : RuleKind) (toks : List Token) : Bool :=
  toks.head?.any fun pToken => look kind pToken.hashId

/-- A substitution: both counters are increased, and an error is given where one of them is
beyond its limit. -/
def substitute (c : Config) (kind : RuleKind) (pRule : Rule) {n : Nat} (state : Matching n) :
    Outcome :=
  match patternReplace pFile pRule state with
  | none => .fault
  | some toks =>
    let c := { c with toks, fSubst := true, fRepeat := true, fInner := true }
    if iMaxCycles < c.iCycle + 1 ∨
        maxRepeats + (tables.rules kind).length < c.iRepeat + 1 then
      .next (.cyclic kind) (Config.leave { c with iCycle := iMaxCycles + 1 } id)
    else
      .next (.subst kind) { c with iCycle := c.iCycle + 1, iRepeat := c.iRepeat + 1 }

def moveOn (c : Config) : Outcome :=
  match c.toks with
  | [] => .fault
  | pToken :: rest => .next .moved (c.advance pToken rest)

def topStep (c : Config) : Outcome :=
  if isEoc c.toks || decide (iMaxCycles < c.iCycle) || isDirective c.toks then
    .next .moved { c with phase := .done }
  else
    .next .moved ({ c with toks := concatenateKeywords c.toks }.enter .define)

def defineStep (c : Config) : Outcome :=
  match c.toks with
  | [] => passEnd
  | pToken :: _ =>
    if isEos c.toks then
      passEnd
    else if decide (pToken.type = .keyword) && look .define pToken.hashId then
      match defineFind tables pToken with
      | some pRule =>
        match patternCmp pRule (Line.ofToks c.toks) false with
        | (state, true) => substitute tables iMaxCycles pFile c .define pRule state
        | (state, false) =>
          moveOn { c with
            toks := state.line.toks
            pPrev := c.pPrev <|> some c.before.length }
      | none => moveOn c
    else
      moveOn c
where
  passEnd : Outcome :=
    match c.pPrev, c.fRepeat with
    | some k, true => .next .moved (c.restart k)
    | _, _ => .next .moved (c.leave (·.enter .translate))

def translateStep (c : Config) : Outcome :=
  if !c.fInner && isEos c.toks then
    if c.fRepeat then .next .moved { c.rewind with fRepeat := false }
    else .next .moved (c.leave (·.enter .command))
  else if c.fInner || lookAt look .translate c.toks then
    match firstMatch false tables.pTranslations (Line.ofToks c.toks) with
    | (_, some (pRule, state)) => substitute tables iMaxCycles pFile c .translate pRule state
    | (line, none) => moveOn { c with toks := line.toks }
  else
    moveOn c

def commandEnd (c : Config) : Outcome :=
  if isText c.toks then
    .next .moved (Config.leave { c with toks := tokenListFreeCmd c.toks, fSubst := true } id)
  else
    .next .moved (c.leave fun c => { c with phase := .done })

def commandStep (c : Config) : Outcome :=
  if !isEoc c.toks && lookAt look .command c.toks then
    match firstMatch true tables.pCommands (Line.ofToks c.toks) with
    | (_, some (pRule, state)) => substitute tables iMaxCycles pFile c .command pRule state
    | (line, none) => commandEnd { c with toks := line.toks }
  else
    commandEnd c

def step (c : Config) : Outcome :=
  match c.phase with
  | .top => topStep iMaxCycles c
  | .define => defineStep tables iMaxCycles pFile look c
  | .translate => translateStep tables iMaxCycles pFile look c
  | .command => commandStep tables iMaxCycles pFile look c
  | .done => .final

end Step

def startLine (toks : List Token) : Config :=
  ⟨.top, true, [], toks, none, false, false, false, 0, 0⟩

def startCondition (iCycle : Nat) (toks : List Token) : Config :=
  ⟨.define, false, [], toks, none, false, false, false, iCycle, 0⟩

end Harbour.Pp.Process
