import Harbour.Pp.Patterns

/-!
The rules of the preprocessor, the test whether one applies, and the tokens it puts in the
place of those it matched.
-/

namespace Harbour.Pp.Replace

open Tokens Matching Patterns

inductive RMarker where
  | regular
  | strDump
  | strStd
  | strSmart
  | block
  | logical
  | nul
  deriving DecidableEq, Repr

inductive Result where
  | token (token : Token)
  | marker (kind : RMarker) (index spaces : Nat)
  | optional (pMTokens : List Result)
  | dynVal (value : Bytes)
  | reference (spaces : Nat)
  deriving Repr

structure Rule where
  mode : CmpMode
  pMatch : List Pattern
  pResult : List Result
  pMarkers : List Marker
  deriving Repr

/-- `hb_pp_patternCmp`: the match state it leaves and whether the rule applies. -/
def patternCmp {n : Nat} (pRule : Rule) (line : Line n) (fCommand : Bool) :
    Matching n × Bool :=
  match patternMatch false pRule.mode none false pRule.pMatch ⟨line, pRule.pMarkers, none⟩ 0 with
  | (state, none) => (state, false)
  | (state, some next) =>
    if !fCommand || isEoc (state.line.toksAt next) then
      match patternMatch true pRule.mode none false pRule.pMatch state 0 with
      | (state, some _) => (state, true)
      | (state, none) =>
        ({ state with
            pMarkers := patternClearResults state.pMarkers
            pNextExpr := none }, false)
    else
      (state, false)

/-- The quotation marks that `hb_pp_tokenStr` takes for a string. -/
def stringQuotes (value : Bytes) : UInt8 × UInt8 :=
  if value.any (· ∈ [10, 13, 0]) then
    (91, 93)
  else if 34 ∉ value then
    (34, 34)
  else if 39 ∉ value then
    (39, 39)
  else
    (91, 93)

/-- Whether a date or a time stamp is written with a leading zero and a letter. -/
def hasZeroPrefix (value : Bytes) (upper lower : UInt8) : Bool :=
  match value with
  | first :: second :: _ => first = 48 ∧ (second = upper ∨ second = lower)
  | _ => false

/-- `hb_pp_tokenStr` without quoting. -/
def tokenStr (pToken : Token) (fSpaces : Bool) : Bytes :=
  (if fSpaces then List.replicate pToken.spaces 32 else []) ++
    match pToken.type with
    | .string =>
      let quotes := stringQuotes pToken.value
      quotes.1 :: pToken.value ++ [quotes.2]
    | .timestamp =>
      if hasZeroPrefix pToken.value 84 116 then pToken.value
      else 116 :: 34 :: pToken.value ++ [34]
    | .date =>
      if hasZeroPrefix pToken.value 68 100 then pToken.value
      else 100 :: 34 :: pToken.value ++ [34]
    | _ => pToken.value

/-- The text of several tokens, the spaces before the first one left out. -/
def toksStr : List Token → Bytes
  | [] => []
  | pToken :: rest => tokenStr pToken false ++ rest.flatMap (tokenStr · true)

/-- Copies of tokens with the spaces before the first one replaced. -/
def cloneToks (spaces : Nat) : List Token → List Token
  | [] => []
  | pToken :: rest => { pToken with spaces } :: rest

def macroName (value : Bytes) : Bytes :=
  let name := value.drop 1
  if value.getLast? = some 46 then name.dropLast else name

/-- What one expression of a list becomes in a block. -/
def blockToks (first : Option Nat) (expr : List Token) : List Token :=
  let spaces := first.getD 1
  match expr with
  | pToken :: pNext :: _ =>
    if pToken.type = .leftCb ∧ pNext.type = .pipe then
      match first with
      | some spaces => cloneToks spaces expr
      | none => expr
    else
      [⟨[123], .leftCb, spaces⟩, ⟨[124], .pipe, 0⟩, ⟨[124], .pipe, 0⟩] ++ expr ++
        [⟨[125], .rightCb, 0⟩]
  | _ =>
    [⟨[123], .leftCb, spaces⟩, ⟨[124], .pipe, 0⟩, ⟨[124], .pipe, 0⟩] ++ expr ++
      [⟨[125], .rightCb, 0⟩]

def isMacro (pToken : Token) : Bool := pToken.type = .macroVar ∨ pToken.type = .macroText

def isCloned (type : RMarker) : List Token → Bool
  | [] => false
  | pToken :: rest =>
    decide (type = .strSmart ∧ (pToken.type = .string ∨ pToken.type = .leftPb)) ||
      (decide (pToken.type = .ampersand) && rest.head?.any (·.type = .leftPb))

/-- What one expression of a list becomes; `first` has the spaces for the first token of the
whole result while there is none yet. -/
def exprToks (type : RMarker) (first : Option Nat) : List Token → List Token
  | [] => []
  | pToken :: rest =>
    let spaces := first.getD pToken.spaces
    if type = .block then
      blockToks first (pToken :: rest)
    else if isMacro pToken ∧ rest = [] then
      if pToken.type = .macroVar then
        [⟨macroName pToken.value, .keyword, spaces⟩]
      else
        [⟨tokenStr pToken false, .string, spaces⟩]
    else if isCloned type (pToken :: rest) then
      let expr := if pToken.type = .ampersand then rest else pToken :: rest
      match first with
      | some spaces => cloneToks spaces expr
      | none => expr
    else
      [⟨toksStr (pToken :: rest), .string, spaces⟩]

/-- `hb_pp_matchResultLstAdd`: the run that ends `left` tokens before the end of the line,
divided into the expressions of a list. -/
def matchResultLstAdd (type : RMarker) (left : Nat) (first : Option Nat) (toks : List Token) :
    Option (List Token) :=
  match hskip : tokenSkipExp (.addr left) true toks with
  | none => none
  | some (true, pNext) =>
    some (exprToks type first (toks.take (toks.length - pNext.length)))
  | some (false, pNext) =>
    if hlength : pNext.length < toks.length then
      let expr := toks.take (toks.length - pNext.length - 1)
      let comma := (toks.drop (toks.length - pNext.length - 1)).take 1
      let first' := if expr.isEmpty then first else none
      (matchResultLstAdd type left none pNext).map
        (exprToks type first expr ++
          (match first' with
            | some spaces => cloneToks spaces comma
            | none => comma) ++ ·)
    else
      none
termination_by toks.length

def matchResultGet (pMarkers : List Marker) (usMatch usIndex : Nat) : Option MatchRun :=
  match pMarkers[usIndex - 1]? with
  | some pMarker =>
    if pMarker.usMatches = 1 then
      pMarker.pResult.head?
    else if usMatch < pMarker.usMatches then
      pMarker.pResult[usMatch]?
    else
      none
  | none => none

def runToks (toks : List Token) (run : MatchRun) : Option (List Token) :=
  if run.pFirstToken ≤ run.pNextExpr ∧ run.pNextExpr ≤ toks.length then
    some ((toks.drop run.pFirstToken).take (run.pNextExpr - run.pFirstToken))
  else
    none

def matchResultAdd (toks : List Token) (pMarkers : List Marker) (kind : RMarker)
    (index spaces usMatch : Nat) : Option (List Token) :=
  let pMarkerResult := matchResultGet pMarkers usMatch index
  match kind with
  | .regular =>
    match pMarkerResult with
    | some run => (runToks toks run).map (cloneToks spaces)
    | none => some []
  | .strDump =>
    match pMarkerResult with
    | some run => (runToks toks run).map fun expr => [⟨toksStr expr, .string, spaces⟩]
    | none => some [⟨[], .string, spaces⟩]
  | .strStd | .strSmart | .block =>
    match pMarkerResult with
    | some run =>
      if run.pFirstToken = run.pNextExpr then
        some []
      else
        matchResultLstAdd kind (toks.length - run.pNextExpr) (some spaces)
          (toks.drop run.pFirstToken)
    | none => some []
  | .logical =>
    some [⟨[46, if pMarkerResult.isSome then 84 else 70, 46], .logical, spaces⟩]
  | .nul => some []

def maxMatch (pMarkers : List Marker) (pMTokens : List Result) : Nat :=
  pMTokens.foldl
    (fun usMaxMatch pToken =>
      match pToken with
      | .marker _ index _ =>
        max usMaxMatch (((pMarkers[index - 1]?).map (·.usMatches)).getD 0)
      | _ => usMaxMatch) 0

structure Source where
  szFileName : Bytes
  iCurrentLine : Int

def szFile : Bytes := [95, 95, 70, 73, 76, 69, 95, 95]
def szLine : Bytes := [95, 95, 76, 73, 78, 69, 95, 95]

def dynValToks (pFile : Source) (value : Bytes) : List Token :=
  if (⟨value, .keyword, 0⟩ : Token).valueCmp szFile .case then
    [⟨pFile.szFileName, .string, 0⟩]
  else if (⟨value, .keyword, 0⟩ : Token).valueCmp szLine .case then
    [⟨(toString pFile.iCurrentLine).toUTF8.toList, .number, 0⟩]
  else
    []

section Stuff

variable (pFile : Source) (toks : List Token) (pMarkers : List Marker)

/-- The elements of results joined, where each of them could be made. -/
def joinToks : List (Option (List Token)) → Option (List Token)
  | [] => some []
  | none :: _ => none
  | some first :: rest => (joinToks rest).map (first ++ ·)

mutual

/-- What one element of a result pattern becomes on the match number `usMatch`. -/
def resultToks (usMatch : Nat) : Result → Option (List Token)
  | .token token => some [token]
  | .marker kind index spaces => matchResultAdd toks pMarkers kind index spaces usMatch
  | .optional pMTokens =>
    joinToks ((List.range (maxMatch pMarkers pMTokens)).map
      fun k => patternStuff k pMTokens)
  | .dynVal value => some (dynValToks pFile value)
  | .reference spaces => some [⟨[60, 64, 62], .rmarkerReference, spaces⟩]

def patternStuff (usMatch : Nat) : List Result → Option (List Token)
  | [] => some []
  | pResultPattern :: rest =>
    match resultToks usMatch pResultPattern, patternStuff usMatch rest with
    | some first, some more => some (first ++ more)
    | _, _ => none

end

end Stuff

/-- `hb_pp_patternReplace`: the tokens of the line behind the replacement, `none` where it
looks behind the last token. -/
def patternReplace {n : Nat} (pFile : Source) (pRule : Rule) (state : Matching n) :
    Option (List Token) :=
  let toks := state.line.toks
  match state.pNextExpr, patternStuff pFile toks state.pMarkers 0 pRule.pResult with
  | some next, some pFinalResult =>
    some (cloneToks ((toks.head?.map (·.spaces)).getD 0) pFinalResult ++ toks.drop next)
  | _, _ => none

end Harbour.Pp.Replace

/-!
The tables of rules, the directives that change them, and the map of the first letters of
the rules.
-/

namespace Harbour.Pp.Rules

open Tokens Matching Patterns Replace

/-- The bits of an entry of `pMap`. -/
inductive RuleKind where
  | define
  | translate
  | command
  deriving DecidableEq, Repr

abbrev LetterMap := RuleKind → UInt8 → Bool

/-- The rules of a preprocessor. The counters `iDefinitions`, `iTranslations` and `iCommands`
are the lengths of the lists. -/
structure Tables where
  pDefinitions : List Rule
  pTranslations : List Rule
  pCommands : List Rule
  pMap : LetterMap

def emptyTables : Tables := ⟨[], [], [], fun _ _ => false⟩

def Tables.rules (tables : Tables) : RuleKind → List Rule
  | .define => tables.pDefinitions
  | .translate => tables.pTranslations
  | .command => tables.pCommands

def Tables.setRules (tables : Tables) (rules : List Rule) : RuleKind → Tables
  | .define => { tables with pDefinitions := rules }
  | .translate => { tables with pTranslations := rules }
  | .command => { tables with pCommands := rules }

def ruleSetId (pMap : LetterMap) (pMatch : Pattern) (id : RuleKind) : LetterMap :=
  fun kind c =>
    pMap kind c || (decide (kind = id) && (pMatch.isMatch || decide (c = pMatch.token.hashId)))

def ruleListSetId (pMap : LetterMap) (id : RuleKind) : List Rule → LetterMap
  | [] => pMap
  | pRule :: rest =>
    match pRule.pMatch with
    | [] => ruleListSetId pMap id rest
    | pMatch :: _ =>
      if pMatch.isMatch then ruleSetId pMap pMatch id
      else ruleListSetId (ruleSetId pMap pMatch id) id rest

/-- `hb_pp_setStdBase`: the map is made anew from the rules. -/
def setStdBase (tables : Tables) : Tables :=
  { tables with
    pMap :=
      ruleListSetId
        (ruleListSetId (ruleListSetId (fun _ _ => false) .define tables.pDefinitions)
          .translate tables.pTranslations)
        .command tables.pCommands }

def headEqual (pToken : Token) (pRule : Rule) : Bool :=
  match pRule.pMatch with
  | .word token :: _ => pToken.equal token .case
  | _ => false

def defineFind (tables : Tables) (pToken : Token) : Option Rule :=
  tables.pDefinitions.find? (headEqual pToken)

def ruleNew (mode : CmpMode) (pMatch : List Pattern) (pResult : List Result)
    (canrepeat : List Bool) : Rule :=
  ⟨mode, pMatch, pResult, canrepeat.map (⟨·, 0, []⟩)⟩

def defineRule (name : Token) (params : List Pattern) (pResult : List Result)
    (markers : Nat) : Rule :=
  ruleNew .case (.word name :: params) pResult (List.replicate markers false)

def replaceFirst (name : Token) (pRule : Rule) : List Rule → List Rule
  | [] => []
  | first :: rest =>
    if headEqual name first then pRule :: rest else first :: replaceFirst name pRule rest

def defineAdd (tables : Tables) (name : Token) (pRule : Rule) : Tables :=
  { tables with
    pDefinitions :=
      if (defineFind tables name).isSome then replaceFirst name pRule tables.pDefinitions
      else pRule :: tables.pDefinitions
    pMap := ruleSetId tables.pMap (.word name) .define }

def defineDel (tables : Tables) (pToken : Token) : Tables :=
  { tables with pDefinitions := tables.pDefinitions.eraseP (headEqual pToken) }

mutual

def elementCompare : Pattern → Pattern → Bool
  | .word token₁, .word token₂ => token₁.equal token₂ .std
  | .marker kind₁ token₁ _, .marker kind₂ token₂ _ =>
    ({ token₁ with type := .other }).equal { token₂ with type := .other } .std &&
      match kind₁, kind₂ with
      | .restrict pMTokens₁, .restrict pMTokens₂ =>
        decide (pMTokens₁.length = pMTokens₂.length) &&
          (pMTokens₁.zip pMTokens₂).all fun pair => pair.1.equal pair.2 .std
      | kind₁, kind₂ => decide (kind₁ = kind₂)
  | .optional token₁ pMTokens₁, .optional token₂ pMTokens₂ =>
    ({ token₁ with type := .other }).equal { token₂ with type := .other } .std &&
      patternCompare pMTokens₁ pMTokens₂
  | _, _ => false

def patternCompare : List Pattern → List Pattern → Bool
  | [], [] => true
  | pToken₁ :: rest₁, pToken₂ :: rest₂ =>
    elementCompare pToken₁ pToken₂ && patternCompare rest₁ rest₂
  | _, _ => false

end

def isDeleted (pRule pDeleted : Rule) : Bool :=
  decide (pRule.mode = pDeleted.mode) &&
    decide (pRule.pMarkers.map (·.canrepeat) = pDeleted.pMarkers.map (·.canrepeat)) &&
    patternCompare pRule.pMatch pDeleted.pMatch

def directiveKind (fCommand : Bool) : RuleKind := if fCommand then .command else .translate

def directiveNew (tables : Tables) (pRule : Rule) (fCommand fDelete : Bool) : Tables :=
  let kind := directiveKind fCommand
  match pRule.pMatch with
  | [] => tables
  | pMatch :: _ =>
    if fDelete then
      tables.setRules ((tables.rules kind).eraseP (isDeleted · pRule)) kind
    else
      { tables.setRules (pRule :: tables.rules kind) kind with
        pMap := ruleSetId tables.pMap pMatch kind }

/-- A directive that changes the rules, as it is read from a line. -/
inductive Directive where
  | define (name : Token) (params : List Pattern) (pResult : List Result) (markers : Nat)
  | undef (name : Token)
  | directive (mode : CmpMode) (pMatch : List Pattern) (pResult : List Result)
      (canrepeat : List Bool) (fCommand fDelete : Bool)

def Tables.apply (tables : Tables) : Directive → Tables
  | .define name params pResult markers =>
    if name.type = .keyword then
      defineAdd tables name (defineRule name params pResult markers)
    else
      tables
  | .undef name => if name.type = .keyword then defineDel tables name else tables
  | .directive mode pMatch pResult canrepeat fCommand fDelete =>
    directiveNew tables (ruleNew mode pMatch pResult canrepeat) fCommand fDelete

end Harbour.Pp.Rules
