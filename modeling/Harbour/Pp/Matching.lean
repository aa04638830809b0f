import Harbour.Pp.Tokens

/-!
The match patterns of the rules and how they are compared with the tokens of a line.
-/

namespace Harbour.Pp.Matching

open Tokens

/-- The kinds of match markers; a restricted one carries its list of words. -/
inductive MMarker where
  | regular
  | list
  | restrict (pMTokens : List Token)
  | wild
  | extExp
  | name
  deriving DecidableEq, Repr

inductive Pattern where
  | word (token : Token)
  | marker (kind : MMarker) (token : Token) (index : Nat)
  | optional (token : Token) (pMTokens : List Pattern)
  deriving Repr

namespace Pattern

def token : Pattern → Token
  | word token => token
  | marker _ token _ => token
  | optional token _ => token

def isOptional : Pattern → Bool
  | optional _ _ => true
  | _ => false

/-- `HB_PP_TOKEN_ISMATCH`: the flag that `hb_pp_matchMarkerNew` sets on every marker but a
restricted one, and `hb_pp_matchPatternNew` on an optional clause. -/
def isMatch : Pattern → Bool
  | word _ => false
  | marker (.restrict _) _ _ => false
  | marker _ _ _ => true
  | optional _ _ => true

end Pattern

def skipParams (prevtype : TokenType) : List Token → List Token
  | [] => []
  | pToken :: rest =>
    if (pToken.type = .keyword ∨ pToken.type = .epsilon) ∧ prevtype = .comma ∨
        pToken.type = .comma ∧ prevtype = .keyword then
      skipParams pToken.type rest
    else
      pToken :: rest

/-- The head `{|params|` of a code block of several commands: the tokens from the end of
its first command on. -/
def startExtBlock : List Token → Option (List Token)
  | pToken :: pNext :: rest =>
    if pToken.type = .leftCb ∧ pNext.type = .pipe then
      match skipParams .comma rest with
      | pPipe :: pEoc :: toks =>
        if pPipe.type = .pipe ∧ isEoc (pEoc :: toks) then some (pEoc :: toks) else none
      | _ => none
    else
      none
  | _ => none

def szInit : Bytes := [73, 78, 73, 84]
def szExit : Bytes := [69, 88, 73, 84]
def szStatic : Bytes := [83, 84, 65, 84, 73, 67]
def szFunction : Bytes := [70, 85, 78, 67, 84, 73, 79, 78]
def szProcedure : Bytes := [80, 82, 79, 67, 69, 68, 85, 82, 69]

/-- The head of a function or procedure, which ends a code block that is left open. -/
def startsFunction (pToken pNext : Token) : Bool :=
  let pName :=
    if pToken.valueCmp szInit .dbase || pToken.valueCmp szExit .dbase ||
        pToken.valueCmp szStatic .dbase then pNext else pToken
  pName.valueCmp szFunction .dbase || pName.valueCmp szProcedure .dbase

/-- The end of such a block at the end of one of its commands: the tokens behind it. -/
def stopExtBlock : List Token → Option (List Token)
  | pEoc :: pToken :: rest =>
    if isEoc (pEoc :: pToken :: rest) then
      if pToken.type = .rightCb then
        some rest
      else
        match rest with
        | pNext :: _ =>
          if pToken.type = .keyword ∧ pNext.type = .keyword ∧
              startsFunction pToken pNext then
            some (pToken :: rest)
          else
            none
        | [] => none
    else
      none
  | _ => none

theorem skipParams_length (prevtype : TokenType) (toks : List Token) :
    (skipParams prevtype toks).length ≤ toks.length := by
  induction toks generalizing prevtype with
  | nil => simp [skipParams]
  | cons pToken rest ih =>
    rw [skipParams]
    split
    · exact (ih pToken.type).trans (by simp)
    · rfl

variable {rest toks : List Token}

theorem startExtBlock_length (h : startExtBlock toks = some rest) :
    rest.length < toks.length := by
  unfold startExtBlock at h
  split at h
  case h_2 => simp at h
  rename_i pToken pNext tail
  have hlength := skipParams_length .comma tail
  split at h
  case isFalse => simp at h
  split at h
  case h_2 => simp at h
  rename_i pPipe pEoc more hmore
  rw [hmore] at hlength
  split at h
  case isFalse => simp at h
  cases h
  simp at hlength ⊢
  omega

theorem stopExtBlock_length (h : stopExtBlock toks = some rest) :
    rest.length < toks.length := by
  unfold stopExtBlock at h
  repeat' split at h
  all_goals first | (simp at h; done) | (cases h; simp only [List.length_cons]; omega)

/-- The tokens behind the end that closes `iExtBlock` open blocks, if there is one. -/
def closeExtBlock (iExtBlock : Nat) (toks : List Token) : Option (List Token) :=
  match hstart : startExtBlock toks with
  | some rest => closeExtBlock (iExtBlock + 1) rest
  | none =>
    match hstop : stopExtBlock toks with
    | some rest => if iExtBlock = 1 then some rest else closeExtBlock (iExtBlock - 1) rest
    | none =>
      match toks with
      | [] => none
      | _ :: rest => closeExtBlock iExtBlock rest
termination_by toks.length
decreasing_by
  · exact startExtBlock_length hstart
  · exact stopExtBlock_length hstop
  · simp

theorem closeExtBlock_length {iExtBlock : Nat} (h : closeExtBlock iExtBlock toks = some rest) :
    rest.length < toks.length := by
  fun_induction closeExtBlock iExtBlock toks with
  | case1 iExtBlock toks next hstart ih => exact (ih h).trans (startExtBlock_length hstart)
  | case2 toks hstart next hstop =>
    cases h
    exact stopExtBlock_length hstop
  | case3 iExtBlock toks hstart next hstop hopen ih =>
    exact (ih h).trans (stopExtBlock_length hstop)
  | case4 => simp at h
  | case5 iExtBlock pToken next hstart hstop ih =>
    exact (ih h).trans (by simp)

/-- A block of several commands is skipped as a whole where its end is found. -/
def skipExtBlock (toks : List Token) : List Token :=
  match startExtBlock toks with
  | some rest => (closeExtBlock 1 rest).getD toks
  | none => toks

theorem skipExtBlock_length (toks : List Token) : (skipExtBlock toks).length ≤ toks.length := by
  unfold skipExtBlock
  split
  · rename_i rest hstart
    cases hclose : closeExtBlock 1 rest with
    | none => simp
    | some next =>
      have hstart := startExtBlock_length hstart
      have hclose := closeExtBlock_length hclose
      simp
      omega
  · rfl

theorem skipExtBlock_cons_length {pToken : Token} (h : skipExtBlock toks = pToken :: rest) :
    rest.length < toks.length := by
  have hlength := skipExtBlock_length toks
  rw [h] at hlength
  simp at hlength
  omega

/-- Where an expression ends at the latest: at a token of the line, given by the number of
tokens from it on, or before a token that is equal to an element of the pattern. -/
inductive Stop where
  | addr (left : Nat)
  | equal (mode : CmpMode) (pStop : Option Pattern)
  deriving Repr

def rightBr : TokenType → TokenType
  | .leftPb => .rightPb
  | .leftSb => .rightSb
  | _ => .rightCb

def equalsStop (pToken : Token) : Stop → Bool
  | .equal mode (some (.word pMatch)) => pToken.equal pMatch mode
  | _ => false

namespace Stop

def isAddr : Stop → Bool
  | addr _ => true
  | equal _ _ => false

def reached (toks : List Token) : Stop → Bool
  | addr left => toks.length = left
  | equal _ _ => isEoc toks

end Stop

def endsBefore (stop : Stop) (prevtype : Option TokenType) (pToken : Token) : Bool :=
  !stop.isAddr &&
    (closeBr pToken.type || (!canJoin pToken.type && !prevtype.all canJoin) ||
      equalsStop pToken stop)

/-- `hb_pp_tokenSkipExp` from inside its loop: the value of `*pfStop` and the tokens from the
end of the expression on, `none` where the loop looks behind the last token. -/
def skipExpLoop (stop : Stop) (pfStop : Bool) (prevtype : Option TokenType)
    (lbrtype : TokenType) (iBraces : Nat) (toks : List Token) : Option (Bool × List Token) :=
  if stop.reached (skipExtBlock toks) then
    some (true, skipExtBlock toks)
  else
    match htoks : skipExtBlock toks with
    | [] => none
    | pToken :: rest =>
      let curtype := pToken.type
      let prev := if isNeutral curtype then prevtype else some curtype
      if iBraces ≠ 0 then
        if curtype = lbrtype then
          skipExpLoop stop pfStop prev lbrtype (iBraces + 1) rest
        else if curtype = rightBr lbrtype then
          skipExpLoop stop pfStop prev lbrtype (iBraces - 1) rest
        else
          skipExpLoop stop pfStop prev lbrtype iBraces rest
      else if curtype = .comma then
        some (false, if pfStop then rest else pToken :: rest)
      else if endsBefore stop prevtype pToken then
        some (true, pToken :: rest)
      else if openBr curtype then
        skipExpLoop stop pfStop prev curtype 1 rest
      else
        skipExpLoop stop pfStop prev lbrtype 0 rest
termination_by toks.length
decreasing_by
  all_goals exact skipExtBlock_cons_length htoks

def tokenSkipExp (stop : Stop) (pfStop : Bool) (toks : List Token) :
    Option (Bool × List Token) :=
  skipExpLoop stop pfStop none .leftCb 0 toks

theorem skipExpLoop_length {stop : Stop} {pfStop : Bool} {prevtype : Option TokenType}
    {lbrtype : TokenType} {iBraces : Nat} {fStop : Bool}
    (h : skipExpLoop stop pfStop prevtype lbrtype iBraces toks = some (fStop, rest)) :
    rest.length ≤ toks.length := by
  fun_induction skipExpLoop stop pfStop prevtype lbrtype iBraces toks with
  | case1 => cases h; exact skipExtBlock_length _
  | case2 => simp at h
  | case6 =>
    cases h
    have := skipExtBlock_cons_length ‹skipExtBlock _ = _ :: _›
    split <;> simp <;> omega
  | case7 =>
    cases h
    have := skipExtBlock_cons_length ‹skipExtBlock _ = _ :: _›
    simp
    omega
  | case3 | case4 | case5 | case8 | case9 =>
    have := skipExtBlock_cons_length ‹skipExtBlock _ = _ :: _›
    rename_i ih
    exact (ih h).trans this.le

/-- The tokens inside a pair of square brackets with command separators turned into text,
where the line has the closing one. -/
def closeSb : List Token → Option (List Token)
  | [] => none
  | pToken :: rest =>
    if pToken.type = .eol then
      none
    else if pToken.type = .rightSb then
      some (pToken :: rest)
    else
      (closeSb rest).map
        ((if pToken.type = .eoc then { pToken with type := .text } else pToken) :: ·)

/-- `hb_pp_tokenCanStartExp`: the tokens as it leaves them where they can start an
expression. -/
def canStartExp : List Token → Option (List Token)
  | [] => none
  | pToken :: rest =>
    if needLeft (pToken :: rest) || isEoc (pToken :: rest) then
      none
    else if pToken.type ≠ .leftSb then
      some (pToken :: rest)
    else
      (closeSb rest).map (pToken :: ·)

/-- `hb_pp_tokenSkipExp` for a marker: the tokens behind the expression, where it is not
empty. -/
def skipOne (stop : Stop) (toks : List Token) : Option (List Token) :=
  match tokenSkipExp stop false toks with
  | some (_, rest) => if rest.length = toks.length then none else some rest
  | none => none

def skipList (stop : Stop) (toks : List Token) : List Token :=
  match hskip : tokenSkipExp stop true toks with
  | some (fStop, rest) =>
    if hlength : rest.length = toks.length then
      rest
    else if fStop then
      rest
    else
      skipList stop rest
  | none => toks
termination_by toks.length
decreasing_by exact lt_of_le_of_ne (skipExpLoop_length hskip) hlength

def afterComma : List Token → List Token
  | [] => []
  | pRestrict :: rest => if pRestrict.type = .comma then rest else afterComma rest

theorem afterComma_length (pMTokens : List Token) :
    (afterComma pMTokens).length ≤ pMTokens.length := by
  induction pMTokens with
  | nil => rfl
  | cons pRestrict rest ih =>
    rw [afterComma]
    split <;> simp
    omega

/-- What a lone `&` among the words of a restricted marker stands for. -/
def startsMacro : List Token → Bool
  | [] => false
  | pToken :: rest =>
    pToken.type = .macroVar ∨ pToken.type = .macroText ∨
      pToken.type = .ampersand ∧ rest.head?.any (·.type = .leftPb)

def closePb (iBraces : Nat) : List Token → List Token
  | [] => []
  | pToken :: rest =>
    if iBraces = 0 ∨ isEoc (pToken :: rest) then
      pToken :: rest
    else if pToken.type = .leftPb then
      closePb (iBraces + 1) rest
    else if pToken.type = .rightPb then
      closePb (iBraces - 1) rest
    else
      closePb iBraces rest

def skipMacro : List Token → List Token
  | [] => []
  | pToken :: rest =>
    if pToken.type = .macroVar ∨ pToken.type = .macroText then rest else closePb 1 rest.tail

def loneAmpersand (pRestrict : Token) (rest : List Token) : Bool :=
  decide (pRestrict.type = .ampersand) && rest.head?.all (·.type = .comma)

/-- The words of a restricted marker from `pMTokens` on, compared with the tokens from
`toks` on; the next alternative starts again at `pFirst`. -/
def restrictMatch (mode : CmpMode) (pFirst toks : List Token) :
    List Token → Option (List Token)
  | [] => none
  | pRestrict :: rest =>
    if pRestrict.type = .comma then
      some toks
    else if loneAmpersand pRestrict rest && startsMacro toks then
      some (skipMacro toks)
    else if !isEoc toks && toks.head?.any (·.equal pRestrict mode) then
      if rest.isEmpty then some toks.tail else restrictMatch mode pFirst toks.tail rest
    else
      restrictMatch mode pFirst pFirst (afterComma rest)
termination_by pMTokens => pMTokens.length
decreasing_by
  · simp
  · have := afterComma_length rest
    simp
    omega

def wildEnd : List Token → List Token
  | [] => []
  | pToken :: rest => if isEos (pToken :: rest) then pToken :: rest else wildEnd rest

def extExpEnd : List Token → List Token
  | [] => []
  | pToken :: rest =>
    if isEoc (pToken :: rest) ∨ pToken.spaces ≠ 0 ∨ pToken.type = .comma then
      pToken :: rest
    else
      extExpEnd rest

/-- `hb_pp_tokenMatch`: the tokens as they are left, and those behind the match. -/
def tokenMatch (pMatch : Pattern) (pNext pStop : Option Pattern) (mode : CmpMode)
    (toks : List Token) : List Token × Option (List Token) :=
  let stop := Stop.equal mode (pStop <|> pNext)
  match pMatch with
  | .marker .regular _ _ =>
    match canStartExp toks with
    | some toks => (toks, skipOne stop toks)
    | none => (toks, none)
  | .marker .list _ _ =>
    match canStartExp toks with
    | some toks =>
      let rest := skipList stop toks
      (toks, if rest.length = toks.length then none else some rest)
    | none => (toks, none)
  | .marker (.restrict pMTokens) _ _ => (toks, restrictMatch mode toks toks pMTokens)
  | .marker .wild _ _ => (toks, if isEos toks then none else some (wildEnd toks.tail))
  | .marker .extExp _ _ =>
    if toks.head?.any (·.type ∈ [.rightPb, .rightSb, .comma]) then
      (toks, none)
    else
      match canStartExp toks with
      | some toks =>
        if toks.head?.any (·.type = .leftPb) then
          (toks, skipOne stop toks)
        else
          (toks, some (extExpEnd toks.tail))
      | none => (toks, none)
  | .marker .name _ _ =>
    (toks, if toks.head?.any (·.type = .keyword) then some toks.tail else none)
  | .word token =>
    (toks, if toks.head?.any (·.equal token mode) then some toks.tail else none)
  | .optional _ _ => (toks, none)

end Harbour.Pp.Matching
