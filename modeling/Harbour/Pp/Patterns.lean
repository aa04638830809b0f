import Harbour.Pp.Matching

/-!
The comparison of a whole pattern with a line, optional clauses included, and what a rule
records of it.
-/

namespace Harbour.Pp.Patterns

open Tokens Matching List

theorem closeSb_length {toks toks' : List Token} (h : closeSb toks = some toks') :
    toks'.length = toks.length := by
  induction toks generalizing toks' with
  | nil => simp [closeSb] at h
  | cons pToken rest ih =>
    rw [closeSb] at h
    split at h
    · simp at h
    · split at h
      · cases h
        rfl
      · obtain ⟨rest', hrest, rfl⟩ := Option.map_eq_some_iff.mp h
        simp [ih hrest]

theorem canStartExp_length {toks toks' : List Token} (h : canStartExp toks = some toks') :
    toks'.length = toks.length := by
  cases toks with
  | nil => simp [canStartExp] at h
  | cons pToken rest =>
    rw [canStartExp] at h
    split at h
    · simp at h
    · split at h
      · cases h
        rfl
      · obtain ⟨rest', hrest, rfl⟩ := Option.map_eq_some_iff.mp h
        simp [closeSb_length hrest]

theorem tokenMatch_length (pMatch : Pattern) (pNext pStop : Option Pattern) (mode : CmpMode)
    (toks : List Token) : (tokenMatch pMatch pNext pStop mode toks).1.length = toks.length := by
  unfold tokenMatch
  repeat' split
  all_goals first | rfl | exact canStartExp_length ‹_›

/-- The `n` tokens of a line. They keep their places while a pattern is compared, so a place
is the number of tokens before it. -/
structure Line (n : Nat) where
  toks : List Token
  size : toks.length = n

structure MatchRun where
  pFirstToken : Nat
  pNextExpr : Nat
  deriving DecidableEq, Repr

/-- A marker of a rule; the number of its matches is a 16-bit number. -/
structure Marker where
  canrepeat : Bool
  usMatches : Nat
  pResult : List MatchRun
  deriving DecidableEq, Repr

/-- The line and the match state of a rule while its pattern is compared with the line. -/
structure Matching (n : Nat) where
  line : Line n
  pMarkers : List Marker
  pNextExpr : Option Nat

namespace Line

variable {n : Nat}

def toksAt (line : Line n) (p : Nat) : List Token := line.toks.drop p

def ofToks (toks : List Token) : Line toks.length := ⟨toks, rfl⟩

@[simp]
theorem ofToks_toks (toks : List Token) : (ofToks toks).toks = toks := rfl

theorem lt_of_not_isEos {line : Line n} {p : Nat} (h : ¬ isEos (line.toksAt p)) : p < n := by
  by_contra hn
  apply h
  rw [toksAt, drop_eq_nil_of_le (by rw [line.size]; omega)]
  rfl

def set (line : Line n) (p : Nat) (toks : List Token)
    (h : toks.length = (line.toksAt p).length) : Line n where
  toks := line.toks.take p ++ toks
  size := by
    rw [length_append, h, toksAt, ← length_append, take_append_drop, line.size]

end Line

def patternAddResult (pMarkers : List Marker) (marker : Nat) (run : MatchRun) :
    Option (List Marker) :=
  match pMarkers[marker - 1]? with
  | some pMarker =>
    if pMarker.usMatches = 0 ∨ pMarker.canrepeat then
      some (pMarkers.set (marker - 1)
        { pMarker with
          usMatches := (pMarker.usMatches + 1) % 2 ^ 16
          pResult := pMarker.pResult ++ [run] })
    else
      none
  | none => none

def patternClearResults (pMarkers : List Marker) : List Marker :=
  pMarkers.map ({ · with usMatches := 0, pResult := [] })

def index : Pattern → Nat
  | .marker _ _ index => index
  | _ => 0

theorem sizeOf_le_of_suffix {pOptional pMatch : List Pattern} (h : pOptional <:+ pMatch) :
    sizeOf pOptional ≤ sizeOf pMatch := by
  obtain ⟨before, rfl⟩ := h
  induction before with
  | nil => rfl
  | cons element before ih =>
    simp only [cons_append, List.cons.sizeOf_spec]
    omega

variable {n : Nat}

def matchEnd (fRule fOverflow : Bool) (pMatch : List Pattern) (state : Matching n) (p : Nat) :
    Matching n × Option Nat :=
  if !fOverflow && pMatch.all Pattern.isOptional then
    (if fRule then { state with pNextExpr := some p } else state, some p)
  else
    (state, none)

def matchElement (fRule : Bool) (mode : CmpMode) (pStop : Option Pattern) (pMatch : Pattern)
    (rest : List Pattern) (state : Matching n) (p : Nat) : Matching n × Option Nat :=
  let result := tokenMatch pMatch rest.head? pStop mode (state.line.toksAt p)
  let line := state.line.set p result.1 (tokenMatch_length _ _ _ _ _)
  match result.2 with
  | none => ({ state with line }, none)
  | some toks =>
    let next := n - toks.length
    if fRule ∧ index pMatch ≠ 0 ∧ p ≠ next then
      match patternAddResult state.pMarkers (index pMatch) ⟨p, next⟩ with
      | some pMarkers => ({ state with line, pMarkers }, some next)
      | none => ({ state with line }, none)
    else
      ({ state with line }, some next)

mutual

/-- `hb_pp_patternMatch` from the element `pMatch` and the place `p` on; `fRule` says whether
the runs of the markers are recorded. -/
def patternMatch (fRule : Bool) (mode : CmpMode) (pStop : Option Pattern) (fOverflow : Bool)
    (pMatch : List Pattern) (state : Matching n) (p : Nat) : Matching n × Option Nat :=
  match pMatch with
  | [] => matchEnd fRule fOverflow [] state p
  | element :: rest =>
    if heos : isEos (state.line.toksAt p) then
      matchEnd fRule fOverflow (element :: rest) state p
    else
      match element with
      | .optional token pMTokens =>
        optionalMatch fRule mode pStop fOverflow (.optional token pMTokens :: rest)
          (.optional token pMTokens :: rest) suffix_rfl state p
          (Line.lt_of_not_isEos heos)
      | element =>
        match matchElement fRule mode pStop element rest state p with
        | (state, some next) => patternMatch fRule mode pStop fOverflow rest state next
        | (state, none) => (state, none)
termination_by (sizeOf pMatch, 1, 0, 0)
decreasing_by
  · exact Prod.Lex.right _ (Prod.Lex.left _ _ Nat.zero_lt_one)
  · exact Prod.Lex.left _ _ (by simp)

def optionalMatch (fRule : Bool) (mode : CmpMode) (pStop : Option Pattern) (fOverflow : Bool)
    (pMatch pOptional : List Pattern) (hsuffix : pOptional <:+ pMatch) (state : Matching n)
    (p : Nat) (hp : p < n) : Matching n × Option Nat :=
  match pOptional, hsuffix with
  | .optional _ pMTokens :: rest, hsuffix =>
    let pNewStop := (rest.dropWhile Pattern.isOptional).head?
    match patternMatch false mode pNewStop false pMTokens state p with
    | (state, result) =>
      -- a match never ends before its first token
      if hnext : p < result.getD p then
        let next := result.getD p
        match (if fRule then patternMatch true mode pNewStop false pMTokens state p
          else (state, some next)) with
        | (state, none) => patternMatch fRule mode pStop true rest state next
        | (state, some _) =>
          if heos : isEos (state.line.toksAt next) then
            patternMatch fRule mode pStop fOverflow rest state next
          else
            optionalMatch fRule mode pStop fOverflow pMatch pMatch suffix_rfl state
              next (Line.lt_of_not_isEos heos)
      else if rest.head?.any Pattern.isOptional && !isEos (state.line.toksAt p) then
        optionalMatch fRule mode pStop fOverflow pMatch rest
          ((suffix_cons _ _).trans hsuffix) state p hp
      else
        patternMatch fRule mode pStop fOverflow rest state p
  | pOptional, _ => (state, none)
termination_by (sizeOf pMatch, 0, n - p, pOptional.length)
decreasing_by
  all_goals have hsize := sizeOf_le_of_suffix hsuffix
  all_goals simp only [List.cons.sizeOf_spec, Pattern.optional.sizeOf_spec] at hsize
  any_goals
    apply Prod.Lex.left
    omega
  · have hlt : n - result.getD p < n - p := by omega
    exact Prod.Lex.right _ (Prod.Lex.right _ (Prod.Lex.left _ _ hlt))
  · exact Prod.Lex.right _ (Prod.Lex.right _ (Prod.Lex.right _ (by simp)))

end

end Harbour.Pp.Patterns
