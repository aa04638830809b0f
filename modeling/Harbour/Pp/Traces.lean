import Harbour.Pp.FirstLetter

/-!
What is left of a comparison with a rule that does not apply.
-/

namespace Harbour.Pp.Traces

open Tokens Matching Patterns Replace FirstLetter List Option

def Settled (toks : List Token) : Prop :=
  ∀ p toks', canStartExp (toks.drop p) = some toks' → toks' = toks.drop p

variable {toks toks' : List Token} {pMTokens pMatch : List Pattern} {pToken token : Token}
  {pRule : Rule}

theorem tokenMatch_settled (h : ∀ toks', canStartExp toks = some toks' → toks' = toks)
    (pMatch : Pattern) (pNext pStop : Option Pattern) (mode : CmpMode) :
    (tokenMatch pMatch pNext pStop mode toks).1 = toks := by
  unfold tokenMatch
  repeat' split
  all_goals first | rfl | exact h _ ‹_›

section Keeps

variable {n : Nat}

/-- What a pass leaves: the line in any case, and everything where nothing is recorded. -/
structure Keeps (fRule : Bool) (state state' : Matching n) : Prop where
  line : state'.line = state.line
  dry : fRule = false → state' = state

theorem Keeps.refl (fRule : Bool) (state : Matching n) : Keeps fRule state state :=
  ⟨rfl, fun _ => rfl⟩

theorem Keeps.trans {fRule : Bool} {state state' state'' : Matching n}
    (h : Keeps fRule state state') (h' : Keeps fRule state' state'') : Keeps fRule state state'' :=
  ⟨h'.line.trans h.line, fun hdry => (h'.dry hdry).trans (h.dry hdry)⟩

theorem matchEnd_keeps (fRule fOverflow : Bool) (pMatch : List Pattern) (state : Matching n)
    (p : Nat) : Keeps fRule state (matchEnd fRule fOverflow pMatch state p).1 := by
  unfold matchEnd
  split_ifs with _ hrule
  · exact ⟨rfl, fun hdry => absurd (hdry.symm.trans hrule) Bool.false_ne_true⟩
  · exact Keeps.refl fRule state
  · exact Keeps.refl fRule state

theorem matchElement_keeps {fRule : Bool} {mode : CmpMode} {pStop : Option Pattern}
    {pMatch : Pattern} {rest : List Pattern} {state : Matching n} {p : Nat}
    (h : Settled state.line.toks) :
    Keeps fRule state (matchElement fRule mode pStop pMatch rest state p).1 ∧
      ∀ next state', state'.line = state.line →
        (matchElement fRule mode pStop pMatch rest state p).2 = some next →
        (matchElement false mode pStop pMatch rest state' p).2 = some next := by
  have htoks : (tokenMatch pMatch rest.head? pStop mode (state.line.toksAt p)).1 =
      state.line.toksAt p := tokenMatch_settled (h p) _ _ _ _
  have hline : ∀ hlen, state.line.set p
      (tokenMatch pMatch rest.head? pStop mode (state.line.toksAt p)).1 hlen = state.line :=
    fun hlen => set_toksAt htoks hlen
  constructor
  · unfold matchElement
    simp only [hline]
    split
    · exact Keeps.refl fRule state
    · split_ifs with hrecord
      · split
        · exact ⟨rfl, fun hdry => absurd (hdry.symm.trans hrecord.1) Bool.false_ne_true⟩
        · exact Keeps.refl fRule state
      · exact Keeps.refl fRule state
  · intro next state' hsame
    unfold matchElement
    simp only [hsame, Bool.false_eq_true, false_and, if_false]
    split
    · rintro ⟨⟩
    · split_ifs
      · split
        · exact id
        · rintro ⟨⟩
      · exact id

/-- What a comparison from some place on keeps, where it records that it ends, and that one without
recording ends there too. -/
structure Agrees (fRule fOverflow : Bool) (state : Matching n) (result : Matching n × Option Nat)
    (dry : Matching n → Option Nat) : Prop where
  keeps : Keeps fRule state result.1
  overflow : fOverflow = true → result.2 = none
  recorded : fRule = true → ∀ next, result.2 = some next → result.1.pNextExpr = some next
  same : ∀ next state', state'.line = state.line → result.2 = some next → dry state' = some next

theorem matchEnd_snd (fRule fOverflow : Bool) (pMatch : List Pattern) (state : Matching n)
    (p : Nat) : (matchEnd fRule fOverflow pMatch state p).2 =
      if !fOverflow && pMatch.all Pattern.isOptional then some p else none := by
  unfold matchEnd
  split_ifs
  · rfl
  · rfl
  · rfl

theorem matchEnd_agrees (fRule fOverflow : Bool) (pMatch : List Pattern) (state : Matching n)
    (p : Nat) : Agrees fRule fOverflow state (matchEnd fRule fOverflow pMatch state p)
      fun state' => (matchEnd false fOverflow pMatch state' p).2 where
  keeps := matchEnd_keeps fRule fOverflow pMatch state p
  overflow := by
    rintro rfl
    rfl
  recorded := by
    rintro rfl next h
    rw [matchEnd_snd] at h
    unfold matchEnd
    split_ifs at h ⊢
    · exact h
    · exact absurd rfl ‹¬true = true›
  same := by
    intro next state' _ h
    rw [matchEnd_snd] at h ⊢
    exact h

section

variable {fRule fOverflow : Bool} {state state₁ : Matching n} {dry : Matching n → Option Nat}
  (hkeeps : Keeps fRule state state₁)

include hkeeps

theorem Agrees.after {result : Matching n × Option Nat}
    (h : Agrees fRule fOverflow state₁ result dry) : Agrees fRule fOverflow state result dry where
  keeps := hkeeps.trans h.keeps
  overflow := h.overflow
  recorded := h.recorded
  same := fun next state' hsame => h.same next state' (hsame.trans hkeeps.line.symm)

theorem Agrees.failed : Agrees fRule fOverflow state (state₁, none) dry where
  keeps := hkeeps
  overflow := fun _ => rfl
  recorded := by
    rintro _ next ⟨⟩
  same := by
    rintro next state' _ ⟨⟩

end

theorem Agrees.congr {fRule fOverflow : Bool} {state : Matching n}
    {result : Matching n × Option Nat} {dry dry' : Matching n → Option Nat}
    (h : Agrees fRule fOverflow state result dry)
    (heq : ∀ state', state'.line = state.line → dry' state' = dry state') :
    Agrees fRule fOverflow state result dry' where
  keeps := h.keeps
  overflow := h.overflow
  recorded := h.recorded
  same := fun next state' hsame hnext => (heq state' hsame).trans (h.same next state' hsame hnext)

section Equations

variable {fRule fOverflow : Bool} {mode : CmpMode} {pStop : Option Pattern} {rest : List Pattern}
  {state : Matching n} {p : Nat}

theorem patternMatch_eos (heos : isEos (state.line.toksAt p) = true) :
    patternMatch fRule mode pStop fOverflow pMatch state p =
      matchEnd fRule fOverflow pMatch state p := by
  cases pMatch with
  | nil => rw [patternMatch.eq_def]
  | cons element rest =>
    rw [patternMatch.eq_def]
    simp [heos]

theorem patternMatch_optional (heos : ¬isEos (state.line.toksAt p) = true) :
    patternMatch fRule mode pStop fOverflow (.optional token pMTokens :: rest) state p =
      optionalMatch fRule mode pStop fOverflow (.optional token pMTokens :: rest)
        (.optional token pMTokens :: rest) suffix_rfl state p
        (Line.lt_of_not_isEos heos) := by
  rw [patternMatch.eq_def]
  simp [heos]

theorem patternMatch_element {element : Pattern} (helement : element.isOptional = false)
    (heos : ¬isEos (state.line.toksAt p) = true) :
    patternMatch fRule mode pStop fOverflow (element :: rest) state p =
      match matchElement fRule mode pStop element rest state p with
      | (state, some next) => patternMatch fRule mode pStop fOverflow rest state next
      | (state, none) => (state, none) := by
  rw [patternMatch.eq_def]
  cases element with
  | optional => cases helement
  | word token =>
    rcases hmatch : matchElement fRule mode pStop (.word token) rest state p with
      ⟨state₁, _ | next⟩
    · simp [heos, hmatch]
    · simp [heos, hmatch]
  | marker kind token index =>
    rcases hmatch : matchElement fRule mode pStop (.marker kind token index) rest state p with
      ⟨state₁, _ | next⟩
    · simp [heos, hmatch]
    · simp [heos, hmatch]

theorem optionalMatch_cons (hsuffix : .optional token pMTokens :: rest <:+ pMatch) (hp : p < n)
    {state₁ : Matching n} {result : Option Nat}
    (hfirst : patternMatch false mode (rest.dropWhile Pattern.isOptional).head? false pMTokens
      state p = (state₁, result)) :
    optionalMatch fRule mode pStop fOverflow pMatch (.optional token pMTokens :: rest) hsuffix
        state p hp =
      if p < result.getD p then
        match (if fRule then patternMatch true mode (rest.dropWhile Pattern.isOptional).head? false
            pMTokens state₁ p else (state₁, some (result.getD p))) with
        | (state₂, none) => patternMatch fRule mode pStop true rest state₂ (result.getD p)
        | (state₂, some _) =>
          if heos : isEos (state₂.line.toksAt (result.getD p)) then
            patternMatch fRule mode pStop fOverflow rest state₂ (result.getD p)
          else
            optionalMatch fRule mode pStop fOverflow pMatch pMatch suffix_rfl state₂
              (result.getD p) (Line.lt_of_not_isEos heos)
      else if rest.head?.any Pattern.isOptional && !isEos (state₁.line.toksAt p) then
        optionalMatch fRule mode pStop fOverflow pMatch rest
          ((suffix_cons _ _).trans hsuffix) state₁ p hp
      else
        patternMatch fRule mode pStop fOverflow rest state₁ p := by
  rw [optionalMatch.eq_def]
  simp only [hfirst]
  all_goals rfl

end Equations

mutual

theorem patternMatch_agrees (fRule : Bool) (mode : CmpMode) (pStop : Option Pattern)
    (fOverflow : Bool) (pMatch : List Pattern) (state : Matching n) (p : Nat)
    (h : Settled state.line.toks) :
    Agrees fRule fOverflow state (patternMatch fRule mode pStop fOverflow pMatch state p)
      fun state' => (patternMatch false mode pStop fOverflow pMatch state' p).2 := by
  by_cases heos : isEos (state.line.toksAt p) = true
  · rw [patternMatch_eos heos]
    refine (matchEnd_agrees fRule fOverflow pMatch state p).congr fun state' hsame => ?_
    rw [patternMatch_eos (hsame.symm ▸ heos)]
  · cases pMatch with
    | nil =>
      rw [patternMatch.eq_def]
      refine (matchEnd_agrees fRule fOverflow [] state p).congr fun state' _ => ?_
      rw [patternMatch.eq_def]
    | cons element rest =>
      cases helement : element.isOptional with
      | true =>
        cases element with
        | optional token pMTokens =>
          rw [patternMatch_optional heos]
          refine (optionalMatch_agrees fRule mode pStop fOverflow _ _ suffix_rfl state p
            (Line.lt_of_not_isEos heos) h).congr fun state' hsame => ?_
          rw [patternMatch_optional (hsame.symm ▸ heos)]
        | _ => cases helement
      | false =>
        obtain ⟨hkeeps, hends⟩ : Keeps fRule state
            (matchElement fRule mode pStop element rest state p).1 ∧ _ :=
          matchElement_keeps h
        rw [patternMatch_element helement heos]
        rcases hresult : matchElement fRule mode pStop element rest state p with
          ⟨state₁, _ | next⟩
        · rw [hresult] at hkeeps
          exact Agrees.failed hkeeps
        · rw [hresult] at hkeeps hends
          have hrest := patternMatch_agrees fRule mode pStop fOverflow rest state₁ next
            (hkeeps.line.symm ▸ h)
          refine (hrest.after hkeeps).congr fun state' hsame => ?_
          have hstays : (matchElement false mode pStop element rest state' p).1 = state' :=
            (matchElement_keeps (hsame.symm ▸ h)).1.dry rfl
          have hdry : matchElement false mode pStop element rest state' p =
              (state', some next) := Prod.ext hstays (hends next state' hsame rfl)
          rw [patternMatch_element helement (hsame.symm ▸ heos), hdry]
termination_by (sizeOf pMatch, 1, 0, 0)
theorem optionalMatch_agrees (fRule : Bool) (mode : CmpMode) (pStop : Option Pattern)
    (fOverflow : Bool) (pMatch pOptional : List Pattern) (hsuffix : pOptional <:+ pMatch)
    (state : Matching n) (p : Nat) (hp : p < n) (h : Settled state.line.toks) :
    Agrees fRule fOverflow state
      (optionalMatch fRule mode pStop fOverflow pMatch pOptional hsuffix state p hp)
      fun state' =>
        (optionalMatch false mode pStop fOverflow pMatch pOptional hsuffix state' p hp).2 :=
  match pOptional, hsuffix with
  | [], hsuffix => by
    rw [optionalMatch.eq_def]
    exact Agrees.failed (Keeps.refl fRule state)
  | .word _ :: _, hsuffix => by
    rw [optionalMatch.eq_def]
    exact Agrees.failed (Keeps.refl fRule state)
  | .marker _ _ _ :: _, hsuffix => by
    rw [optionalMatch.eq_def]
    exact Agrees.failed (Keeps.refl fRule state)
  | .optional token pMTokens :: rest, hsuffix => by
    have hfirst := patternMatch_agrees false mode (rest.dropWhile Pattern.isOptional).head?
      false pMTokens state p h
    have hdry : ∀ state', state'.line = state.line →
        patternMatch false mode (rest.dropWhile Pattern.isOptional).head? false pMTokens
          state' p = (state', (patternMatch false mode
            (rest.dropWhile Pattern.isOptional).head? false pMTokens state p).2) := by
      intro state' hsame
      have hfirst' := patternMatch_agrees false mode
        (rest.dropWhile Pattern.isOptional).head? false pMTokens state' p (hsame.symm ▸ h)
      refine Prod.ext (hfirst'.keeps.dry rfl) (ext fun next => ⟨?_, ?_⟩)
      · exact hfirst'.same next state hsame.symm
      · exact hfirst.same next state' hsame
    have hstate := hdry state rfl
    rw [optionalMatch_cons hsuffix hp hstate]
    generalize (patternMatch false mode (rest.dropWhile Pattern.isOptional).head? false
      pMTokens state p).2 = result at hdry
    have hdryeq : p < result.getD p → ∀ state', state'.line = state.line →
        optionalMatch false mode pStop fOverflow pMatch (.optional token pMTokens :: rest)
          hsuffix state' p hp =
        if heos : isEos (state'.line.toksAt (result.getD p)) then
          patternMatch false mode pStop fOverflow rest state' (result.getD p)
        else
          optionalMatch false mode pStop fOverflow pMatch pMatch suffix_rfl state'
            (result.getD p) (Line.lt_of_not_isEos heos) := by
      intro hnext state' hsame
      rw [optionalMatch_cons hsuffix hp (hdry state' hsame), if_pos hnext]
      rfl
    have hgo : p < result.getD p → ∀ state₂, Keeps fRule state state₂ →
        Agrees fRule fOverflow state
          (if heos : isEos (state₂.line.toksAt (result.getD p)) then
            patternMatch fRule mode pStop fOverflow rest state₂ (result.getD p)
          else
            optionalMatch fRule mode pStop fOverflow pMatch pMatch suffix_rfl state₂
              (result.getD p) (Line.lt_of_not_isEos heos))
          fun state' => (optionalMatch false mode pStop fOverflow pMatch
            (.optional token pMTokens :: rest) hsuffix state' p hp).2 := by
      intro hnext state₂ hkeeps
      split_ifs with heos
      · refine ((patternMatch_agrees fRule mode pStop fOverflow rest state₂ (result.getD p)
          (hkeeps.line.symm ▸ h)).after hkeeps).congr fun state' hsame => ?_
        have heos' : isEos (state'.line.toksAt (result.getD p)) = true := by
          rw [hsame, ← hkeeps.line]
          exact heos
        rw [hdryeq hnext state' hsame, dif_pos heos']
      · refine ((optionalMatch_agrees fRule mode pStop fOverflow pMatch pMatch
          suffix_rfl state₂ (result.getD p) (Line.lt_of_not_isEos heos)
          (hkeeps.line.symm ▸ h)).after hkeeps).congr fun state' hsame => ?_
        have heos' : ¬isEos (state'.line.toksAt (result.getD p)) = true := by
          rw [hsame, ← hkeeps.line]
          exact heos
        rw [hdryeq hnext state' hsame, dif_neg heos']
    split_ifs with hnext hrule hmore
    · -- the clause matches and is recorded
      subst hrule
      have hkeeps := (patternMatch_agrees true mode
        (rest.dropWhile Pattern.isOptional).head? false pMTokens state p h).keeps
      rcases hsecond : patternMatch true mode (rest.dropWhile Pattern.isOptional).head? false
        pMTokens state p with ⟨state₂, _ | end₂⟩
      · rw [hsecond] at hkeeps
        have hover := patternMatch_agrees true mode pStop true rest state₂ (result.getD p)
          (hkeeps.line.symm ▸ h)
        refine ⟨hkeeps.trans hover.keeps, fun _ => hover.overflow rfl, hover.recorded, ?_⟩
        intro next state' _ hsome
        cases (hover.overflow rfl).symm.trans hsome
      · rw [hsecond] at hkeeps
        exact hgo hnext state₂ hkeeps
    · -- the clause matches and nothing is recorded
      exact hgo hnext state (Keeps.refl fRule state)
    · refine (optionalMatch_agrees fRule mode pStop fOverflow pMatch rest
        ((suffix_cons _ _).trans hsuffix) state p hp h).congr fun state' hsame => ?_
      rw [optionalMatch_cons hsuffix hp (hdry state' hsame), if_neg hnext,
        if_pos (hsame.symm ▸ hmore)]
    · refine (patternMatch_agrees fRule mode pStop fOverflow rest state p h).congr
        fun state' hsame => ?_
      rw [optionalMatch_cons hsuffix hp (hdry state' hsame), if_neg hnext,
        if_neg (hsame.symm ▸ hmore)]
termination_by (sizeOf pMatch, 0, n - p, pOptional.length)
decreasing_by
  all_goals have hsize := sizeOf_le_of_suffix hsuffix
  all_goals simp only [List.cons.sizeOf_spec, Pattern.optional.sizeOf_spec] at hsize
  any_goals
    omega
  · apply Prod.Lex.right
    apply Prod.Lex.right
    omega
  · apply Prod.Lex.right
    apply Prod.Lex.right
    apply Prod.Lex.right
    exact Nat.lt_succ_self _

end

end Keeps

/-- Between a square bracket that is opened and the next one that is closed, there is no command
separator. -/
def SeparatorFree (toks : List Token) : Prop :=
  ∀ before left inside right after, toks = before ++ left :: (inside ++ right :: after) →
    left.type = .leftSb → right.type = .rightSb →
    (∀ pToken ∈ inside, pToken.type ≠ .eol ∧ pToken.type ≠ .rightSb) →
    ∀ pToken ∈ inside, pToken.type ≠ .eoc

def retype (pToken : Token) : Token :=
  if pToken.type = .eoc then { pToken with type := .text } else pToken

theorem closeSb_inside {inside : List Token} {right : Token} (after : List Token)
    (hright : right.type = .rightSb)
    (hinside : ∀ pToken ∈ inside, pToken.type ≠ .eol ∧ pToken.type ≠ .rightSb) :
    closeSb (inside ++ right :: after) = some (inside.map retype ++ right :: after) := by
  induction inside with
  | nil => simp [closeSb, hright]
  | cons pToken inside ih =>
    obtain ⟨heol, hsb⟩ := hinside pToken mem_cons_self
    rw [cons_append, closeSb, if_neg heol, if_neg hsb,
      ih fun t ht => hinside t (mem_cons_of_mem _ ht)]
    rfl

theorem closeSb_some (h : closeSb toks = some toks') :
    ∃ inside right after, toks = inside ++ right :: after ∧ right.type = .rightSb ∧
      ∀ pToken ∈ inside, pToken.type ≠ .eol ∧ pToken.type ≠ .rightSb := by
  induction toks generalizing toks' with
  | nil => cases h
  | cons pToken rest ih =>
    by_cases hsb : pToken.type = .rightSb
    · exact ⟨[], pToken, rest, rfl, hsb, fun _ h => nomatch h⟩
    · have heol : pToken.type ≠ .eol := by
        intro heol
        rw [closeSb, if_pos heol] at h
        cases h
      rw [closeSb, if_neg heol, if_neg hsb] at h
      obtain ⟨rest', hrest, _⟩ := map_eq_some_iff.mp h
      obtain ⟨inside, right, after, rfl, hright, hinside⟩ := ih hrest
      refine ⟨pToken :: inside, right, after, rfl, hright, ?_⟩
      intro t ht
      rcases mem_cons.mp ht with rfl | ht
      · exact ⟨heol, hsb⟩
      · exact hinside t ht

theorem retype_eq_self : retype pToken = pToken ↔ pToken.type ≠ .eoc := by
  unfold retype
  split_ifs with heoc
  · refine iff_of_false ?_ (not_not.mpr heoc)
    intro h
    have htype := congrArg Token.type h
    rw [heoc] at htype
    cases htype
  · exact iff_of_true rfl heoc

theorem map_retype_eq_self :
    toks.map retype = toks ↔ ∀ pToken ∈ toks, pToken.type ≠ .eoc := by
  induction toks with
  | nil => simp
  | cons pToken toks ih =>
    rw [map_cons, List.cons.injEq, ih, retype_eq_self, forall_mem_cons]

theorem canStartExp_leftSb {left : Token} (hleft : left.type = .leftSb) (rest : List Token) :
    canStartExp (left :: rest) = (closeSb rest).map (left :: ·) := by
  have hneed : needLeft (left :: rest) = false := by simp [needLeft, hleft]
  have heoc : isEoc (left :: rest) = false := by simp [isEoc, hleft]
  simp [canStartExp, hneed, heoc, hleft]

theorem settled_iff : Settled toks ↔ SeparatorFree toks := by
  constructor
  · rintro h before left inside right after rfl hleft hright hinside
    have hstart := h before.length (left :: (inside.map retype ++ right :: after)) (by
      rw [drop_left, canStartExp_leftSb hleft, closeSb_inside after hright hinside]
      rfl)
    rw [drop_left, List.cons.injEq, append_cancel_right_eq] at hstart
    exact map_retype_eq_self.mp hstart.2
  · intro h p toks' hstart
    cases hdrop : toks.drop p with
    | nil => rw [hdrop] at hstart; cases hstart
    | cons left rest =>
      rw [hdrop] at hstart
      by_cases hleft : left.type = .leftSb
      · rw [canStartExp_leftSb hleft] at hstart
        obtain ⟨rest', hclose, rfl⟩ := map_eq_some_iff.mp hstart
        obtain ⟨inside, right, after, rfl, hright, hinside⟩ := closeSb_some hclose
        have hnone := h (toks.take p) left inside right after
          (by rw [← hdrop, take_append_drop]) hleft hright hinside
        rw [closeSb_inside after hright hinside, map_retype_eq_self.mpr hnone] at hclose
        rw [Option.some.inj hclose]
      · rw [canStartExp] at hstart
        split_ifs at hstart
        exact (Option.some.inj hstart).symm

section Attempts

variable {n : Nat}

def Cleared (pMarkers : List Marker) : Prop :=
  ∀ pMarker ∈ pMarkers, pMarker.usMatches = 0 ∧ pMarker.pResult = []

theorem cleared_patternClearResults (pMarkers : List Marker) :
    Cleared (patternClearResults pMarkers) := by
  intro pMarker h
  obtain ⟨pMarker', _, rfl⟩ := mem_map.mp h
  exact ⟨rfl, rfl⟩

/-- A comparison that fails leaves no trace, and one that succeeds records as much as the pass
before it has matched. -/
structure Traceless (pRule : Rule) (line : Line n) (fCommand : Bool) : Prop where
  failed : (patternCmp pRule line fCommand).2 = false →
    (patternCmp pRule line fCommand).1.line = line ∧
      Cleared (patternCmp pRule line fCommand).1.pMarkers ∧
      (patternCmp pRule line fCommand).1.pNextExpr = none
  matched : (patternCmp pRule line fCommand).2 = true →
    ∃ next, (patternMatch false pRule.mode none false pRule.pMatch
        ⟨line, pRule.pMarkers, none⟩ 0).2 = some next ∧
      (patternCmp pRule line fCommand).1.line = line ∧
      (patternCmp pRule line fCommand).1.pNextExpr = some next

theorem Traceless.of_failed {line : Line n} {fCommand : Bool} {state : Matching n}
    (hcmp : patternCmp pRule line fCommand = (state, false)) (hline : state.line = line)
    (hclear : Cleared state.pMarkers) (hnext : state.pNextExpr = none) :
    Traceless pRule line fCommand where
  failed := fun _ => hcmp ▸ ⟨hline, hclear, hnext⟩
  matched := by
    rw [hcmp]
    rintro ⟨⟩

theorem traceless_of_settled {line : Line n} (h : Settled line.toks)
    (hclear : Cleared pRule.pMarkers) (fCommand : Bool) : Traceless pRule line fCommand := by
  have hdry := patternMatch_agrees false pRule.mode none false pRule.pMatch
    ⟨line, pRule.pMarkers, none⟩ 0 h
  have hrecord := patternMatch_agrees true pRule.mode none false pRule.pMatch
    ⟨line, pRule.pMarkers, none⟩ 0 h
  have hsame := hrecord.same
  have hends := hrecord.recorded rfl
  have hline := hrecord.keeps.line
  rcases hfirst : patternMatch false pRule.mode none false pRule.pMatch
    ⟨line, pRule.pMarkers, none⟩ 0 with ⟨state, result⟩
  obtain rfl : state = ⟨line, pRule.pMarkers, none⟩ := by
    have hstays := hdry.keeps.dry rfl
    rwa [hfirst] at hstays
  cases result with
  | none =>
    have hcmp : patternCmp pRule line fCommand = (⟨line, pRule.pMarkers, none⟩, false) := by
      rw [patternCmp, hfirst]
    exact .of_failed hcmp rfl hclear rfl
  | some next =>
    rcases hsecond : patternMatch true pRule.mode none false pRule.pMatch
      ⟨line, pRule.pMarkers, none⟩ 0 with ⟨state, _ | next'⟩
    · rw [hsecond] at hline
      have hcmp : patternCmp pRule line fCommand = (⟨line, pRule.pMarkers, none⟩, false) ∨
          patternCmp pRule line fCommand =
            ({ state with
                pMarkers := patternClearResults state.pMarkers
                pNextExpr := none }, false) := by
        simp only [patternCmp, hfirst]
        split_ifs
        · right
          rw [hsecond]
        · exact .inl rfl
      rcases hcmp with hcmp | hcmp
      · exact .of_failed hcmp rfl hclear rfl
      · exact .of_failed hcmp hline (cleared_patternClearResults _) rfl
    · rw [hsecond] at hline hends hsame
      have hmatch := hsame next' ⟨line, pRule.pMarkers, none⟩ rfl rfl
      have hcmp : patternCmp pRule line fCommand = (⟨line, pRule.pMarkers, none⟩, false) ∨
          patternCmp pRule line fCommand = (state, true) := by
        simp only [patternCmp, hfirst]
        split_ifs
        · right
          rw [hsecond]
        · exact .inl rfl
      rcases hcmp with hcmp | hcmp
      · exact .of_failed hcmp rfl hclear rfl
      · refine ⟨?_, fun _ => ⟨next', hmatch, hcmp ▸ ⟨hline, hends next' rfl⟩⟩⟩
        rw [hcmp]
        rintro ⟨⟩

def longWord (toks : List Token) : Token :=
  ⟨replicate ((toks.map (·.value.length)).sum + 1) 0x58, .keyword, 0⟩

def bracketRule (toks : List Token) : Rule where
  mode := .case
  pMatch := [.marker .regular ⟨[0x78], .keyword, 0⟩ 1, .word (longWord toks)]
  pResult := []
  pMarkers := [⟨false, 0, []⟩]

theorem longWord_equal (h : pToken ∈ toks) :
    pToken.equal (longWord toks) .case = false := by
  have hle : pToken.value.length ≤ (toks.map (·.value.length)).sum :=
    single_le_sum (fun _ _ => Nat.zero_le _) _ (mem_map_of_mem h)
  have hne : pToken.value.length ≠ (toks.map (·.value.length)).sum + 1 := by omega
  simp [Token.equal, longWord, hne]

theorem isEos_of_canStartExp (h : canStartExp toks = some toks') :
    ¬isEos toks = true := by
  cases toks with
  | nil => cases h
  | cons pToken rest =>
    have heoc : isEoc (pToken :: rest) = false := by
      by_contra heoc
      simp [canStartExp, Bool.eq_true_of_not_eq_false heoc] at h
    simp only [isEoc, decide_eq_false_iff_not, not_or] at heoc
    cases rest with
    | nil => simp [isEos, heoc]
    | cons pNext rest => simp [isEos, heoc]

theorem bracketRule_retypes (hstart : canStartExp toks = some toks') (fCommand : Bool) :
    (patternCmp (bracketRule toks') (Line.ofToks toks) fCommand).2 = false ∧
      (patternCmp (bracketRule toks') (Line.ofToks toks) fCommand).1.line.toks = toks' := by
  have hlen := canStartExp_length hstart
  let line' : Line toks.length := ⟨toks', hlen⟩
  let state' : Matching toks.length := ⟨line', [⟨false, 0, []⟩], none⟩
  -- the word is not found behind the expression, wherever that ends
  have hword : ∀ p, patternMatch false .case none false [.word (longWord toks')] state' p =
      (state', none) := by
    intro p
    by_cases heos : isEos (state'.line.toksAt p) = true
    · rw [patternMatch_eos heos]
      rfl
    · have hmatch : tokenMatch (.word (longWord toks')) none none .case (state'.line.toksAt p) =
          (state'.line.toksAt p, none) := by
        cases hat : state'.line.toksAt p with
        | nil => rfl
        | cons pToken rest =>
          have hmem : pToken ∈ toks' := by
            have hdrop : toks'.drop p = pToken :: rest := hat
            exact mem_of_mem_drop (hdrop ▸ mem_cons_self)
          simp [tokenMatch, longWord_equal hmem]
      rw [patternMatch_element rfl heos, matchElement_none hmatch]
  have hdry : patternMatch false .case none false (bracketRule toks').pMatch
      ⟨Line.ofToks toks, [⟨false, 0, []⟩], none⟩ 0 = (state', none) := by
    have heos : ¬isEos ((Line.ofToks toks).toksAt 0) = true := isEos_of_canStartExp hstart
    have hat : (Line.ofToks toks).toksAt 0 = toks := rfl
    have hset : ∀ hsize, (Line.ofToks toks).set 0 toks' hsize = line' := fun _ => rfl
    rw [bracketRule, patternMatch_element rfl heos]
    unfold matchElement
    simp only [tokenMatch, hat, hstart, hset, Bool.false_eq_true, false_and, if_false]
    generalize skipOne (.equal .case (none <|> [Pattern.word (longWord toks')].head?)) toks' =
      behind
    cases behind with
    | none => rfl
    | some rest => exact hword _
  have hcmp : patternCmp (bracketRule toks') (Line.ofToks toks) fCommand = (state', false) := by
    unfold patternCmp
    rw [show patternMatch false (bracketRule toks').mode none false (bracketRule toks').pMatch
      ⟨Line.ofToks toks, (bracketRule toks').pMarkers, none⟩ 0 = (state', none) from hdry]
  rw [hcmp]
  exact ⟨rfl, rfl⟩

/-- Rules leave no trace on a line if and only if no separator stands between brackets. -/
theorem patternCmp_traceless_iff (toks : List Token) :
    (∀ (pRule : Rule) (fCommand : Bool) (p : Nat), Cleared pRule.pMarkers →
      Traceless pRule (Line.ofToks (toks.drop p)) fCommand) ↔ SeparatorFree toks := by
  rw [← settled_iff]
  constructor
  · intro h p toks' hstart
    obtain ⟨hfails, hline⟩ := bracketRule_retypes hstart false
    have hclear : Cleared (bracketRule toks').pMarkers := by
      intro pMarker hmem
      obtain rfl := mem_singleton.mp hmem
      exact ⟨rfl, rfl⟩
    have hstays := ((h (bracketRule toks') false p hclear).failed hfails).1
    rw [hstays] at hline
    exact hline.symm
  · intro h pRule fCommand p hclear
    refine traceless_of_settled ?_ hclear fCommand
    intro q toks' hstart
    rw [Line.ofToks_toks, drop_drop] at hstart ⊢
    exact h _ toks' hstart

def bracketToks : List Token :=
  [⟨[0x5B], .leftSb, 0⟩, ⟨[0x62], .keyword, 0⟩, ⟨[0x3B], .eoc, 0⟩, ⟨[0x63], .keyword, 1⟩,
    ⟨[0x5D], .rightSb, 0⟩]

/-- A rule that does not apply has made the separator a text. -/
theorem patternCmp_retypes_bracket :
    (patternCmp (bracketRule (bracketToks.map retype)) (Line.ofToks bracketToks) false).2 = false ∧
      (patternCmp (bracketRule (bracketToks.map retype)) (Line.ofToks bracketToks)
        false).1.line.toks ≠ bracketToks := by
  have hstart : canStartExp bracketToks = some (bracketToks.map retype) := by decide
  obtain ⟨hfails, hline⟩ := bracketRule_retypes hstart false
  refine ⟨hfails, ?_⟩
  rw [hline]
  decide

end Attempts

end Harbour.Pp.Traces
