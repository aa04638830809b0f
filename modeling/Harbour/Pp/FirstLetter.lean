import Harbour.Pp.Process

/-!
The map of first letters: whether skipping the tokens whose letter is not in it changes what
is substituted.
-/

namespace Harbour.Pp.FirstLetter

open Common.CharClass Tokens Matching Patterns Replace Rules Process List

/-- Whether one of the alternatives of a restricted marker can begin with the letter `c`; a
lone `&` stands for tokens of any letter. -/
def restrictBegins (c : UInt8) : List Token → Bool
  | [] => false
  | pRestrict :: rest =>
    if pRestrict.type = .comma then
      false
    else
      loneAmpersand pRestrict rest || decide (pRestrict.hashId = c) ||
        restrictBegins c (afterComma rest)
termination_by pMTokens => pMTokens.length
decreasing_by
  have := afterComma_length rest
  simp
  omega

def hasEmpty : List Token → Bool
  | [] => false
  | pRestrict :: rest =>
    if pRestrict.type = .comma then true else hasEmpty (afterComma rest)
termination_by pMTokens => pMTokens.length
decreasing_by
  have := afterComma_length rest
  simp
  omega

def begins (c : UInt8) : List Pattern → Bool
  | [] => true
  | .word token :: _ => token.hashId = c
  | .marker (.restrict pMTokens) _ _ :: rest =>
    restrictBegins c pMTokens || (hasEmpty pMTokens && begins c rest)
  | _ => true

variable {mode : CmpMode} {pToken : Token} {toks : List Token} {p : Nat} {fRule : Bool}
  {rest : List Pattern} {tables : Tables}

theorem restrictMatch_of_not_begins {pMTokens : List Token}
    (h : restrictBegins pToken.hashId pMTokens = false) :
    restrictMatch mode (pToken :: toks) (pToken :: toks) pMTokens =
      if hasEmpty pMTokens then some (pToken :: toks) else none := by
  fun_induction hasEmpty pMTokens with
  | case1 => simp [restrictMatch]
  | case2 pRestrict rest hcomma => simp [restrictMatch, hcomma]
  | case3 pRestrict rest hcomma ih =>
    rw [restrictBegins, if_neg hcomma] at h
    simp only [Bool.or_eq_false_iff, decide_eq_false_iff_not] at h
    obtain ⟨⟨hampersand, hletter⟩, hrest⟩ := h
    have hequal : pToken.equal pRestrict mode = false := by
      by_contra hequal
      exact hletter (Token.hashId_of_equal (by simpa using hequal)).symm
    rw [restrictMatch, if_neg hcomma, hampersand]
    simpa [hequal] using ih hrest

variable {n : Nat}

theorem set_toksAt {line : Line n} (h : toks = line.toksAt p)
    (hlength : toks.length = (line.toksAt p).length) : line.set p toks hlength = line := by
  subst h
  simp [Line.set, Line.toksAt]

theorem length_toksAt (line : Line n) (p : Nat) : (line.toksAt p).length = n - p := by
  rw [Line.toksAt, length_drop, line.size]

section Element

variable {pStop : Option Pattern} {pMatch : Pattern} {state : Matching n}

theorem matchElement_none (h : tokenMatch pMatch rest.head? pStop mode (state.line.toksAt p) =
      (state.line.toksAt p, none)) :
    matchElement fRule mode pStop pMatch rest state p = (state, none) := by
  have hline := set_toksAt (congrArg Prod.fst h) (tokenMatch_length _ _ _ _ _)
  simp only [matchElement, congrArg Prod.snd h, hline]

theorem matchElement_empty (hp : p ≤ n)
    (h : tokenMatch pMatch rest.head? pStop mode (state.line.toksAt p) =
      (state.line.toksAt p, some (state.line.toksAt p))) :
    matchElement fRule mode pStop pMatch rest state p = (state, some p) := by
  have hline := set_toksAt (congrArg Prod.fst h) (tokenMatch_length _ _ _ _ _)
  have hnext : n - (state.line.toksAt p).length = p := by
    rw [length_toksAt]
    omega
  simp [matchElement, congrArg Prod.snd h, hline, hnext]

end Element

variable {element : Pattern} {fOverflow : Bool} {pNew pRule : Rule} {rules : List Rule}
  {id kind : RuleKind} {c : UInt8} {pMap : LetterMap} {name : Token}

theorem matchEnd_of_not_optional {state : Matching n} (h : element.isOptional = false) :
    matchEnd fRule fOverflow (element :: rest) state p = (state, none) := by
  simp [matchEnd, h]

theorem patternMatch_of_not_begins {pStop : Option Pattern} {pMatch : List Pattern}
    {state : Matching n} (htoks : state.line.toksAt p = pToken :: toks)
    (h : begins pToken.hashId pMatch = false) :
    patternMatch fRule mode pStop fOverflow pMatch state p = (state, none) := by
  induction pMatch with
  | nil => simp [begins] at h
  | cons element rest ih =>
    rw [patternMatch.eq_def]
    by_cases heos : isEos (state.line.toksAt p)
    · have helement : element.isOptional = false := by
        cases element with
        | optional token pMTokens => simp [begins] at h
        | _ => rfl
      simp [heos, matchEnd_of_not_optional helement]
    · cases element with
      | word token =>
        have hequal : pToken.equal token mode = false := by
          by_contra hequal
          have hletter := Token.hashId_of_equal (by simpa using hequal)
          simp [begins, hletter] at h
        have helement :
            matchElement fRule mode pStop (.word token) rest state p = (state, none) :=
          matchElement_none (by simp [tokenMatch, htoks, hequal])
        simp [heos, helement]
      | marker kind token index =>
        cases kind with
        | restrict pMTokens =>
          simp only [begins, Bool.or_eq_false_iff] at h
          have hmatch : restrictMatch mode (pToken :: toks) (pToken :: toks) pMTokens = _ :=
            restrictMatch_of_not_begins h.1
          cases hempty : hasEmpty pMTokens with
          | false =>
            have helement : matchElement fRule mode pStop
                (.marker (.restrict pMTokens) token index) rest state p =
                  (state, none) :=
              matchElement_none (by simp [tokenMatch, htoks, hmatch, hempty])
            simp [heos, helement]
          | true =>
            have helement : matchElement fRule mode pStop
                (.marker (.restrict pMTokens) token index) rest state p =
                  (state, some p) :=
              matchElement_empty (Line.lt_of_not_isEos heos).le
                (by simp [tokenMatch, htoks, hmatch, hempty])
            rw [hempty, Bool.true_and] at h
            simp [heos, helement, ih h.2]
        | _ => simp [begins] at h
      | optional token pMTokens => simp [begins] at h

section

variable {line : Line n} {fCommand : Bool} (htoks : line.toks = pToken :: toks)

include htoks

theorem patternCmp_of_not_begins (h : begins pToken.hashId pRule.pMatch = false) :
    patternCmp pRule line fCommand = (⟨line, pRule.pMarkers, none⟩, false) := by
  have hmatch : patternMatch false pRule.mode none false pRule.pMatch
      ⟨line, pRule.pMarkers, none⟩ 0 = _ :=
    patternMatch_of_not_begins (by simpa [Line.toksAt] using htoks) h
  rw [patternCmp, hmatch]

theorem firstMatch_of_not_begins (h : ∀ pRule ∈ rules, begins pToken.hashId pRule.pMatch = false) :
    firstMatch fCommand rules line = (line, none) := by
  induction rules with
  | nil => rfl
  | cons pRule rest ih =>
    rw [firstMatch, patternCmp_of_not_begins htoks (h pRule (by simp))]
    exact ih fun pRule hrule => h pRule (by simp [hrule])

end

def Registered (tables : Tables) : Prop :=
  ∀ kind, ∀ pRule ∈ tables.rules kind, ∀ c, begins c pRule.pMatch = true →
    tables.pMap kind c = true

section Step

variable {iMaxCycles : Nat} {pFile : Source}

theorem Registered.not_begins (hreg : Registered tables)
    (h : tables.pMap kind pToken.hashId = false) :
    ∀ pRule ∈ tables.rules kind, begins pToken.hashId pRule.pMatch = false := by
  intro pRule hrule
  by_contra hbegins
  have hmap := hreg kind pRule hrule pToken.hashId (by simpa using hbegins)
  rw [h] at hmap
  exact Bool.false_ne_true hmap

theorem Registered.defineFind_none (hreg : Registered tables)
    (h : tables.pMap .define pToken.hashId = false) : defineFind tables pToken = none := by
  rw [defineFind, find?_eq_none]
  intro pRule hrule hequal
  have hbegins := hreg.not_begins h pRule hrule
  unfold headEqual at hequal
  split at hequal
  · rename_i token rest hmatch
    rw [hmatch, begins, decide_eq_false_iff_not] at hbegins
    exact hbegins (Token.hashId_of_equal hequal).symm
  · exact absurd hequal (by simp)

theorem Registered.firstMatch_none (hreg : Registered tables) (fCommand : Bool) (htoks : toks ≠ [])
    (h : lookAt tables.pMap kind toks = false) :
    firstMatch fCommand (tables.rules kind) (Line.ofToks toks) = (Line.ofToks toks, none) := by
  obtain ⟨pToken, rest, rfl⟩ := exists_cons_of_ne_nil htoks
  exact firstMatch_of_not_begins rfl (hreg.not_begins h)

def lookEverywhere : LetterMap := fun _ _ => true

theorem lookAt_everywhere (htoks : toks ≠ []) :
    lookAt lookEverywhere kind toks = true := by
  obtain ⟨pToken, rest, rfl⟩ := exists_cons_of_ne_nil htoks
  rfl

section

variable (hreg : Registered tables)

include hreg

theorem Registered.defineStep_eq (c : Config) : defineStep tables iMaxCycles pFile tables.pMap c =
      defineStep tables iMaxCycles pFile lookEverywhere c := by
  unfold defineStep
  split
  · rfl
  · rename_i pToken rest htoks
    split
    · rfl
    · cases hmap : tables.pMap .define pToken.hashId with
      | true => rfl
      | false => simp [lookEverywhere, hreg.defineFind_none hmap]

theorem Registered.translateStep_eq (c : Config) :
    translateStep tables iMaxCycles pFile tables.pMap c =
      translateStep tables iMaxCycles pFile lookEverywhere c := by
  unfold translateStep
  split
  · rfl
  · rename_i hinner
    cases hfInner : c.fInner with
    | true => rfl
    | false =>
      have htoks : c.toks ≠ [] := by
        rintro hnil
        simp [hfInner, hnil, isEos] at hinner
      cases hmap : lookAt tables.pMap .translate c.toks with
      | true => rw [lookAt_everywhere htoks]
      | false =>
        have hfirst := hreg.firstMatch_none false htoks hmap
        simp only [Tables.rules] at hfirst
        simp [lookAt_everywhere htoks, hfirst]
        rfl

theorem Registered.commandStep_eq (c : Config) : commandStep tables iMaxCycles pFile tables.pMap c =
      commandStep tables iMaxCycles pFile lookEverywhere c := by
  unfold commandStep
  cases heoc : isEoc c.toks with
  | true => rfl
  | false =>
    have htoks : c.toks ≠ [] := by
      rintro hnil
      simp [hnil, isEoc] at heoc
    cases hmap : lookAt tables.pMap .command c.toks with
    | true => rw [lookAt_everywhere htoks]
    | false =>
      have hfirst := hreg.firstMatch_none true htoks hmap
      simp only [Tables.rules] at hfirst
      simp [lookAt_everywhere htoks, hfirst]

theorem Registered.step_eq :
    step tables iMaxCycles pFile tables.pMap = step tables iMaxCycles pFile lookEverywhere := by
  funext c
  unfold step
  cases c.phase with
  | define => exact hreg.defineStep_eq c
  | translate => exact hreg.translateStep_eq c
  | command => exact hreg.commandStep_eq c
  | _ => rfl

theorem Registered.lookAt (hrule : pRule ∈ tables.rules kind) {line : Line n} {fCommand : Bool}
    (hline : line.toks ≠ []) (h : (patternCmp pRule line fCommand).2 = true) :
    lookAt tables.pMap kind line.toks = true := by
  obtain ⟨pToken, toks, htoks⟩ := exists_cons_of_ne_nil hline
  cases hmap : tables.pMap kind pToken.hashId with
  | true => simp [Process.lookAt, htoks, hmap]
  | false =>
    rw [patternCmp_of_not_begins htoks (hreg.not_begins hmap pRule hrule)] at h
    exact absurd h (by simp)

end

end Step

/-- What has to be so where a rule is stored whose first element is a restricted marker:
each letter it can begin with is the one of the name of the marker or is in the map already. -/
def CoversRestricted (pMap : LetterMap) (kind : RuleKind) : List Pattern → Prop
  | .marker (.restrict pMTokens) token index :: rest =>
    ∀ c, begins c (.marker (.restrict pMTokens) token index :: rest) = true →
      pMap kind c = true ∨ c = token.hashId
  | _ => True

def DirectiveCovers (tables : Tables) : Directive → Prop
  | .directive _ pMatch _ _ fCommand false =>
    CoversRestricted tables.pMap (directiveKind fCommand) pMatch
  | _ => True

/-- The tables that a sequence of directives makes of the standard rules, where every rule
that starts with a restricted marker is covered as it is stored. -/
inductive Reached : Tables → Prop where
  | std (tables : Tables)
      (hstored : ∀ kind, ∀ pRule ∈ tables.rules kind, pRule.pMatch ≠ [])
      (hcovers : ∀ kind, ∀ pRule ∈ tables.rules kind,
        CoversRestricted (setStdBase tables).pMap kind pRule.pMatch) :
      Reached (setStdBase tables)
  | apply {tables : Tables} (d : Directive) (hreached : Reached tables)
      (hcovers : DirectiveCovers tables d) : Reached (tables.apply d)

theorem begins_cases (hcovers : CoversRestricted pMap kind (element :: rest))
    (h : begins c (element :: rest) = true) :
    (element.isMatch = true ∨ c = element.token.hashId) ∨ pMap kind c = true := by
  cases element with
  | word token =>
    have hletter : token.hashId = c := by simpa [begins] using h
    exact Or.inl (Or.inr hletter.symm)
  | marker type token index =>
    cases type with
    | restrict pMTokens =>
      rcases hcovers c h with hmap | hletter
      · exact Or.inr hmap
      · exact Or.inl (Or.inr hletter)
    | _ => exact Or.inl (Or.inl rfl)
  | optional token pMTokens => exact Or.inl (Or.inl rfl)

theorem ruleSetId_mono {pMatch : Pattern} (h : pMap kind c = true) :
    ruleSetId pMap pMatch id kind c = true := by
  simp [ruleSetId, h]

theorem ruleSetId_head (h : element.isMatch = true ∨ c = element.token.hashId) :
    ruleSetId pMap element id id c = true := by
  rcases h with h | h <;> simp [ruleSetId, h]

theorem ruleListSetId_mono (h : pMap kind c = true) :
    ruleListSetId pMap id rules kind c = true := by
  induction rules generalizing pMap with
  | nil => exact h
  | cons pRule rest ih =>
    cases hmatch : pRule.pMatch with
    | nil => simpa only [ruleListSetId, hmatch] using ih h
    | cons element tail =>
      simp only [ruleListSetId, hmatch]
      split
      · exact ruleSetId_mono h
      · exact ih (ruleSetId_mono h)

theorem ruleListSetId_head (hrule : pRule ∈ rules) (hmatch : pRule.pMatch = element :: rest)
    (h : element.isMatch = true ∨ c = element.token.hashId) :
    ruleListSetId pMap id rules id c = true := by
  induction rules generalizing pMap with
  | nil => simp at hrule
  | cons first others ih =>
    rcases mem_cons.mp hrule with rfl | hother
    · simp only [ruleListSetId, hmatch]
      split
      · exact ruleSetId_head h
      · exact ruleListSetId_mono (ruleSetId_head h)
    · cases hmatch' : first.pMatch with
      | nil => simpa only [ruleListSetId, hmatch'] using ih hother
      | cons element' tail =>
        simp only [ruleListSetId, hmatch']
        split
        · rename_i hall
          exact ruleSetId_head (Or.inl hall)
        · exact ih hother

theorem setStdBase_head (hrule : pRule ∈ tables.rules kind)
    (hmatch : pRule.pMatch = element :: rest)
    (h : element.isMatch = true ∨ c = element.token.hashId) :
    (setStdBase tables).pMap kind c = true := by
  cases kind with
  | define => exact ruleListSetId_mono (ruleListSetId_mono (ruleListSetId_head hrule hmatch h))
  | translate => exact ruleListSetId_mono (ruleListSetId_head hrule hmatch h)
  | command => exact ruleListSetId_head hrule hmatch h

theorem registered_setStdBase (hstored : ∀ kind, ∀ pRule ∈ tables.rules kind, pRule.pMatch ≠ [])
    (hcovers : ∀ kind, ∀ pRule ∈ tables.rules kind,
      CoversRestricted (setStdBase tables).pMap kind pRule.pMatch) :
    Registered (setStdBase tables) := by
  intro kind pRule hrule c hbegins
  have hrule' : pRule ∈ tables.rules kind := by cases kind <;> exact hrule
  obtain ⟨element, rest, hmatch⟩ := exists_cons_of_ne_nil (hstored kind pRule hrule')
  have hcovers := hcovers kind pRule hrule'
  rw [hmatch] at hbegins hcovers
  rcases begins_cases hcovers hbegins with hhead | hmap
  · exact setStdBase_head hrule' hmatch hhead
  · exact hmap

theorem Registered.of_subset {tables' : Tables} (hreg : Registered tables)
    (hrules : ∀ kind, ∀ pRule ∈ tables'.rules kind, pRule ∈ tables.rules kind ∨
      ∀ c, begins c pRule.pMatch = true → tables'.pMap kind c = true)
    (hmap : ∀ kind c, tables.pMap kind c = true → tables'.pMap kind c = true) :
    Registered tables' := by
  intro kind pRule hrule c hbegins
  rcases hrules kind pRule hrule with hold | hnew
  · exact hmap kind c (hreg kind pRule hold c hbegins)
  · exact hnew c hbegins

theorem mem_replaceFirst (h : pRule ∈ replaceFirst name pNew rules) :
    pRule = pNew ∨ pRule ∈ rules := by
  induction rules with
  | nil => simp [replaceFirst] at h
  | cons first rest ih =>
    rw [replaceFirst] at h
    split at h
    · rcases mem_cons.mp h with rfl | h
      · exact Or.inl rfl
      · exact Or.inr (mem_cons_of_mem _ h)
    · rcases mem_cons.mp h with rfl | h
      · exact Or.inr mem_cons_self
      · rcases ih h with rfl | h
        · exact Or.inl rfl
        · exact Or.inr (mem_cons_of_mem _ h)

theorem mem_defineAdd (h : pRule ∈ (defineAdd tables name pNew).pDefinitions) :
    pRule = pNew ∨ pRule ∈ tables.pDefinitions := by
  unfold defineAdd at h
  split at h
  · exact mem_replaceFirst h
  · exact mem_cons.mp h

theorem Registered.defineAdd (hreg : Registered tables) (name : Token) (params : List Pattern)
    (pResult : List Result) (markers : Nat) :
    Registered (defineAdd tables name (defineRule name params pResult markers)) := by
  refine hreg.of_subset ?_ fun kind c h => ruleSetId_mono h
  intro kind pRule hrule
  cases kind with
  | define =>
    rcases mem_defineAdd hrule with rfl | hold
    · refine Or.inr fun c hbegins => ruleSetId_head (Or.inr ?_)
      exact (of_decide_eq_true hbegins).symm
    · exact Or.inl hold
  | translate => exact Or.inl hrule
  | command => exact Or.inl hrule

theorem rules_setRules (tables : Tables) (rules : List Rule) (id kind : RuleKind) :
    (tables.setRules rules id).rules kind = if kind = id then rules else tables.rules kind := by
  cases id <;> cases kind <;> rfl

theorem pMap_setRules (tables : Tables) (rules : List Rule) (id : RuleKind) :
    (tables.setRules rules id).pMap = tables.pMap := by
  cases id <;> rfl

section

variable (hreg : Registered tables)

include hreg

theorem Registered.directiveNew (pRule : Rule) (fCommand fDelete : Bool)
    (hcovers : fDelete = false → CoversRestricted tables.pMap (directiveKind fCommand)
      pRule.pMatch) :
    Registered (directiveNew tables pRule fCommand fDelete) := by
  unfold Rules.directiveNew
  split
  · exact hreg
  · rename_i element rest hmatch
    split
    · refine hreg.of_subset ?_ fun kind c h => by rwa [pMap_setRules]
      intro kind other hother
      rw [rules_setRules] at hother
      split at hother
      · rename_i hkind
        rw [hkind]
        exact Or.inl (mem_of_mem_eraseP hother)
      · exact Or.inl hother
    · rename_i hdelete
      refine hreg.of_subset ?_ fun kind c h => ruleSetId_mono h
      intro kind other hother
      have hrules : other ∈ (tables.setRules (pRule :: tables.rules (directiveKind fCommand))
          (directiveKind fCommand)).rules kind := by cases kind <;> exact hother
      rw [rules_setRules] at hrules
      split at hrules
      · rename_i hkind
        subst hkind
        rcases mem_cons.mp hrules with rfl | hold
        · refine Or.inr fun c hbegins => ?_
          have hcovers := hcovers (by simpa using hdelete)
          rw [hmatch] at hcovers hbegins
          rcases begins_cases hcovers hbegins with hhead | hmap
          · exact ruleSetId_head hhead
          · exact ruleSetId_mono hmap
        · exact Or.inl hold
      · exact Or.inl hrules

theorem Registered.defineDel (pToken : Token) : Registered (defineDel tables pToken) := by
  refine hreg.of_subset ?_ fun kind c h => h
  intro kind pRule hrule
  cases kind with
  | define => exact Or.inl (mem_of_mem_eraseP hrule)
  | translate => exact Or.inl hrule
  | command => exact Or.inl hrule

theorem Registered.apply (d : Directive) (hcovers : DirectiveCovers tables d) :
    Registered (tables.apply d) := by
  cases d with
  | define name params pResult markers =>
    simp only [Tables.apply]
    split
    · exact hreg.defineAdd name params pResult markers
    · exact hreg
  | undef name =>
    simp only [Tables.apply]
    split
    · exact hreg.defineDel name
    · exact hreg
  | directive mode pMatch pResult canrepeat fCommand fDelete =>
    refine hreg.directiveNew _ fCommand fDelete ?_
    rintro rfl
    exact hcovers

end

theorem Reached.registered (h : Reached tables) : Registered tables := by
  induction h with
  | std tables hstored hcovers => exact registered_setStdBase hstored hcovers
  | apply d hreached hcovers ih => exact ih.apply d hcovers

/-- In every run whose rules with a restricted first marker are covered, the letter of a token
where a rule applies is in the map, and the test of the map changes no step. -/
theorem firstLetter_transparent (tables : Tables) (h : Reached tables) :
    (∀ (kind : RuleKind) (pRule : Rule), pRule ∈ tables.rules kind →
      ∀ (n : Nat) (line : Line n) (fCommand : Bool), line.toks ≠ [] →
        (patternCmp pRule line fCommand).2 = true →
          lookAt tables.pMap kind line.toks = true) ∧
      ∀ (iMaxCycles : Nat) (pFile : Source),
        step tables iMaxCycles pFile tables.pMap =
          step tables iMaxCycles pFile lookEverywhere := by
  have hreg := h.registered
  constructor
  · intro kind pRule hrule n line fCommand hline happlies
    exact hreg.lookAt hrule hline happlies
  · intro iMaxCycles pFile
    exact hreg.step_eq

def fooPattern (name : UInt8) : List Pattern :=
  [.marker (.restrict [⟨[70, 79, 79], .keyword, 1⟩]) ⟨[name], .keyword, 0⟩ 0]

def fooDirective (name : UInt8) : Directive :=
  .directive .dbase (fooPattern name) [.token ⟨[66, 65, 82], .keyword, 1⟩] [] false false

theorem firstLetter_transparent_named :
    Reached ((setStdBase emptyTables).apply (fooDirective 102)) ∧
      ∀ (iMaxCycles : Nat) (pFile : Source),
        step ((setStdBase emptyTables).apply (fooDirective 102)) iMaxCycles pFile
            ((setStdBase emptyTables).apply (fooDirective 102)).pMap =
          step ((setStdBase emptyTables).apply (fooDirective 102)) iMaxCycles pFile
            lookEverywhere := by
  have hstd : Reached (setStdBase emptyTables) := by
    refine Reached.std emptyTables ?_ ?_ <;> intro kind pRule hrule <;> cases kind <;> cases hrule
  have hreached : Reached ((setStdBase emptyTables).apply (fooDirective 102)) := by
    refine Reached.apply _ hstd fun c hbegins => Or.inr ?_
    simp [begins, restrictBegins, hasEmpty, loneAmpersand, afterComma] at hbegins
    exact hbegins ▸ rfl
  exact ⟨hreached, (firstLetter_transparent _ hreached).2⟩

def restrictRule : Rule :=
  ruleNew .dbase (fooPattern 120) [.token ⟨[66, 65, 82], .keyword, 1⟩] []

def restrictTables : Tables := (setStdBase emptyTables).apply (fooDirective 120)

def fooLine : List Token := [⟨[70, 79, 79], .keyword, 0⟩, ⟨[10], .eol, 0⟩]

theorem patternCmp_restrictRule :
    patternCmp restrictRule (Line.ofToks fooLine) false =
      (⟨Line.ofToks fooLine, [], some 1⟩, true) := by
  have hwords : restrictMatch .dbase fooLine fooLine [⟨[70, 79, 79], .keyword, 1⟩] =
      some (fooLine.drop 1) := by
    simp [restrictMatch, fooLine, loneAmpersand, isEoc, Token.equal, Token.valueCmp, stricmp,
      cString, HB_TOUPPER]
  have hmatch (fRule : Bool) (pNextExpr : Option Nat) :
      patternMatch fRule .dbase none false restrictRule.pMatch
          ⟨Line.ofToks fooLine, [], pNextExpr⟩ 0 =
        (⟨Line.ofToks fooLine, [], if fRule then some 1 else pNextExpr⟩, some 1) := by
    simp [patternMatch, matchElement, tokenMatch, restrictRule, ruleNew, fooPattern,
      Line.toksAt, fooLine, Line.set, Line.ofToks, isEos, matchEnd, index] at hwords ⊢
    simp [hwords]
    cases fRule <;> rfl
  have hmode : restrictRule.mode = .dbase := rfl
  have hmarkers : restrictRule.pMarkers = [] := rfl
  simp [patternCmp, hmode, hmarkers, hmatch]

theorem firstLetter_hides_restricted :
    restrictRule ∈ restrictTables.rules .translate ∧
      (patternCmp restrictRule (Line.ofToks fooLine) false).2 = true ∧
      lookAt restrictTables.pMap .translate fooLine = false ∧
      step restrictTables 4096 ⟨[], 0⟩ restrictTables.pMap
          { startLine fooLine with phase := .translate } ≠
        step restrictTables 4096 ⟨[], 0⟩ lookEverywhere
          { startLine fooLine with phase := .translate } := by
  have hrules : restrictTables.pTranslations = [restrictRule] := rfl
  have hhidden : lookAt restrictTables.pMap .translate fooLine = false := by decide
  refine ⟨by simp [Tables.rules, hrules], by rw [patternCmp_restrictRule], hhidden, ?_⟩
  have hfirst : firstMatch false restrictTables.pTranslations (Line.ofToks fooLine) =
      (Line.ofToks fooLine, some (restrictRule, ⟨Line.ofToks fooLine, [], some 1⟩)) := by
    rw [hrules, firstMatch, patternCmp_restrictRule]
  have heos : isEos fooLine = false := by decide
  have hlook : lookAt lookEverywhere .translate fooLine = true := by decide
  simp only [step, startLine, translateStep, heos, hhidden, hlook, hfirst, Bool.and_false,
    Bool.or_true, Bool.or_false, if_true, if_false, Bool.false_eq_true]
  simp [moveOn, substitute, patternReplace, restrictRule, ruleNew, patternStuff, resultToks,
    maxRepeats, fooLine]

end Harbour.Pp.FirstLetter
