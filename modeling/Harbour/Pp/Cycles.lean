import Harbour.Pp.Turns
import Mathlib.Logic.Relation

/-!
The counters that end an expansion: over any sequence of lines, directives and conditional
directives, how many substitutions there are and which errors of cyclic rules are given.
-/

namespace Harbour.Pp.Cycles

open Tokens Matching Patterns Replace Rules Process Turns

/-- What the preprocessor keeps from one line to the next. The counters are of type `int`, so
the limit leaves them room for two more: one that is beyond it is increased again. -/
structure Session where
  tables : Tables
  iMaxCycles : Nat
  iCycle : Nat
  fits : iMaxCycles + 2 < 2 ^ 31

/-- The substitutions of the line or expression so far, and those of them since the pointer
has come to its position. -/
structure Counts where
  substs : Nat
  here : Nat

def Counts.after (counts : Counts) : Label → Counts
  | .subst _ => ⟨counts.substs + 1, counts.here + 1⟩
  | .cyclic _ => ⟨counts.substs + 1, counts.here + 1⟩
  | .moved => ⟨counts.substs, 0⟩

inductive State where
  | idle (session : Session)
  | busy (session : Session) (pFile : Source) (c : Config) (counts : Counts)

def Session.step (session : Session) (pFile : Source) (c : Config) : Outcome :=
  Process.step session.tables session.iMaxCycles pFile session.tables.pMap c

/-- The steps of a preprocessor: a directive, a pragma that sets the limit, the start of a line
or of the expression of `#if` or `#elif`, a step of its expansion, and its end. -/
inductive Next : State → State → Prop where
  | directive (session : Session) (d : Directive) :
      Next (.idle session) (.idle { session with tables := session.tables.apply d })
  | recurseLevel (session : Session) (iMaxCycles : Nat) (fits : iMaxCycles + 2 < 2 ^ 31) :
      Next (.idle session) (.idle { session with iMaxCycles, fits })
  | line (session : Session) (pFile : Source) (toks : List Token) :
      Next (.idle session) (.busy session pFile (startLine toks) ⟨0, 0⟩)
  | condition (session : Session) (pFile : Source) (toks : List Token) :
      Next (.idle session) (.busy session pFile (startCondition session.iCycle toks) ⟨0, 0⟩)
  | step {session : Session} {pFile : Source} {c c' : Config} {label : Label} (counts : Counts)
      (hstep : session.step pFile c = .next label c') :
      Next (.busy session pFile c counts) (.busy session pFile c' (counts.after label))
  | finish {session : Session} {pFile : Source} {c : Config} (counts : Counts)
      (hstep : session.step pFile c = .final) :
      Next (.busy session pFile c counts) (.idle { session with iCycle := c.iCycle })

/-- Whether one of the definitions applies to a token. Those in front of it have been compared
before, which may have changed the types of the tokens behind them. -/
def applies (tables : Tables) : List Token → Bool
  | [] => false
  | pToken :: rest =>
    if isEos (pToken :: rest) then false
    else if decide (pToken.type = .keyword) && tables.pMap .define pToken.hashId then
      match defineFind tables pToken with
      | some pRule =>
        match patternCmp pRule (Line.ofToks (pToken :: rest)) false with
        | (_, true) => true
        | (state, false) => applies tables state.line.toks.tail
      | none => applies tables rest
    else applies tables rest
termination_by toks => toks.length
decreasing_by
  · have hsize := state.line.size
    simp only [List.length_tail, List.length_cons] at hsize ⊢
    omega
  · simp
  · simp

/-- The condition on a step: an expression that a definition applies to starts with the counter at
zero, and a pass over the definitions does not start again where a substitution has been made. -/
def Clean : State → State → Prop
  | .idle session, .busy _ _ c _ =>
    c.fLine = true ∨ session.iCycle = 0 ∨ applies session.tables c.toks = false
  | .busy _ _ c counts, .busy _ _ _ _ => Repeats c → counts.here = 0
  | _, .idle _ => True

def CleanNext (state state' : State) : Prop := Next state state' ∧ Clean state state'

/-- The line or expression has needed more substitutions than one of the limits allows. -/
def Justified (session : Session) (kind : RuleKind) (counts : Counts) : Prop :=
  session.iMaxCycles < counts.substs + 1 ∨
    maxRepeats + (session.tables.rules kind).length < counts.here + 1

def Bounded : State → Prop
  | .idle _ => True
  | .busy session _ c counts =>
    counts.substs ≤ session.iMaxCycles + 1 ∧
      (c.phase ≠ .done → counts.substs ≤ c.iCycle) ∧
      (Active c → counts.substs ≤ session.iMaxCycles)

variable {c c' : Config} {label : Label} {pFile : Source} {session : Session} {counts : Counts}
  {state state' : State}

theorem Bounded.turn (h : Bounded (.busy session pFile c counts))
    (hturn : Turn session.tables session.iMaxCycles c label c') :
    Bounded (.busy session pFile c' (counts.after label)) := by
  obtain ⟨hsubsts, hcount, hwithin⟩ := h
  cases label with
  | subst kind =>
    cases hturn with
    | subst kind toks hactive hlimits =>
      have hcount := hcount hactive.ne_done
      obtain ⟨hlimit, -⟩ := hlimits
      refine ⟨?_, fun _ => ?_, fun _ => ?_⟩ <;> simp only [Counts.after] <;> omega
  | cyclic kind =>
    cases hturn with
    | cyclic kind hactive hlimits hcycle hline hphase =>
      have hwithin := hwithin hactive
      refine ⟨?_, fun _ => ?_, fun h => ?_⟩
      · simp only [Counts.after]
        omega
      · simp only [Counts.after, hcycle]
        omega
      · rcases h.cases with h | h | h <;> rw [hphase] at h <;> split at h <;> simp at h
  | moved =>
    have hmoved := hturn.moved
    have hcount := hcount hmoved.phase
    refine ⟨hsubsts, fun _ => hmoved.iCycle ▸ hcount, fun h => ?_⟩
    rcases hmoved.active h with hactive | ⟨-, hcycle⟩
    · exact hwithin hactive
    · exact hcount.trans hcycle

theorem Bounded.next (h : Bounded state) (hnext : Next state state') :
    Bounded state' := by
  cases hnext with
  | directive => trivial
  | recurseLevel => trivial
  | line | condition => exact ⟨Nat.zero_le _, fun _ => Nat.zero_le _, fun _ => Nat.zero_le _⟩
  | step counts hstep => exact h.turn (step_turns hstep)
  | finish => trivial

/-- In an expansion that has started and gone on as the condition says, the counters count no
more than what has been done. -/
def Honest : State → Prop
  | .idle _ => True
  | .busy session _ c counts =>
    (Active c → c.iCycle ≤ counts.substs ∧ c.iRepeat ≤ counts.here) ∧
      (c.phase = .top → c.iCycle ≤ counts.substs ∨ session.iMaxCycles < c.iCycle) ∧
      (c.phase = .translate → c.fInner = false → c.iRepeat = 0)

/-- An expression that no definition applies to. -/
def Untouched : State → Prop
  | .idle _ => True
  | .busy session _ c _ =>
    c.fLine = false ∧ (c.phase = .done ∨
      c.phase = .define ∧ c.fRepeat = false ∧ applies session.tables c.toks = false)

theorem Honest.turn (h : Honest (.busy session pFile c counts))
    (hclean : Repeats c → counts.here = 0)
    (hturn : Turn session.tables session.iMaxCycles c label c') :
    Honest (.busy session pFile c' (counts.after label)) := by
  obtain ⟨hcounts, htop, hinner⟩ := h
  cases label with
  | subst kind =>
    cases hturn with
    | subst kind toks hactive hlimits =>
      obtain ⟨hcycle, hrepeat⟩ := hcounts hactive
      refine ⟨fun _ => ⟨?_, ?_⟩, fun h => ?_, fun _ h => ?_⟩
      · exact Nat.succ_le_succ hcycle
      · exact Nat.succ_le_succ hrepeat
      · exact absurd hactive (not_active_of_top h)
      · simp at h
  | cyclic kind =>
    cases hturn with
    | cyclic kind hactive hlimits hcycle hline hphase =>
      refine ⟨fun h => ?_, fun _ => Or.inr (by omega), fun h => ?_⟩
      · rcases h.cases with h | h | h <;> rw [hphase] at h <;> split at h <;> simp at h
      · rw [hphase] at h
        split at h <;> simp at h
  | moved =>
    have hmoved := hturn.moved
    have hrepeats (hrepeats : Repeats c) : c.iRepeat = 0 := by
      have hhere := (hcounts (by simp [Active, hrepeats.1])).2
      rwa [hclean hrepeats, Nat.le_zero] at hhere
    have hzero (hactive : Active c') : c'.iRepeat = 0 := by
      rcases hmoved.iRepeat hactive with hzero | ⟨hsame, hagain | ⟨hphase, hfInner⟩⟩
      · exact hzero
      · exact hsame.trans (hrepeats hagain)
      · exact hsame.trans (hinner hphase hfInner)
    refine ⟨fun hactive => ⟨?_, ?_⟩, fun h => ?_, fun h _ => hzero (by simp [Active, h])⟩
    · rw [hmoved.iCycle]
      rcases hmoved.active hactive with hold | ⟨hphase, hcycle⟩
      · exact (hcounts hold).1
      · rcases htop hphase with hcount | hover
        · exact hcount
        · omega
    · rw [hzero hactive]
      exact Nat.zero_le _
    · rw [hmoved.iCycle]
      exact Or.inl (hcounts (hmoved.top h)).1

theorem moveOn_untouched {toks : List Token} {pPrev : Option Nat}
    (hline : c.fLine = false) (hphase : c.phase = .define) (hrepeat : c.fRepeat = false)
    (happlies : applies session.tables toks.tail = false)
    (hstep : moveOn { c with toks, pPrev } = .next label c') :
    label = .moved ∧ Untouched (.busy session pFile c' counts) := by
  unfold moveOn at hstep
  dsimp only at hstep
  split at hstep
  · simp at hstep
  · cases hstep
    exact ⟨rfl, hline, Or.inr ⟨hphase, hrepeat, happlies⟩⟩

theorem passEnd_untouched (hline : c.fLine = false) (hrepeat : c.fRepeat = false)
    (hstep : defineStep.passEnd c = .next label c') :
    label = .moved ∧ Untouched (.busy session pFile c' counts) := by
  unfold defineStep.passEnd at hstep
  rw [hrepeat] at hstep
  split at hstep
  · cases ‹false = true›
  · cases hstep
    refine ⟨rfl, ?_⟩
    rw [Config.leave, hline]
    exact ⟨hline, Or.inl rfl⟩

theorem Untouched.step (h : Untouched (.busy session pFile c counts))
    (hstep : session.step pFile c = .next label c') :
    label = .moved ∧ Untouched (.busy session pFile c' counts) := by
  obtain ⟨hline, hphase | ⟨hphase, hrepeat, happlies⟩⟩ := h
  · simp [Session.step, Process.step, hphase] at hstep
  simp only [Session.step, Process.step, hphase] at hstep
  obtain ⟨phase, fLine, before, toks, pPrev, fSubst, fRepeat, fInner, iCycle, iRepeat⟩ := c
  unfold defineStep at hstep
  dsimp only at hstep happlies
  cases toks with
  | nil => exact passEnd_untouched hline hrepeat hstep
  | cons pToken rest =>
    unfold applies at happlies
    dsimp only at hstep
    split at hstep
    · exact passEnd_untouched hline hrepeat hstep
    rename_i heos
    rw [if_neg heos] at happlies
    split at hstep
    · rename_i hlook
      rw [if_pos hlook] at happlies
      split at hstep
      · rename_i pRule hfind
        rw [hfind] at happlies
        dsimp only at happlies
        split at hstep
        · rename_i state hcmp
          rw [hcmp] at happlies
          cases happlies
        · rename_i state hcmp
          rw [hcmp] at happlies
          exact moveOn_untouched hline hphase hrepeat happlies hstep
      · rename_i hfind
        rw [hfind] at happlies
        have hrest : applies session.tables (pToken :: rest).tail = false := happlies
        exact moveOn_untouched hline hphase hrepeat hrest hstep
    · rename_i hlook
      rw [if_neg hlook] at happlies
      have hrest : applies session.tables (pToken :: rest).tail = false := happlies
      exact moveOn_untouched hline hphase hrepeat hrest hstep

theorem Honest.justified {kind : RuleKind} (h : Honest (.busy session pFile c counts))
    (hturn : Turn session.tables session.iMaxCycles c (.cyclic kind) c') :
    Justified session kind counts := by
  cases hturn with
  | cyclic kind hactive hlimits hcycle hline hphase =>
    obtain ⟨hcycles, hrepeats⟩ := h.1 hactive
    unfold WithinLimits at hlimits
    unfold Justified
    omega

/-- What holds in a run whose steps meet the condition. -/
def Sound (state : State) : Prop := Honest state ∨ Untouched state

theorem Sound.next (h : Sound state) (hnext : CleanNext state state') : Sound state' := by
  obtain ⟨hnext, hclean⟩ := hnext
  cases hnext with
  | directive => exact Or.inl trivial
  | recurseLevel => exact Or.inl trivial
  | line =>
    exact Or.inl ⟨fun h => absurd h (not_active_of_top rfl), fun _ => Or.inl (Nat.le_refl 0),
      fun _ _ => rfl⟩
  | condition =>
    rcases hclean with hline | hzero | happlies
    · simp [startCondition] at hline
    · exact Or.inl ⟨fun _ => ⟨hzero.le, Nat.le_refl 0⟩, fun h => by simp [startCondition] at h,
        fun _ _ => rfl⟩
    · exact Or.inr ⟨rfl, Or.inr ⟨rfl, rfl, happlies⟩⟩
  | step counts hstep =>
    rcases h with h | h
    · exact Or.inl (h.turn hclean (step_turns hstep))
    · exact Or.inr (h.step hstep).2
  | finish => exact Or.inl trivial

theorem Sound.justified {kind : RuleKind} (h : Sound (.busy session pFile c counts))
    (hstep : session.step pFile c = .next (.cyclic kind) c') : Justified session kind counts := by
  rcases h with h | h
  · exact h.justified (step_turns hstep)
  · cases (h.step hstep).1

theorem Bounded.run (h : Bounded state) (hrun : Relation.ReflTransGen Next state state') :
    Bounded state' := by
  induction hrun with
  | refl => exact h
  | tail _ hnext ih => exact ih.next hnext

theorem Sound.run (h : Sound state) (hrun : Relation.ReflTransGen CleanNext state state') :
    Sound state' := by
  induction hrun with
  | refl => exact h
  | tail _ hnext ih => exact ih.next hnext

/-- Every expansion ends after a bounded number of substitutions, and in a run whose steps
meet the condition an error is given only for a line or expression that needs too many. -/
theorem expansion_ends_and_blames (start : Session) :
    (∀ session pFile c counts,
      Relation.ReflTransGen Next (.idle start) (.busy session pFile c counts) →
        counts.substs ≤ session.iMaxCycles + 1 ∧
          Acc (fun c' c => ∃ label, session.step pFile c = .next label c') c) ∧
      ∀ session pFile c counts,
        Relation.ReflTransGen CleanNext (.idle start) (.busy session pFile c counts) →
          ∀ kind c', session.step pFile c = .next (.cyclic kind) c' →
            Justified session kind counts := by
  constructor
  · intro session pFile c counts hrun
    have hidle : Bounded (.idle start) := trivial
    exact ⟨(hidle.run hrun).1, step_terminates _ _ _ _ c⟩
  · intro session pFile c counts hrun kind c' hstep
    have hidle : Sound (.idle start) := Or.inl trivial
    exact (hidle.run hrun).justified hstep

def oneRule : Rule :=
  defineRule ⟨[66], .keyword, 0⟩ [] [.token ⟨[49], .number, 1⟩] 0

def oneTables : Tables :=
  emptyTables.apply (.define ⟨[66], .keyword, 0⟩ [] [.token ⟨[49], .number, 1⟩] 0)

def bLine : List Token := [⟨[66], .keyword, 0⟩, ⟨[10], .eol, 0⟩]

def oneSession (iMaxCycles iCycle : Nat) (fits : iMaxCycles + 2 < 2 ^ 31) : Session :=
  ⟨oneTables, iMaxCycles, iCycle, fits⟩

theorem patternCmp_oneRule :
    patternCmp oneRule (Line.ofToks bLine) false = (⟨Line.ofToks bLine, [], some 1⟩, true) := by
  have hmatch (fRule : Bool) (pNextExpr : Option Nat) :
      patternMatch fRule .case none false oneRule.pMatch
          ⟨Line.ofToks bLine, [], pNextExpr⟩ 0 =
        (⟨Line.ofToks bLine, [], if fRule then some 1 else pNextExpr⟩, some 1) := by
    simp [patternMatch, matchElement, tokenMatch, oneRule, defineRule, ruleNew, Line.toksAt,
      bLine, Line.set, Line.ofToks, isEos, matchEnd, index, Token.equal, Token.valueCmp, memcmp]
    cases fRule <;> rfl
  have hmode : oneRule.mode = .case := rfl
  have hmarkers : oneRule.pMarkers = [] := rfl
  simp [patternCmp, hmode, hmarkers, hmatch]

def oneLine : List Token := [⟨[49], .number, 0⟩, ⟨[10], .eol, 0⟩]

theorem defineStep_oneRule (iMaxCycles : Nat) (pFile : Source) (c : Config)
    (hphase : c.phase = .define) (htoks : c.toks = bLine) :
    step oneTables iMaxCycles pFile oneTables.pMap c =
      substitute oneTables iMaxCycles pFile c .define oneRule
        ⟨Line.ofToks bLine, [], some 1⟩ := by
  have hfind : defineFind oneTables ⟨[66], .keyword, 0⟩ = some oneRule := by rfl
  have hlook : oneTables.pMap .define (⟨[66], .keyword, 0⟩ : Token).hashId = true := by decide
  obtain ⟨phase, fLine, before, toks, pPrev, fSubst, fRepeat, fInner, iCycle, iRepeat⟩ := c
  subst hphase htoks
  have heos : isEos bLine = false := by decide
  have hcmp := patternCmp_oneRule
  unfold bLine at heos hcmp ⊢
  simp [step, defineStep, heos, hlook, hfind, hcmp]

theorem substitute_oneRule (iMaxCycles : Nat) (pFile : Source) (c : Config) :
    substitute oneTables iMaxCycles pFile c .define oneRule ⟨Line.ofToks bLine, [], some 1⟩ =
      if iMaxCycles < c.iCycle + 1 ∨ 129 < c.iRepeat + 1 then
        .next (.cyclic .define) (Config.leave
          { c with
            toks := oneLine, fSubst := true, fRepeat := true, fInner := true
            iCycle := iMaxCycles + 1 } id)
      else
        .next (.subst .define)
          { c with
            toks := oneLine, fSubst := true, fRepeat := true, fInner := true
            iCycle := c.iCycle + 1, iRepeat := c.iRepeat + 1 } := by
  rfl

theorem expansion_blames_one :
    ∃ c', (oneSession 0 0 (by decide)).step ⟨[], 0⟩ (startCondition 0 bLine) =
        .next (.cyclic .define) c' ∧
      Justified (oneSession 0 0 (by decide)) .define ⟨0, 0⟩ := by
  have hstep : (oneSession 0 0 (by decide)).step ⟨[], 0⟩ (startCondition 0 bLine) = _ :=
    (defineStep_oneRule 0 ⟨[], 0⟩ (startCondition 0 bLine) rfl rfl).trans
      (substitute_oneRule 0 ⟨[], 0⟩ (startCondition 0 bLine))
  have hrun : Relation.ReflTransGen CleanNext (.idle (oneSession 0 0 (by decide)))
      (.busy (oneSession 0 0 (by decide)) ⟨[], 0⟩ (startCondition 0 bLine) ⟨0, 0⟩) :=
    .single ⟨.condition _ _ _, Or.inr (Or.inl rfl)⟩
  exact ⟨_, hstep, (expansion_ends_and_blames _).2 _ _ _ _ hrun _ _ hstep⟩

/-- The second of two tests of `B`, with one substitution allowed, is called cyclic. -/
theorem cyclic_blames_earlier :
    ∃ (start session : Session) (pFile : Source) (c c' : Config) (counts : Counts)
      (kind : RuleKind),
      start.iCycle = 0 ∧
        Relation.ReflTransGen Next (.idle start) (.busy session pFile c counts) ∧
        session.step pFile c = .next (.cyclic kind) c' ∧ ¬ Justified session kind counts := by
  have hone (iCycle : Nat) : (oneSession 1 iCycle (by decide)).step ⟨[], 0⟩
      (startCondition iCycle bLine) = _ :=
    (defineStep_oneRule 1 ⟨[], 0⟩ (startCondition iCycle bLine) rfl rfl).trans
      (substitute_oneRule 1 ⟨[], 0⟩ (startCondition iCycle bLine))
  have hrun : Relation.ReflTransGen Next (.idle (oneSession 1 0 (by decide)))
      (.idle (oneSession 1 1 (by decide))) :=
    .head (.condition _ ⟨[], 0⟩ bLine) <| .head (.step _ (hone 0)) <|
      .head (.step _ rfl) <| .head (.step _ rfl) <| .single (.finish _ rfl)
  refine ⟨oneSession 1 0 (by decide), oneSession 1 1 (by decide), ⟨[], 0⟩,
    startCondition 1 bLine, _, ⟨0, 0⟩, .define, rfl,
    hrun.tail (.condition _ _ _), hone 1, ?_⟩
  intro hjustified
  rcases hjustified with hcycles | hrepeats
  · exact absurd hcycles (by decide)
  · exact absurd hrepeats (by decide)

end Harbour.Pp.Cycles
