import Harbour.Pp.Process
import Mathlib.Data.Prod.Lex
import Mathlib.Order.WellFounded

/-!
What one step of the expansion can do, and that an expansion has an end.
-/

namespace Harbour.Pp.Turns

open Tokens Matching Patterns Replace Rules Process List

/-- The expansion stands inside the loop of one of the three functions. -/
def Active (c : Config) : Prop := c.phase ∈ [.define, .translate, .command]

def WithinLimits (tables : Tables) (iMaxCycles : Nat) (c : Config) (kind : RuleKind) : Prop :=
  c.iCycle + 1 ≤ iMaxCycles ∧ c.iRepeat + 1 ≤ maxRepeats + (tables.rules kind).length

/-- The phase after a function that has made no substitution. -/
def following : Phase → Phase
  | .define => .translate
  | .translate => .command
  | _ => .done

inductive Turn (tables : Tables) (iMaxCycles : Nat) : Config → Label → Config → Prop where
  | subst {c : Config} (kind : RuleKind) (toks : List Token) (hactive : Active c)
      (hlimits : WithinLimits tables iMaxCycles c kind) :
      Turn tables iMaxCycles c (.subst kind)
        { c with
          toks, fSubst := true, fRepeat := true, fInner := true
          iCycle := c.iCycle + 1, iRepeat := c.iRepeat + 1 }
  | cyclic {c c' : Config} (kind : RuleKind) (hactive : Active c)
      (hlimits : ¬ WithinLimits tables iMaxCycles c kind) (hcycle : c'.iCycle = iMaxCycles + 1)
      (hline : c'.fLine = c.fLine) (hphase : c'.phase = if c.fLine then .top else .done) :
      Turn tables iMaxCycles c (.cyclic kind) c'
  | advance {c : Config} (toks : List Token) (pToken : Token) (pPrev : Option Nat)
      (hphase : c.phase = .define ∨ c.phase = .translate)
      (hlength : toks.length + 1 = c.toks.length) :
      Turn tables iMaxCycles c .moved ({ c with pPrev }.advance pToken toks)
  | restart {c : Config} (k : Nat) (hphase : c.phase = .define) (heos : isEos c.toks = true)
      (hprev : c.pPrev = some k) (hrepeat : c.fRepeat = true) :
      Turn tables iMaxCycles c .moved (c.restart k)
  | rewind {c : Config} (hphase : c.phase = .translate) (hinner : c.fInner = false)
      (hrepeat : c.fRepeat = true) :
      Turn tables iMaxCycles c .moved { c.rewind with fRepeat := false }
  | enter {c : Config} (toks : List Token) (hphase : c.phase = .top)
      (hcycle : c.iCycle ≤ iMaxCycles) (hlength : toks.length ≤ c.toks.length) :
      Turn tables iMaxCycles c .moved ({ c with toks }.enter .define)
  | skip {c : Config} (hphase : c.phase = .top) :
      Turn tables iMaxCycles c .moved { c with phase := .done }
  | leave {c : Config} (toks : List Token) (hactive : Active c)
      (hlength : toks.length = c.toks.length) :
      Turn tables iMaxCycles c .moved
        (Config.leave { c with toks } fun c =>
          if following c.phase = .done then { c with phase := .done }
          else c.enter (following c.phase))
  | text {c : Config} (toks : List Token) (hphase : c.phase = .command)
      (hlength : toks.length < c.toks.length) :
      Turn tables iMaxCycles c .moved (Config.leave { c with toks, fSubst := true } id)

theorem concatenateKeywords_length (toks : List Token) :
    (concatenateKeywords toks).length ≤ toks.length := by
  fun_induction concatenateKeywords toks with
  | case1 => rfl
  | case2 => rfl
  | case3 pToken pNext rest hjoin ih => exact ih.trans (by simp)
  | case4 pToken pNext rest hjoin ih => simpa using ih

variable {toks : List Token} {c c' : Config} {iMaxCycles : Nat} {tables : Tables}

theorem tokenListFreeCmd_length (h : toks ≠ []) :
    (tokenListFreeCmd toks).length < toks.length := by
  induction toks with
  | nil => exact absurd rfl h
  | cons pToken rest ih =>
    rw [tokenListFreeCmd]
    split
    · simp
    · cases rest with
      | nil => simp [tokenListFreeCmd]
      | cons pNext rest => exact (ih (by simp)).trans (by simp)

section Step

variable {pFile : Source} {look : LetterMap} {label : Label}

theorem substitute_turns {kind : RuleKind} {pRule : Rule} {n : Nat} {state : Matching n}
    (hactive : Active c)
    (h : substitute tables iMaxCycles pFile c kind pRule state = .next label c') :
    Turn tables iMaxCycles c label c' := by
  unfold substitute at h
  split at h
  · simp at h
  · rename_i toks hreplace
    dsimp only at h
    split at h
    · rename_i hover
      cases h
      refine .cyclic kind hactive ?_ ?_ ?_ ?_
      · unfold WithinLimits
        omega
      · unfold Config.leave
        split <;> simp [Config.rewind]
      · unfold Config.leave
        split <;> simp [Config.rewind]
      · unfold Config.leave
        cases hline : c.fLine <;> simp [Config.rewind]
    · rename_i hunder
      cases h
      refine .subst kind toks hactive ?_
      unfold WithinLimits
      omega

theorem moveOn_turns {pPrev : Option Nat} (hphase : c.phase = .define ∨ c.phase = .translate)
    (hlength : toks.length = c.toks.length) (h : moveOn { c with toks, pPrev } = .next label c') :
    Turn tables iMaxCycles c label c' := by
  unfold moveOn at h
  dsimp only at h
  split at h
  · simp at h
  · rename_i pToken rest
    cases h
    exact .advance (c := c) rest pToken pPrev hphase (by simpa using hlength)

theorem topStep_turns (hphase : c.phase = .top) (h : topStep iMaxCycles c = .next label c') :
    Turn tables iMaxCycles c label c' := by
  unfold topStep at h
  split at h
  · cases h
    exact .skip hphase
  · rename_i hgo
    cases h
    refine .enter _ hphase ?_ (concatenateKeywords_length c.toks)
    simp only [Bool.or_eq_true, decide_eq_true_eq, not_or] at hgo
    omega

theorem leave_turns (hactive : Active c)
    (hnext : c.leave (fun c => if following c.phase = .done then { c with phase := .done }
      else c.enter (following c.phase)) = c') : Turn tables iMaxCycles c .moved c' := by
  subst hnext
  exact .leave c.toks hactive rfl

theorem passEnd_turns (hphase : c.phase = .define) (heos : isEos c.toks = true)
    (h : defineStep.passEnd c = .next label c') : Turn tables iMaxCycles c label c' := by
  unfold defineStep.passEnd at h
  split at h
  · rename_i k hprev hrepeat
    cases h
    exact .restart k hphase heos hprev hrepeat
  · cases h
    refine leave_turns (by simp [Active, hphase]) ?_
    simp [Config.leave, hphase, following]

theorem defineStep_turns (hphase : c.phase = .define)
    (h : defineStep tables iMaxCycles pFile look c = .next label c') :
    Turn tables iMaxCycles c label c' := by
  have hactive : Active c := by simp [Active, hphase]
  unfold defineStep at h
  split at h
  · rename_i hnil
    exact passEnd_turns hphase (by rw [hnil]; rfl) h
  · split at h
    · rename_i heos
      exact passEnd_turns hphase heos h
    · split at h
      · split at h
        · split at h
          · exact substitute_turns hactive h
          · rename_i state hcmp
            exact moveOn_turns (Or.inl hphase) state.line.size h
        · exact moveOn_turns (Or.inl hphase) rfl h
      · exact moveOn_turns (Or.inl hphase) rfl h

theorem translateStep_turns (hphase : c.phase = .translate)
    (h : translateStep tables iMaxCycles pFile look c = .next label c') :
    Turn tables iMaxCycles c label c' := by
  have hactive : Active c := by simp [Active, hphase]
  unfold translateStep at h
  split at h
  · rename_i hinner
    simp only [Bool.and_eq_true, Bool.not_eq_true'] at hinner
    split at h
    · rename_i hrepeat
      cases h
      exact .rewind hphase hinner.1 hrepeat
    · cases h
      refine leave_turns hactive ?_
      simp [Config.leave, hphase, following]
  · split at h
    · split at h
      · exact substitute_turns hactive h
      · rename_i line hfirst
        exact moveOn_turns (Or.inr hphase) line.size h
    · exact moveOn_turns (Or.inr hphase) rfl h

theorem commandEnd_turns (toks : List Token) (hphase : c.phase = .command)
    (hlength : toks.length = c.toks.length)
    (h : commandEnd { c with toks } = .next label c') : Turn tables iMaxCycles c label c' := by
  unfold commandEnd at h
  split at h
  · rename_i htext
    cases h
    refine .text (c := c) _ hphase ?_
    rw [← hlength]
    refine tokenListFreeCmd_length ?_
    rintro rfl
    simp [isText] at htext
  · cases h
    have hturn : Turn tables iMaxCycles c .moved _ :=
      .leave toks (by simp [Active, hphase]) hlength
    simpa [Config.leave, hphase, following] using hturn

theorem commandStep_turns (hphase : c.phase = .command)
    (h : commandStep tables iMaxCycles pFile look c = .next label c') :
    Turn tables iMaxCycles c label c' := by
  unfold commandStep at h
  split at h
  · split at h
    · exact substitute_turns (by simp [Active, hphase]) h
    · rename_i line hfirst
      exact commandEnd_turns line.toks hphase line.size h
  · exact commandEnd_turns c.toks hphase rfl h

theorem step_turns (h : step tables iMaxCycles pFile look c = .next label c') :
    Turn tables iMaxCycles c label c' := by
  unfold step at h
  split at h
  · rename_i hphase
    exact topStep_turns hphase h
  · rename_i hphase
    exact defineStep_turns hphase h
  · rename_i hphase
    exact translateStep_turns hphase h
  · rename_i hphase
    exact commandStep_turns hphase h
  · simp at h

end Step

def alive (iMaxCycles : Nat) (c : Config) : Nat :=
  match c.phase with
  | .done => 0
  | .top => if iMaxCycles < c.iCycle then 1 else 2
  | _ => 2

/-- The place of a phase in the loop; a function that has made a substitution comes before
the head of the loop, to which it returns. -/
def rank (c : Config) : Nat :=
  match c.phase with
  | .done => 0
  | .top => 4
  | .define => if c.fSubst then 5 else 3
  | .translate => if c.fSubst then 5 else 2
  | .command => if c.fSubst then 5 else 1

/-- What every step makes smaller in the lexicographic order. -/
def remaining (iMaxCycles : Nat) (c : Config) : Nat × Nat × Nat × Nat × Nat × Nat :=
  (alive iMaxCycles c, iMaxCycles + 1 - c.iCycle, c.before.length + c.toks.length, rank c,
    c.fRepeat.toNat, c.toks.length)

def Smaller : Nat × Nat × Nat × Nat × Nat × Nat → Nat × Nat × Nat × Nat × Nat × Nat → Prop :=
  Prod.Lex (· < ·) (Prod.Lex (· < ·) (Prod.Lex (· < ·) (Prod.Lex (· < ·)
    (Prod.Lex (· < ·) (· < ·)))))

theorem smaller_wellFounded : WellFounded Smaller :=
  have hlt : WellFounded (α := Nat) (· < ·) := Nat.lt_wfRel.wf
  hlt.prod_lex (hlt.prod_lex (hlt.prod_lex (hlt.prod_lex (hlt.prod_lex hlt))))

theorem smaller_iff (a₁ b₁ c₁ d₁ e₁ f₁ a₂ b₂ c₂ d₂ e₂ f₂ : Nat) :
    Smaller (a₁, b₁, c₁, d₁, e₁, f₁) (a₂, b₂, c₂, d₂, e₂, f₂) ↔
      a₁ < a₂ ∨ a₁ = a₂ ∧ (b₁ < b₂ ∨ b₁ = b₂ ∧ (c₁ < c₂ ∨ c₁ = c₂ ∧ (d₁ < d₂ ∨ d₁ = d₂ ∧
        (e₁ < e₂ ∨ e₁ = e₂ ∧ f₁ < f₂)))) := by
  simp [Smaller, Prod.lex_def]

theorem Active.cases (h : Active c) :
    c.phase = .define ∨ c.phase = .translate ∨ c.phase = .command := by
  simpa [Active] using h

theorem Active.alive (h : Active c) (iMaxCycles : Nat) : alive iMaxCycles c = 2 := by
  rcases h.cases with h | h | h <;> simp [Turns.alive, h]

theorem Turn.decreases {label : Label} (h : Turn tables iMaxCycles c label c') :
    Smaller (remaining iMaxCycles c') (remaining iMaxCycles c) := by
  unfold remaining
  rw [smaller_iff]
  cases h with
  | subst kind toks hactive hlimits =>
    obtain ⟨hcycle, -⟩ := hlimits
    rcases hactive.cases with h | h | h <;>
      exact Or.inr ⟨by simp [alive, h], Or.inl (by dsimp only; omega)⟩
  | cyclic kind hactive hlimits hcycle hline hphase =>
    rw [hactive.alive iMaxCycles, alive, hphase, hcycle]
    cases c.fLine <;> simp
  | advance toks pToken pPrev hphase hlength =>
    refine Or.inr ⟨rfl, Or.inr ⟨rfl, Or.inr ⟨?_, Or.inr ⟨rfl, Or.inr ⟨rfl, ?_⟩⟩⟩⟩⟩
    · simp only [Config.advance, length_append, length_singleton]
      omega
    · simp only [Config.advance]
      omega
  | restart k hphase heos hprev hrepeat =>
    refine Or.inr ⟨rfl, Or.inr ⟨rfl, Or.inr ⟨?_, Or.inr ⟨rfl, Or.inl ?_⟩⟩⟩⟩
    · simp only [Config.restart]
      rw [← length_append, take_append_drop, length_append]
    · simp [Config.restart, hrepeat]
  | rewind hphase hinner hrepeat =>
    refine Or.inr ⟨rfl, Or.inr ⟨rfl, Or.inr ⟨?_, Or.inr ⟨rfl, Or.inl ?_⟩⟩⟩⟩
    · simp [Config.rewind]
    · simp [hrepeat]
  | enter toks hphase hcycle hlength =>
    have halive : alive iMaxCycles c = 2 := by simp [alive, hphase, hcycle.not_gt]
    have hrank : rank c = 4 := by simp [rank, hphase]
    have htotal : ((c.before ++ toks).length < c.before.length + c.toks.length) ∨
        (c.before ++ toks).length = c.before.length + c.toks.length := by
      rw [length_append]
      omega
    rw [halive, hrank]
    refine Or.inr ⟨rfl, Or.inr ⟨rfl, ?_⟩⟩
    rcases htotal with htotal | htotal
    · exact Or.inl (by simpa [Config.enter, Config.rewind] using htotal)
    · exact Or.inr ⟨by simpa [Config.enter, Config.rewind] using htotal,
        Or.inl (by simp [rank, Config.enter])⟩
  | skip hphase =>
    simp only [alive, hphase]
    split <;> simp
  | leave toks hactive hlength =>
    rw [hactive.alive iMaxCycles]
    cases hline : c.fLine with
    | false => exact Or.inl (by simp [Config.leave, alive])
    | true =>
      cases hsubst : c.fSubst with
      | true =>
        have hrank : rank c = 5 := by
          rcases hactive.cases with h | h | h <;> simp [rank, h, hsubst]
        simp only [Config.leave, Bool.not_true, Bool.false_eq_true,
          if_true, if_false]
        rcases Nat.lt_or_ge iMaxCycles c.iCycle with hover | hunder
        · exact Or.inl (by simp [alive, Config.rewind, hover])
        · refine Or.inr ⟨by simp [alive, Config.rewind, hunder.not_gt],
            Or.inr ⟨rfl, Or.inr ⟨by simp [Config.rewind, hlength], Or.inl ?_⟩⟩⟩
          rw [hrank]
          simp [rank]
      | false =>
        rcases hactive.cases with h | h | h <;>
          simp [Config.leave, hsubst, h, following, Config.enter, Config.rewind,
            alive, rank, hlength]
  | text toks hphase hlength =>
    have halive : alive iMaxCycles c = 2 := by simp [alive, hphase]
    rw [halive]
    cases hline : c.fLine with
    | false => exact Or.inl (by simp [Config.leave, alive])
    | true =>
      simp only [Config.leave, Bool.not_true, Bool.false_eq_true, if_true, if_false]
      rcases Nat.lt_or_ge iMaxCycles c.iCycle with hover | hunder
      · exact Or.inl (by simp [alive, Config.rewind, hover])
      · refine Or.inr ⟨by simp [alive, Config.rewind, hunder.not_gt],
          Or.inr ⟨rfl, Or.inl ?_⟩⟩
        simp [Config.rewind]
        omega

theorem step_terminates (tables : Tables) (iMaxCycles : Nat) (pFile : Source)
    (look : LetterMap) (c : Config) :
    Acc (fun c' c => ∃ label, step tables iMaxCycles pFile look c = .next label c') c := by
  have hwell := InvImage.wf (remaining iMaxCycles) smaller_wellFounded
  refine Subrelation.accessible ?_ (hwell.apply c)
  rintro c' c ⟨label, hstep⟩
  exact (step_turns hstep).decreases

/-- A pass over the definitions is about to start again. -/
def Repeats (c : Config) : Prop :=
  c.phase = .define ∧ isEos c.toks = true ∧ c.pPrev.isSome = true ∧ c.fRepeat = true

theorem Active.ne_done (h : Active c) : c.phase ≠ .done := by
  rcases h.cases with h | h | h <;> simp [h]

theorem not_active_of_top (h : c.phase = .top) : ¬ Active c := by
  simp [Active, h]

theorem not_active_of_done (h : c.phase = .done) : ¬ Active c := by
  simp [Active, h]

structure Moved (iMaxCycles : Nat) (c c' : Config) : Prop where
  phase : c.phase ≠ .done
  iCycle : c'.iCycle = c.iCycle
  top : c'.phase = .top → Active c
  active : Active c' → Active c ∨ c.phase = .top ∧ c.iCycle ≤ iMaxCycles
  iRepeat : Active c' → c'.iRepeat = 0 ∨
    c'.iRepeat = c.iRepeat ∧ (Repeats c ∨ c.phase = .translate ∧ c.fInner = false)

theorem moved_leave {d : Config} {next : Config → Config} (hactive : Active c)
    (hcycle : d.iCycle = c.iCycle) (hnext : d.fSubst = false → (next d).iCycle = d.iCycle ∧
      (Active (next d) → (next d).iRepeat = 0)) : Moved iMaxCycles c (d.leave next) := by
  unfold Config.leave
  split
  · exact ⟨hactive.ne_done, hcycle, fun h => by simp at h,
      fun h => absurd h (not_active_of_done rfl), fun h => absurd h (not_active_of_done rfl)⟩
  · split
    · exact ⟨hactive.ne_done, hcycle, fun _ => hactive,
        fun h => absurd h (not_active_of_top rfl), fun h => absurd h (not_active_of_top rfl)⟩
    · rename_i hline hsubst
      obtain ⟨hcycle', hrepeat⟩ := hnext (by simpa using hsubst)
      exact ⟨hactive.ne_done, hcycle'.trans hcycle, fun _ => hactive,
        fun _ => Or.inl hactive, fun h => Or.inl (hrepeat h)⟩

theorem Turn.moved (h : Turn tables iMaxCycles c .moved c') : Moved iMaxCycles c c' := by
  cases h with
  | advance toks pToken pPrev hphase hlength =>
    have hactive : Active c := by rcases hphase with h | h <;> simp [Active, h]
    exact ⟨hactive.ne_done, rfl, fun _ => hactive, fun _ => Or.inl hactive,
      fun _ => Or.inl rfl⟩
  | restart k hphase heos hprev hrepeat =>
    have hactive : Active c := by simp [Active, hphase]
    exact ⟨hactive.ne_done, rfl, fun _ => hactive, fun _ => Or.inl hactive,
      fun _ => Or.inr ⟨rfl, Or.inl ⟨hphase, heos, by simp [hprev], hrepeat⟩⟩⟩
  | rewind hphase hinner hrepeat =>
    have hactive : Active c := by simp [Active, hphase]
    exact ⟨hactive.ne_done, rfl, fun _ => hactive, fun _ => Or.inl hactive,
      fun _ => Or.inr ⟨rfl, Or.inr ⟨hphase, hinner⟩⟩⟩
  | enter toks hphase hcycle hlength =>
    exact ⟨by simp [hphase], rfl, fun h => by simp [Config.enter] at h,
      fun _ => Or.inr ⟨hphase, hcycle⟩, fun _ => Or.inl rfl⟩
  | skip hphase =>
    exact ⟨by simp [hphase], rfl, fun h => by simp at h,
      fun h => absurd h (not_active_of_done rfl), fun h => absurd h (not_active_of_done rfl)⟩
  | leave toks hactive hlength =>
    refine moved_leave hactive rfl fun _ => ?_
    split
    · exact ⟨rfl, fun h => absurd h (not_active_of_done rfl)⟩
    · exact ⟨rfl, fun _ => rfl⟩
  | text toks hphase hlength =>
    exact moved_leave (by simp [Active, hphase]) rfl fun h => by simp at h

end Harbour.Pp.Turns
