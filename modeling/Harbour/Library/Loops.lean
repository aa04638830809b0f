import Mathlib.Data.Nat.Basic

/-!
Loops whose turns go on with a state or end with a result.
-/

namespace Harbour.Library.Loops

variable {σ τ ρ : Type*}

/-- The turns of a loop until one ends it, none where `fuel` turns are not enough. -/
def loop (turn : σ → ρ ⊕ σ) : (fuel : Nat) → σ → Option ρ
  | 0, _ => none
  | fuel + 1, s =>
    match turn s with
    | .inl r => some r
    | .inr s' => loop turn fuel s'

variable {turn : σ → ρ ⊕ σ} {turn' : τ → ρ ⊕ τ}

variable {fuel : Nat}

theorem loop_ends {Inv : σ → Prop} {Post : ρ → Prop} {weight : σ → Nat}
    (hends : ∀ s r, Inv s → turn s = .inl r → Post r)
    (hgoes : ∀ s s', Inv s → turn s = .inr s' → Inv s' ∧ weight s' < weight s) {s : σ} (h : Inv s)
    (hfuel : weight s < fuel) : ∃ r, loop turn fuel s = some r ∧ Post r := by
  induction fuel generalizing s with
  | zero => exact absurd hfuel (Nat.not_lt_zero _)
  | succ fuel ih =>
    unfold loop
    cases hturn : turn s with
    | inl r => exact ⟨r, rfl, hends s r h hturn⟩
    | inr s' =>
      obtain ⟨hinv, hless⟩ := hgoes s s' h hturn
      exact ih hinv (by omega)

theorem loop_mono {more : Nat} {s : σ} {r : ρ} (h : loop turn fuel s = some r)
    (hmore : fuel ≤ more) : loop turn more s = some r := by
  induction fuel generalizing more s with
  | zero => exact absurd h (by simp [loop])
  | succ fuel ih =>
    obtain ⟨more, rfl⟩ := Nat.exists_eq_succ_of_ne_zero (Nat.ne_of_gt (Nat.zero_lt_of_lt hmore))
    unfold loop at h ⊢
    cases hturn : turn s with
    | inl r' =>
      rw [hturn] at h
      exact h
    | inr s' =>
      rw [hturn] at h
      exact ih h (Nat.le_of_succ_le_succ hmore)

/-- What a turn of one loop does to a related state of the other. -/
def Follows (R : σ → τ → Prop) : ρ ⊕ σ → ρ ⊕ τ → Prop
  | .inl r, .inl r' => r = r'
  | .inr s, .inr t => R s t
  | _, _ => False

theorem loop_follows {R : σ → τ → Prop} (hturns : ∀ s t, R s t → Follows R (turn s) (turn' t))
    {s : σ} {t : τ} (h : R s t) (fuel : Nat) : loop turn fuel s = loop turn' fuel t := by
  induction fuel generalizing s t with
  | zero => rfl
  | succ fuel ih =>
    have hturn := hturns s t h
    unfold loop
    cases hs : turn s with
    | inl r =>
      cases ht : turn' t with
      | inl r' =>
        rw [hs, ht] at hturn
        exact congrArg some hturn
      | inr t' => rw [hs, ht] at hturn; exact hturn.elim
    | inr s' =>
      cases ht : turn' t with
      | inl r' => rw [hs, ht] at hturn; exact hturn.elim
      | inr t' =>
        rw [hs, ht] at hturn
        exact ih hturn

end Harbour.Library.Loops

/-!
Systems of states and steps, the states that their runs reach, and what holds in all of them.
-/

namespace Harbour.Library.Transitions

structure System (σ : Type*) where
  init : σ → Prop
  step : σ → σ → Prop

namespace System

variable {σ : Type*} {S : System σ} {s s' : σ}

inductive Reachable (S : System σ) : σ → Prop
  | init {s : σ} : S.init s → Reachable S s
  | step {s s' : σ} : Reachable S s → S.step s s' → Reachable S s'

theorem Reachable.invariant {I : σ → Prop} (h : S.Reachable s) (hinit : ∀ s, S.init s → I s)
    (hstep : ∀ s s', I s → S.step s s' → I s') : I s := by
  induction h with
  | init hs => exact hinit _ hs
  | step _ hs ih => exact hstep _ _ ih hs

end System

end Harbour.Library.Transitions
