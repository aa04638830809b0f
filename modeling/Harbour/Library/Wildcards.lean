import Mathlib.Data.List.Basic
import Mathlib.Logic.Function.Iterate

/-!
Patterns with wildcards, and the search for a match with a stack of alternatives.
-/

namespace Harbour.Library.Wildcards

open List

variable {α : Type*}

/-- A piece of a pattern: any sequence, or one element that passes a test. -/
inductive Piece (α : Type*) where
  | star
  | test (accepts : α → Bool)

inductive Matches : List (Piece α) → List α → Prop
  | nil : Matches [] []
  | star {p : List (Piece α)} {s : List α} (skipped : List α) :
      Matches p s → Matches (.star :: p) (skipped ++ s)
  | test {accepts : α → Bool} {p : List (Piece α)} {a : α} {s : List α} :
      accepts a = true → Matches p s → Matches (.test accepts :: p) (a :: s)

section Leaving

variable {done : List α → Bool} {p : List (Piece α)} {s : List α} {accepts : α → Bool} {a : α}

/-- A pattern matches the beginning of a sequence, and what is left is a good end. -/
def Leaves (done : List α → Bool) (p : List (Piece α)) (s : List α) : Prop :=
  ∃ t rest, s = t ++ rest ∧ Matches p t ∧ done rest = true

def Skips (done : List α → Bool) (p : List (Piece α)) (s : List α) : Prop :=
  ∃ skipped rest, s = skipped ++ rest ∧ Leaves done p rest

def Tries (done : List α → Bool) : (any : Bool) → List (Piece α) → List α → Prop
  | true => Skips done
  | false => Leaves done

theorem leaves_nil : Leaves done [] s ↔ done s = true := by
  constructor
  · rintro ⟨t, rest, rfl, hmatch, hdone⟩
    cases hmatch
    exact hdone
  · exact fun hdone => ⟨[], s, rfl, .nil, hdone⟩

theorem leaves_star : Leaves done (.star :: p) s ↔ Skips done p s := by
  constructor
  · rintro ⟨t, rest, rfl, hmatch, hdone⟩
    cases hmatch with
    | @star _ s' skipped hmatch =>
      exact ⟨skipped, s' ++ rest, append_assoc .., s', rest, rfl, hmatch, hdone⟩
  · rintro ⟨skipped, _, rfl, t, rest, rfl, hmatch, hdone⟩
    exact ⟨skipped ++ t, rest, (append_assoc ..).symm, .star skipped hmatch, hdone⟩

theorem not_leaves_test_nil : ¬ Leaves done (.test accepts :: p) [] := by
  rintro ⟨t, rest, heq, hmatch, -⟩
  cases hmatch
  exact cons_ne_nil _ _ heq.symm

theorem leaves_test_cons :
    Leaves done (.test accepts :: p) (a :: s) ↔ accepts a = true ∧ Leaves done p s := by
  constructor
  · rintro ⟨t, rest, heq, hmatch, hdone⟩
    cases hmatch with
    | @test _ _ _ t haccepts hmatch =>
      obtain ⟨rfl, rfl⟩ := List.cons.inj heq
      exact ⟨haccepts, t, rest, rfl, hmatch, hdone⟩
  · rintro ⟨haccepts, t, rest, rfl, hmatch, hdone⟩
    exact ⟨a :: t, rest, rfl, .test haccepts hmatch, hdone⟩

theorem skips_nil : Skips done p [] ↔ Leaves done p [] := by
  constructor
  · rintro ⟨skipped, rest, heq, hleaves⟩
    obtain ⟨rfl, rfl⟩ := append_eq_nil_iff.mp heq.symm
    exact hleaves
  · exact fun hleaves => ⟨[], [], rfl, hleaves⟩

theorem skips_cons : Skips done p (a :: s) ↔ Leaves done p (a :: s) ∨ Skips done p s := by
  constructor
  · rintro ⟨skipped, rest, heq, hleaves⟩
    rcases cons_eq_append_iff.mp heq with ⟨rfl, rfl⟩ | ⟨skipped, rfl, rfl⟩
    · exact .inl hleaves
    · exact .inr ⟨skipped, rest, rfl, hleaves⟩
  · rintro (hleaves | ⟨skipped, rest, rfl, hleaves⟩)
    · exact ⟨[], a :: s, rfl, hleaves⟩
    · exact ⟨a :: skipped, rest, rfl, hleaves⟩

theorem skips_star : Skips done (.star :: p) s ↔ Skips done p s := by
  constructor
  · rintro ⟨skipped, _, rfl, hstar⟩
    obtain ⟨skipped', rest, rfl, hleaves⟩ := leaves_star.mp hstar
    exact ⟨skipped ++ skipped', rest, (append_assoc ..).symm, hleaves⟩
  · rintro ⟨skipped, rest, rfl, hleaves⟩
    exact ⟨skipped, rest, rfl, leaves_star.mpr ⟨[], rest, rfl, hleaves⟩⟩

theorem tries_star {any : Bool} : Tries done any (.star :: p) s ↔ Tries done true p s := by
  cases any with
  | true => exact skips_star
  | false => exact leaves_star

theorem not_tries_test_nil {any : Bool} : ¬ Tries done any (.test accepts :: p) [] := by
  cases any with
  | true => exact fun h => not_leaves_test_nil (skips_nil.mp h)
  | false => exact not_leaves_test_nil

end Leaving

section Search

/-- What is left of the pattern and of the sequence, whether a star is pending, and the places at
which a star gave way to the next piece, the last one first. -/
structure State (α : Type*) where
  pattern : List (Piece α)
  text : List α
  any : Bool
  stack : List (List (Piece α) × List α)

inductive Outcome (α : Type*) where
  | running (st : State α)
  | stopped (found : Bool)

def backtrack : List (List (Piece α) × List α) → Outcome α
  | [] => .stopped false
  | (pattern, text) :: stack => .running ⟨pattern, text.tail, true, stack⟩

def step (done : List α → Bool) : State α → Outcome α
  | ⟨[], text, any, stack⟩ => if any || done text then .stopped true else backtrack stack
  | ⟨.star :: pattern, text, _, stack⟩ => .running ⟨pattern, text, true, stack⟩
  | ⟨.test _ :: _, [], _, stack⟩ => backtrack stack
  | ⟨.test accepts :: pattern, a :: text, any, stack⟩ =>
    if accepts a then
      .running ⟨pattern, text, false,
        if any then (.test accepts :: pattern, a :: text) :: stack else stack⟩
    else if any then .running ⟨.test accepts :: pattern, text, true, stack⟩
    else backtrack stack

def next (done : List α → Bool) : Outcome α → Outcome α
  | .running st => step done st
  | .stopped found => .stopped found

variable {done : List α → Bool} {p : List (Piece α)} {s : List α} {any : Bool}
  {stack : List (List (Piece α) × List α)} {holds holds' : Prop} {st st' : Outcome α}

/-- From an outcome the search stops with success, or it comes back to the alternatives. -/
def Settles (done : List α → Bool) (holds : Prop) (stack : List (List (Piece α) × List α))
    (st : Outcome α) : Prop :=
  ∃ n, holds ∧ (next done)^[n] st = .stopped true ∨
    ¬ holds ∧ (next done)^[n] st = backtrack stack

theorem Settles.of_next (hnext : next done st = st') (hiff : holds ↔ holds')
    (h : Settles done holds' stack st') : Settles done holds stack st := by
  obtain ⟨n, h⟩ := h
  refine ⟨n + 1, ?_⟩
  rw [Function.iterate_succ_apply, hnext, hiff]
  exact h

theorem Settles.or_else {alternative : Prop} {entry : List (Piece α) × List α}
    (h : Settles done holds (entry :: stack) st)
    (h' : Settles done alternative stack (backtrack (entry :: stack))) :
    Settles done (holds ∨ alternative) stack st := by
  obtain ⟨n, ⟨hholds, hstop⟩ | ⟨hnot, hback⟩⟩ := h
  · exact ⟨n, .inl ⟨.inl hholds, hstop⟩⟩
  · obtain ⟨k, h'⟩ := h'
    refine ⟨k + n, ?_⟩
    rw [Function.iterate_add_apply, hback, or_iff_right hnot]
    exact h'

theorem settles_backtrack (hnot : ¬ holds) (hnext : next done st = backtrack stack) :
    Settles done holds stack st :=
  ⟨1, .inr ⟨hnot, hnext⟩⟩

/-- From every state the search finds out whether there is a match there before it goes back to the
alternatives of before. -/
theorem settles (hdone : done [] = true) (p : List (Piece α)) (s : List α) (any : Bool)
    (stack : List (List (Piece α) × List α)) :
    Settles done (Tries done any p s) stack (.running ⟨p, s, any, stack⟩) := by
  induction p generalizing s any stack with
  | nil =>
    rcases hstop : any || done s with _ | _
    · obtain ⟨rfl, hs⟩ := Bool.or_eq_false_iff.mp hstop
      apply settles_backtrack
      · exact fun h => Bool.false_ne_true (hs.symm.trans (leaves_nil.mp h))
      · simp [next, step, hs]
    · refine ⟨1, .inl ⟨?_, ?_⟩⟩
      · cases any with
        | true => exact ⟨s, [], (append_nil s).symm, leaves_nil.mpr hdone⟩
        | false => exact leaves_nil.mpr hstop
      · exact if_pos hstop
  | cons piece p ih =>
    cases piece with
    | star => exact (ih s true stack).of_next rfl tries_star
    | test accepts =>
      induction s generalizing any stack with
      | nil => exact settles_backtrack not_tries_test_nil rfl
      | cons a s ihs =>
        rcases haccepts : accepts a with _ | _
        · cases any with
          | true =>
            apply (ihs true stack).of_next
            · simp [next, step, haccepts]
            · rw [Tries, skips_cons, leaves_test_cons, haccepts]
              simp
          | false =>
            apply settles_backtrack
            · rw [Tries, leaves_test_cons, haccepts]
              simp
            · simp [next, step, haccepts]
        · cases any with
          | true =>
            apply ((ih s false ((.test accepts :: p, a :: s) :: stack)).or_else
              (ihs true stack)).of_next
            · simp [next, step, haccepts]
            · rw [Tries, skips_cons, leaves_test_cons, haccepts]
              simp [Tries]
          | false =>
            apply (ih s false stack).of_next
            · simp [next, step, haccepts]
            · rw [Tries, leaves_test_cons, haccepts]
              simp

theorem search (hdone : done [] = true) (p : List (Piece α)) (s : List α) :
    ∃ n found, (next done)^[n] (.running ⟨p, s, false, []⟩) = .stopped found ∧
      (found = true ↔ Leaves done p s) := by
  obtain ⟨n, ⟨hleaves, hstop⟩ | ⟨hnot, hstop⟩⟩ := settles hdone p s false []
  · exact ⟨n, true, hstop, iff_of_true rfl hleaves⟩
  · exact ⟨n, false, hstop, iff_of_false Bool.false_ne_true hnot⟩

end Search

theorem leaves_isEmpty {p : List (Piece α)} {s : List α} :
    Leaves isEmpty p s ↔ Matches p s := by
  constructor
  · rintro ⟨t, rest, rfl, hmatch, hdone⟩
    rw [isEmpty_iff.mp hdone, append_nil]
    exact hmatch
  · exact fun hmatch => ⟨s, [], (append_nil s).symm, hmatch, rfl⟩

theorem leaves_true {p : List (Piece α)} {s : List α} :
    Leaves (fun _ => true) p s ↔ ∃ t, t <+: s ∧ Matches p t := by
  constructor
  · rintro ⟨t, rest, rfl, hmatch, -⟩
    exact ⟨t, ⟨rest, rfl⟩, hmatch⟩
  · rintro ⟨t, ⟨rest, rfl⟩, hmatch⟩
    exact ⟨t, rest, rfl, hmatch, rfl⟩

end Harbour.Library.Wildcards
