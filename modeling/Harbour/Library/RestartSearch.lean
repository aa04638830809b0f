import Harbour.Library.Loops
import Mathlib.Data.List.Infix
import Mathlib.Order.Bounds.Basic
import Mathlib.Tactic.Ring

/-!
The search for a pattern that goes back to the position after a start that fails.
-/

namespace Harbour.Library.RestartSearch

open Loops List

variable {α : Type*}

def Occurs (pattern text : List α) (p : Nat) : Prop := 0 < p ∧ pattern <+: text.drop (p - 1)

/-- The pattern stands at `p` and inside the positions `first` to `last`. -/
def OccursWithin (pattern text : List α) (first last p : Nat) : Prop :=
  first ≤ p ∧ p + pattern.length - 1 ≤ last ∧ Occurs pattern text p

/-- The result that the search is to have: the least or the greatest position in the range, 0 where
there is none. -/
def Best (pattern text : List α) (first last : Nat) (reverse : Bool) (r : Nat) : Prop :=
  r = 0 ∧ (∀ p, ¬ OccursWithin pattern text first last p) ∨
    if reverse then IsGreatest {p | OccursWithin pattern text first last p} r
    else IsLeast {p | OccursWithin pattern text first last p} r

/-- The positions read, the start of the match that has begun, how much of the pattern it has, and
the last start found. -/
structure State where
  pos : Nat
  start : Nat
  matched : Nat
  found : Nat

def turn [DecidableEq α] (pattern text : List α) (first last : Nat) (reverse : Bool) (s : State) :
    Nat ⊕ State :=
  if s.pos < text.length ∧ s.matched < pattern.length ∧ s.pos < last then
    if s.pos + 1 < first then .inr { s with pos := s.pos + 1 }
    else if text[s.pos]? = pattern[s.matched]? then
      let start := if s.start = 0 then s.pos + 1 else s.start
      if s.matched + 1 = pattern.length then
        if reverse then .inr ⟨start, 0, 0, start⟩ else .inl start
      else .inr ⟨s.pos + 1, start, s.matched + 1, s.found⟩
    else if s.start = 0 then .inr { s with pos := s.pos + 1, matched := 0 }
    else .inr ⟨s.start, 0, 0, s.found⟩
  else .inl s.found

def State.done (s : State) : Nat := if s.start = 0 then s.pos else s.start - 1

variable {pattern text : List α} {first last : Nat} {reverse : Bool}

/-- The starts up to `done` are settled, `found` being what is known of them. -/
def Settled (pattern text : List α) (first last : Nat) (reverse : Bool) (found done : Nat) : Prop :=
  found = 0 ∧ (∀ p ≤ done, ¬ OccursWithin pattern text first last p) ∨
    reverse = true ∧ found ≤ done ∧ OccursWithin pattern text first last found ∧
      ∀ p ≤ done, OccursWithin pattern text first last p → p ≤ found

structure Inv (pattern text : List α) (first last : Nat) (reverse : Bool) (s : State) : Prop where
  pos_eq : s.pos = s.done + s.matched
  fresh : s.start = 0 → s.matched = 0
  begun : s.start ≠ 0 → first ≤ s.start
  short : s.matched < pattern.length
  agrees : ∀ i < s.matched, text[s.done + i]? = pattern[i]?
  inside : s.done ≤ text.length
  settled : Settled pattern text first last reverse s.found s.done

theorem prefix_drop_iff {k : Nat} :
    pattern <+: text.drop k ↔ ∀ i < pattern.length, text[k + i]? = pattern[i]? := by
  rw [prefix_iff_getElem?]
  constructor
  · intro h i hi
    rw [getElem?_eq_getElem hi, ← h i hi, getElem?_drop]
  · intro h i hi
    rw [getElem?_drop, h i hi, getElem?_eq_getElem hi]

variable {done found p r : Nat}

theorem occursWithin_max :
    OccursWithin pattern text (max first 1) last p ↔ OccursWithin pattern text first last p := by
  constructor
  · rintro ⟨hfirst, hlast, hoccurs⟩
    exact ⟨(le_max_left _ _).trans hfirst, hlast, hoccurs⟩
  · rintro ⟨hfirst, hlast, hoccurs⟩
    exact ⟨max_le hfirst hoccurs.1, hlast, hoccurs⟩

theorem best_max (h : Best pattern text first last reverse r) :
    Best pattern text (max first 1) last reverse r := by
  unfold Best at h ⊢
  simpa only [occursWithin_max] using h

section Map

variable {β : Type*} {f : α → β}

theorem map_prefix_map_iff {l l' : List α} (hinj : ∀ a ∈ l, ∀ b ∈ l', f a = f b → a = b) :
    l.map f <+: l'.map f ↔ l <+: l' := by
  induction l generalizing l' with
  | nil => exact iff_of_true nil_prefix nil_prefix
  | cons a l ih =>
    cases l' with
    | nil => simp
    | cons b l' =>
      rw [map_cons, map_cons, cons_prefix_cons, cons_prefix_cons,
        ih fun a ha b hb => hinj a (mem_cons_of_mem _ ha) b (mem_cons_of_mem _ hb)]
      refine and_congr_left fun _ => ⟨hinj a mem_cons_self b mem_cons_self, congrArg f⟩

theorem best_map (hinj : ∀ a ∈ pattern, ∀ b ∈ text, f a = f b → a = b) :
    Best (pattern.map f) (text.map f) first last reverse r ↔
      Best pattern text first last reverse r := by
  have hoccurs (p : Nat) : OccursWithin (pattern.map f) (text.map f) first last p ↔
      OccursWithin pattern text first last p := by
    unfold OccursWithin Occurs
    rw [length_map, ← map_drop,
      map_prefix_map_iff fun a ha b hb => hinj a ha b (mem_of_mem_drop hb)]
  unfold Best
  simp only [hoccurs]

end Map

theorem Settled.pass (h : Settled pattern text first last reverse found done)
    (hnext : ¬ OccursWithin pattern text first last (done + 1)) :
    Settled pattern text first last reverse found (done + 1) := by
  rcases h with ⟨hzero, hnone⟩ | ⟨hreverse, hle, hfound, hgreatest⟩
  · refine .inl ⟨hzero, fun p hp => ?_⟩
    rcases Nat.le_succ_iff.mp hp with hp | rfl
    · exact hnone p hp
    · exact hnext
  · refine .inr ⟨hreverse, Nat.le_succ_of_le hle, hfound, fun p hp hoccurs => ?_⟩
    rcases Nat.le_succ_iff.mp hp with hp | rfl
    · exact hgreatest p hp hoccurs
    · exact absurd hoccurs hnext

theorem Settled.find (hreverse : reverse = true)
    (hnext : OccursWithin pattern text first last (done + 1)) :
    Settled pattern text first last reverse (done + 1) (done + 1) :=
  .inr ⟨hreverse, le_refl _, hnext, fun _ hp _ => hp⟩

variable {s : State}

section

variable (h : Inv pattern text first last reverse s)

include h

theorem Inv.complete (hfirst : first ≤ s.pos + 1) (hlast : s.pos < last)
    (hsame : text[s.pos]? = pattern[s.matched]?) (hfull : s.matched + 1 = pattern.length) :
    OccursWithin pattern text first last (s.done + 1) := by
  have hpos := h.pos_eq
  refine ⟨?_, by omega, Nat.succ_pos _, prefix_drop_iff.mpr fun i hi => ?_⟩
  · unfold State.done
    split
    · exact hfirst
    · next hstart =>
      have hbegun := h.begun hstart
      omega
  · rw [Nat.add_sub_cancel]
    rcases Nat.lt_succ_iff_lt_or_eq.mp (hfull ▸ hi : i < s.matched + 1) with hlt | rfl
    · exact h.agrees i hlt
    · rw [← hpos]
      exact hsame

theorem Inv.refused (hother : text[s.pos]? ≠ pattern[s.matched]?) :
    ¬ OccursWithin pattern text first last (s.done + 1) := by
  rintro ⟨-, -, -, hprefix⟩
  apply hother
  rw [h.pos_eq]
  exact prefix_drop_iff.mp hprefix s.matched h.short

theorem Inv.next (hlt : s.pos < text.length)
    (hsettled : Settled pattern text first last reverse found (s.done + 1)) :
    Inv pattern text first last reverse ⟨s.done + 1, 0, 0, found⟩ where
  pos_eq := rfl
  fresh := fun _ => rfl
  begun := fun hne => absurd rfl hne
  short := Nat.zero_lt_of_lt h.short
  agrees := fun i hi => absurd hi (Nat.not_lt_zero i)
  inside := by
    have hpos := h.pos_eq
    change s.done + 1 ≤ text.length
    omega
  settled := hsettled

theorem Inv.more (hfirst : first ≤ s.pos + 1) (hsame : text[s.pos]? = pattern[s.matched]?)
    (hmore : s.matched + 1 ≠ pattern.length) {start : Nat} (hstart : start = s.done + 1) :
    Inv pattern text first last reverse ⟨s.pos + 1, start, s.matched + 1, s.found⟩ := by
  have hdone : State.done ⟨s.pos + 1, start, s.matched + 1, s.found⟩ = s.done := by
    have hne : start ≠ 0 := hstart ▸ Nat.succ_ne_zero _
    conv_lhs => unfold State.done
    rw [if_neg hne, hstart]
    rfl
  have hpos := h.pos_eq
  have hshort := h.short
  refine ⟨?_, fun hzero => ?_, fun _ => ?_, ?_, ?_, ?_, ?_⟩
  · rw [hdone]
    change s.pos + 1 = s.done + (s.matched + 1)
    omega
  · exact absurd (hstart.symm.trans hzero) (Nat.succ_ne_zero _)
  · change first ≤ start
    rw [hstart]
    unfold State.done
    split
    · exact hfirst
    · next hne =>
      have hbegun := h.begun hne
      omega
  · change s.matched + 1 < pattern.length
    omega
  · intro i hi
    rw [hdone]
    rcases Nat.lt_succ_iff_lt_or_eq.mp hi with hlt | rfl
    · exact h.agrees i hlt
    · rw [← hpos]
      exact hsame
  · rw [hdone]
    exact h.inside
  · rw [hdone]
    exact h.settled

end

theorem State.start_eq (s : State) : (if s.start = 0 then s.pos + 1 else s.start) = s.done + 1 := by
  unfold State.done
  split
  · rfl
  · omega

theorem State.restart (s : State) :
    (s.start = 0 → s.pos + 1 = s.done + 1) ∧ (s.start ≠ 0 → s.start = s.done + 1) := by
  have hstart := s.start_eq
  constructor
  · intro hzero
    rwa [if_pos hzero] at hstart
  · intro hne
    rwa [if_neg hne] at hstart

def weight (pattern text : List α) (s : State) : Nat :=
  (text.length - s.done) * (pattern.length + 1) + (pattern.length - s.matched)

theorem weight_next (h : Inv pattern text first last reverse s) (hlt : s.pos < text.length)
    (found : Nat) : weight pattern text ⟨s.done + 1, 0, 0, found⟩ < weight pattern text s := by
  have hpos := h.pos_eq
  have hleft : text.length - s.done = text.length - (s.done + 1) + 1 := by omega
  unfold weight
  change (text.length - (s.done + 1)) * (pattern.length + 1) + (pattern.length - 0) < _
  rw [hleft, Nat.succ_mul]
  omega

theorem Inv.exhausted (h : Inv pattern text first last reverse s)
    (hends : ¬ (s.pos < text.length ∧ s.matched < pattern.length ∧ s.pos < last))
    (hoccurs : OccursWithin pattern text first last p) : p ≤ s.done := by
  obtain ⟨-, hwithin, hp, hprefix⟩ := hoccurs
  have hlength := hprefix.length_le
  rw [length_drop] at hlength
  have hpos := h.pos_eq
  have hshort := h.short
  omega

variable [DecidableEq α]

theorem turn_goes {s' : State} (h : Inv pattern text first last reverse s)
    (hturn : turn pattern text first last reverse s = .inr s') :
    Inv pattern text first last reverse s' ∧ weight pattern text s' < weight pattern text s := by
  have hpos := h.pos_eq
  unfold turn at hturn
  split at hturn
  · next hmore =>
    obtain ⟨hlt, -, hlast⟩ := hmore
    split at hturn
    · -- a position before the first start
      have hzero : s.start = 0 := by
        by_contra hne
        have hbegun := h.begun hne
        have hstart := s.restart.2 hne
        omega
      have hrefused : ¬ OccursWithin pattern text first last (s.done + 1) := fun hoccurs => by
        have := hoccurs.1
        omega
      obtain rfl : (⟨s.done + 1, 0, 0, s.found⟩ : State) = s' := by
        rw [← Sum.inr.inj hturn, hzero, h.fresh hzero, ← s.restart.1 hzero]
      exact ⟨h.next hlt (h.settled.pass hrefused), weight_next h hlt _⟩
    · next hfirst =>
      split at hturn
      · next hsame =>
        simp only [s.start_eq] at hturn
        split at hturn
        · next hfull =>
          split at hturn
          · next hreverse =>
            obtain rfl := Sum.inr.inj hturn
            have hoccurs := h.complete (Nat.le_of_not_lt hfirst) hlast hsame hfull
            exact ⟨h.next hlt (.find hreverse hoccurs), weight_next h hlt _⟩
          · exact absurd hturn Sum.inl_ne_inr
        · next hpartial =>
          obtain rfl := Sum.inr.inj hturn
          have hshort := h.short
          refine ⟨h.more (Nat.le_of_not_lt hfirst) hsame hpartial rfl, ?_⟩
          unfold weight
          change (text.length - s.done) * _ + (pattern.length - (s.matched + 1)) < _
          omega
      · next hother =>
        have hsettled := h.settled.pass (h.refused hother)
        split at hturn
        · next hzero =>
          obtain rfl : (⟨s.done + 1, 0, 0, s.found⟩ : State) = s' := by
            rw [← Sum.inr.inj hturn, hzero, ← s.restart.1 hzero]
          exact ⟨h.next hlt hsettled, weight_next h hlt _⟩
        · next hne =>
          rw [s.restart.2 hne] at hturn
          obtain rfl := Sum.inr.inj hturn
          exact ⟨h.next hlt hsettled, weight_next h hlt _⟩
  · exact absurd hturn Sum.inl_ne_inr

theorem turn_ends (h : Inv pattern text first last reverse s)
    (hturn : turn pattern text first last reverse s = .inl r) :
    Best pattern text first last reverse r := by
  unfold turn at hturn
  split at hturn
  · next hmore =>
    obtain ⟨hlt, -, hlast⟩ := hmore
    split at hturn
    · exact absurd hturn Sum.inr_ne_inl
    · next hfirst =>
      split at hturn
      · next hsame =>
        simp only [s.start_eq] at hturn
        split at hturn
        · next hfull =>
          split at hturn
          · exact absurd hturn Sum.inr_ne_inl
          · next hreverse =>
            obtain rfl := Sum.inl.inj hturn
            have hoccurs := h.complete (Nat.le_of_not_lt hfirst) hlast hsame hfull
            right
            rw [if_neg hreverse]
            refine ⟨hoccurs, fun p hp => ?_⟩
            rcases h.settled with ⟨-, hnone⟩ | ⟨hreverse', -⟩
            · exact Nat.lt_of_not_le fun hle => hnone p hle hp
            · exact absurd hreverse' hreverse
        · exact absurd hturn Sum.inr_ne_inl
      · split at hturn
        · exact absurd hturn Sum.inr_ne_inl
        · exact absurd hturn Sum.inr_ne_inl
  · next hends =>
    obtain rfl := Sum.inl.inj hturn
    rcases h.settled with ⟨hzero, hnone⟩ | ⟨hreverse, -, hfound, hgreatest⟩
    · exact .inl ⟨hzero, fun p hp => hnone p (h.exhausted hends hp) hp⟩
    · right
      rw [if_pos hreverse]
      exact ⟨hfound, fun p hp => hgreatest p (h.exhausted hends hp) hp⟩

theorem search_best (text : List α) (first last : Nat) (reverse : Bool) (hpattern : pattern ≠ []) :
    ∃ r, Best pattern text first last reverse r ∧ ∃ enough, ∀ fuel ≥ enough,
      loop (turn pattern text first last reverse) fuel ⟨0, 0, 0, 0⟩ = some r := by
  have hinv : Inv pattern text first last reverse ⟨0, 0, 0, 0⟩ := by
    refine ⟨rfl, fun _ => rfl, fun hne => absurd rfl hne, length_pos_of_ne_nil hpattern,
      fun i hi => absurd hi (Nat.not_lt_zero i), Nat.zero_le _, .inl ⟨rfl, fun p hp hoccurs => ?_⟩⟩
    exact absurd hoccurs.2.2.1 (Nat.not_lt.mpr hp)
  obtain ⟨r, hloop, hbest⟩ := loop_ends (fun s r h => turn_ends h) (fun s s' h => turn_goes h) hinv
    (Nat.lt_succ_self _)
  exact ⟨r, hbest, _, fun fuel hfuel => loop_mono hloop hfuel⟩

end Harbour.Library.RestartSearch
