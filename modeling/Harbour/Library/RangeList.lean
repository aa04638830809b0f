import Mathlib.Order.WithBot
import Mathlib.Data.List.Pairwise
import Mathlib.Logic.Function.Basic
import Mathlib.Tactic.SplitIfs

/-!
Sets kept as sorted lists of ranges with a gap between any two of them.
-/

namespace Harbour.Library.RangeList

open List Option Function

/-- The points from `first` up to `past`, or all of them when `past` is infinite. -/
structure Range (α : Type*) where
  first : α
  past : WithTop α

variable {α : Type*} [LinearOrder α]

def Range.Holds (r : Range α) (a : α) : Prop := r.first ≤ a ∧ (a : WithTop α) < r.past

def Covered (rs : List (Range α)) (a : α) : Prop := ∃ r ∈ rs, r.Holds a

/-- No range is empty, and each ends before the next begins. -/
structure Separated (rs : List (Range α)) : Prop where
  nonempty : ∀ r ∈ rs, (r.first : WithTop α) < r.past
  gap : rs.Pairwise fun r s => r.past < s.first

@[simp]
theorem covered_nil (a : α) : ¬ Covered [] a := by
  rintro ⟨r, hmem, -⟩
  exact not_mem_nil hmem

@[simp]
theorem covered_cons (r : Range α) (rs : List (Range α)) (a : α) :
    Covered (r :: rs) a ↔ r.Holds a ∨ Covered rs a := by
  simp [Covered]

@[simp]
theorem covered_append (rs rs' : List (Range α)) (a : α) :
    Covered (rs ++ rs') a ↔ Covered rs a ∨ Covered rs' a := by
  simp only [Covered, mem_append, or_and_right, exists_or]

theorem Separated.sublist {rs rs' : List (Range α)} (h : Separated rs) (hsub : rs'.Sublist rs) :
    Separated rs' :=
  ⟨fun r hr => h.nonempty r (hsub.subset hr), h.gap.sublist hsub⟩

theorem Separated.replace {rs rs' mid mid' : List (Range α)} (h : Separated (rs ++ mid ++ rs'))
    (hmid : Separated mid') (hbefore : ∀ r ∈ rs, ∀ s ∈ mid', r.past < s.first)
    (hafter : ∀ s ∈ mid', ∀ r ∈ rs', s.past < r.first) : Separated (rs ++ mid' ++ rs') := by
  obtain ⟨hrs, hrs', hcross⟩ := pairwise_append.mp
    (h.sublist (((Sublist.refl rs).append (nil_sublist mid)).append
      (Sublist.refl rs'))).gap
  rw [append_nil] at hrs hcross
  refine ⟨fun r hr => ?_, ?_⟩
  · rcases mem_append.mp hr with hr | hr
    · rcases mem_append.mp hr with hr | hr
      · exact h.nonempty r (by simp [hr])
      · exact hmid.nonempty r hr
    · exact h.nonempty r (by simp [hr])
  · refine pairwise_append.mpr ⟨pairwise_append.mpr ⟨hrs, hmid.gap, hbefore⟩, hrs', ?_⟩
    intro r hr s hs
    rcases mem_append.mp hr with hr | hr
    · exact hcross r hr s hs
    · exact hafter r hr s hs

theorem Separated.apart {rs : List (Range α)} (h : Separated rs) {r s : Range α}
    (hr : r ∈ rs) (hs : s ∈ rs) : r = s ∨ r.past < s.first ∨ s.past < r.first := by
  obtain ⟨i, hi, rfl⟩ := getElem_of_mem hr
  obtain ⟨j, hj, rfl⟩ := getElem_of_mem hs
  rcases Nat.lt_trichotomy i j with hij | rfl | hij
  · exact .inr (.inl (pairwise_iff_getElem.mp h.gap i j hi hj hij))
  · exact .inl rfl
  · exact .inr (.inr (pairwise_iff_getElem.mp h.gap j i hj hi hij))

/-- Because of the gaps, a range is covered only when one of the ranges holds all of it. -/
theorem Separated.all_covered_iff {rs : List (Range α)} (h : Separated rs) {q : Range α}
    (hq : (q.first : WithTop α) < q.past) :
    (∀ a, q.Holds a → Covered rs a) ↔ ∃ r ∈ rs, r.first ≤ q.first ∧ q.past ≤ r.past := by
  constructor
  · intro hall
    obtain ⟨r, hr, hle, hlt⟩ := hall q.first ⟨le_refl _, hq⟩
    refine ⟨r, hr, hle, le_of_not_gt fun hpast => ?_⟩
    -- the end of `r` is a point of `q` that no range covers
    obtain ⟨b, hb⟩ := WithTop.ne_top_iff_exists.mp (ne_top_of_lt hpast)
    rw [← hb] at hpast hlt
    obtain ⟨s, hs, hsle, hslt⟩ := hall b ⟨le_of_lt (WithTop.coe_lt_coe.mp hlt), hpast⟩
    rcases h.apart hr hs with rfl | hgap | hgap
    · rw [← hb] at hslt
      exact lt_irrefl _ hslt
    · rw [← hb, WithTop.coe_lt_coe] at hgap
      exact absurd hsle (not_le_of_gt hgap)
    · refine lt_irrefl (b : WithTop α) (hslt.trans (hgap.trans (lt_of_le_of_lt ?_ hlt)))
      exact WithTop.coe_le_coe.mpr hle
  · rintro ⟨r, hr, hle, hpast⟩ a ⟨hfirst, hlt⟩
    exact ⟨r, hr, hle.trans hfirst, hlt.trans_le hpast⟩

theorem Separated.mem_of_covered {rs ss : List (Range α)} (h : Separated rs) (h' : Separated ss)
    (hcov : ∀ a, Covered rs a ↔ Covered ss a) {r : Range α} (hr : r ∈ rs) : r ∈ ss := by
  have hne := h.nonempty r hr
  obtain ⟨s, hs, hfirst, hpast⟩ := (h'.all_covered_iff hne).mp
    fun a ha => (hcov a).mp ⟨r, hr, ha⟩
  obtain ⟨r', hr', hfirst', hpast'⟩ := (h.all_covered_iff (h'.nonempty s hs)).mp
    fun a ha => (hcov a).mpr ⟨s, hs, ha⟩
  have hstart : (r'.first : WithTop α) < r.past :=
    lt_of_le_of_lt (WithTop.coe_le_coe.mpr (hfirst'.trans hfirst)) hne
  -- the range around the range around `r` is `r`, as it meets it
  rcases h.apart hr hr' with rfl | hgap | hgap
  · have heq : s = r := by
      exact Range.mk.injEq .. ▸ ⟨le_antisymm hfirst hfirst', le_antisymm hpast' hpast⟩
    exact heq ▸ hs
  · exact absurd hstart (not_lt_of_gt hgap)
  · exact absurd (hne.trans_le (hpast.trans hpast')) (not_lt_of_gt hgap)

end Harbour.Library.RangeList

/-!
Locks on ranges of bytes that several owners set and release, shared or exclusive.
-/

namespace Harbour.Library.RangeLocks

inductive Mode where
  | shared
  | exclusive
deriving DecidableEq, Repr

/-- The mode in which an owner has locked a byte. -/
abbrev Locks (ι : Type*) := ι → Nat → Option Mode

namespace Locks

variable {ι : Type*} [DecidableEq ι] (locks : Locks ι) (i : ι) (first len : Nat) (mode : Mode)

def free : Locks ι := fun _ _ => none

def lock : Locks ι :=
  Function.update locks i fun n => if first ≤ n ∧ n < first + len then some mode else locks i n

def unlock : Locks ι :=
  Function.update locks i fun n => if first ≤ n ∧ n < first + len then none else locks i n

/-- No other owner has a lock on the range that excludes the one asked for. -/
def Grantable : Prop :=
  ∀ j ≠ i, ∀ n, first ≤ n → n < first + len → ∀ m, locks j n = some m →
    mode = .shared ∧ m = .shared

def Exclusive (locks : Locks ι) : Prop :=
  ∀ i j n, locks i n = some .exclusive → locks j n ≠ none → i = j

variable {locks i first len mode}

theorem lock_self (n : Nat) : locks.lock i first len mode i n =
    if first ≤ n ∧ n < first + len then some mode else locks i n := by
  unfold lock
  rw [Function.update_self]

theorem lock_other {j : ι} (h : j ≠ i) : locks.lock i first len mode j = locks j :=
  Function.update_of_ne h _ _

theorem unlock_self (n : Nat) : locks.unlock i first len i n =
    if first ≤ n ∧ n < first + len then none else locks i n := by
  unfold unlock
  rw [Function.update_self]

theorem unlock_other {j : ι} (h : j ≠ i) : locks.unlock i first len j = locks j :=
  Function.update_of_ne h _ _

omit [DecidableEq ι] in
theorem exclusive_free : Exclusive (free : Locks ι) := fun _ _ _ h => nomatch h

theorem Exclusive.lock (h : Exclusive locks) (hgrant : locks.Grantable i first len mode) :
    Exclusive (locks.lock i first len mode) := by
  intro a b n ha hb
  by_cases hai : a = i
  · by_cases hbi : b = i
    · exact hai.trans hbi.symm
    · rw [lock_other hbi] at hb
      rw [hai, lock_self] at ha
      split_ifs at ha with hin
      · obtain ⟨m, hm⟩ := Option.ne_none_iff_exists'.mp hb
        obtain ⟨hmode, -⟩ := hgrant b hbi n hin.1 hin.2 m hm
        rw [hmode] at ha
        exact nomatch ha
      · exact hai.trans (h i b n ha hb)
  · rw [lock_other hai] at ha
    by_cases hbi : b = i
    · rw [hbi, lock_self] at hb
      split_ifs at hb with hin
      · exact nomatch (hgrant a hai n hin.1 hin.2 .exclusive ha).2
      · exact (h a i n ha hb).trans hbi.symm
    · rw [lock_other hbi] at hb
      exact h a b n ha hb

theorem Exclusive.unlock (h : Exclusive locks) : Exclusive (locks.unlock i first len) := by
  have hsub : ∀ a n m, locks.unlock i first len a n = some m → locks a n = some m := by
    intro a n m ha
    by_cases hai : a = i
    · rw [hai, unlock_self] at ha
      split_ifs at ha
      rw [hai]
      exact ha
    · rw [unlock_other hai] at ha
      exact ha
  intro a b n ha hb
  obtain ⟨m, hm⟩ := Option.ne_none_iff_exists'.mp hb
  exact h a b n (hsub a n _ ha) (by rw [hsub b n m hm]; exact Option.some_ne_none m)

end Locks

end Harbour.Library.RangeLocks
