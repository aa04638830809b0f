import Harbour.Library.Loops
import Harbour.Rtl.FileUnlock
import Mathlib.Data.Set.Basic
import Mathlib.Data.List.Sort
import Mathlib.Order.Disjoint
import Mathlib.Data.Set.Lattice

/-!
Threads that lock and unlock ranges of one file: in the table of the process first, and then in the
operating system.
-/

namespace Harbour.Rtl.FileThreads

open FileLocks FileLocks.HbFlock Library.Transitions

/-- Where a thread is in `s_fileLock`: in front of the call of the operating system that locks or
unlocks its range, or in front of the removal of the range from the table behind it. -/
inductive Place where
  | idle
  | locking (q : HbFlock)
  | refused (q : HbFlock)
  | unlocking (q : HbFlock)
  | unlocked (q : HbFlock)
  deriving DecidableEq, Repr

structure Thread where
  place : Place
  granted : List HbFlock

/-- `os` are the offsets that the process has locked in the operating system, `others` those of
other processes. -/
structure State (ι : Type*) where
  file : HbFile
  os : Set Int
  others : Set Int
  thread : ι → Thread

def offsets (q : HbFlock) : Set Int := { n | q.range.Holds n }

variable {ι : Type*} [DecidableEq ι]

def State.set (s : State ι) (t : ι) (thread : Thread) : State ι :=
  { s with thread := Function.update s.thread t thread }

inductive Act (ι : Type*) where
  | lock (t : ι) (q : HbFlock)
  | grant (t : ι) (q : HbFlock)
  | refuse (t : ι) (q : HbFlock)
  | undo (t : ι) (q : HbFlock)
  | unlock (t : ι) (q : HbFlock)
  | osUnlock (t : ι) (q : HbFlock)
  | remove (t : ι) (q : HbFlock)
  | others (locked : Set Int)

section Step

variable (s : State ι)

/-- Threads ask for ranges of offsets and unlock ranges granted to them. The operating system grants
no range that another process has locked, and other processes none of this one. -/
def Enabled : Act ι → Prop
  | .lock t q => (s.thread t).place = .idle ∧ q.Proper
  | .grant t q => (s.thread t).place = .locking q ∧ Disjoint (offsets q) s.others
  | .refuse t q => (s.thread t).place = .locking q
  | .undo t q => (s.thread t).place = .refused q
  | .unlock t q => (s.thread t).place = .idle ∧ q ∈ (s.thread t).granted
  | .osUnlock t q => (s.thread t).place = .unlocking q
  | .remove t q => (s.thread t).place = .unlocked q
  | .others locked => Disjoint s.os locked

/-- The critical sections of `s_fileLock`, its calls of the operating system, and the locks of other
processes. -/
def next : Act ι → State ι
  | .lock t q =>
    let (fResult, fLockFS, file) := s.file.setLock q.start q.len
    { s with file := file }.set t (
      if fLockFS then { s.thread t with place := .locking q }
      else if fResult then { s.thread t with granted := q :: (s.thread t).granted }
      else s.thread t)
  | .grant t q =>
    { s with os := s.os ∪ offsets q }.set t ⟨.idle, q :: (s.thread t).granted⟩
  | .refuse t q => s.set t { s.thread t with place := .refused q }
  | .undo t q =>
    { s with file := (s.file.unlock false q.start q.len).2.2 }.set t
      { s.thread t with place := .idle }
  | .unlock t q =>
    let (fResult, fLockFS, file) := s.file.unlock true q.start q.len
    { s with file := file }.set t (
      if fResult then
        ⟨if fLockFS then .unlocking q else .idle, (s.thread t).granted.erase q⟩
      else s.thread t)
  | .osUnlock t q =>
      { s with os := s.os \ offsets q }.set t { s.thread t with place := .unlocked q }
  | .remove t q =>
    { s with file := (s.file.unlock false q.start q.len).2.2 }.set t
      { s.thread t with place := .idle }
  | .others locked => { s with others := locked }

end Step

def threads (ι : Type*) [DecidableEq ι] (shared : Bool) : System (State ι) where
  init s := s.file = HbFile.opened shared ∧ s.os = ∅ ∧ ∀ t, s.thread t = ⟨.idle, []⟩
  step s s' := ∃ act, Enabled s act ∧ s' = next s act

/-- A range that is asked for does not make a lock of 2^63 offsets or more with its neighbours. -/
def Fits (s : State ι) : Act ι → Prop
  | .lock _ q => JoinFits s.file.pLocks q
  | _ => True

/-- The runs in which every range asked for fits. -/
def fittingThreads (ι : Type*) [DecidableEq ι] (shared : Bool) : System (State ι) where
  init := (threads ι shared).init
  step s s' := ∃ act, Enabled s act ∧ Fits s act ∧ s' = next s act

end Harbour.Rtl.FileThreads

/-!
The table of locks while ranges of many threads come and go.
-/

namespace Harbour.Rtl.FileThreads

open FileLocks FileLocks.HbFlock Library.RangeList

variable {ι : Type*}

def heldBy (ranges : ι → List HbFlock) : Set Int := { n | ∃ t, ∃ q ∈ ranges t, q.range.Holds n }

structure Apart (ranges : ι → List HbFlock) : Prop where
  proper : ∀ t, ∀ q ∈ ranges t, q.Proper
  nodup : ∀ t, (ranges t).Nodup
  disjoint : ∀ t t', ∀ q ∈ ranges t, ∀ q' ∈ ranges t', t ≠ t' ∨ q ≠ q' →
    Disjoint (offsets q) (offsets q')

/-- The table holds the ranges of the threads, which have no offset in common. A lock without an end
ends where a range does. -/
structure Kept (locks : List HbFlock) (ranges : ι → List HbFlock) : Prop extends Apart ranges where
  wellFormed : WellFormed locks
  covers : ∀ n, Locked locks n ↔ n ∈ heldBy ranges
  ends : ∀ l ∈ locks, 2 ^ 63 ≤ l.past → ∃ t, ∃ q ∈ ranges t, q.past = l.past

section Ranges

variable {ranges ranges' : ι → List HbFlock} {q q' : HbFlock} {t t' : ι}

theorem heldBy_perm (hperm : ∀ t, (ranges' t).Perm (ranges t)) :
    heldBy ranges' = heldBy ranges := by
  ext n
  constructor
  · rintro ⟨t, q, hq, hn⟩
    exact ⟨t, q, (hperm t).mem_iff.mp hq, hn⟩
  · rintro ⟨t, q, hq, hn⟩
    exact ⟨t, q, (hperm t).mem_iff.mpr hq, hn⟩

theorem Apart.subperm (h : Apart ranges) (hsub : ∀ t, (ranges' t).Subperm (ranges t)) :
    Apart ranges' where
  proper t q hq := h.proper t q ((hsub t).subset hq)
  nodup t := by
    obtain ⟨l, hperm, hl⟩ := hsub t
    exact hperm.nodup_iff.mp ((h.nodup t).sublist hl)
  disjoint t t' q hq q' hq' := h.disjoint t t' q ((hsub t).subset hq) q' ((hsub t').subset hq')

theorem start_mem (hq : q.Proper) : q.start ∈ offsets q := by
  refine range_holds_iff.mpr ⟨le_refl _, .inl ?_⟩
  have := hq.len_pos
  unfold past
  omega

theorem meet_of_inf (hinf : 2 ^ 63 ≤ q.past) (hinf' : 2 ^ 63 ≤ q'.past) :
    ¬ Disjoint (offsets q) (offsets q') := by
  intro hdisjoint
  have hq : max q.start q'.start ∈ offsets q := range_holds_iff.mpr ⟨le_max_left _ _, .inr hinf⟩
  have hq' : max q.start q'.start ∈ offsets q' := range_holds_iff.mpr ⟨le_max_right _ _, .inr hinf'⟩
  exact Set.disjoint_left.mp hdisjoint hq hq'

theorem Apart.same_end (h : Apart ranges) (hq : q ∈ ranges t) (hq' : q' ∈ ranges t')
    (hinf : 2 ^ 63 ≤ q.past) (hinf' : 2 ^ 63 ≤ q'.past) : q.past = q'.past := by
  by_contra hne
  have hdiff : q ≠ q' := fun heq => hne (heq ▸ rfl)
  exact meet_of_inf hinf hinf' (h.disjoint t t' q hq q' hq' (.inr hdiff))

variable [DecidableEq ι]

theorem mem_update_cons : q' ∈ Function.update ranges t (q :: ranges t) t' ↔
    t' = t ∧ q' = q ∨ q' ∈ ranges t' := by
  by_cases h : t' = t
  · subst h
    rw [Function.update_self, List.mem_cons]
    tauto
  · rw [Function.update_of_ne h]
    tauto

theorem Apart.mem_update_erase (h : Apart ranges) :
    q' ∈ Function.update ranges t ((ranges t).erase q) t' ↔
      q' ∈ ranges t' ∧ (t' ≠ t ∨ q' ≠ q) := by
  by_cases ht : t' = t
  · subst ht
    rw [Function.update_self, (h.nodup t').mem_erase_iff]
    tauto
  · rw [Function.update_of_ne ht]
    tauto

theorem heldBy_cons :
    heldBy (Function.update ranges t (q :: ranges t)) = heldBy ranges ∪ offsets q := by
  ext n
  constructor
  · rintro ⟨t', q', hq', hn⟩
    rcases mem_update_cons.mp hq' with ⟨-, rfl⟩ | hq'
    · exact .inr hn
    · exact .inl ⟨t', q', hq', hn⟩
  · rintro (⟨t', q', hq', hn⟩ | hn)
    · exact ⟨t', q', mem_update_cons.mpr (.inr hq'), hn⟩
    · exact ⟨t, q, mem_update_cons.mpr (.inl ⟨rfl, rfl⟩), hn⟩

theorem Apart.heldBy_erase (h : Apart ranges) (hq : q ∈ ranges t) :
    heldBy (Function.update ranges t ((ranges t).erase q)) = heldBy ranges \ offsets q := by
  ext n
  constructor
  · rintro ⟨t', q', hq', hn⟩
    obtain ⟨hmem, hne⟩ := h.mem_update_erase.mp hq'
    exact ⟨⟨t', q', hmem, hn⟩, Set.disjoint_left.mp (h.disjoint t' t q' hmem q hq hne) hn⟩
  · rintro ⟨⟨t', q', hq', hn⟩, hout⟩
    refine ⟨t', q', h.mem_update_erase.mpr ⟨hq', .inr fun heq => hout ?_⟩, hn⟩
    exact heq ▸ hn

theorem Apart.cons (h : Apart ranges) (hq : q.Proper)
    (happart : ∀ t', ∀ q' ∈ ranges t', Disjoint (offsets q) (offsets q')) :
    Apart (Function.update ranges t (q :: ranges t)) where
  proper t' q' hq' := by
    rcases mem_update_cons.mp hq' with ⟨-, rfl⟩ | hq'
    · exact hq
    · exact h.proper t' q' hq'
  nodup t' := by
    by_cases ht : t' = t
    · subst ht
      rw [Function.update_self]
      refine List.nodup_cons.mpr ⟨fun hmem => ?_, h.nodup t'⟩
      exact Set.disjoint_left.mp (happart t' q hmem) (start_mem hq) (start_mem hq)
    · rw [Function.update_of_ne ht]
      exact h.nodup t'
  disjoint t1 t2 q1 hq1 q2 hq2 hne := by
    rcases mem_update_cons.mp hq1 with ⟨ht1, heq1⟩ | hq1
    · rcases mem_update_cons.mp hq2 with ⟨ht2, heq2⟩ | hq2
      · rcases hne with hne | hne
        · exact absurd (ht1.trans ht2.symm) hne
        · exact absurd (heq1.trans heq2.symm) hne
      · exact heq1 ▸ happart t2 q2 hq2
    · rcases mem_update_cons.mp hq2 with ⟨-, heq2⟩ | hq2
      · exact heq2 ▸ (happart t1 q1 hq1).symm
      · exact h.disjoint t1 t2 q1 hq1 q2 hq2 hne

theorem Apart.erase (h : Apart ranges) : Apart (Function.update ranges t ((ranges t).erase q)) := by
  apply h.subperm
  intro t'
  by_cases ht : t' = t
  · subst ht
    rw [Function.update_self]
    exact (List.erase_sublist).subperm
  · rw [Function.update_of_ne ht]

end Ranges

section Kept

variable {file : HbFile} {locks locks' : List HbFlock} {ranges ranges' : ι → List HbFlock}
  {q : HbFlock} {t : ι}

theorem kept_opened (shared : Bool) (h : ∀ t, ranges t = []) :
    Kept (HbFile.opened shared).pLocks ranges where
  proper t q hq := by rw [h t] at hq; exact nomatch hq
  nodup t := by rw [h t]; exact .nil
  disjoint t t' q hq := by rw [h t] at hq; exact nomatch hq
  wellFormed := wellFormed_of_gap (fun _ hl => nomatch hl) .nil
  covers n := by
    refine iff_of_false (locked_nil n) ?_
    rintro ⟨t, q, hq, -⟩
    rw [h t] at hq
    exact nomatch hq
  ends l hl := nomatch hl

section

variable (h : Kept locks ranges)

include h

theorem Kept.perm (hperm : ∀ t, (ranges' t).Perm (ranges t)) : Kept locks ranges' where
  toApart := h.toApart.subperm fun t => (hperm t).subperm
  wellFormed := h.wellFormed
  covers n := by rw [heldBy_perm hperm]; exact h.covers n
  ends l hl hinf := by
    obtain ⟨t, q, hq, heq⟩ := h.ends l hl hinf
    exact ⟨t, q, (hperm t).mem_iff.mpr hq, heq⟩

theorem Kept.within (hq : q ∈ ranges t) : Within locks q :=
  fun n hn => (h.covers n).mpr ⟨t, q, hq, hn⟩

theorem Kept.range_end {l : HbFlock} (hl : l ∈ locks) (hinf : 2 ^ 63 ≤ l.past) (hq : q ∈ ranges t)
    (hqinf : 2 ^ 63 ≤ q.past) : q.past = l.past := by
  obtain ⟨t', q', hq', heq⟩ := h.ends l hl hinf
  exact (h.same_end hq hq' hqinf (heq ▸ hinf)).trans heq

theorem Kept.mem_of_same (h' : Kept locks' ranges) {l : HbFlock} (hl : l ∈ locks) : l ∈ locks' := by
  have hcov : ∀ n, Covered (locks.map HbFlock.range) n ↔ Covered (locks'.map HbFlock.range) n :=
    fun n => (h.covers n).trans (h'.covers n).symm
  have hmem := h.wellFormed.separated.mem_of_covered h'.wellFormed.separated hcov
    (List.mem_map_of_mem hl)
  obtain ⟨s, hs, heq⟩ := List.mem_map.mp hmem
  have hstart : s.start = l.start := congrArg Range.first heq
  have hpast : s.past = l.past := by
    have hp := congrArg Range.past heq
    unfold range at hp
    split_ifs at hp with hinf hinf' hinf'
    · obtain ⟨t, q, hq, hqs⟩ := h'.ends s hs hinf
      exact hqs.symm.trans (h.range_end hl hinf' hq (hqs ▸ hinf))
    · exact absurd hp.symm WithTop.coe_ne_top
    · exact absurd hp WithTop.coe_ne_top
    · exact WithTop.coe_inj.mp hp
  have hsl : s = l := by
    cases s
    unfold past at hpast
    dsimp only at hstart hpast
    rw [HbFlock.mk.injEq]
    omega
  exact hsl ▸ hs

theorem Kept.sorted : locks.Pairwise fun l s => l.start < s.start := by
  refine h.wellFormed.gap.imp_of_mem ?_
  intro l s hl _ hlt
  have := (h.wellFormed.proper l hl).len_pos
  unfold past at hlt
  omega

theorem Kept.unique (h' : Kept locks' ranges) : locks = locks' := by
  refine List.Perm.eq_of_pairwise ?_ h.sorted h'.sorted ?_
  · intro a b _ _ hab hba
    exact absurd hba (not_lt_of_gt hab)
  · refine (List.perm_ext_iff_of_nodup ?_ ?_).mpr
      fun l => ⟨fun hl => h.mem_of_same h' hl, fun hl => h'.mem_of_same h hl⟩
    · exact h.sorted.imp fun hlt heq => absurd (heq ▸ hlt) (lt_irrefl _)
    · exact h'.sorted.imp fun hlt heq => absurd (heq ▸ hlt) (lt_irrefl _)

end

variable [DecidableEq ι]

theorem Kept.setLock (h : Kept file.pLocks ranges) (hq : q.Proper) (hfits : JoinFits file.pLocks q)
    (hset : (file.setLock q.start q.len).1 = true) :
    Kept (file.setLock q.start q.len).2.2.pLocks (Function.update ranges t (q :: ranges t)) := by
  have hexact := (setsExactly_iff h.wellFormed hq).mpr hfits
  have hfree := hexact.succeeds.mp hset
  have happart : ∀ t', ∀ q' ∈ ranges t', Disjoint (offsets q) (offsets q') := by
    intro t' q' hq'
    refine Set.disjoint_left.mpr fun n hn hn' => hfree ⟨n, hn, ?_⟩
    exact (h.covers n).mpr ⟨t', q', hq', hn'⟩
  have hmem : q ∈ Function.update ranges t (q :: ranges t) t :=
    mem_update_cons.mpr (.inl ⟨rfl, rfl⟩)
  refine ⟨h.toApart.cons hq happart, hexact.wellFormed, ?_, ?_⟩
  · intro n
    rw [hexact.locked, h.covers, hset, heldBy_cons]
    exact or_congr_right (and_iff_right rfl)
  · obtain ⟨before, left, right, after, hn, -, hlocks⟩ := setLock_of_free h.wellFormed hq hfree
    have hold : ∀ l ∈ file.pLocks, 2 ^ 63 ≤ l.past →
        ∃ t', ∃ q' ∈ Function.update ranges t (q :: ranges t) t', q'.past = l.past := by
      intro l hl hinf
      obtain ⟨t', q', hq', heq⟩ := h.ends l hl hinf
      exact ⟨t', q', mem_update_cons.mpr (.inr hq'), heq⟩
    have hlen := hfits hfree
    rw [hn.joinedLen_eq h.wellFormed hq] at hlen
    rw [foffset_of_lt (hn.joined_len_bounds h.wellFormed hq).1.le hlen] at hlocks
    have hpast := hn.joined_past
    intro l hl hinf
    rw [hlocks] at hl
    rcases List.mem_append.mp hl with hl | hl
    · exact hold l (by rw [hn.parts]; simp [hl]) hinf
    · rcases List.mem_cons.mp hl with rfl | hl
      · change 2 ^ 63 ≤ (joined q left right).past at hinf
        cases right with
        | none => exact ⟨t, q, hmem, hpast.symm⟩
        | some r =>
          rw [hpast] at hinf ⊢
          exact hold r (by rw [hn.parts]; simp) hinf
      · exact hold l (by rw [hn.parts]; simp [hl]) hinf

theorem Kept.unlock (h : Kept file.pLocks ranges) (hq : q ∈ ranges t) :
    (file.unlock false q.start q.len).1 = true ∧
      Kept (file.unlock false q.start q.len).2.2.pLocks
        (Function.update ranges t ((ranges t).erase q)) := by
  have hproper := h.proper t q hq
  obtain ⟨l, hl, hle, hend⟩ := (within_iff h.wellFormed hproper).mp (h.within hq)
  have hends : 2 ^ 63 ≤ q.past → 2 ^ 63 ≤ l.past → q.past = l.past :=
    fun hqinf hinf => h.range_end hl hinf hq hqinf
  have hle' : q.past ≤ l.past := by omega
  have hlproper := h.wellFormed.proper l hl
  obtain ⟨before, after, hparts⟩ := List.append_of_mem hl
  have hexact := unlocksExactly_of_held h.wellFormed hproper hparts hle hle' fun hqinf =>
    hends hqinf (hqinf.trans hle')
  obtain ⟨hdone, hlocks⟩ := unlock_of_held h.wellFormed hproper hparts hle hle'
  refine ⟨hdone, h.toApart.erase, hexact.wellFormed, ?_, ?_⟩
  · intro n
    rw [hexact.locked, h.covers, hdone, h.heldBy_erase hq]
    exact and_congr_right fun _ => not_congr (and_iff_right rfl)
  · have hgap := h.wellFormed.gap
    rw [hparts] at hgap
    obtain ⟨-, hback, hfront⟩ := List.pairwise_append.mp hgap
    have hback := (List.pairwise_cons.mp hback).1
    have hstart := hlproper.start_lt
    -- a lock without an end that is not the one of `q` ends with another range
    have hold : ∀ s ∈ file.pLocks, 2 ^ 63 ≤ s.past → q.past ≠ s.past →
        ∃ t', ∃ q' ∈ Function.update ranges t ((ranges t).erase q) t', q'.past = s.past := by
      intro s hs hinf hne
      obtain ⟨t', q', hq', heq⟩ := h.ends s hs hinf
      exact ⟨t', q', h.mem_update_erase.mpr ⟨hq', .inr fun hqq => hne (hqq ▸ heq)⟩, heq⟩
    intro s hs hinf
    rw [hlocks] at hs
    rcases List.mem_append.mp hs with hs | hs
    · rcases List.mem_append.mp hs with hs | hs
      · have hlt := hfront s hs l List.mem_cons_self
        omega
      · have hqstart := hproper.start_lt
        rcases List.mem_append.mp hs with hs | hs
        · split_ifs at hs
          · rw [List.mem_singleton.mp hs] at hinf
            unfold past at hinf
            dsimp only at hinf
            omega
          · exact nomatch hs
        · split_ifs at hs with hlt
          · have hoffset : foffset q.past = q.past := by
              refine foffset_of_lt ?_ (by omega)
              have := hproper.start_nonneg
              have := hproper.len_pos
              unfold past
              omega
            have hsl : s.past = l.past := by
              rw [List.mem_singleton.mp hs, hoffset]
              unfold past
              dsimp only
              omega
            rw [hsl] at hinf ⊢
            exact hold l hl hinf hlt.ne
          · exact nomatch hs
    · have hlt := hback s hs
      have hs63 := (h.wellFormed.proper s (by rw [hparts]; simp [hs])).start_lt
      exact hold s (by rw [hparts]; simp [hs]) hinf (by omega)

end Kept

end Harbour.Rtl.FileThreads
