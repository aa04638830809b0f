import Harbour.Rtl.FileThreads

/-!
What holds in every interleaving of threads that lock and unlock ranges of one file.
-/

namespace Harbour.Rtl.FileThreads

open FileLocks FileLocks.HbFlock Library.Transitions Function List

section File

variable (file : HbFile) (nStart nLen : Int)

theorem setLock_refused (h : (file.setLock nStart nLen).1 = false) :
    file.setLock nStart nLen = (false, false, file) := by
  unfold HbFile.setLock at h ⊢
  dsimp only at h ⊢
  split_ifs at h ⊢
  rfl

theorem setLock_flag (h : (file.setLock nStart nLen).1 = true) :
    (file.setLock nStart nLen).2.1 = file.shared := by
  unfold HbFile.setLock at h ⊢
  dsimp only at h ⊢
  split_ifs at h ⊢ <;> rfl

theorem setLock_shared : (file.setLock nStart nLen).2.2.shared = file.shared := by
  unfold HbFile.setLock
  dsimp only
  split_ifs <;> rfl

theorem unlock_shared (pfLockFS : Bool) :
    (file.unlock pfLockFS nStart nLen).2.2.shared = file.shared := by
  unfold HbFile.unlock
  dsimp only
  split_ifs <;> rfl

theorem unlock_deferred (h : file.shared = true)
    (hdone : (file.unlock false nStart nLen).1 = true) :
    file.unlock true nStart nLen = (true, true, file) := by
  unfold HbFile.unlock at hdone ⊢
  dsimp only at hdone ⊢
  split at hdone
  · next hheld =>
      rw [if_pos hheld, h]
      rfl
  · exact absurd hdone Bool.false_ne_true

theorem unlock_alone (h : file.shared = false) :
    file.unlock true nStart nLen = file.unlock false nStart nLen := by
  unfold HbFile.unlock
  rw [h]
  rfl

theorem unlock_no_flag : (file.unlock false nStart nLen).2.1 = false := by
  unfold HbFile.unlock
  dsimp only
  split_ifs <;> first | rfl | contradiction

end File

variable {ι : Type*}

/-- The range for which a thread has a lock in the table, besides those granted to it. -/
def Place.ranges : Place → List HbFlock
  | .idle => []
  | .locking q => [q]
  | .refused q => [q]
  | .unlocking q => [q]
  | .unlocked q => [q]

/-- Those of them that are locked in the operating system. -/
def Place.osRanges : Place → List HbFlock
  | .unlocking q => [q]
  | _ => []

def State.ranges (s : State ι) (t : ι) : List HbFlock :=
  (s.thread t).place.ranges ++ (s.thread t).granted

def State.osRanges (s : State ι) (t : ι) : List HbFlock :=
  (s.thread t).place.osRanges ++ (s.thread t).granted

/-- The table holds the ranges of the threads, the operating system those of them it was asked for.
A file that is not shared is locked in the table only. -/
structure Consistent (shared : Bool) (s : State ι) : Prop where
  shared_eq : s.file.shared = shared
  kept : Kept s.file.pLocks s.ranges
  os : shared = true → s.os = heldBy s.osRanges
  alone : shared = false → ∀ t, (s.thread t).place = .idle
  others : Disjoint s.os s.others

section Step

variable {s : State ι} {shared : Bool} {t : ι} {q : HbFlock} {granted : List HbFlock}

theorem osRanges_sublist (t : ι) : (s.osRanges t).Sublist (s.ranges t) := by
  apply Sublist.append_right
  cases (s.thread t).place with
  | unlocking q => exact .refl _
  | _ => exact nil_sublist _

theorem ranges_of {place : Place} (h : (s.thread t).place = place) :
    s.ranges t = place.ranges ++ (s.thread t).granted := by
  rw [State.ranges, h]

theorem osRanges_of {place : Place} (h : (s.thread t).place = place) :
    s.osRanges t = place.osRanges ++ (s.thread t).granted := by
  rw [State.osRanges, h]

theorem Consistent.shared_of_busy (h : Consistent shared s) (hbusy : (s.thread t).place ≠ .idle) :
    shared = true := by
  by_contra hshared
  exact hbusy (h.alone (Bool.eq_false_of_not_eq_true hshared) t)

variable [DecidableEq ι]

theorem ranges_set (thread : Thread) : (s.set t thread).ranges =
    update s.ranges t (thread.place.ranges ++ thread.granted) := by
  funext t'
  by_cases h : t' = t
  · subst h
    simp [State.ranges, State.set]
  · simp [State.ranges, State.set, h]

theorem osRanges_set (thread : Thread) : (s.set t thread).osRanges =
    update s.osRanges t (thread.place.osRanges ++ thread.granted) := by
  funext t'
  by_cases h : t' = t
  · subst h
    simp [State.osRanges, State.set]
  · simp [State.osRanges, State.set, h]

theorem Consistent.set {file : HbFile} {os : Set Int} {thread : Thread} (h : Consistent shared s)
    (hshared : file.shared = shared)
    (hkept : Kept file.pLocks
      (update s.ranges t (thread.place.ranges ++ thread.granted)))
    (hos : shared = true →
      os = heldBy (update s.osRanges t (thread.place.osRanges ++ thread.granted)))
    (halone : shared = false → thread.place = .idle) (hothers : Disjoint os s.others) :
    Consistent shared ({ s with file := file, os := os }.set t thread) where
  shared_eq := hshared
  kept := by
    rw [ranges_set]
    exact hkept
  os hs := by
    rw [osRanges_set]
    exact hos hs
  alone hs t' := by
    by_cases ht : t' = t
    · subst ht
      simp only [State.set, update_self]
      exact halone hs
    · simp only [State.set, update_of_ne ht]
      exact h.alone hs t'
  others := hothers

theorem set_thread_self : s.set t (s.thread t) = s := by
  unfold State.set
  rw [update_eq_self]

theorem next_lock : next s (.lock t q) =
    { s with file := (s.file.setLock q.start q.len).2.2 }.set t (
      if (s.file.setLock q.start q.len).2.1 then { s.thread t with place := .locking q }
      else if (s.file.setLock q.start q.len).1 then
        { s.thread t with granted := q :: (s.thread t).granted }
      else s.thread t) :=
  rfl

theorem next_unlock : next s (.unlock t q) =
    { s with file := (s.file.unlock true q.start q.len).2.2 }.set t (
      if (s.file.unlock true q.start q.len).1 then
        ⟨if (s.file.unlock true q.start q.len).2.1 then .unlocking q else .idle,
          (s.thread t).granted.erase q⟩
      else s.thread t) :=
  rfl

theorem next_lock_refused (hset : (s.file.setLock q.start q.len).1 = false) :
    next s (.lock t q) = s := by
  rw [next_lock, setLock_refused _ _ _ hset]
  exact set_thread_self

section

variable (h : Consistent shared s)

include h

theorem Consistent.lock (henabled : Enabled s (.lock t q)) (hfits : Fits s (.lock t q)) :
    Consistent shared (next s (.lock t q)) := by
  obtain ⟨hidle, hproper⟩ := henabled
  cases hset : (s.file.setLock q.start q.len).1 with
  | false =>
    rw [next_lock_refused hset]
    exact h
  | true =>
    have hranges : s.ranges t = (s.thread t).granted := ranges_of hidle
    have hosRanges : s.osRanges t = (s.thread t).granted := osRanges_of hidle
    have hkept := h.kept.setLock (t := t) hproper hfits hset
    have hfile : (s.file.setLock q.start q.len).2.2.shared = shared :=
      (setLock_shared _ _ _).trans h.shared_eq
    rw [hranges] at hkept
    rw [next_lock, hset, setLock_flag _ _ _ hset, h.shared_eq]
    cases shared with
    | true =>
      refine h.set hfile hkept (fun hs => ?_) (fun hs => nomatch hs) h.others
      rw [h.os hs]
      congr 1
      exact (update_eq_self_iff.mpr hosRanges.symm).symm
    | false => exact h.set hfile (hidle ▸ hkept) (fun hs => nomatch hs) (fun _ => hidle) h.others

theorem Consistent.grant (henabled : Enabled s (.grant t q)) :
    Consistent shared (next s (.grant t q)) := by
  obtain ⟨hplace, hothers⟩ := henabled
  have hranges : s.ranges t = q :: (s.thread t).granted := ranges_of hplace
  have hosRanges : s.osRanges t = (s.thread t).granted := osRanges_of hplace
  refine h.set h.shared_eq ?_ (fun hs => ?_) (fun _ => rfl) ?_
  · rw [update_eq_self_iff.mpr]
    · exact h.kept
    · exact hranges.symm
  · rw [h.os hs, ← heldBy_cons (t := t), hosRanges]
    rfl
  · exact Disjoint.union_left h.others hothers

theorem Consistent.refuse (henabled : Enabled s (.refuse t q)) :
    Consistent shared (next s (.refuse t q)) := by
  have hplace : (s.thread t).place = .locking q := henabled
  have hshared := h.shared_of_busy (t := t) (by rw [hplace]; exact nofun)
  have hranges : s.ranges t = q :: (s.thread t).granted := ranges_of hplace
  have hosRanges : s.osRanges t = (s.thread t).granted := osRanges_of hplace
  refine h.set h.shared_eq ?_ (fun hs => ?_) (fun hs => ?_) h.others
  · rw [update_eq_self_iff.mpr]
    · exact h.kept
    · exact hranges.symm
  · rw [h.os hs]
    congr 1
    exact (update_eq_self_iff.mpr hosRanges.symm).symm
  · exact absurd (hshared.symm.trans hs) nofun

theorem Consistent.release {place : Place} (hplace : (s.thread t).place = place)
    (hone : place.ranges = [q]) (hos : place.osRanges = []) :
    Consistent shared ({ s with file := (s.file.unlock false q.start q.len).2.2 }.set t
      { s.thread t with place := .idle }) := by
  have hranges : s.ranges t = q :: (s.thread t).granted := by
    rw [ranges_of hplace, hone]
    rfl
  have hosRanges : s.osRanges t = (s.thread t).granted := by
    rw [osRanges_of hplace, hos]
    rfl
  have hkept := (h.kept.unlock (hranges ▸ mem_cons_self : q ∈ s.ranges t)).2
  rw [hranges, erase_cons_head] at hkept
  refine h.set ((unlock_shared _ _ _ _).trans h.shared_eq) hkept (fun hs => ?_)
    (fun _ => rfl) h.others
  rw [h.os hs]
  congr 1
  exact (update_eq_self_iff.mpr hosRanges.symm).symm

theorem Consistent.unlock (henabled : Enabled s (.unlock t q)) :
    Consistent shared (next s (.unlock t q)) := by
  obtain ⟨hidle, hgranted⟩ := henabled
  have hranges : s.ranges t = (s.thread t).granted := ranges_of hidle
  have hosRanges : s.osRanges t = (s.thread t).granted := osRanges_of hidle
  obtain ⟨hdone, hkept⟩ := h.kept.unlock (hranges ▸ hgranted : q ∈ s.ranges t)
  have hperm := perm_cons_erase hgranted
  rw [next_unlock]
  cases shared with
  | true =>
    rw [unlock_deferred _ _ _ h.shared_eq hdone]
    refine h.set h.shared_eq (h.kept.perm fun t' => ?_) (fun hs => ?_)
      (fun hs => nomatch hs) h.others
    · by_cases ht : t' = t
      · subst ht
        rw [update_self, hranges]
        exact hperm.symm
      · rw [update_of_ne ht]
    · rw [h.os hs]
      refine (heldBy_perm fun t' => ?_).symm
      by_cases ht : t' = t
      · subst ht
        rw [update_self, hosRanges]
        exact hperm.symm
      · rw [update_of_ne ht]
  | false =>
    rw [unlock_alone _ _ _ h.shared_eq, hdone, unlock_no_flag]
    rw [hranges] at hkept
    refine h.set ((unlock_shared _ _ _ _).trans h.shared_eq) hkept (fun hs => nomatch hs)
      (fun _ => rfl) h.others

theorem Consistent.osUnlock (henabled : Enabled s (.osUnlock t q)) :
    Consistent shared (next s (.osUnlock t q)) := by
  have hplace : (s.thread t).place = .unlocking q := henabled
  have hshared := h.shared_of_busy (t := t) (by rw [hplace]; exact nofun)
  have hranges : s.ranges t = q :: (s.thread t).granted := ranges_of hplace
  have hosRanges : s.osRanges t = q :: (s.thread t).granted := osRanges_of hplace
  have hosApart : Apart s.osRanges :=
    h.kept.toApart.subperm fun t' => (osRanges_sublist t').subperm
  have hheld := hosApart.heldBy_erase (hosRanges ▸ mem_cons_self : q ∈ s.osRanges t)
  rw [hosRanges, erase_cons_head] at hheld
  refine h.set h.shared_eq ?_ (fun hs => ?_) (fun hs => ?_) ?_
  · rw [update_eq_self_iff.mpr]
    · exact h.kept
    · exact hranges.symm
  · rw [h.os hs]
    exact hheld.symm
  · exact absurd (hshared.symm.trans hs) nofun
  · exact h.others.mono_left Set.sdiff_subset

theorem Consistent.next {act : Act ι} (henabled : Enabled s act) (hfits : Fits s act) :
    Consistent shared (next s act) := by
  cases act with
  | lock t q => exact h.lock henabled hfits
  | grant t q => exact h.grant henabled
  | refuse t q => exact h.refuse henabled
  | undo t q | remove t q => exact h.release henabled rfl rfl
  | unlock t q => exact h.unlock henabled
  | osUnlock t q => exact h.osUnlock henabled
  | others locked => exact ⟨h.shared_eq, h.kept, h.os, h.alone, henabled⟩

end

end Step

variable [DecidableEq ι]

theorem consistent_of_reachable {shared : Bool} {s : State ι}
    (h : (fittingThreads ι shared).Reachable s) : Consistent shared s := by
  apply h.invariant
  · rintro s ⟨hfile, hos, hthread⟩
    refine ⟨by rw [hfile]; rfl, ?_, ?_, ?_, ?_⟩
    · rw [hfile]
      exact kept_opened shared fun t => by rw [State.ranges, hthread t]; rfl
    · intro _
      rw [hos]
      refine (Set.eq_empty_of_forall_notMem ?_).symm
      rintro n ⟨t, q, hq, -⟩
      rw [State.osRanges, hthread t] at hq
      exact nomatch hq
    · intro _ t
      rw [hthread t]
    · rw [hos]
      exact Set.empty_disjoint _
  · rintro s s' hs ⟨act, henabled, hfits, rfl⟩
    exact hs.next henabled hfits

/-- What the two levels of locks promise in a state that a system of threads reaches. A request that
the table refuses changes nothing at all. One that the operating system refuses and that is undone
leaves no trace: the ranges of the threads determine the table and the locks of the process,
whatever was asked for before. -/
structure Safe (S : System (State ι)) (shared : Bool) (s : State ι) : Prop where
  nodup : ∀ t, (s.thread t).granted.Nodup
  apart : ∀ t t', ∀ q ∈ (s.thread t).granted, ∀ q' ∈ (s.thread t').granted, t ≠ t' ∨ q ≠ q' →
    Disjoint (offsets q) (offsets q')
  covered : ∀ t, ∀ q ∈ (s.thread t).granted, Within s.file.pLocks q
  osLocked : shared = true → ∀ t, ∀ q ∈ (s.thread t).granted, offsets q ⊆ s.os
  others : Disjoint s.os s.others
  refused : ∀ t q, Enabled s (.lock t q) → (s.file.setLock q.start q.len).1 = false →
    next s (.lock t q) = s
  traceless : ∀ s', S.Reachable s' → s'.thread = s.thread →
    s'.file.pLocks = s.file.pLocks ∧ (shared = true → s'.os = s.os)

/-- Threads that ask for fitting ranges only are safe from each other in every interleaving. -/
theorem fileLock_threads_safe {shared : Bool} {s : State ι}
    (h : (fittingThreads ι shared).Reachable s) : Safe (fittingThreads ι shared) shared s := by
  have hs := consistent_of_reachable h
  have hmem : ∀ t, ∀ q ∈ (s.thread t).granted, q ∈ s.ranges t :=
    fun _ _ hq => mem_append_right _ hq
  refine ⟨?_, ?_, ?_, ?_, hs.others, ?_, ?_⟩
  · intro t
    exact (hs.kept.nodup t).sublist (sublist_append_right _ _)
  · intro t t' q hq q' hq' hne
    exact hs.kept.disjoint t t' q (hmem t q hq) q' (hmem t' q' hq') hne
  · intro t q hq
    exact hs.kept.within (hmem t q hq)
  · intro hshared t q hq n hn
    rw [hs.os hshared]
    exact ⟨t, q, mem_append_right _ hq, hn⟩
  · intro t q _ hset
    exact next_lock_refused hset
  · intro s' h' hthread
    have hs' := consistent_of_reachable h'
    have hranges : s'.ranges = s.ranges := by
      funext t
      rw [State.ranges, State.ranges, hthread]
    have hosRanges : s'.osRanges = s.osRanges := by
      funext t
      rw [State.osRanges, State.osRanges, hthread]
    refine ⟨(hranges ▸ hs'.kept).unique hs.kept, fun hshared => ?_⟩
    rw [hs'.os hshared, hs.os hshared, hosRanges]

def started (ι : Type*) : State ι := ⟨HbFile.opened true, ∅, ∅, fun _ => ⟨.idle, []⟩⟩

def asked : State ℕ := next (started ℕ) (.lock 0 ⟨0, 10⟩)

def firstTen : State ℕ := next asked (.grant 0 ⟨0, 10⟩)

theorem asked_thread : asked.thread 0 = ⟨.locking ⟨0, 10⟩, []⟩ := by
  simp [asked, started, next, HbFile.opened, HbFile.setLock, HbFile.findOffset, HbFile.insertLock,
    Library.BinarySearch.partitionPoint, State.set]

theorem firstTen_locks : firstTen.file.pLocks = [⟨0, 10⟩] := by
  simp [firstTen, asked, started, next, HbFile.opened, HbFile.setLock, HbFile.findOffset,
    HbFile.insertLock, Library.BinarySearch.partitionPoint, State.set]

theorem firstTen_thread : firstTen.thread 0 = ⟨.idle, [⟨0, 10⟩]⟩ := by
  simp [firstTen, next, asked_thread, State.set]

theorem firstTen_reachable : (fittingThreads ℕ true).Reachable firstTen := by
  have hstarted : (fittingThreads ℕ true).Reachable (started ℕ) := .init ⟨rfl, rfl, fun _ => rfl⟩
  have hfits : JoinFits (started ℕ).file.pLocks ⟨0, 10⟩ :=
    fun _ => by simp [started, HbFile.opened, joinedLen]
  have hasked : (fittingThreads ℕ true).Reachable asked := by
    refine hstarted.step ⟨.lock 0 ⟨0, 10⟩, ⟨rfl, ?_⟩, hfits, rfl⟩
    exact ⟨by decide, by decide, by decide, by decide⟩
  refine hasked.step ⟨.grant 0 ⟨0, 10⟩, ⟨?_, Set.disjoint_empty _⟩, trivial, rfl⟩
  rw [asked_thread]

def askedFive : State ℕ := next firstTen (.lock 1 ⟨10, 5⟩)

def refusedFive : State ℕ := next (next askedFive (.refuse 1 ⟨10, 5⟩)) (.undo 1 ⟨10, 5⟩)

/-- A second thread asks for the range behind that of the first, and the system refuses it. -/
theorem fileLock_threads_safe_refused :
    askedFive.file.pLocks = [⟨0, 15⟩] ∧ refusedFive.file.pLocks = [⟨0, 10⟩] ∧
      (refusedFive.thread 0).granted = [⟨0, 10⟩] ∧
      Safe (fittingThreads ℕ true) true refusedFive := by
  have hfits : JoinFits firstTen.file.pLocks ⟨10, 5⟩ := by
    rw [firstTen_locks]
    exact fun _ => by decide
  have hasked : (fittingThreads ℕ true).Reachable askedFive := by
    refine firstTen_reachable.step ⟨.lock 1 ⟨10, 5⟩, ⟨by decide +kernel, ?_⟩, hfits, rfl⟩
    exact ⟨by decide, by decide, by decide, by decide⟩
  have hlocking : (askedFive.thread 1).place = .locking ⟨10, 5⟩ := by decide +kernel
  have hplace : ((next askedFive (.refuse 1 ⟨10, 5⟩)).thread 1).place = .refused ⟨10, 5⟩ := by
    decide +kernel
  have hrefused := hasked.step ⟨.refuse 1 ⟨10, 5⟩, hlocking, trivial, rfl⟩
  have hundone := hrefused.step ⟨.undo 1 ⟨10, 5⟩, hplace, trivial, rfl⟩
  exact ⟨by decide +kernel, by decide +kernel, by decide +kernel, fileLock_threads_safe hundone⟩

def askedRest : State ℕ := next firstTen (.lock 0 ⟨10, 2 ^ 63 - 10⟩)

def refusedRest : State ℕ :=
  next (next askedRest (.refuse 0 ⟨10, 2 ^ 63 - 10⟩)) (.undo 0 ⟨10, 2 ^ 63 - 10⟩)

theorem askedRest_thread : askedRest.thread =
    update firstTen.thread 0 ⟨.locking ⟨10, 2 ^ 63 - 10⟩, [⟨0, 10⟩]⟩ := by
  have hset : (firstTen.file.setLock 10 (2 ^ 63 - 10)).2.1 = true := by
    simp [firstTen, asked, started, next, HbFile.opened, HbFile.setLock, HbFile.findOffset,
      HbFile.insertLock, HbFile.setLen, HbFile.lock, foffset, Library.BinarySearch.partitionPoint,
      State.set]
  rw [askedRest, next_lock, hset, firstTen_thread]
  rfl

theorem refusedRest_thread : refusedRest.thread = firstTen.thread := by
  funext t
  by_cases ht : t = 0
  · subst ht
    simp [refusedRest, next, State.set, askedRest_thread, firstTen_thread]
  · simp [refusedRest, next, State.set, askedRest_thread, ht]

theorem refusedRest_locks : refusedRest.file.pLocks = [⟨0, -2 ^ 63⟩] := by
  simp [refusedRest, askedRest, firstTen, asked, started, next, HbFile.opened, HbFile.setLock,
    HbFile.unlock, HbFile.findOffset, HbFile.insertLock, HbFile.setLen, HbFile.lock, foffset,
    Library.BinarySearch.partitionPoint, State.set]

theorem threads_reachable {shared : Bool} {s : State ι}
    (h : (fittingThreads ι shared).Reachable s) : (threads ι shared).Reachable s := by
  apply h.invariant
  · intro s hs
    exact .init hs
  · rintro s s' hs ⟨act, henabled, -, rfl⟩
    exact hs.step ⟨act, henabled, rfl⟩

/-- The first lock and the range asked for are joined to a lock of a negative length, from which the
range is not removed again. -/
theorem fileLock_threads_trace :
    ¬ ∀ s, (threads ℕ true).Reachable s → Safe (threads ℕ true) true s := by
  intro hall
  have hfirst := threads_reachable firstTen_reachable
  have hasked : (threads ℕ true).Reachable askedRest := by
    refine hfirst.step ⟨.lock 0 ⟨10, 2 ^ 63 - 10⟩, ⟨?_, ?_⟩, rfl⟩
    · rw [firstTen_thread]
    · exact ⟨by decide, by decide, by decide, by decide⟩
  have hplace : (askedRest.thread 0).place = .locking ⟨10, 2 ^ 63 - 10⟩ := by
    rw [askedRest_thread, update_self]
  have hrefused : (threads ℕ true).Reachable (next askedRest (.refuse 0 ⟨10, 2 ^ 63 - 10⟩)) :=
    hasked.step ⟨.refuse 0 ⟨10, 2 ^ 63 - 10⟩, hplace, rfl⟩
  have hrest : (threads ℕ true).Reachable refusedRest := by
    refine hrefused.step ⟨.undo 0 ⟨10, 2 ^ 63 - 10⟩, ?_, rfl⟩
    simp [Enabled, next, State.set]
  have hsame := ((hall _ hfirst).traceless _ hrest refusedRest_thread).1
  rw [refusedRest_locks, firstTen_locks] at hsame
  exact absurd hsame (by decide)

end Harbour.Rtl.FileThreads
