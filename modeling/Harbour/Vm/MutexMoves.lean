import Harbour.Vm.Mutex

/-!
Each stretch of the functions between two critical sections is a number of moves of recursive locks.
-/

namespace Harbour.Vm.Mutex

open Library Library.RecursiveLock Function

variable {T M E : Type*} [DecidableEq T] [DecidableEq M]

/-- A thread has to do with one mutex only. -/
def only (m : M) (p : RecursiveLock.Part) : M → RecursiveLock.Part :=
  update (fun _ => RecursiveLock.Part.none) m p

theorem only_self (m : M) (p : RecursiveLock.Part) : only m p m = p := update_self ..

theorem only_ne {m m' : M} (h : m' ≠ m) (p : RecursiveLock.Part) :
    only m p m' = RecursiveLock.Part.none :=
  update_of_ne h ..

theorem only_none (m : M) : only m ⟨.away, 0⟩ = fun _ => RecursiveLock.Part.none :=
  update_eq_self m fun _ => RecursiveLock.Part.none

def wait (woken : Bool) : Wait := if woken then .woken else .asleep

def givenPart : Option (M × Nat) → M → RecursiveLock.Part
  | some (m, lockCount) => only m ⟨.away, lockCount⟩
  | none => fun _ => RecursiveLock.Part.none

def Place.part : Place M E → M → RecursiveLock.Part
  | .lock m woken => only m ⟨wait woken, 0⟩
  | .timedLock m woken => only m ⟨wait woken, 0⟩
  | .restore m lockCount _ _ woken => only m ⟨wait woken, lockCount⟩
  | .subscribe m _ lockCount _ => only m ⟨.away, lockCount⟩
  | .syncWait _ _ given _ => givenPart given
  | .syncRestore m lockCount _ => only m ⟨.away, lockCount⟩
  | _ => fun _ => RecursiveLock.Part.none

theorem ready_part (result : Result E) (m : M) : (Place.ready result).part = only m ⟨.away, 0⟩ :=
  (only_none m).symm

def lockOf (s : State T M E) (m : M) : Lock T where
  owner := (s.mutex m).owner
  count := (s.mutex m).lockCount
  waiters := (s.mutex m).lockers
  part t := (s.thread t).part m
  depth t := s.depth t m

/-- Every mutex moves as a recursive lock does. -/
def Moves (s s' : State T M E) : Prop :=
  ∀ m, Relation.ReflTransGen Move (lockOf s m) (lockOf s' m)

section Lock

variable {s s' s'' : State T M E} {self t : T} {m m' : M} {place : Place M E} {pMutex : HbMutex T E}

theorem Moves.trans (h : Moves s s') (h' : Moves s' s'') : Moves s s'' :=
  fun m => (h m).trans (h' m)

theorem lockOf_setPlace : lockOf (s.setPlace t place) m =
    { lockOf s m with part := update (lockOf s m).part t (place.part m) } := by
  unfold lockOf State.setPlace
  dsimp only
  congr 1
  funext t'
  by_cases ht : t' = t
  · subst ht
    rw [update_self, update_self]
  · rw [update_of_ne ht, update_of_ne ht]

omit [DecidableEq T] in
theorem lockOf_setMutex : lockOf (s.setMutex m pMutex) m =
    { lockOf s m with
      owner := pMutex.owner, count := pMutex.lockCount, waiters := pMutex.lockers } := by
  unfold lockOf State.setMutex
  dsimp only
  rw [update_self]

omit [DecidableEq T] in
theorem lockOf_setMutex_ne (h : m' ≠ m) : lockOf (s.setMutex m pMutex) m' = lockOf s m' := by
  unfold lockOf State.setMutex
  dsimp only
  rw [update_of_ne h]

theorem lockOf_setDepth {depth : Nat} : lockOf (s.setDepth t m depth) m =
    { lockOf s m with depth := update (lockOf s m).depth t depth } := by
  unfold lockOf State.setDepth
  dsimp only
  congr 1
  funext t'
  by_cases ht : t' = t
  · subst ht
    rw [update_self, update_self, update_self]
  · rw [update_of_ne ht, update_of_ne ht]

theorem lockOf_setDepth_ne {depth : Nat} (h : m' ≠ m) :
    lockOf (s.setDepth t m depth) m' = lockOf s m' := by
  unfold lockOf State.setDepth
  dsimp only
  congr 1
  funext t'
  by_cases ht : t' = t
  · subst ht
    rw [update_self, update_of_ne h]
  · rw [update_of_ne ht]

theorem part_update_ne {p p' : RecursiveLock.Part} (hat : (s.thread self).part = only m p)
    (hplace : place.part = only m p') (h : m' ≠ m) :
    update (lockOf s m').part self (place.part m') = (lockOf s m').part := by
  rw [hplace, only_ne h, update_eq_self_iff]
  change RecursiveLock.Part.none = (s.thread self).part m'
  rw [hat, only_ne h]

theorem moves_neutral (howner : pMutex.owner = (s.mutex m).owner)
    (hcount : pMutex.lockCount = (s.mutex m).lockCount)
    (hlockers : pMutex.lockers = (s.mutex m).lockers) :
    Moves s (s.setMutex m pMutex) := by
  intro m'
  by_cases h : m' = m
  · subst h
    rw [lockOf_setMutex, howner, hcount, hlockers]
    exact .refl
  · rw [lockOf_setMutex_ne h]

theorem moves_place (hplace : place.part = (s.thread self).part) :
    Moves s (s.setPlace self place) := by
  intro m
  have hsame : update (lockOf s m).part self ((s.thread self).part m) = (lockOf s m).part :=
    update_eq_self_iff.mpr rfl
  rw [lockOf_setPlace, hplace, hsame]

section At

variable {p p' : RecursiveLock.Part} (hat : (s.thread self).part = only m p)

include hat

section

variable (hplace : place.part = only m p')

include hplace

omit hat in
theorem lockOf_put : lockOf ((s.setMutex m pMutex).setPlace self place) m =
      ⟨pMutex.owner, pMutex.lockCount, pMutex.lockers, update (lockOf s m).part self p',
        (lockOf s m).depth⟩ := by
  rw [lockOf_setPlace, lockOf_setMutex, hplace, only_self]

theorem lockOf_put_ne (h : m' ≠ m) :
    lockOf ((s.setMutex m pMutex).setPlace self place) m' = lockOf s m' := by
  rw [lockOf_setPlace, lockOf_setMutex_ne h, part_update_ne hat hplace h]

theorem moves_put
    (hmoves : Relation.ReflTransGen Move (lockOf s m) ⟨pMutex.owner, pMutex.lockCount,
      pMutex.lockers, update (lockOf s m).part self p', (lockOf s m).depth⟩) :
    Moves s ((s.setMutex m pMutex).setPlace self place) := by
  intro m'
  by_cases h : m' = m
  · subst h
    rw [lockOf_put hplace]
    exact hmoves
  · rw [lockOf_put_ne hat hplace h]

theorem moves_at
    (hmoves : Relation.ReflTransGen Move (lockOf s m)
      { lockOf s m with part := update (lockOf s m).part self p' }) :
    Moves s (s.setPlace self place) := by
  have hput : Moves s ((s.setMutex m (s.mutex m)).setPlace self place) :=
    moves_put hat hplace hmoves
  rw [State.setMutex_self] at hput
  exact hput

end

omit hat in
theorem lockOf_depth (depth : Nat) (result : Result E) :
    lockOf (((s.setMutex m pMutex).setDepth self m depth).setPlace self (.ready result)) m =
      ⟨pMutex.owner, pMutex.lockCount, pMutex.lockers,
        update (lockOf s m).part self ⟨.away, 0⟩,
        update (lockOf s m).depth self depth⟩ := by
  rw [lockOf_setPlace, lockOf_setDepth, lockOf_setMutex]
  rfl

theorem lockOf_depth_ne (depth : Nat) (result : Result E) (h : m' ≠ m) :
    lockOf (((s.setMutex m pMutex).setDepth self m depth).setPlace self (.ready result)) m' =
      lockOf s m' := by
  rw [lockOf_setPlace, lockOf_setDepth_ne h, lockOf_setMutex_ne h,
    part_update_ne hat (ready_part result m) h]

theorem moves_depth {depth : Nat} {result : Result E}
    (hmoves : Relation.ReflTransGen Move (lockOf s m)
      ⟨pMutex.owner, pMutex.lockCount, pMutex.lockers,
        update (lockOf s m).part self ⟨.away, 0⟩,
        update (lockOf s m).depth self depth⟩) :
    Moves s (((s.setMutex m pMutex).setDepth self m depth).setPlace self (.ready result)) := by
  intro m'
  by_cases h : m' = m
  · subst h
    rw [lockOf_depth]
    exact hmoves
  · rw [lockOf_depth_ne hat _ _ h]

omit [DecidableEq T] in
theorem part_at : (lockOf s m).part self = p := by
  change (s.thread self).part m = p
  rw [hat, only_self]

theorem update_at : update (lockOf s m).part self p = (lockOf s m).part := by
  rw [update_eq_self_iff, part_at hat]

end At

end Lock

section Signal

variable {s : State T M E} {self t : T} {m m' : M} {place : Place M E} {woken : T → Bool}

theorem only_away (m' : M) (n : Nat) (m : M) : (only m' ⟨.away, n⟩ m).wait = .away := by
  by_cases h : m = m'
  · rw [h, only_self]
  · rw [only_ne h]
    rfl

theorem only_wake (m' : M) (n : Nat) (woken : Bool) (m : M) :
    only m' ⟨wait true, n⟩ m = only m' ⟨wait woken, n⟩ m ∨
      (only m' ⟨wait woken, n⟩ m).wait = .asleep ∧
        only m' ⟨wait true, n⟩ m = ⟨.woken, (only m' ⟨wait woken, n⟩ m).saved⟩ := by
  by_cases h : m = m'
  · subst h
    rw [only_self, only_self]
    cases woken with
    | false => exact .inr ⟨rfl, rfl⟩
    | true => exact .inl rfl
  · rw [only_ne h, only_ne h]
    exact .inl rfl

theorem only_wait_iff (m' : M) (n : Nat) (woken woken' : Bool) (m : M) :
    (only m' ⟨wait woken, n⟩ m).wait = wait woken' ↔ some m' = some m ∧ (!woken) = !woken' := by
  rw [Option.some.injEq]
  by_cases h : m = m'
  · subst h
    rw [only_self]
    cases woken <;> cases woken' <;> simp [wait]
  · rw [only_ne h]
    refine iff_of_false ?_ fun heq => h heq.1.symm
    cases woken' <;> exact nofun

theorem wake_part (place : Place M E) (m : M) : place.wake.part m = place.part m ∨
    (place.part m).wait = .asleep ∧ place.wake.part m = ⟨.woken, (place.part m).saved⟩ := by
  cases place with
  | lock m' woken | timedLock m' woken => exact only_wake m' 0 woken m
  | restore m' lockCount held result woken => exact only_wake m' lockCount woken m
  | _ => exact .inl rfl

theorem part_wait_iff (place : Place M E) (woken : Bool) (m : M) :
    (place.part m).wait = wait woken ↔
    place.condL = some m ∧ place.asleep = !woken := by
  have hnone : wait woken ≠ .away := by cases woken <;> exact nofun
  cases place with
  | lock m' woken' | timedLock m' woken' => exact only_wait_iff m' 0 woken' woken m
  | restore m' lockCount held result woken' => exact only_wait_iff m' lockCount woken' woken m
  | subscribe m' timed lockCount woken' | syncRestore m' lockCount fResult =>
    refine iff_of_false (fun heq => hnone ?_) nofun
    exact heq.symm.trans (only_away m' lockCount m)
  | syncWait m' timed given woken' =>
    refine iff_of_false (fun heq => hnone ?_) nofun
    cases given with
    | none => exact heq.symm
    | some given => exact heq.symm.trans (only_away given.1 given.2 m)
  | ready result | cleared m' ulMilliSec => exact iff_of_false (fun heq => hnone heq.symm) nofun

omit [DecidableEq T] in
theorem asleep_iff : Asleep s m t ↔ ((lockOf s m).part t).wait = .asleep :=
  (part_wait_iff (s.thread t) false m).symm

omit [DecidableEq T] in
theorem woken_iff : Woken s m t ↔ ((lockOf s m).part t).wait = .woken :=
  (part_wait_iff (s.thread t) true m).symm

omit [DecidableEq T] in
theorem condSignal_wakes (m' : M) :
    Wakes (lockOf s m').part (lockOf (s.condSignal m woken) m').part := by
  intro t
  unfold State.condSignal
  split_ifs
  · exact .inl rfl
  · by_cases hwoken : woken t = true
    · simp only [lockOf, hwoken, if_true]
      exact wake_part (s.thread t) m'
    · left
      simp only [lockOf, if_neg hwoken]

omit [DecidableEq T] in
theorem lockOf_condSignal (m' : M) : lockOf (s.condSignal m woken) m' =
    { lockOf s m' with part := (lockOf (s.condSignal m woken) m').part } := by
  unfold State.condSignal
  split_ifs <;> rfl

omit [DecidableEq T] in
theorem condSignal_signals (h : Signalled s m woken) :
    Signals (s.mutex m).lockers (lockOf s m).part (lockOf (s.condSignal m woken) m).part := by
  refine ⟨condSignal_wakes m, ?_⟩
  rintro hlockers ⟨t, hasleep⟩
  obtain ⟨t', hwoken⟩ := h.2 ⟨t, asleep_iff.mpr hasleep⟩
  obtain ⟨hcond, -⟩ := h.1 t' hwoken
  refine ⟨t', ?_⟩
  unfold State.condSignal
  rw [if_neg hlockers]
  change ((if woken t' then (s.thread t').wake else s.thread t').part m).wait = wait true
  rw [if_pos hwoken, part_wait_iff]
  cases hplace : s.thread t' with
  | lock m' woken | timedLock m' woken | restore m' lockCount held result woken =>
    exact ⟨by rw [hplace] at hcond; exact hcond, rfl⟩
  | _ =>
    rw [hplace] at hcond
    exact nomatch hcond

end Signal

section Functions

variable {s : State T M E} {self : T} {m : M} {woken : T → Bool} {lockCount : Nat}
  {result : Result E}
  {fRequest : Bool}

omit [DecidableEq T] in
theorem part_ready (h : (s.thread self).isReady) (m : M) :
    (s.thread self).part = only m ⟨.away, 0⟩ := by
  rw [only_none]
  cases hplace : s.thread self with
  | ready result => rfl
  | _ =>
    rw [hplace] at h
    exact nomatch h

section Free

variable (hat : (s.thread self).part = only m ⟨.away, 0⟩)

include hat

theorem moves_nested (howner : (s.mutex m).owner = some self) :
    Moves s (s.returnLocked self m { s.mutex m with lockCount := (s.mutex m).lockCount + 1 }) := by
  apply moves_depth hat
  rw [update_at hat]
  exact .single (.nest self howner)

theorem moves_take (hfree : (s.mutex m).lockCount = 0) :
    Moves s (s.returnLocked self m { s.mutex m with lockCount := 1, owner := some self }) := by
  apply moves_depth hat
  rw [update_at hat]
  exact .single (.take self hfree (part_at hat))

theorem moves_lockLoop : Moves s (s.lockLoop self m) := by
  unfold State.lockLoop
  dsimp only
  split_ifs with hheld
  · apply moves_put hat rfl
    exact .single (.sleep self 0 hheld (part_at hat))
  · exact moves_take hat (not_not.mp hheld)

theorem moves_lock : Moves s (s.threadMutexLock self m) := by
  unfold State.threadMutexLock
  dsimp only
  split_ifs with howner
  · exact moves_nested hat howner
  · exact moves_lockLoop hat

theorem moves_timedLock (ulMilliSec : Nat) :
    Moves s (s.threadMutexTimedLock self m ulMilliSec) := by
  unfold State.threadMutexTimedLock State.timedLockEnd
  dsimp only
  split_ifs with howner hwait hfree
  · exact moves_nested hat howner
  · apply moves_put hat rfl
    exact .single (.sleep self 0 hwait.2 (part_at hat))
  · exact moves_take hat hfree
  · apply moves_place
    rw [hat, ready_part]

end Free

section Woken

variable (hat : (s.thread self).part = only m ⟨.woken, 0⟩)

include hat

theorem moves_takeWoken (hfree : (s.mutex m).lockCount = 0) :
    Moves s (s.returnLocked self m { s.mutex m with
      lockers := (s.mutex m).lockers - 1, lockCount := 1, owner := some self }) := by
  apply moves_depth hat
  exact .single (.takeWoken self hfree (part_at hat))

theorem moves_lockWoken : Moves s (s.lockWoken self m) := by
  unfold State.lockWoken State.lockLoop
  simp only [State.setMutex_mutex, State.setMutex_setMutex, State.setMutex_returnLocked]
  split_ifs with hheld
  · apply moves_put hat rfl
    refine .tail (.single (.leave self 0 hheld (part_at hat))) ?_
    have hback := Move.sleep (L := { lockOf s m with
      waiters := (lockOf s m).waiters - 1,
      part := update (lockOf s m).part self ⟨.away, 0⟩ }) self 0 hheld (update_self ..)
    rw [update_idem] at hback
    exact hback
  · exact moves_takeWoken hat (not_not.mp hheld)

theorem moves_timedLockWoken (expired : Bool) : Moves s (s.timedLockWoken self m expired) := by
  unfold State.timedLockWoken State.timedLockEnd
  simp only [State.setMutex_mutex, State.setMutex_returnLocked]
  split_ifs with hwait hfree
  · apply moves_at hat rfl
    exact .single (.again self 0 hwait.2 (part_at hat))
  · exact moves_takeWoken hat hfree
  · apply moves_put hat (ready_part _ m)
    exact .single (.leave self 0 hfree (part_at hat))

end Woken

omit [DecidableEq M] in
theorem Signalled.setPlace {s' : State T M E} {place : Place M E} (h : Signalled s m woken)
    (hself : (s.thread self).asleep = false) (hplace : place.asleep = false)
    (hthread : s'.thread = update s.thread self place) : Signalled s' m woken := by
  have hiff : ∀ t, Asleep s' m t ↔ Asleep s m t := by
    intro t
    unfold Asleep
    rw [hthread]
    by_cases ht : t = self
    · subst ht
      rw [update_self, hself, hplace]
      exact iff_of_false nofun nofun
    · rw [update_of_ne ht]
  exact ⟨fun t ht => (hiff t).mpr (h.1 t ht), fun ⟨t, ht⟩ => h.2 ⟨t, (hiff t).mp ht⟩⟩

theorem moves_condSignal {s' : State T M E} (part : T → RecursiveLock.Part) (depth : T → Nat)
    (hother : ∀ m', m' ≠ m → lockOf s' m' = lockOf s m')
    (hfree : lockOf s' m = ⟨none, 0, (lockOf s m).waiters, part, depth⟩)
    (hsignalled : Signalled s' m woken)
    (hmoves : ∀ part', Signals (lockOf s m).waiters part part' →
      Move (lockOf s m) ⟨none, 0, (lockOf s m).waiters, part', depth⟩) :
    Moves s (s'.condSignal m woken) := by
  intro m'
  rw [lockOf_condSignal]
  by_cases h : m' = m
  · subst h
    have hsignals := condSignal_signals hsignalled
    have hlockers : (s'.mutex m').lockers = (lockOf s m').waiters := congrArg Lock.waiters hfree
    rw [hlockers, hfree] at hsignals
    rw [hfree]
    exact .single (hmoves _ hsignals)
  · have hwakes : Wakes (lockOf s' m').part (lockOf (s'.condSignal m woken) m').part :=
      condSignal_wakes m'
    rw [hother m' h] at hwakes ⊢
    exact .single (.wake _ hwakes)

omit [DecidableEq T] [DecidableEq M] in
theorem ready_asleep (hready : (s.thread self).isReady) : (s.thread self).asleep = false := by
  cases hplace : s.thread self with
  | ready result => rfl
  | _ =>
    rw [hplace] at hready
    exact nomatch hready

theorem moves_unlock (hready : (s.thread self).isReady) (hsignalled : Signalled s m woken) :
    Moves s (s.threadMutexUnlock self m woken) := by
  have hat := part_ready hready m
  unfold State.threadMutexUnlock
  dsimp only
  split_ifs with howner hlast
  · refine moves_condSignal (lockOf s m).part
      (update (lockOf s m).depth self (s.depth self m - 1))
      (fun m' h => lockOf_depth_ne hat _ _ h) ((lockOf_depth _ _).trans ?_)
      (hsignalled.setPlace (ready_asleep hready) rfl rfl) ?_
    · rw [update_at hat]
      rfl
    · intro part' hsignals
      exact .unlock self part' howner hlast hsignals
  · apply moves_depth hat
    rw [update_at hat]
    exact .single (.unnest self howner hlast)
  · apply moves_place
    rw [hat, ready_part]

theorem moves_giveUp (place : Place M E) (hat : (s.thread self).part = only m ⟨.away, 0⟩)
    (hself : (s.thread self).asleep = false) (howner : (s.mutex m).owner = some self)
    (hplace : place.part = only m ⟨.away, (s.mutex m).lockCount⟩) (hasleep : place.asleep = false)
    (hsignalled : Signalled s m woken) : Moves s (s.giveUp self m place woken) := by
  refine moves_condSignal (update (lockOf s m).part self ⟨.away, (s.mutex m).lockCount⟩)
    (lockOf s m).depth (fun m' h => lockOf_put_ne hat hplace h) (lockOf_put hplace)
    (hsignalled.setPlace hself hasleep rfl) ?_
  intro part' hsignals
  refine .giveUp self part' howner ?_ hsignals
  rw [part_at hat]

theorem giveUp_place {place : Place M E} (hself : (s.thread self).asleep = false)
    (hsignalled : Signalled s m woken) : (s.giveUp self m place woken).thread self = place := by
  have hwoken : woken self ≠ true := by
    intro hwoken
    have hasleep := (hsignalled.1 self hwoken).2
    rw [hself] at hasleep
    exact nomatch hasleep
  unfold State.giveUp State.condSignal
  split_ifs
  · exact update_self ..
  · dsimp only
    rw [if_neg hwoken]
    exact update_self ..

theorem moves_restoreLoop (hat : (s.thread self).part = only m ⟨.woken, lockCount⟩)
    (held : lockCount ≠ 0) : Moves s (s.restoreLoop self m lockCount held result) := by
  unfold State.restoreLoop
  dsimp only
  split_ifs with hheld
  · apply moves_at hat rfl
    exact .single (.again self lockCount hheld (part_at hat))
  · apply moves_put hat (ready_part result m)
    exact .single (.takeBackWoken self lockCount (not_not.mp hheld) held (part_at hat))

section

variable (hat : (s.thread self).part = only m ⟨.away, lockCount⟩)

include hat

theorem moves_restoreLock : Moves s (s.restoreLock self m lockCount result) := by
  unfold State.restoreLock State.restoreLoop
  simp only [State.setMutex_mutex, State.setMutex_setMutex]
  split_ifs with held hsome hheld
  · apply moves_put hat rfl
    exact .single (.sleep self lockCount hheld (part_at hat))
  · apply moves_put hat (ready_part result m)
    exact .single (.takeBack self lockCount (.inr (not_not.mp hheld)) held (part_at hat))
  · apply moves_put hat (ready_part result m)
    refine .single (.takeBack self lockCount (.inl ?_) held (part_at hat))
    exact Option.not_isSome_iff_eq_none.mp hsome
  · apply moves_place
    rw [hat, ready_part result m, not_not.mp held]

theorem moves_subscribeEnd : Moves s (s.subscribeEnd self m lockCount) := by
  unfold State.subscribeEnd
  dsimp only
  split
  · refine Moves.trans (moves_neutral ?_ ?_ ?_) (moves_restoreLock hat) <;> rfl
  · exact moves_restoreLock hat

theorem moves_subscribeLoop : Moves s (s.subscribeLoop self m lockCount fRequest) := by
  unfold State.subscribeLoop
  dsimp only
  split_ifs with hwait
  · apply moves_put hat rfl
    rw [update_at hat]
    exact .refl
  · exact moves_subscribeEnd hat

theorem moves_subscribeWoken : Moves s (s.subscribeWoken self m lockCount fRequest) := by
  refine Moves.trans (moves_neutral ?_ ?_ ?_) (moves_subscribeLoop hat) <;> rfl

theorem moves_timedSubscribeEnd : Moves s (s.timedSubscribeEnd self m lockCount) := by
  refine Moves.trans (moves_neutral ?_ ?_ ?_) (moves_subscribeEnd hat) <;> rfl

theorem moves_timedSubscribeLoop : Moves s (s.timedSubscribeLoop self m lockCount fRequest) := by
  unfold State.timedSubscribeLoop
  split_ifs with hwait
  · apply moves_at hat rfl
    rw [update_at hat]
  · exact moves_timedSubscribeEnd hat

theorem moves_timedSubscribeWait : Moves s (s.timedSubscribeWait self m lockCount fRequest) := by
  refine Moves.trans (moves_neutral ?_ ?_ ?_) (moves_timedSubscribeLoop hat) <;> rfl

end

theorem moves_cleared (hat : (s.thread self).part = only m ⟨.away, 0⟩) (ulMilliSec : Option Nat) :
    Moves s ((s.setMutex m { s.mutex m with events := none }).setPlace self
      (.cleared m ulMilliSec)) := by
  refine Moves.trans (moves_neutral ?_ ?_ ?_) (moves_place ?_)
  · rfl
  · rfl
  · rfl
  · exact (only_none m).symm.trans hat.symm

section Release

variable (hat : (s.thread self).part = only m ⟨.away, 0⟩) (hself : (s.thread self).asleep = false)
  (hsignalled : Signalled s m woken)

include hat hself hsignalled

theorem moves_subscribeRelease : Moves s (s.subscribeRelease self m woken fRequest) := by
  unfold State.subscribeRelease
  dsimp only
  split_ifs with howner
  · refine (moves_giveUp _ hat hself howner rfl rfl hsignalled).trans (moves_subscribeLoop ?_)
    rw [giveUp_place hself hsignalled]
    rfl
  · exact moves_subscribeLoop hat

theorem moves_timedSubscribeRelease (ulMilliSec : Nat) :
    Moves s (s.timedSubscribeRelease self m ulMilliSec woken fRequest) := by
  unfold State.timedSubscribeRelease
  dsimp only
  split_ifs with hwait howner
  · refine (moves_giveUp _ hat hself howner rfl rfl hsignalled).trans (moves_timedSubscribeWait ?_)
    rw [giveUp_place hself hsignalled]
    rfl
  · exact moves_timedSubscribeWait hat
  · exact moves_subscribeEnd hat

theorem moves_subscribe (fClear : Bool) :
    Moves s (s.threadMutexSubscribe self m fClear woken fRequest) := by
  unfold State.threadMutexSubscribe
  dsimp only
  split_ifs
  · exact moves_cleared hat none
  · exact moves_subscribeRelease hat hself hsignalled

theorem moves_timedSubscribe (ulMilliSec : Nat) (fClear : Bool) :
    Moves s (s.threadMutexTimedSubscribe self m ulMilliSec fClear woken fRequest) := by
  unfold State.threadMutexTimedSubscribe
  dsimp only
  split_ifs
  · exact moves_cleared hat (some ulMilliSec)
  · exact moves_timedSubscribeRelease hat hself hsignalled ulMilliSec

end Release

section Sync

variable {given : Option (M × Nat)} (hat : (s.thread self).part = givenPart given)

include hat

theorem moves_syncWaitEnd : Moves s (s.syncWaitEnd self m given) := by
  refine Moves.trans (moves_neutral ?_ ?_ ?_) (moves_place ?_)
  · rfl
  · rfl
  · rfl
  · refine Eq.trans ?_ hat.symm
    cases given with
    | none => rfl
    | some given =>
      dsimp only
      split_ifs with held
      · rfl
      · exact (only_none given.1).symm.trans (by rw [← not_not.mp held]; rfl)

theorem moves_syncWaitLoop : Moves s (s.syncWaitLoop self m given) := by
  unfold State.syncWaitLoop
  dsimp only
  split_ifs with hwait
  · refine Moves.trans (moves_neutral ?_ ?_ ?_) (moves_place ?_)
    · rfl
    · rfl
    · rfl
    · exact hat.symm
  · exact moves_syncWaitEnd hat

theorem moves_syncWaitWoken : Moves s (s.syncWaitWoken self m given) := by
  refine Moves.trans (moves_neutral ?_ ?_ ?_) (moves_syncWaitLoop hat) <;> rfl

theorem moves_timedSyncWaitEnd : Moves s (s.timedSyncWaitEnd self m given) := by
  refine Moves.trans (moves_neutral ?_ ?_ ?_) (moves_syncWaitEnd hat) <;> rfl

theorem moves_timedSyncWaitLoop : Moves s (s.timedSyncWaitLoop self m given) := by
  unfold State.timedSyncWaitLoop
  split_ifs with hwait
  · exact moves_place hat.symm
  · exact moves_timedSyncWaitEnd hat

theorem moves_syncWaitStart (ulMilliSec : Nat) :
    Moves s (s.syncWaitStart self m ulMilliSec given) := by
  unfold State.syncWaitStart
  split_ifs
  · exact moves_syncWaitLoop hat
  · refine Moves.trans (moves_neutral ?_ ?_ ?_) (moves_timedSyncWaitLoop hat) <;> rfl

end Sync

theorem moves_syncWait (ulMilliSec : Nat) (pSyncMutex : Option M) (hready : (s.thread self).isReady)
    (hsignalled : ∀ sync, pSyncMutex = some sync → Signalled s sync woken) :
    Moves s (s.threadMutexSyncWait self m ulMilliSec pSyncMutex woken) := by
  have hnone : (s.thread self).part = givenPart none := (part_ready hready m).trans (only_none m)
  have hself := ready_asleep hready
  unfold State.threadMutexSyncWait
  split_ifs with hwait
  · cases pSyncMutex with
    | none => exact moves_syncWaitStart hnone ulMilliSec
    | some sync =>
      have hsync := hsignalled sync rfl
      dsimp only
      split_ifs with howner
      · refine (moves_giveUp (.syncWait m true (some (sync, (s.mutex sync).lockCount)) true)
          (part_ready hready sync) hself howner rfl rfl hsync).trans ?_
        apply moves_syncWaitStart
        rw [giveUp_place hself hsync]
        rfl
      · exact moves_syncWaitStart hnone ulMilliSec
  · exact moves_syncWaitEnd hnone

theorem moves_wake : Moves s (s.setPlace self (s.thread self).wake) := by
  intro m
  rw [lockOf_setPlace]
  refine .single (.wake _ fun t => ?_)
  by_cases ht : t = self
  · subst ht
    rw [update_self]
    exact wake_part (s.thread t) m
  · rw [update_of_ne ht]
    exact .inl rfl

theorem moves_resume (expired : Bool) (hready : (s.thread self).isReady = false)
    (hself : (s.thread self).asleep = false)
    (hsignalled : ∀ m ulMilliSec, s.thread self = .cleared m ulMilliSec → Signalled s m woken) :
    Moves s (s.resume self expired fRequest woken) := by
  unfold State.resume
  cases hplace : s.thread self with
  | ready result =>
    rw [hplace] at hready
    exact nomatch hready
  | lock m woken =>
    rw [hplace] at hself
    obtain rfl : woken = true := by simpa [Place.asleep] using hself
    exact moves_lockWoken (congrArg Place.part hplace)
  | timedLock m woken =>
    rw [hplace] at hself
    obtain rfl : woken = true := by simpa [Place.asleep] using hself
    exact moves_timedLockWoken (congrArg Place.part hplace) expired
  | cleared m ulMilliSec =>
    have hat : (s.thread self).part = only m ⟨.away, 0⟩ :=
      (congrArg Place.part hplace).trans (only_none m).symm
    cases ulMilliSec with
    | none => exact moves_subscribeRelease hat hself (hsignalled m none hplace)
    | some ulMilliSec =>
      exact moves_timedSubscribeRelease hat hself (hsignalled m _ hplace) ulMilliSec
  | subscribe m timed lockCount woken =>
    have hat : (s.thread self).part = only m ⟨.away, lockCount⟩ := congrArg Place.part hplace
    cases timed with
    | false => exact moves_subscribeWoken hat
    | true =>
      split_ifs
      · exact moves_timedSubscribeEnd hat
      · exact moves_timedSubscribeLoop hat
  | syncWait m timed given woken =>
    have hat : (s.thread self).part = givenPart given := congrArg Place.part hplace
    cases timed with
    | false => exact moves_syncWaitWoken hat
    | true =>
      split_ifs
      · exact moves_timedSyncWaitEnd hat
      · exact moves_timedSyncWaitLoop hat
  | syncRestore m lockCount fResult => exact moves_restoreLock (congrArg Place.part hplace)
  | restore m lockCount held result woken =>
    rw [hplace] at hself
    obtain rfl : woken = true := by simpa [Place.asleep] using hself
    exact moves_restoreLoop (congrArg Place.part hplace) held

end Functions

end Harbour.Vm.Mutex
