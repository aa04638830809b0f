import Harbour.Library.RecursiveLock
import Harbour.Library.Loops
import Mathlib.Algebra.Group.Nat.Defs

/-!
Mutexes of threads: recursive locks, with a queue of events that threads subscribe to.
-/

namespace Harbour.Vm.Mutex

open Library.RecursiveLock Library.Transitions Function

/-- `events` is the array of those not yet taken, when there is one. -/
structure HbMutex (T E : Type*) where
  lockCount : Nat
  lockers : Nat
  waiters : Nat
  syncsignals : Nat
  events : Option (List E)
  owner : Option T

def HbMutex.created (T E : Type*) : HbMutex T E := ⟨0, 0, 0, 0, none, none⟩

def HbMutex.noEvents {T E : Type*} (pMutex : HbMutex T E) : Bool :=
  match pMutex.events with
  | some (_ :: _) => false
  | _ => true

inductive Result (E : Type*) where
  | bool (fResult : Bool)
  | item (pResult : Option E)

/-- Where a thread has left the critical section of a mutex: with a result, or in a wait from which
it has or has not been woken. `lockCount` is what it gave up, `given` the mutex besides. -/
inductive Place (M E : Type*) where
  | ready (result : Result E)
  | lock (m : M) (woken : Bool)
  | timedLock (m : M) (woken : Bool)
  | cleared (m : M) (ulMilliSec : Option Nat)
  | subscribe (m : M) (timed : Bool) (lockCount : Nat) (woken : Bool)
  | syncWait (m : M) (timed : Bool) (given : Option (M × Nat)) (woken : Bool)
  | syncRestore (m : M) (lockCount : Nat) (fResult : Bool)
  | restore (m : M) (lockCount : Nat) (held : lockCount ≠ 0) (result : Result E) (woken : Bool)

/-- `depth` is how often each thread has locked each mutex and not unlocked it. -/
structure State (T M E : Type*) where
  mutex : M → HbMutex T E
  thread : T → Place M E
  depth : T → M → Nat

def infiniteWait : Nat := 2 ^ 64 - 1

variable {T M E : Type*}

namespace Place

def wake : Place M E → Place M E
  | .lock m _ => .lock m true
  | .timedLock m _ => .timedLock m true
  | .subscribe m timed lockCount _ => .subscribe m timed lockCount true
  | .syncWait m timed given _ => .syncWait m timed given true
  | .restore m lockCount held result _ => .restore m lockCount held result true
  | place => place

def asleep : Place M E → Bool
  | .lock _ woken => !woken
  | .timedLock _ woken => !woken
  | .subscribe _ _ _ woken => !woken
  | .syncWait _ _ _ woken => !woken
  | .restore _ _ _ _ woken => !woken
  | _ => false

/-- The mutex on whose `cond_l` a thread waits. -/
def condL : Place M E → Option M
  | .lock m _ => some m
  | .timedLock m _ => some m
  | .restore m _ _ _ _ => some m
  | _ => none

def isReady : Place M E → Bool
  | .ready _ => true
  | _ => false

end Place

variable [DecidableEq T] [DecidableEq M]

namespace State

section Section

variable (s : State T M E) (self : T) (m : M)

def setMutex (pMutex : HbMutex T E) : State T M E :=
  { s with mutex := update s.mutex m pMutex }

def setPlace (place : Place M E) : State T M E :=
  { s with thread := update s.thread self place }

def setDepth (depth : Nat) : State T M E :=
  { s with depth := update s.depth self (update (s.depth self) m depth) }

/-- `HB_COND_SIGNAL( cond_l )` when there are `lockers`. -/
def condSignal (woken : T → Bool) : State T M E :=
  if (s.mutex m).lockers = 0 then s
  else { s with thread := fun t => if woken t then (s.thread t).wake else s.thread t }

def returnLocked (pMutex : HbMutex T E) : State T M E :=
  ((s.setMutex m pMutex).setDepth self m (s.depth self m + 1)).setPlace self (.ready (.bool true))

def returnUnlocked (pMutex : HbMutex T E) : State T M E :=
  ((s.setMutex m pMutex).setDepth self m (s.depth self m - 1)).setPlace self (.ready (.bool true))

omit [DecidableEq T] in
@[simp]
theorem setMutex_mutex (pMutex : HbMutex T E) : (s.setMutex m pMutex).mutex m = pMutex :=
  update_self ..

omit [DecidableEq T] in
@[simp]
theorem setMutex_setMutex (pMutex pMutex' : HbMutex T E) :
    (s.setMutex m pMutex).setMutex m pMutex' = s.setMutex m pMutex' := by
  unfold setMutex
  rw [update_idem]

@[simp]
theorem setMutex_returnLocked (pMutex pMutex' : HbMutex T E) :
    (s.setMutex m pMutex).returnLocked self m pMutex' = s.returnLocked self m pMutex' := by
  unfold returnLocked
  rw [setMutex_setMutex]
  rfl

omit [DecidableEq T] in
@[simp]
theorem setMutex_self : s.setMutex m (s.mutex m) = s := by
  unfold setMutex
  rw [update_eq_self]

def lockLoop : State T M E :=
  let pMutex := s.mutex m
  if pMutex.lockCount ≠ 0 then
    (s.setMutex m { pMutex with lockers := pMutex.lockers + 1 }).setPlace self (.lock m false)
  else s.returnLocked self m { pMutex with lockCount := 1, owner := some self }

def threadMutexLock : State T M E :=
  let pMutex := s.mutex m
  if pMutex.owner = some self then
    s.returnLocked self m { pMutex with lockCount := pMutex.lockCount + 1 }
  else s.lockLoop self m

def lockWoken : State T M E :=
  (s.setMutex m { s.mutex m with lockers := (s.mutex m).lockers - 1 }).lockLoop self m

def timedLockEnd : State T M E :=
  let pMutex := s.mutex m
  if pMutex.lockCount = 0 then
    s.returnLocked self m { pMutex with lockCount := 1, owner := some self }
  else s.setPlace self (.ready (.bool false))

def threadMutexTimedLock (ulMilliSec : Nat) : State T M E :=
  let pMutex := s.mutex m
  if pMutex.owner = some self then
    s.returnLocked self m { pMutex with lockCount := pMutex.lockCount + 1 }
  else if ulMilliSec ≠ 0 ∧ pMutex.lockCount ≠ 0 then
    (s.setMutex m { pMutex with lockers := pMutex.lockers + 1 }).setPlace self (.timedLock m false)
  else s.timedLockEnd self m

def timedLockWoken (expired : Bool) : State T M E :=
  if expired = false ∧ (s.mutex m).lockCount ≠ 0 then s.setPlace self (.timedLock m false)
  else (s.setMutex m { s.mutex m with lockers := (s.mutex m).lockers - 1 }).timedLockEnd self m

def threadMutexUnlock (woken : T → Bool) : State T M E :=
  let pMutex := s.mutex m
  if pMutex.owner = some self then
    if pMutex.lockCount - 1 = 0 then
      (s.returnUnlocked self m { pMutex with lockCount := 0, owner := none }).condSignal m woken
    else s.returnUnlocked self m { pMutex with lockCount := pMutex.lockCount - 1 }
  else s.setPlace self (.ready (.bool false))

/-- The own lock is released, and the thread goes on at `place`. -/
def giveUp (place : Place M E) (woken : T → Bool) : State T M E :=
  ((s.setMutex m { s.mutex m with lockCount := 0, owner := none }).setPlace self place).condSignal
    m woken

def restoreLoop (lockCount : Nat) (held : lockCount ≠ 0) (result : Result E) : State T M E :=
  let pMutex := s.mutex m
  if pMutex.lockCount ≠ 0 then s.setPlace self (.restore m lockCount held result false)
  else
    (s.setMutex m { pMutex with
      lockers := pMutex.lockers - 1, lockCount := lockCount, owner := some self }).setPlace self
      (.ready result)

def restoreLock (lockCount : Nat) (result : Result E) : State T M E :=
  let pMutex := s.mutex m
  if held : lockCount ≠ 0 then
    if pMutex.owner.isSome then
      (s.setMutex m { pMutex with lockers := pMutex.lockers + 1 }).restoreLoop self m lockCount held
        result
    else
      (s.setMutex m { pMutex with lockCount := lockCount, owner := some self }).setPlace self
        (.ready result)
  else s.setPlace self (.ready result)

/-- The first event is taken, if there is one, and the own lock restored. -/
def subscribeEnd (lockCount : Nat) : State T M E :=
  let pMutex := s.mutex m
  match pMutex.events with
  | some (pResult :: events) =>
    (s.setMutex m { pMutex with events := some events }).restoreLock self m lockCount
      (.item (some pResult))
  | _ => s.restoreLock self m lockCount (.item none)

def subscribeLoop (lockCount : Nat) (fRequest : Bool) : State T M E :=
  let pMutex := s.mutex m
  if pMutex.noEvents ∧ fRequest = false then
    (s.setMutex m { pMutex with waiters := pMutex.waiters + 1 }).setPlace self
      (.subscribe m false lockCount false)
  else s.subscribeEnd self m lockCount

def subscribeRelease (woken : T → Bool) (fRequest : Bool) : State T M E :=
  let pMutex := s.mutex m
  if pMutex.owner = some self then
    (s.giveUp self m (.subscribe m false pMutex.lockCount true) woken).subscribeLoop self m
      pMutex.lockCount fRequest
  else s.subscribeLoop self m 0 fRequest

def threadMutexSubscribe (fClear : Bool) (woken : T → Bool) (fRequest : Bool) : State T M E :=
  let pMutex := s.mutex m
  if fClear ∧ pMutex.events.isSome then
    (s.setMutex m { pMutex with events := none }).setPlace self (.cleared m none)
  else s.subscribeRelease self m woken fRequest

def subscribeWoken (lockCount : Nat) (fRequest : Bool) : State T M E :=
  (s.setMutex m { s.mutex m with waiters := (s.mutex m).waiters - 1 }).subscribeLoop
    self m lockCount
    fRequest

def timedSubscribeEnd (lockCount : Nat) : State T M E :=
  (s.setMutex m { s.mutex m with waiters := (s.mutex m).waiters - 1 }).subscribeEnd self m lockCount

def timedSubscribeLoop (lockCount : Nat) (fRequest : Bool) : State T M E :=
  if (s.mutex m).noEvents ∧ fRequest = false then
    s.setPlace self (.subscribe m true lockCount false)
  else s.timedSubscribeEnd self m lockCount

def timedSubscribeWait (lockCount : Nat) (fRequest : Bool) : State T M E :=
  (s.setMutex m { s.mutex m with waiters := (s.mutex m).waiters + 1 }).timedSubscribeLoop self m
    lockCount fRequest

def timedSubscribeRelease (ulMilliSec : Nat) (woken : T → Bool) (fRequest : Bool) : State T M E :=
  let pMutex := s.mutex m
  if ulMilliSec ≠ 0 ∧ pMutex.noEvents then
    if pMutex.owner = some self then
      (s.giveUp self m (.subscribe m true pMutex.lockCount true) woken).timedSubscribeWait self m
        pMutex.lockCount fRequest
    else s.timedSubscribeWait self m 0 fRequest
  else s.subscribeEnd self m 0

def threadMutexTimedSubscribe (ulMilliSec : Nat) (fClear : Bool) (woken : T → Bool)
    (fRequest : Bool) : State T M E :=
  let pMutex := s.mutex m
  if fClear ∧ pMutex.events.isSome then
    (s.setMutex m { pMutex with events := none }).setPlace self (.cleared m (some ulMilliSec))
  else s.timedSubscribeRelease self m ulMilliSec woken fRequest

/-- One of the signals is taken, if there is one. The own lock is restored in another critical
section. -/
def syncWaitEnd (given : Option (M × Nat)) : State T M E :=
  let pMutex := s.mutex m
  let fResult := decide (pMutex.syncsignals > 0)
  (s.setMutex m { pMutex with syncsignals := pMutex.syncsignals - 1 }).setPlace self (
    match given with
    | some (pSyncMutex, lockCount) =>
      if lockCount ≠ 0 then .syncRestore pSyncMutex lockCount fResult else .ready (.bool fResult)
    | none => .ready (.bool fResult))

def syncWaitLoop (given : Option (M × Nat)) : State T M E :=
  let pMutex := s.mutex m
  if pMutex.syncsignals = 0 then
    (s.setMutex m { pMutex with waiters := pMutex.waiters + 1 }).setPlace self
      (.syncWait m false given false)
  else s.syncWaitEnd self m given

def syncWaitWoken (given : Option (M × Nat)) : State T M E :=
  (s.setMutex m { s.mutex m with waiters := (s.mutex m).waiters - 1 }).syncWaitLoop self m given

def timedSyncWaitEnd (given : Option (M × Nat)) : State T M E :=
  (s.setMutex m { s.mutex m with waiters := (s.mutex m).waiters - 1 }).syncWaitEnd self m given

def timedSyncWaitLoop (given : Option (M × Nat)) : State T M E :=
  if (s.mutex m).syncsignals = 0 then s.setPlace self (.syncWait m true given false)
  else s.timedSyncWaitEnd self m given

def syncWaitStart (ulMilliSec : Nat) (given : Option (M × Nat)) : State T M E :=
  let pMutex := s.mutex m
  if ulMilliSec = infiniteWait then s.syncWaitLoop self m given
  else
    (s.setMutex m { pMutex with waiters := pMutex.waiters + 1 }).timedSyncWaitLoop self m given

def threadMutexSyncWait (ulMilliSec : Nat) (pSyncMutex : Option M) (woken : T → Bool) :
    State T M E :=
  if ulMilliSec ≠ 0 ∧ (s.mutex m).syncsignals = 0 then
    match pSyncMutex with
    | some sync =>
      let lockCount := (s.mutex sync).lockCount
      if (s.mutex sync).owner = some self then
        (s.giveUp self sync (.syncWait m true (some (sync, lockCount)) true) woken).syncWaitStart
          self m ulMilliSec (some (sync, lockCount))
      else s.syncWaitStart self m ulMilliSec none
    | none => s.syncWaitStart self m ulMilliSec none
  else s.syncWaitEnd self m none

/-- What a thread does that has been woken, and has entered the critical section again. -/
def resume (expired fRequest : Bool) (woken : T → Bool) : State T M E :=
  match s.thread self with
  | .lock m _ => s.lockWoken self m
  | .timedLock m _ => s.timedLockWoken self m expired
  | .cleared m none => s.subscribeRelease self m woken fRequest
  | .cleared m (some ulMilliSec) => s.timedSubscribeRelease self m ulMilliSec woken fRequest
  | .subscribe m false lockCount _ => s.subscribeWoken self m lockCount fRequest
  | .subscribe m true lockCount _ =>
    if expired then s.timedSubscribeEnd self m lockCount
    else s.timedSubscribeLoop self m lockCount fRequest
  | .syncWait m false given _ => s.syncWaitWoken self m given
  | .syncWait m true given _ =>
    if expired then s.timedSyncWaitEnd self m given else s.timedSyncWaitLoop self m given
  | .syncRestore m lockCount fResult => s.restoreLock self m lockCount (.bool fResult)
  | .restore m lockCount held result _ => s.restoreLoop self m lockCount held result
  | .ready _ => s

end Section

end State

inductive Act (T M E : Type*) where
  | lock (self : T) (m : M)
  | timedLock (self : T) (m : M) (ulMilliSec : Nat)
  | unlock (self : T) (m : M) (woken : T → Bool)
  | subscribe (self : T) (m : M) (fClear : Bool) (woken : T → Bool) (fRequest : Bool)
  | timedSubscribe (self : T) (m : M) (ulMilliSec : Nat) (fClear : Bool) (woken : T → Bool)
      (fRequest : Bool)
  | syncWait (self : T) (m : M) (ulMilliSec : Nat) (pSyncMutex : Option M) (woken : T → Bool)
  | wake (self : T)
  | resume (self : T) (expired fRequest : Bool) (woken : T → Bool)
  | others (m : M) (events : Option (List E)) (syncsignals : Nat)

def Asleep (s : State T M E) (m : M) (t : T) : Prop :=
  (s.thread t).condL = some m ∧ (s.thread t).asleep = true

def Woken (s : State T M E) (m : M) (t : T) : Prop :=
  (s.thread t).condL = some m ∧ (s.thread t).asleep = false

/-- `pthread_cond_signal` wakes at least one of the threads that sleep on `cond_l` of the mutex. -/
def Signalled (s : State T M E) (m : M) (woken : T → Bool) : Prop :=
  (∀ t, woken t = true → Asleep s m t) ∧ ((∃ t, Asleep s m t) → ∃ t, woken t = true)

/-- A thread outside of the functions calls any of them. A thread that waits may be woken at any
time: by a signal, because its time is over, or for no reason. A thread that were to lock the
critical section of a mutex in which it is already does not go on. -/
def Enabled (s : State T M E) : Act T M E → Prop
  | .lock self _ => (s.thread self).isReady
  | .timedLock self _ _ => (s.thread self).isReady
  | .unlock self m woken => (s.thread self).isReady ∧ Signalled s m woken
  | .subscribe self m _ woken _ => (s.thread self).isReady ∧ Signalled s m woken
  | .timedSubscribe self m _ _ woken _ => (s.thread self).isReady ∧ Signalled s m woken
  | .syncWait self m ulMilliSec pSyncMutex woken =>
    (s.thread self).isReady ∧ (∀ sync, pSyncMutex = some sync → Signalled s sync woken) ∧
      (ulMilliSec ≠ 0 → (s.mutex m).syncsignals = 0 → pSyncMutex = some m →
        (s.mutex m).owner ≠ some self)
  | .wake self => (s.thread self).asleep
  | .resume self _ _ woken =>
    (s.thread self).isReady = false ∧ (s.thread self).asleep = false ∧
      ∀ m ulMilliSec, s.thread self = .cleared m ulMilliSec → Signalled s m woken
  | .others _ _ _ => True

def next (s : State T M E) : Act T M E → State T M E
  | .lock self m => s.threadMutexLock self m
  | .timedLock self m ulMilliSec => s.threadMutexTimedLock self m ulMilliSec
  | .unlock self m woken => s.threadMutexUnlock self m woken
  | .subscribe self m fClear woken fRequest => s.threadMutexSubscribe self m fClear woken fRequest
  | .timedSubscribe self m ulMilliSec fClear woken fRequest =>
    s.threadMutexTimedSubscribe self m ulMilliSec fClear woken fRequest
  | .syncWait self m ulMilliSec pSyncMutex woken =>
    s.threadMutexSyncWait self m ulMilliSec pSyncMutex woken
  | .wake self => s.setPlace self (s.thread self).wake
  | .resume self expired fRequest woken => s.resume self expired fRequest woken
  | .others m events syncsignals => s.setMutex m { s.mutex m with events, syncsignals }

def mutexes (T M E : Type*) [DecidableEq T] [DecidableEq M] : System (State T M E) where
  init s := (∀ m, s.mutex m = .created T E) ∧ (∀ t, (s.thread t).isReady) ∧ ∀ t m, s.depth t m = 0
  step s s' := ∃ act, Enabled s act ∧ s' = next s act

end Harbour.Vm.Mutex
