import Harbour.Vm.Mutex

/-!
What the functions of a thread may touch, as steps of which each of them is composed.
-/

namespace Harbour.Vm.Mutex

variable {T M E : Type*} [DecidableEq T] [DecidableEq M]

/-- Whether a thread waits in `hb_threadMutexLock` or in `hb_threadMutexTimedLock`. -/
def Place.locks : Place M E → Bool
  | .lock _ _ => true
  | .timedLock _ _ => true
  | _ => false

def Unsignalled (s : State T M E) : Prop := ∀ m, (s.mutex m).syncsignals = 0

/-- What a thread does gives no signal, and it locks and unlocks only if it `locks`. -/
inductive Touches (self : T) (locks : Bool) : State T M E → State T M E → Prop
  | refl {s : State T M E} : Touches self locks s s
  | trans {s s' s'' : State T M E} :
      Touches self locks s s' → Touches self locks s' s'' → Touches self locks s s''
  | setMutex {s : State T M E} {m : M} {pMutex : HbMutex T E} :
      (Unsignalled s → pMutex.syncsignals = (s.mutex m).syncsignals) →
      Touches self locks s (s.setMutex m pMutex)
  | setPlace {s : State T M E} {place : Place M E} :
      (locks = false → place.locks = false) → Touches self locks s (s.setPlace self place)
  | setDepth {s : State T M E} {m : M} {depth : Nat} :
      locks = true → Touches self locks s (s.setDepth self m depth)
  | condSignal {s : State T M E} {m : M} {woken : T → Bool} :
      Touches self locks s (s.condSignal m woken)

variable {self : T} {locks : Bool} {m : M} {s : State T M E} {pMutex : HbMutex T E}
  {place : Place M E} {woken : T → Bool} {fRequest expired : Bool} {lockCount ulMilliSec : Nat}
  {result : Result E} {given : Option (M × Nat)}

theorem touches_after {s' : State T M E} (h : Touches self locks (s.setMutex m pMutex) s')
    (hsame : Unsignalled s → pMutex.syncsignals = (s.mutex m).syncsignals) :
    Touches self locks s s' :=
  (Touches.setMutex hsame).trans h

section Locks

variable (h : locks = true)

include h

theorem Touches.anyPlace : Touches self locks s (s.setPlace self place) :=
  .setPlace fun hlocks => nomatch h.symm.trans hlocks

theorem touches_returned {depth : Nat} (hsame : pMutex.syncsignals = (s.mutex m).syncsignals) :
    Touches self locks s (((s.setMutex m pMutex).setDepth self m depth).setPlace self place) :=
  touches_after (Touches.trans (.setDepth h) (.anyPlace h)) fun _ => hsame

theorem touches_lockLoop : Touches self locks s (s.lockLoop self m) := by
  unfold State.lockLoop
  dsimp only
  split_ifs
  · exact touches_after (.anyPlace h) fun _ => rfl
  · exact touches_returned h rfl

theorem touches_lock : Touches self locks s (s.threadMutexLock self m) := by
  unfold State.threadMutexLock
  dsimp only
  split_ifs
  · exact touches_returned h rfl
  · exact touches_lockLoop h

theorem touches_timedLockEnd : Touches self locks s (s.timedLockEnd self m) := by
  unfold State.timedLockEnd
  dsimp only
  split_ifs
  · exact touches_returned h rfl
  · exact .anyPlace h

theorem touches_timedLock : Touches self locks s (s.threadMutexTimedLock self m ulMilliSec) := by
  unfold State.threadMutexTimedLock
  dsimp only
  split_ifs
  · exact touches_returned h rfl
  · exact touches_after (.anyPlace h) fun _ => rfl
  · exact touches_timedLockEnd h

theorem touches_timedLockWoken : Touches self locks s (s.timedLockWoken self m expired) := by
  unfold State.timedLockWoken
  split_ifs
  · exact .anyPlace h
  · exact touches_after (touches_timedLockEnd h) fun _ => rfl

theorem touches_unlock : Touches self locks s (s.threadMutexUnlock self m woken) := by
  unfold State.threadMutexUnlock
  dsimp only
  split_ifs
  · refine Touches.trans (touches_returned h ?_) .condSignal
    rfl
  · exact touches_returned h rfl
  · exact .anyPlace h

end Locks

theorem touches_giveUp (hplace : place.locks = false) :
    Touches self locks s (s.giveUp self m place woken) := by
  refine touches_after (Touches.trans (.setPlace fun _ => hplace) .condSignal) ?_
  exact fun _ => rfl

theorem touches_restoreLoop {held : lockCount ≠ 0} :
    Touches self locks s (s.restoreLoop self m lockCount held result) := by
  unfold State.restoreLoop
  dsimp only
  split_ifs
  · exact .setPlace fun _ => rfl
  · exact touches_after (.setPlace fun _ => rfl) fun _ => rfl

theorem touches_restoreLock : Touches self locks s (s.restoreLock self m lockCount result) := by
  unfold State.restoreLock
  dsimp only
  split_ifs
  · exact touches_after touches_restoreLoop fun _ => rfl
  · exact touches_after (.setPlace fun _ => rfl) fun _ => rfl
  · exact .setPlace fun _ => rfl

theorem touches_subscribeEnd : Touches self locks s (s.subscribeEnd self m lockCount) := by
  unfold State.subscribeEnd
  dsimp only
  split
  · exact touches_after touches_restoreLock fun _ => rfl
  · exact touches_restoreLock

theorem touches_subscribeLoop :
    Touches self locks s (s.subscribeLoop self m lockCount fRequest) := by
  unfold State.subscribeLoop
  dsimp only
  split_ifs
  · exact touches_after (.setPlace fun _ => rfl) fun _ => rfl
  · exact touches_subscribeEnd

theorem touches_subscribeRelease :
    Touches self locks s (s.subscribeRelease self m woken fRequest) := by
  unfold State.subscribeRelease
  dsimp only
  split_ifs
  · exact (touches_giveUp rfl).trans touches_subscribeLoop
  · exact touches_subscribeLoop

theorem touches_subscribe {fClear : Bool} :
    Touches self locks s (s.threadMutexSubscribe self m fClear woken fRequest) := by
  unfold State.threadMutexSubscribe
  dsimp only
  split_ifs
  · exact touches_after (.setPlace fun _ => rfl) fun _ => rfl
  · exact touches_subscribeRelease

theorem touches_timedSubscribeEnd : Touches self locks s (s.timedSubscribeEnd self m lockCount) :=
  touches_after touches_subscribeEnd fun _ => rfl

theorem touches_timedSubscribeLoop :
    Touches self locks s (s.timedSubscribeLoop self m lockCount fRequest) := by
  unfold State.timedSubscribeLoop
  split_ifs
  · exact .setPlace fun _ => rfl
  · exact touches_timedSubscribeEnd

theorem touches_timedSubscribeRelease :
    Touches self locks s (s.timedSubscribeRelease self m ulMilliSec woken fRequest) := by
  unfold State.timedSubscribeRelease
  dsimp only
  split_ifs
  · refine Touches.trans (touches_giveUp ?_) (touches_after touches_timedSubscribeLoop fun _ => rfl)
    rfl
  · exact touches_after touches_timedSubscribeLoop fun _ => rfl
  · exact touches_subscribeEnd

theorem touches_timedSubscribe {fClear : Bool} :
    Touches self locks s (s.threadMutexTimedSubscribe self m ulMilliSec fClear woken fRequest) := by
  unfold State.threadMutexTimedSubscribe
  dsimp only
  split_ifs
  · exact touches_after (.setPlace fun _ => rfl) fun _ => rfl
  · exact touches_timedSubscribeRelease

theorem touches_syncWaitEnd : Touches self locks s (s.syncWaitEnd self m given) := by
  refine touches_after (.setPlace fun _ => ?_) fun hquiet => ?_
  · cases given with
    | none => rfl
    | some given =>
      dsimp only
      split_ifs <;> rfl
  · dsimp only
    rw [hquiet m]

theorem touches_syncWaitLoop : Touches self locks s (s.syncWaitLoop self m given) := by
  unfold State.syncWaitLoop
  dsimp only
  split_ifs
  · exact touches_after (.setPlace fun _ => rfl) fun _ => rfl
  · exact touches_syncWaitEnd

theorem touches_timedSyncWaitEnd : Touches self locks s (s.timedSyncWaitEnd self m given) :=
  touches_after touches_syncWaitEnd fun _ => rfl

theorem touches_timedSyncWaitLoop : Touches self locks s (s.timedSyncWaitLoop self m given) := by
  unfold State.timedSyncWaitLoop
  split_ifs
  · exact .setPlace fun _ => rfl
  · exact touches_timedSyncWaitEnd

theorem touches_syncWaitStart : Touches self locks s (s.syncWaitStart self m ulMilliSec given) := by
  unfold State.syncWaitStart
  split_ifs
  · exact touches_syncWaitLoop
  · exact touches_after touches_timedSyncWaitLoop fun _ => rfl

theorem touches_syncWait {pSyncMutex : Option M} :
    Touches self locks s (s.threadMutexSyncWait self m ulMilliSec pSyncMutex woken) := by
  unfold State.threadMutexSyncWait
  split_ifs
  · cases pSyncMutex with
    | none => exact touches_syncWaitStart
    | some sync =>
      dsimp only
      split_ifs
      · exact (touches_giveUp rfl).trans touches_syncWaitStart
      · exact touches_syncWaitStart
  · exact touches_syncWaitEnd

theorem touches_resume (h : (s.thread self).locks = true → locks = true) :
    Touches self locks s (s.resume self expired fRequest woken) := by
  unfold State.resume
  cases hplace : s.thread self with
  | ready result => exact .refl
  | lock m woken =>
    exact touches_after (touches_lockLoop (h (congrArg Place.locks hplace))) fun _ => rfl
  | timedLock m woken => exact touches_timedLockWoken (h (congrArg Place.locks hplace))
  | cleared m ulMilliSec =>
    cases ulMilliSec with
    | none => exact touches_subscribeRelease
    | some ulMilliSec => exact touches_timedSubscribeRelease
  | subscribe m timed lockCount woken =>
    cases timed with
    | false => exact touches_after touches_subscribeLoop fun _ => rfl
    | true =>
      split_ifs
      · exact touches_timedSubscribeEnd
      · exact touches_timedSubscribeLoop
  | syncWait m timed given woken =>
    cases timed with
    | false => exact touches_after touches_syncWaitLoop fun _ => rfl
    | true =>
      split_ifs
      · exact touches_timedSyncWaitEnd
      · exact touches_timedSyncWaitLoop
  | syncRestore m lockCount fResult => exact touches_restoreLock
  | restore m lockCount held result woken => exact touches_restoreLoop

end Harbour.Vm.Mutex
