import Harbour.Vm.Mutex
import Harbour.Library.WaitQueue
import Harbour.Vm.MutexMoves

/-!
Messages that threads send to a mutex, and others subscribe to.
-/

namespace Harbour.Vm.Mutex

/-- An item is NIL when it is `none`. -/
def arraySize {V : Type*} (pArray : List (Option V)) (nLen : Nat) : List (Option V) :=
  pArray.take nLen ++ List.replicate (nLen - pArray.length) none

def arrayAdd {V : Type*} (pArray : List (Option V)) (pItem : Option V) : List (Option V) :=
  pArray ++ [pItem]

/-- An index out of range is ignored, and so is one that is negative as an `int`. -/
def arraySet {V : Type*} (pArray : List (Option V)) (nIndex : Int) (pItem : Option V) :
    List (Option V) :=
  if 0 < nIndex then pArray.set (nIndex.toNat - 1) pItem else pArray

@[irreducible]
def intLen (nLen : Nat) : Int := (nLen : Int).bmod (2 ^ 32)

def iCount {V : Type*} (waiters : Nat) (events : List (Option V)) : Int :=
  waiters - intLen events.length

def setLoop {V : Type*} (pNotifier : Option V) : Nat → Int → List (Option V) → List (Option V)
  | 0, _, events => events
  | iSet + 1, iLen, events =>
    setLoop pNotifier iSet (iLen + 1) (arraySet events (iLen + 1) pNotifier)

/-- One event more. `pNotifier` is `none` when it is NULL. -/
def addNotifier {V : Type*} (events : List (Option V)) : Option (Option V) → List (Option V)
  | some pItem => arrayAdd events pItem
  | none => arraySize events (events.length + 1)

def addCopies {V : Type*} (events : List (Option V)) (iLen iCount : Int) :
    Option (Option V) → List (Option V)
  | some (some value) =>
    setLoop (some value) iCount.toNat iLen (arraySize events (iLen + iCount).toNat)
  | _ => arraySize events (iLen + iCount).toNat

/-- Where a thread has left the critical section in `hb_thredMutexEventInit`: to make a list, or to
release it again. -/
inductive Sending (V : Type*) where
  | init (pNotifier : Option (Option V)) (fWaiting : Bool)
  | again (pNotifier : Option (Option V)) (fWaiting : Bool)

structure Messages (T V : Type*) where
  state : State T Unit (Option V)
  sending : T → Option (Sending V)

variable {T V : Type*}

/-- How a thread waits for an event, or for the signals that are no events. -/
inductive Waits where
  | away
  | asleep
  | woken
  | sync
  deriving DecidableEq

def Place.waits {M E : Type*} : Place M E → Waits
  | .subscribe _ _ _ woken => if woken then .woken else .asleep
  | .syncWait _ _ _ _ => .sync
  | _ => .away

namespace Messages

section Section

variable (s : Messages T V)

def mutex : HbMutex T (Option V) := s.state.mutex ()

def queue : List (Option V) := s.mutex.events.getD []

def Sleeps (t : T) : Prop := (s.state.thread t).waits = .asleep

def Woken (t : T) : Prop := (s.state.thread t).waits = .woken

def condSignal (woken : T → Bool) : Messages T V :=
  let thread t := if woken t then (s.state.thread t).wake else s.state.thread t
  { s with state := { s.state with thread } }

def setEvents (events : List (Option V)) : Messages T V :=
  { s with state := s.state.setMutex () { s.mutex with events := some events } }

def notifyOne (events : List (Option V)) (pNotifier : Option (Option V)) (woken : T → Bool) :
    Messages T V :=
  let s' := s.setEvents (addNotifier events pNotifier)
  if s.mutex.waiters ≠ 0 then s'.condSignal woken else s'

def notifyWaiting (events : List (Option V)) (pNotifier : Option (Option V)) (woken : T → Bool) :
    Messages T V :=
  if iCount s.mutex.waiters events > 0 then
    (s.setEvents (addCopies events (intLen events.length) (iCount s.mutex.waiters events)
      pNotifier)).condSignal woken
  else s

/-- There is no next state when a list is used that does not exist. -/
def notifyEvents (pNotifier : Option (Option V)) (fWaiting : Bool) (woken : T → Bool) :
    Option (Messages T V) :=
  if fWaiting = false then s.mutex.events.map fun events => s.notifyOne events pNotifier woken
  else if s.mutex.waiters ≠ 0 then
    s.mutex.events.map fun events => s.notifyWaiting events pNotifier woken
  else some s

variable [DecidableEq T] (self : T)

def setSending (sending : Option (Sending V)) : Messages T V :=
  { s with sending := Function.update s.sending self sending }

def threadMutexNotify (pNotifier : Option (Option V)) (fWaiting : Bool) (woken : T → Bool) :
    Option (Messages T V) :=
  if fWaiting = false ∨ s.mutex.waiters ≠ 0 then
    if s.mutex.events.isNone then some (s.setSending self (some (.init pNotifier fWaiting)))
    else s.notifyEvents pNotifier fWaiting woken
  else some s

/-- The critical section is taken again in `hb_thredMutexEventInit`. -/
def thredMutexEventInit (woken : T → Bool) : Option (Messages T V) :=
  match s.sending self with
  | some (.init pNotifier fWaiting) =>
    if s.mutex.events.isNone then
      ((s.setSending self none).setEvents []).notifyEvents pNotifier fWaiting woken
    else some (s.setSending self (some (.again pNotifier fWaiting)))
  | some (.again pNotifier fWaiting) =>
    (s.setSending self none).notifyEvents pNotifier fWaiting woken
  | none => some s

/-- Whether the signal for `cond_w` is one for all, as the list is then. -/
def broadcasts (fWaiting : Bool) : Prop :=
  fWaiting = true ∧ iCount s.mutex.waiters s.queue ≠ 1

/-- `pthread_cond_signal` wakes at least one of the threads that sleep on `cond_w`,
`pthread_cond_broadcast` all of them. -/
structure Rouses (fWaiting : Bool) (woken : T → Bool) : Prop where
  sleeps : ∀ t, woken t = true → s.Sleeps t
  one : (∃ t, s.Sleeps t) → ∃ t, woken t = true
  all : s.broadcasts fWaiting → ∀ t, s.Sleeps t → woken t = true

def Listed (fWaiting : Bool) : Prop :=
  s.mutex.events = none → fWaiting = true ∧ s.mutex.waiters = 0

/-- The length of the list is right as an `int`, if the waiters are more than that. -/
def Counts (fWaiting : Bool) : Prop :=
  fWaiting = true → intLen s.queue.length < s.mutex.waiters →
    intLen s.queue.length = s.queue.length

end Section

end Messages

open Messages

inductive MessageAct (T V : Type*) where
  | mutex (act : Act T Unit (Option V))
  | notify (self : T) (pNotifier : Option (Option V)) (fWaiting : Bool) (woken : T → Bool)
  | eventInit (self : T) (woken : T → Bool)

def Act.subscriber {M E : Type*} : Act T M E → Option T
  | .lock self _ => some self
  | .timedLock self _ _ => some self
  | .unlock self _ _ => some self
  | .subscribe self _ _ _ _ => some self
  | .timedSubscribe self _ _ _ _ _ => some self
  | .wake self => some self
  | .resume self _ _ _ => some self
  | .syncWait _ _ _ _ _ => none
  | .others _ _ _ => none

def Sending.fWaiting : Sending V → Bool
  | .init _ fWaiting => fWaiting
  | .again _ fWaiting => fWaiting

variable [DecidableEq T]

/-- A thread outside of the functions calls any of them, or goes on in one. -/
def MessageAct.Enabled (s : Messages T V) : MessageAct T V → Prop
  | .mutex act =>
    (∃ self, act.subscriber = some self ∧ s.sending self = none) ∧ Mutex.Enabled s.state act
  | .notify self _ fWaiting woken =>
    (s.state.thread self).isReady ∧ s.sending self = none ∧ s.Rouses fWaiting woken
  | .eventInit self woken =>
    ∃ sending, s.sending self = some sending ∧ s.Rouses sending.fWaiting woken

def MessageAct.next (s : Messages T V) : MessageAct T V → Option (Messages T V)
  | .mutex act => some { s with state := Mutex.next s.state act }
  | .notify self pNotifier fWaiting woken => s.threadMutexNotify self pNotifier fWaiting woken
  | .eventInit self woken => s.thredMutexEventInit self woken

/-- A mutex just created, and threads that have not called anything. -/
def Messages.created (T V : Type*) : Messages T V where
  state := ⟨fun _ => .created T (Option V), fun _ => .ready (.item none), fun _ _ => 0⟩
  sending _ := none

/-- A list that is used exists, and its length is counted as an `int`. -/
def MessageAct.Sound (s : Messages T V) : MessageAct T V → Prop
  | .mutex _ => True
  | .notify _ _ fWaiting _ => s.Counts fWaiting
  | .eventInit self _ => ∀ pNotifier fWaiting, s.sending self = some (.again pNotifier fWaiting) →
      s.Listed fWaiting ∧ s.Counts fWaiting

end Harbour.Vm.Mutex

/-!
What the functions do to the events of a mutex and to those who wait for them.
-/

namespace Harbour.Vm.Mutex

open Library.WaitQueue

variable {T E : Type*}

/-- The event that a subscriber has taken and not returned. -/
def Place.holds {M : Type*} : Place M E → Option E
  | .restore _ _ _ (.item pResult) _ => pResult
  | _ => none

def Place.returned {M : Type*} : Place M E → Option E
  | .ready (.item pResult) => pResult
  | _ => none

def Place.got {M : Type*} (place : Place M E) : Option E := place.holds.or place.returned

def Result.item? : Result E → Option E
  | .item pResult => pResult
  | .bool _ => none

structure Turn (s s' : State T Unit E) (caller : T) (part' : Waits) (events' : Option (List E))
    (waiters' : Nat) (got' : Option E) : Prop where
  others : ∀ t, t ≠ caller → (s'.thread t).waits = (s.thread t).waits ∧
    (s'.thread t).holds = (s.thread t).holds
  part : (s'.thread caller).waits = part'
  events : (s'.mutex ()).events = events'
  waiters : (s'.mutex ()).waiters = waiters'
  got : (s'.thread caller).got = got'

section Turn

variable {s s' s'' : State T Unit E} {self : T} {part part' : Waits}
  {events events' : Option (List E)} {waiters waiters' lockCount ulMilliSec : Nat}
  {got got' : Option E}
  {place : Place Unit E} {pMutex : HbMutex T E} {woken : T → Bool} {fRequest expired : Bool}
  {result : Result E}

theorem Turn.trans (h : Turn s s' self part events waiters got)
    (h' : Turn s' s'' self part' events' waiters' got') :
    Turn s s'' self part' events' waiters' got' := by
  refine ⟨fun t ht => ?_, h'.part, h'.events, h'.waiters, h'.got⟩
  obtain ⟨hpart, hholds⟩ := h.others t ht
  obtain ⟨hpart', hholds'⟩ := h'.others t ht
  exact ⟨hpart'.trans hpart, hholds'.trans hholds⟩

theorem turn_setMutex : Turn s (s.setMutex () pMutex) self (s.thread self).waits pMutex.events
    pMutex.waiters (s.thread self).got :=
  ⟨fun _ _ => ⟨rfl, rfl⟩, rfl, rfl, rfl, rfl⟩

/-- A subscriber falls asleep, since there is no event, or it goes on with the first one. `waiters`
are the others. -/
inductive Turns (s s' : State T Unit E) (self : T) (waiters : Nat) : Prop
  | park (hnone : (s.mutex ()).noEvents = true)
      (h : Turn s s' self .asleep (s.mutex ()).events (waiters + 1) none)
  | leave (h : Turn s s' self .away ((s.mutex ()).events.map List.tail) waiters
      ((s.mutex ()).events.bind List.head?))

theorem Turn.turns (h : Turn s s' self part (s.mutex ()).events waiters got)
    (h' : Turns s' s'' self waiters') : Turns s s'' self waiters' := by
  cases h' with
  | park hnone h' =>
    unfold HbMutex.noEvents at hnone
    rw [h.events] at hnone h'
    exact .park hnone (h.trans h')
  | leave h' =>
    rw [h.events] at h'
    exact .leave (h.trans h')

theorem turns_setMutex (hevents : pMutex.events = (s.mutex ()).events)
    (h : Turns (s.setMutex () pMutex) s' self waiters) : Turns s s' self waiters := by
  have hset : Turn s (s.setMutex () pMutex) self _ _ _ _ := turn_setMutex
  rw [hevents] at hset
  exact hset.turns h

theorem got_restore {held : lockCount ≠ 0} {woken : Bool} :
    (Place.restore () lockCount held result woken).got = result.item? := by
  cases result with
  | bool fResult => rfl
  | item pResult => exact Option.or_none

theorem got_ready : (Place.ready result : Place Unit E).got = result.item? := by
  cases result with
  | bool fResult => rfl
  | item pResult => rfl

variable [DecidableEq T]

section

variable (hthread : s'.thread = Function.update s.thread self place)

include hthread

theorem turn_thread (hpart : place.waits = part) (hevents : (s'.mutex ()).events = events)
    (hwaiters : (s'.mutex ()).waiters = waiters) (hgot : place.got = got) :
    Turn s s' self part events waiters got := by
  refine ⟨fun t ht => ?_, ?_, hevents, hwaiters, ?_⟩
  · rw [hthread, Function.update_of_ne ht]
    exact ⟨rfl, rfl⟩
  · rw [hthread, Function.update_self]
    exact hpart
  · rw [hthread, Function.update_self]
    exact hgot

theorem turn_condSignal (hself : (s.thread self).asleep = false) (hsignalled : Signalled s () woken)
    (hpart : place.waits = part) (hevents : (s'.mutex ()).events = events)
    (hwaiters : (s'.mutex ()).waiters = waiters) (hgot : place.got = got) :
    Turn s (s'.condSignal () woken) self part events waiters got := by
  have hturn := turn_thread hthread hpart hevents hwaiters hgot
  have hsame : (s'.condSignal () woken).mutex = s'.mutex := by
    unfold State.condSignal
    split_ifs <;> rfl
  have hkept : ∀ t, (s'.condSignal () woken).thread t = s'.thread t ∨
      t ≠ self ∧ (s.thread t).condL = some () ∧
        (s'.condSignal () woken).thread t = (s.thread t).wake := by
    intro t
    unfold State.condSignal
    split_ifs with hlockers
    · exact .inl rfl
    · dsimp only
      cases hwoken : woken t with
      | false => exact .inl rfl
      | true =>
        obtain ⟨hcond, hasleep⟩ := hsignalled.1 t hwoken
        have ht : t ≠ self := by
          rintro rfl
          rw [hself] at hasleep
          exact nomatch hasleep
        refine .inr ⟨ht, hcond, ?_⟩
        rw [if_pos rfl, hthread, Function.update_of_ne ht]
  have hown : (s'.condSignal () woken).thread self = s'.thread self := by
    rcases hkept self with h | h
    · exact h
    · exact absurd rfl h.1
  refine ⟨fun t ht => ?_, by rw [hown, hturn.part],
    by rw [hsame, hevents], by rw [hsame, hwaiters], by rw [hown, hturn.got]⟩
  rcases hkept t with h | ⟨-, hcond, h⟩
  · rw [h]
    exact hturn.others t ht
  · rw [h]
    cases hplace : s.thread t with
    | lock m woken => exact ⟨rfl, rfl⟩
    | timedLock m woken => exact ⟨rfl, rfl⟩
    | restore m lockCount held result woken =>
      cases result with
      | bool fResult => exact ⟨rfl, rfl⟩
      | item pResult => exact ⟨rfl, rfl⟩
    | _ =>
      rw [hplace] at hcond
      exact nomatch hcond

end

/-- A thread that neither waits for an event nor takes one. -/
def Idle (s s' : State T Unit E) (self : T) (got : Option E) : Prop :=
  Turn s s' self .away (s.mutex ()).events (s.mutex ()).waiters got

theorem idle_thread (hthread : s'.thread = Function.update s.thread self place)
    (hpart : place.waits = .away) (hevents : (s'.mutex ()).events = (s.mutex ()).events)
    (hwaiters : (s'.mutex ()).waiters = (s.mutex ()).waiters) (hgot : place.got = got) :
    Idle s s' self got :=
  turn_thread hthread hpart hevents hwaiters hgot

theorem idle_returnLocked (hevents : pMutex.events = (s.mutex ()).events)
    (hwaiters : pMutex.waiters = (s.mutex ()).waiters) :
    Idle s (s.returnLocked self () pMutex) self none :=
  idle_thread rfl rfl hevents hwaiters rfl

theorem idle_lockLoop : Idle s (s.lockLoop self ()) self none := by
  unfold State.lockLoop
  dsimp only
  split_ifs
  · exact idle_thread rfl rfl rfl rfl rfl
  · exact idle_returnLocked rfl rfl

theorem idle_lock : Idle s (s.threadMutexLock self ()) self none := by
  unfold State.threadMutexLock
  dsimp only
  split_ifs
  · exact idle_returnLocked rfl rfl
  · exact idle_lockLoop

theorem idle_lockWoken : Idle s (s.lockWoken self ()) self none :=
  Turn.trans turn_setMutex idle_lockLoop

theorem idle_timedLockEnd : Idle s (s.timedLockEnd self ()) self none := by
  unfold State.timedLockEnd
  dsimp only
  split_ifs
  · exact idle_returnLocked rfl rfl
  · exact idle_thread rfl rfl rfl rfl rfl

theorem idle_timedLock : Idle s (s.threadMutexTimedLock self () ulMilliSec) self none := by
  unfold State.threadMutexTimedLock
  dsimp only
  split_ifs
  · exact idle_returnLocked rfl rfl
  · exact idle_thread rfl rfl rfl rfl rfl
  · exact idle_timedLockEnd

theorem idle_timedLockWoken : Idle s (s.timedLockWoken self () expired) self none := by
  unfold State.timedLockWoken
  split_ifs
  · exact idle_thread rfl rfl rfl rfl rfl
  · exact Turn.trans turn_setMutex idle_timedLockEnd

theorem idle_unlock (hself : (s.thread self).asleep = false) (hsignalled : Signalled s () woken) :
    Idle s (s.threadMutexUnlock self () woken) self none := by
  unfold State.threadMutexUnlock
  dsimp only
  split_ifs
  · exact turn_condSignal rfl hself hsignalled rfl rfl rfl rfl
  · exact idle_thread rfl rfl rfl rfl rfl
  · exact idle_thread rfl rfl rfl rfl rfl

theorem idle_restoreLoop {held : lockCount ≠ 0} :
    Idle s (s.restoreLoop self () lockCount held result) self result.item? := by
  unfold State.restoreLoop
  dsimp only
  split_ifs
  · exact idle_thread rfl rfl rfl rfl got_restore
  · exact idle_thread rfl rfl rfl rfl got_ready

theorem idle_restoreLock : Idle s (s.restoreLock self () lockCount result) self result.item? := by
  unfold State.restoreLock
  dsimp only
  split_ifs
  · exact Turn.trans turn_setMutex idle_restoreLoop
  · exact idle_thread rfl rfl rfl rfl got_ready
  · exact idle_thread rfl rfl rfl rfl got_ready

theorem turn_subscribeEnd : Turn s (s.subscribeEnd self () lockCount) self .away
    ((s.mutex ()).events.map List.tail) (s.mutex ()).waiters
    ((s.mutex ()).events.bind List.head?) := by
  unfold State.subscribeEnd
  dsimp only
  have hnone : Idle s (s.restoreLock self () lockCount (.item none)) self none := idle_restoreLock
  unfold Idle at hnone
  cases hevents : (s.mutex ()).events with
  | none =>
    rw [hevents] at hnone
    exact hnone
  | some events =>
    cases events with
    | nil =>
      rw [hevents] at hnone
      exact hnone
    | cons pResult events => exact Turn.trans turn_setMutex idle_restoreLock

theorem turns_subscribeLoop (hwaiters : (s.mutex ()).waiters = waiters) :
    Turns s (s.subscribeLoop self () lockCount fRequest) self waiters := by
  subst hwaiters
  unfold State.subscribeLoop
  dsimp only
  split_ifs with hwait
  · exact .park hwait.1 (turn_thread rfl rfl rfl rfl rfl)
  · exact .leave turn_subscribeEnd

theorem turns_subscribeWoken :
    Turns s (s.subscribeWoken self () lockCount fRequest) self ((s.mutex ()).waiters - 1) := by
  refine turns_setMutex ?_ (turns_subscribeLoop ?_)
  · rfl
  · rfl

theorem turns_timedSubscribeEnd (hwaiters : (s.mutex ()).waiters - 1 = waiters) :
    Turns s (s.timedSubscribeEnd self () lockCount) self waiters := by
  subst hwaiters
  refine turns_setMutex ?_ (.leave turn_subscribeEnd)
  rfl

theorem turns_timedSubscribeLoop (hwaiters : (s.mutex ()).waiters = waiters + 1) :
    Turns s (s.timedSubscribeLoop self () lockCount fRequest) self waiters := by
  unfold State.timedSubscribeLoop
  split_ifs with hwait
  · exact .park hwait.1 (turn_thread rfl rfl rfl hwaiters rfl)
  · exact turns_timedSubscribeEnd (by rw [hwaiters]; rfl)

theorem turns_timedSubscribeWait (hwaiters : (s.mutex ()).waiters = waiters) :
    Turns s (s.timedSubscribeWait self () lockCount fRequest) self waiters := by
  refine turns_setMutex ?_ (turns_timedSubscribeLoop ?_)
  · rfl
  · exact congrArg Nat.succ hwaiters

section Release

variable (hself : (s.thread self).asleep = false) (hsignalled : Signalled s () woken)

include hself hsignalled

theorem turn_giveUp (lockCount : Nat) (timed : Bool) :
    Turn s (s.giveUp self () (.subscribe () timed lockCount true) woken) self .woken
      (s.mutex ()).events (s.mutex ()).waiters none :=
  turn_condSignal rfl hself hsignalled rfl rfl rfl rfl

theorem turns_subscribeRelease :
    Turns s (s.subscribeRelease self () woken fRequest) self (s.mutex ()).waiters := by
  unfold State.subscribeRelease
  dsimp only
  split_ifs
  · have hgive := turn_giveUp hself hsignalled (s.mutex ()).lockCount false
    exact hgive.turns (turns_subscribeLoop hgive.waiters)
  · exact turns_subscribeLoop rfl

theorem turns_timedSubscribeRelease :
    Turns s (s.timedSubscribeRelease self () ulMilliSec woken fRequest) self
      (s.mutex ()).waiters := by
  unfold State.timedSubscribeRelease
  dsimp only
  split_ifs
  · have hgive := turn_giveUp hself hsignalled (s.mutex ()).lockCount true
    exact hgive.turns (turns_timedSubscribeWait hgive.waiters)
  · exact turns_timedSubscribeWait rfl
  · exact .leave turn_subscribeEnd

end Release

end Turn

end Harbour.Vm.Mutex
