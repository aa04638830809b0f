import Harbour.Vm.MutexMessageSteps

/-!
Every message sent to a mutex is taken once, or removed, or still there, and nobody sleeps over it.
-/

namespace Harbour.Vm.Mutex

open Library.WaitQueue List Function Option Finset

variable {T V : Type*} [DecidableEq T]

section Steps

variable {log : Log T V} {s s' : Messages T V} {q : Waiting T (Option V)} {self : T}
  {σ : State T Unit (Option V)} {got : Option (Option V)} {waiters : Nat} {woken : T → Bool}
  {pNotifier : Option (Option V)} {fWaiting fClear : Bool} {events : List (Option V)}

theorem Inv.enters (h : Inv log s) (hwaiting : ∃ q, Represents s' q ∧ Alert q)
    (hqueue : s'.queue = s.queue ++ events) (hthread : ∀ t, s'.state.thread t = s.state.thread t ∨
      s.Sleeps t ∧ s'.state.thread t = (s.state.thread t).wake) : Inv (log.enters events) s' := by
  refine ⟨hwaiting, fun t => ?_, ?_, fun t => ?_⟩
  · rcases hthread t with ht | ⟨hsleeps, ht⟩
    · rw [ht]
      exact h.sync t
    · rw [ht, waits_wake hsleeps]
      exact nofun
  · change log.entered ++ events = log.left.map Prod.fst ++ s'.queue
    rw [hqueue, h.entered, append_assoc]
  · refine (h.taken t).trans ?_
    rcases hthread t with ht | ⟨-, ht⟩
    · rw [ht]
      rfl
    · rw [ht, holds_wake]
      rfl

omit [DecidableEq T] in
theorem condSignal_thread (hwoken : ∀ t, woken t = true → s.Sleeps t) (t : T) :
    (s.condSignal woken).state.thread t = s.state.thread t ∨
      s.Sleeps t ∧ (s.condSignal woken).state.thread t = (s.state.thread t).wake := by
  unfold Messages.condSignal
  dsimp only
  split_ifs with ht
  · exact .inr ⟨hwoken t ht, rfl⟩
  · exact .inl rfl

omit [DecidableEq T] in
theorem queue_eq (hevents : s.mutex.events = some events) : s.queue = events := by
  unfold Messages.queue
  rw [hevents]
  rfl

theorem arraySize_more (n : Nat) :
    arraySize events (events.length + n) = events ++ replicate n none := by
  unfold arraySize
  rw [take_of_length_le (Nat.le_add_right _ _), Nat.add_sub_cancel_left]

theorem setLoop_replicate (value : Option V) (n : Nat) (events : List (Option V)) :
    setLoop value n events.length (events ++ replicate n none) =
      events ++ replicate n value := by
  induction n generalizing events with
  | zero => rfl
  | succ n ih =>
    have hset : arraySet (events ++ replicate (n + 1) none) ((events.length : Int) + 1)
        value = (events ++ [value]) ++ replicate n none := by
      unfold arraySet
      rw [if_pos (by omega)]
      have hindex : ((events.length : Int) + 1).toNat - 1 = events.length := by omega
      rw [hindex, set_append_right _ _ le_rfl, Nat.sub_self, append_assoc]
      rfl
    have hlength : ((events.length : Int) + 1) = ((events ++ [value]).length : Nat) := by
      rw [length_append]
      rfl
    unfold setLoop
    rw [hset, hlength, ih, append_assoc]
    rfl

theorem addNotifier_eq : addNotifier events pNotifier = events ++ [pNotifier.join] := by
  cases pNotifier with
  | none => exact arraySize_more 1
  | some pItem => rfl

theorem addCopies_eq (n : Nat) : addCopies events events.length n pNotifier =
    events ++ replicate n pNotifier.join := by
  have hsize : ((events.length : Int) + n).toNat = events.length + n := by omega
  unfold addCopies
  rw [hsize, arraySize_more]
  match pNotifier with
  | none => rfl
  | some none => rfl
  | some (some value) => exact setLoop_replicate _ n events

theorem intLen_le (n : Nat) : intLen n ≤ n := by
  unfold intLen
  rw [Int.bmod_def]
  split_ifs <;> omega

section Notify

variable (h : Inv log s) (hrouses : s.Rouses fWaiting woken)
  (hevents : s.mutex.events = some events)

include h hrouses hevents

theorem Inv.notifyOne : Inv (log.enters [pNotifier.join]) (s.notifyOne events pNotifier woken) := by
  obtain ⟨q, hq, halert⟩ := h.waiting
  have hsent : Represents (s.setEvents (events ++ [pNotifier.join])) (q.send [pNotifier.join]) := by
    refine hq.same ?_ (fun t => rfl) rfl
    rw [← hq.queue, queue_eq hevents]
    rfl
  have hqueue : (s.setEvents (events ++ [pNotifier.join])).queue = s.queue ++ [pNotifier.join] := by
    rw [queue_eq hevents]
    rfl
  unfold Messages.notifyOne
  rw [addNotifier_eq]
  split_ifs with hwaiters
  · refine h.enters ⟨_, hsent.condSignal halert.disjoint hrouses.sleeps, ?_⟩ hqueue
      (condSignal_thread hrouses.sleeps)
    exact halert.send (hq.signal hrouses) _
  · refine h.enters ⟨_, hsent, halert.send_idle ?_ _⟩ hqueue fun t => .inl rfl
    exact hq.waiters.symm.trans (not_not.mp hwaiters)

theorem Inv.notifyWaiting (hwaiting : fWaiting = true) (hcounts : s.Counts fWaiting) :
    Inv (log.enters (s.sent pNotifier fWaiting)) (s.notifyWaiting events pNotifier woken) := by
  obtain ⟨q, hq, halert⟩ := h.waiting
  have hsent : s.sent pNotifier fWaiting =
      replicate (s.mutex.waiters - events.length) pNotifier.join := by
    unfold Messages.sent
    rw [if_pos hwaiting, queue_eq hevents]
  have hcount := hcounts hwaiting
  rw [queue_eq hevents] at hcount
  unfold Messages.notifyWaiting
  split_ifs with hmore
  · unfold iCount at hmore
    have hlength := hcount (by omega)
    have hdiff : iCount s.mutex.waiters events = (s.mutex.waiters - events.length : Nat) := by
      unfold iCount
      omega
    rw [hlength, hdiff, addCopies_eq, hsent]
    have hsame : Represents
        (s.setEvents (events ++ replicate (s.mutex.waiters - events.length) pNotifier.join))
        (q.send (replicate (s.mutex.waiters - events.length) pNotifier.join)) := by
      refine hq.same ?_ (fun t => rfl) rfl
      rw [← hq.queue, queue_eq hevents]
      rfl
    refine h.enters ⟨_, hsame.condSignal halert.disjoint hrouses.sleeps, ?_⟩ ?_
      (condSignal_thread hrouses.sleeps)
    · refine halert.sendAll ?_ (hq.signal hrouses) fun hone => ?_
      · rw [length_replicate, ← hq.queue, queue_eq hevents, ← hq.waiters]
        omega
      · rw [length_replicate] at hone
        apply filter_true_of_mem
        intro t ht
        refine hrouses.all ⟨hwaiting, ?_⟩ t ((hq.asleep t).mp ht)
        rw [queue_eq hevents, hdiff]
        omega
    · rw [queue_eq hevents]
      rfl
  · unfold iCount at hmore
    have hle := intLen_le events.length
    have hzero : s.mutex.waiters - events.length = 0 := by omega
    rw [hsent, hzero]
    refine h.enters ⟨q, hq, halert⟩ ?_ fun t => .inl rfl
    exact (append_nil _).symm

end Notify

omit [DecidableEq T] in
theorem condSignal_sending : (s.condSignal woken).sending = s.sending := rfl

omit [DecidableEq T] in
theorem setEvents_sending : (s.setEvents events).sending = s.sending := rfl

omit [DecidableEq T] in
theorem notifyOne_sending : (s.notifyOne events pNotifier woken).sending = s.sending := by
  unfold Messages.notifyOne
  split_ifs
  · rw [condSignal_sending, setEvents_sending]
  · rw [setEvents_sending]

omit [DecidableEq T] in
theorem notifyWaiting_sending : (s.notifyWaiting events pNotifier woken).sending = s.sending := by
  unfold Messages.notifyWaiting
  split_ifs
  · rw [condSignal_sending, setEvents_sending]
  · rfl

theorem intLen_zero : intLen 0 = 0 := by
  unfold intLen
  exact Int.zero_bmod

theorem Inv.notifyEvents (h : Inv log s) (pNotifier : Option (Option V))
    (hrouses : s.Rouses fWaiting woken) (hlisted : s.Listed fWaiting)
    (hcounts : s.Counts fWaiting) :
    ∃ s', s.notifyEvents pNotifier fWaiting woken = some s' ∧ s'.sending = s.sending ∧
      Inv (log.enters (s.sent pNotifier fWaiting)) s' := by
  unfold Messages.notifyEvents
  cases fWaiting with
  | false =>
    cases hevents : s.mutex.events with
    | none => exact nomatch (hlisted hevents).1
    | some events => exact ⟨_, rfl, notifyOne_sending, h.notifyOne hrouses hevents⟩
  | true =>
    rw [if_neg nofun]
    split_ifs with hwaiters
    · cases hevents : s.mutex.events with
      | none => exact absurd (hlisted hevents).2 hwaiters
      | some events =>
        exact ⟨s.notifyWaiting events pNotifier woken, map_some _ _,
          notifyWaiting_sending, h.notifyWaiting hrouses hevents rfl hcounts⟩
    · refine ⟨s, rfl, rfl, h.enters h.waiting ?_ fun t => .inl rfl⟩
      have hnone : s.sent pNotifier true = [] := by
        unfold Messages.sent
        rw [if_pos rfl, not_not.mp hwaiters, Nat.zero_sub]
        rfl
      rw [hnone, append_nil]

theorem Inv.setSending (h : Inv log s) (sending : Option (Sending V)) :
    Inv log (s.setSending self sending) := by
  obtain ⟨⟨q, hq, halert⟩, hsync, hentered, htaken⟩ := h
  exact ⟨⟨q, ⟨hq.queue, hq.asleep, hq.woken, hq.waiters⟩, halert⟩, hsync, hentered, htaken⟩

omit [DecidableEq T] in
theorem queue_nil (hevents : s.mutex.events = none) : s.queue = [] := by
  unfold Messages.queue
  rw [hevents]
  rfl

theorem Inv.setEvents (h : Inv log s) (hevents : s.mutex.events = none) :
    Inv log (s.setEvents []) := by
  have hqueue : (s.setEvents []).queue = s.queue ++ [] := by
    rw [queue_nil hevents]
    rfl
  obtain ⟨q, hq, halert⟩ := h.waiting
  have hsame : Represents (s.setEvents []) q := by
    refine hq.same ?_ (fun t => rfl) rfl
    rw [hqueue, append_nil, hq.queue]
  have henters := h.enters ⟨q, hsame, halert⟩ hqueue fun t => .inl rfl
  unfold Log.enters at henters
  rw [append_nil] at henters
  exact henters

omit [DecidableEq T] in
theorem notifies_sending (hsending : s'.sending self = none) :
    log.notifies s s' self pNotifier fWaiting = log.enters (s.sent pNotifier fWaiting) := by
  unfold Log.notifies
  rw [hsending]
  rfl

theorem notifies_wait {sending : Option (Sending V)} (hsending : sending.isSome) :
    log.notifies s (s.setSending self sending) self pNotifier fWaiting = log := by
  have hself : (s.setSending self sending).sending self = sending := update_self ..
  apply if_pos
  rw [hself, hsending]

theorem Inv.notify (h : Inv log s) (hself : s.sending self = none)
    (hrouses : s.Rouses fWaiting woken) (hcounts : s.Counts fWaiting) :
    ∃ s', s.threadMutexNotify self pNotifier fWaiting woken = some s' ∧
      Inv (log.notifies s s' self pNotifier fWaiting) s' := by
  have hevents : ∀ (hlisted : s.Listed fWaiting),
      ∃ s', s.notifyEvents pNotifier fWaiting woken = some s' ∧
        Inv (log.notifies s s' self pNotifier fWaiting) s' := by
    intro hlisted
    obtain ⟨s', hnext, hsending, hinv⟩ := h.notifyEvents pNotifier hrouses hlisted hcounts
    refine ⟨s', hnext, ?_⟩
    rw [notifies_sending ((congrFun hsending self).trans hself)]
    exact hinv
  unfold Messages.threadMutexNotify
  split_ifs with hused hnone
  · refine ⟨_, rfl, ?_⟩
    rw [notifies_wait rfl]
    exact h.setSending _
  · apply hevents
    intro hmissing
    rw [hmissing] at hnone
    exact absurd rfl hnone
  · have hnot := not_or.mp hused
    have hlisted : s.Listed fWaiting :=
      fun _ => ⟨Bool.eq_true_of_not_eq_false hnot.1, not_not.mp hnot.2⟩
    obtain ⟨s', hnext, hinv⟩ := hevents hlisted
    unfold Messages.notifyEvents at hnext
    rw [if_neg hnot.1, if_neg hnot.2] at hnext
    exact ⟨s', hnext, hinv⟩

theorem Inv.eventInit (h : Inv log s) {sending : Sending V} (hself : s.sending self = some sending)
    (hrouses : s.Rouses sending.fWaiting woken)
    (hsound : (MessageAct.eventInit self woken).Sound s) :
    ∃ s', s.thredMutexEventInit self woken = some s' ∧
      Inv (log.notifies s s' self sending.pNotifier sending.fWaiting) s' := by
  unfold Messages.thredMutexEventInit
  rw [hself]
  cases sending with
  | init pNotifier fWaiting =>
    split_ifs with hnone
    · have hevents : s.mutex.events = none := isNone_iff_eq_none.mp hnone
      have hqueue : ((s.setSending self none).setEvents []).queue = s.queue := by
        rw [queue_nil hevents]
        rfl
      have hlisted : ((s.setSending self none).setEvents []).Listed fWaiting := nofun
      have hcounts : ((s.setSending self none).setEvents []).Counts fWaiting :=
        fun _ _ => intLen_zero
      have hsame : ((s.setSending self none).setEvents []).Rouses fWaiting woken := by
        refine ⟨hrouses.sleeps, hrouses.one, fun hall => hrouses.all ?_⟩
        unfold Messages.broadcasts at hall ⊢
        rw [hqueue] at hall
        exact hall
      have hempty : Inv log ((s.setSending self none).setEvents []) :=
        (h.setSending none).setEvents hevents
      obtain ⟨s', hnext, hsending, hinv⟩ := hempty.notifyEvents pNotifier hsame hlisted hcounts
      refine ⟨s', hnext, ?_⟩
      have hsent : ((s.setSending self none).setEvents []).sent pNotifier fWaiting =
          s.sent pNotifier fWaiting := by
        unfold Messages.sent
        rw [hqueue]
        rfl
      rw [hsent] at hinv
      rw [notifies_sending ((congrFun hsending self).trans (update_self ..))]
      exact hinv
    · refine ⟨_, rfl, ?_⟩
      rw [notifies_wait rfl]
      exact h.setSending _
  | again pNotifier fWaiting =>
    obtain ⟨hlisted, hcounts⟩ := hsound pNotifier fWaiting hself
    have hgone : Inv log (s.setSending self none) := h.setSending none
    have hsame : (s.setSending self none).Rouses fWaiting woken :=
      ⟨hrouses.1, hrouses.2, hrouses.3⟩
    obtain ⟨s', hnext, hsending, hinv⟩ := hgone.notifyEvents pNotifier hsame hlisted hcounts
    refine ⟨s', hnext, ?_⟩
    rw [notifies_sending ((congrFun hsending self).trans (update_self ..))]
    exact hinv

omit [DecidableEq T] in
theorem ready_place {place : Place Unit (Option V)} (h : place.isReady) :
    place.waits = .away ∧ place.holds = none := by
  cases place with
  | ready result => exact ⟨rfl, rfl⟩
  | _ => exact nomatch h

omit [DecidableEq T] in
theorem returned_none {place : Place Unit (Option V)} (h : place.got = none) :
    place.returned = none := by
  have hgot := got_toList place
  rw [h, toList_none, eq_comm, append_eq_nil_iff] at hgot
  exact toList_eq_nil_iff.mp hgot.1

theorem Inv.locks (h : Inv log s) (haway : (s.state.thread self).waits = .away)
    (hholds : (s.state.thread self).holds = none) (hidle : Idle s.state σ self none) :
    Inv log { s with state := σ } := by
  have hinv := h.idle haway hholds hidle
  rw [returned_none hidle.got, returns_none] at hinv
  exact hinv

omit [DecidableEq T] in
theorem clears_nil : log.clears fClear [] = log := by
  unfold Log.clears
  split_ifs
  · rw [map_nil, append_nil]
  · rfl

theorem Inv.subscribe (h : Inv log s) (hready : (s.state.thread self).isReady)
    (hstep : fClear = true ∧ Turn s.state σ self .away none s.mutex.waiters none ∨
      ¬(fClear = true ∧ s.mutex.events.isSome = true) ∧ Turns s.state σ self s.mutex.waiters) :
    Inv (log.subscribes s { s with state := σ } self fClear) { s with state := σ } := by
  obtain ⟨haway, hholds⟩ := ready_place hready
  change Inv (((log.clears fClear s.queue).takes self (σ.thread self).got).returns self
    (σ.thread self).returned) _
  rcases hstep with ⟨rfl, hturn⟩ | ⟨hkeep, hturns⟩
  · rw [hturn.got, takes_none, returned_none hturn.got, returns_none]
    exact h.cleared haway hholds hturn
  · have hnone : log.clears fClear s.queue = log := by
      cases fClear with
      | false => rfl
      | true =>
        have hevents : s.mutex.events = none :=
          not_isSome_iff_eq_none.mp fun hsome => hkeep ⟨rfl, hsome⟩
        rw [queue_nil hevents]
        exact clears_nil
    rw [hnone]
    exact h.turns (.inr ⟨haway, rfl⟩) hholds hturns

theorem wake_eq :
    ({ s with state := s.state.setPlace self (s.state.thread self).wake } : Messages T V) =
      s.condSignal fun t => decide (t = self) := by
  unfold Messages.condSignal State.setPlace
  congr 2
  funext t
  by_cases ht : t = self
  · subst ht
    rw [update_self]
    exact (if_pos (decide_eq_true rfl)).symm
  · rw [update_of_ne ht]
    exact (if_neg fun hself => ht (of_decide_eq_true hself)).symm

section

variable (h : Inv log s)

include h

theorem Inv.wake (hasleep : (s.state.thread self).asleep) :
    Inv log { s with state := s.state.setPlace self (s.state.thread self).wake } := by
  have hsync := h.sync self
  have hidle : (s.state.thread self).waits = .away →
      (s.state.thread self).wake.waits = .away →
      (s.state.thread self).wake.got = (s.state.thread self).holds →
      (s.state.thread self).wake.returned = none →
      Inv log { s with state := s.state.setPlace self (s.state.thread self).wake } := by
    intro haway hwaits hgot hreturned
    have hinv := h.idle (σ := s.state.setPlace self (s.state.thread self).wake) haway rfl
      (turn_thread rfl hwaits rfl rfl hgot)
    have hself : (s.state.setPlace self (s.state.thread self).wake).thread self =
        (s.state.thread self).wake := update_self ..
    rw [hself, hreturned, returns_none] at hinv
    exact hinv
  cases hplace : s.state.thread self with
  | lock m woken | timedLock m woken => rw [hplace] at hidle; exact hidle rfl rfl rfl rfl
  | restore m lockCount held result woken =>
    rw [hplace] at hidle
    refine hidle rfl rfl ?_ rfl
    cases result with
    | bool fResult => rfl
    | item pResult => exact or_none
  | syncWait m timed given woken =>
    rw [hplace] at hsync
    exact absurd rfl hsync
  | subscribe m timed lockCount woken =>
    rw [hplace] at hasleep
    have hsleeps : ∀ t, decide (t = self) = true → s.Sleeps t := by
      intro t ht
      rw [of_decide_eq_true ht]
      unfold Messages.Sleeps
      rw [hplace]
      cases woken with
      | false => rfl
      | true => exact nomatch hasleep
    rw [← hplace, wake_eq]
    obtain ⟨q, hq, halert⟩ := h.waiting
    have hinv : Inv (log.enters []) (s.condSignal fun t => decide (t = self)) := h.enters
      ⟨_, hq.condSignal halert.disjoint hsleeps, halert.rouse (filter_subset _ _)⟩
      (append_nil _).symm (condSignal_thread hsleeps)
    unfold Log.enters at hinv
    rw [append_nil] at hinv
    exact hinv
  | _ =>
    rw [hplace] at hasleep
    exact nomatch hasleep

theorem Inv.resume_idle (htakes : (s.state.thread self).takes = false)
    (haway : (s.state.thread self).waits = .away) (hholds : (s.state.thread self).holds = got)
    (hidle : Idle s.state σ self got) :
    Inv (log.resumes s { s with state := σ } self) { s with state := σ } := by
  have hlog : log.resumes s { s with state := σ } self =
      log.returns self (σ.thread self).returned := by
    unfold Log.resumes
    rw [htakes]
    rfl
  rw [hlog]
  exact h.idle haway hholds hidle

theorem Inv.resume_turns (htakes : (s.state.thread self).takes = true)
    (hothers : Others s self waiters) (hturns : Turns s.state σ self waiters) :
    Inv (log.resumes s { s with state := σ } self) { s with state := σ } := by
  have hlog : log.resumes s { s with state := σ } self =
      (log.takes self (σ.thread self).got).returns self (σ.thread self).returned := by
    unfold Log.resumes
    rw [htakes]
    rfl
  have hholds : (s.state.thread self).holds = none := by
    cases hplace : s.state.thread self with
    | cleared m ulMilliSec => rfl
    | subscribe m timed lockCount woken => rfl
    | _ =>
      rw [hplace] at htakes
      exact nomatch htakes
  rw [hlog]
  exact h.turns hothers hholds hturns

theorem Inv.resume {expired fRequest : Bool}
    (henabled : Mutex.Enabled s.state (.resume self expired fRequest woken)) :
    Inv (log.resumes s { s with state := s.state.resume self expired fRequest woken } self)
      { s with state := s.state.resume self expired fRequest woken } := by
  obtain ⟨hready, hasleep, hsignalled⟩ := henabled
  unfold State.resume
  cases hplace : s.state.thread self with
  | ready result =>
    rw [hplace] at hready
    exact nomatch hready
  | lock m roused =>
    exact h.resume_idle (congrArg Place.takes hplace) (congrArg Place.waits hplace)
      (congrArg Place.holds hplace) idle_lockWoken
  | timedLock m roused =>
    exact h.resume_idle (congrArg Place.takes hplace) (congrArg Place.waits hplace)
      (congrArg Place.holds hplace) idle_timedLockWoken
  | cleared m ulMilliSec =>
    have hothers : Others s self s.mutex.waiters := .inr ⟨congrArg Place.waits hplace, rfl⟩
    apply h.resume_turns (congrArg Place.takes hplace) hothers
    cases ulMilliSec with
    | none => exact turns_subscribeRelease hasleep (hsignalled m none hplace)
    | some ulMilliSec =>
      exact turns_timedSubscribeRelease hasleep (hsignalled m (some ulMilliSec) hplace)
  | subscribe m timed lockCount roused =>
    have hwoken : s.Woken self := by
      unfold Messages.Woken
      rw [hplace] at hasleep ⊢
      cases roused with
      | false => exact nomatch hasleep
      | true => rfl
    obtain ⟨q, hq, -⟩ := h.waiting
    have hpos : s.mutex.waiters ≠ 0 := by
      have hcard := card_pos.mpr ⟨self, (hq.woken self).mpr hwoken⟩
      rw [hq.waiters]
      unfold Waiting.waiters
      omega
    apply h.resume_turns (congrArg Place.takes hplace) (.inl ⟨hwoken, rfl⟩)
    cases timed with
    | false => exact turns_subscribeWoken
    | true =>
      split_ifs
      · exact turns_timedSubscribeEnd rfl
      · apply turns_timedSubscribeLoop
        exact (Nat.sub_add_cancel (Nat.pos_of_ne_zero hpos)).symm
  | syncWait m timed given roused => exact absurd (congrArg Place.waits hplace) (h.sync self)
  | syncRestore m lockCount fResult =>
    exact h.resume_idle (congrArg Place.takes hplace) (congrArg Place.waits hplace)
      (congrArg Place.holds hplace) idle_restoreLock
  | restore m lockCount held result roused =>
    cases result with
    | bool fResult | item pResult =>
      exact h.resume_idle (congrArg Place.takes hplace) (congrArg Place.waits hplace)
        (congrArg Place.holds hplace) idle_restoreLoop

theorem Inv.mutex {act : Act T Unit (Option V)} (hself : act.subscriber = some self)
    (henabled : Mutex.Enabled s.state act) :
    Inv ((MessageAct.mutex act).log log s { s with state := Mutex.next s.state act })
      { s with state := Mutex.next s.state act } := by
  cases act with
  | lock self m =>
    obtain ⟨haway, hholds⟩ := ready_place henabled
    exact h.locks haway hholds idle_lock
  | timedLock self m ulMilliSec =>
    obtain ⟨haway, hholds⟩ := ready_place henabled
    exact h.locks haway hholds idle_timedLock
  | unlock self m woken =>
    obtain ⟨haway, hholds⟩ := ready_place henabled.1
    exact h.locks haway hholds (idle_unlock (ready_asleep henabled.1) henabled.2)
  | subscribe self m fClear woken fRequest =>
    refine h.subscribe henabled.1 ?_
    unfold Mutex.next State.threadMutexSubscribe
    dsimp only
    split_ifs with hclear
    · exact .inl ⟨hclear.1, turn_thread rfl rfl rfl rfl rfl⟩
    · exact .inr ⟨hclear, turns_subscribeRelease (ready_asleep henabled.1) henabled.2⟩
  | timedSubscribe self m ulMilliSec fClear woken fRequest =>
    refine h.subscribe henabled.1 ?_
    unfold Mutex.next State.threadMutexTimedSubscribe
    dsimp only
    split_ifs with hclear
    · exact .inl ⟨hclear.1, turn_thread rfl rfl rfl rfl rfl⟩
    · exact .inr ⟨hclear, turns_timedSubscribeRelease (ready_asleep henabled.1) henabled.2⟩
  | wake self => exact h.wake henabled
  | resume self expired fRequest woken => exact h.resume henabled
  | syncWait self m ulMilliSec pSyncMutex woken => exact nomatch hself
  | others m events syncsignals => exact nomatch hself

theorem Inv.next {act : MessageAct T V} (henabled : act.Enabled s) (hsound : act.Sound s) :
    ∃ s', act.next s = some s' ∧ Inv (act.log log s s') s' := by
  cases act with
  | mutex act =>
    obtain ⟨⟨self, hself, -⟩, henabled⟩ := henabled
    exact ⟨_, rfl, h.mutex hself henabled⟩
  | notify self pNotifier fWaiting woken =>
    obtain ⟨-, hself, hrouses⟩ := henabled
    exact h.notify hself hrouses hsound
  | eventInit self woken =>
    obtain ⟨sending, hself, hrouses⟩ := henabled
    obtain ⟨s', hnext, hinv⟩ := h.eventInit hself hrouses hsound
    refine ⟨s', hnext, ?_⟩
    have hlog : (MessageAct.eventInit self woken).log log s s' =
        log.notifies s s' self sending.pNotifier sending.fWaiting := by
      unfold MessageAct.log
      dsimp only
      rw [hself]
    rw [hlog]
    exact hinv

end

theorem Runs.inv (h : Runs (fun s act => act.Sound s) log s) : Inv log s := by
  induction h with
  | created => exact created_inv
  | step hruns henabled hsound hnext ih =>
    obtain ⟨s', hsome, hinv⟩ := ih.next henabled hsound
    rw [hnext] at hsome
    rw [some.inj hsome]
    exact hinv

omit [DecidableEq T] in
theorem notifyEvents_none :
    s.notifyEvents pNotifier fWaiting woken = none ↔ ¬s.Listed fWaiting := by
  unfold Messages.notifyEvents Messages.Listed
  cases hevents : s.mutex.events with
  | some events =>
    refine iff_of_false ?_ fun h => h nofun
    split_ifs
    · exact nofun
    · exact nofun
    · exact nofun
  | none =>
    split_ifs with hone hwaiters
    · exact iff_of_true rfl fun h => nomatch hone.symm.trans (h rfl).1
    · exact iff_of_true rfl fun h => hwaiters (h rfl).2
    · exact iff_of_false nofun fun h => h fun _ =>
        ⟨Bool.eq_true_of_not_eq_false hone, not_not.mp hwaiters⟩

theorem next_none {act : MessageAct T V} : act.next s = none ↔
    ∃ self woken pNotifier fWaiting, act = .eventInit self woken ∧
      s.sending self = some (.again pNotifier fWaiting) ∧ ¬s.Listed fWaiting := by
  cases act with
  | mutex act =>
    refine iff_of_false nofun ?_
    rintro ⟨self, woken, pNotifier, fWaiting, hact, -⟩
    exact nomatch hact
  | notify self pNotifier fWaiting woken =>
    refine iff_of_false ?_ ?_
    · unfold MessageAct.next Messages.threadMutexNotify
      dsimp only
      by_cases hused : fWaiting = false ∨ s.mutex.waiters ≠ 0
      · rw [if_pos hused]
        by_cases hnone : s.mutex.events.isNone = true
        · rw [if_pos hnone]
          exact nofun
        · rw [if_neg hnone, notifyEvents_none, not_not]
          intro hmissing
          rw [hmissing] at hnone
          exact absurd rfl hnone
      · rw [if_neg hused]
        exact nofun
    · rintro ⟨self, woken, pNotifier, fWaiting, hact, -⟩
      exact nomatch hact
  | eventInit self woken =>
    unfold MessageAct.next Messages.thredMutexEventInit
    dsimp only
    cases hself : s.sending self with
    | none =>
      refine iff_of_false nofun ?_
      rintro ⟨self, woken, pNotifier, fWaiting, hact, hsending, -⟩
      cases hact
      exact nomatch hself.symm.trans hsending
    | some sending =>
      cases sending with
      | init pNotifier fWaiting =>
        refine iff_of_false ?_ ?_
        · dsimp only
          split_ifs
          · rw [notifyEvents_none, not_not]
            exact nofun
          · exact nofun
        · rintro ⟨self, woken, pNotifier, fWaiting, hact, hsending, -⟩
          cases hact
          exact nomatch hself.symm.trans hsending
      | again pNotifier fWaiting =>
        rw [notifyEvents_none]
        constructor
        · intro hlisted
          exact ⟨self, woken, pNotifier, fWaiting, rfl, hself, hlisted⟩
        · rintro ⟨self, woken, pNotifier', fWaiting', hact, hsending, hlisted⟩
          cases hact
          cases hself.symm.trans hsending
          exact hlisted

end Steps

/-- Messages are neither lost nor doubled. Every event that entered the queue has left it, in that
order, or is there; what has left it was taken by one thread, which has returned it or holds it, or
was cleared. The waiters are counted. Nobody sleeps over an event when nobody is on the way. -/
structure Delivers (log : Log T V) (s : Messages T V) : Prop where
  exists_list : ∀ act : MessageAct T V, act.Enabled s → act.Sound s → ∃ s', act.next s = some s'
  missing_list : ∀ act : MessageAct T V, act.next s = none ↔
    ∃ self woken pNotifier fWaiting, act = .eventInit self woken ∧
      s.sending self = some (.again pNotifier fWaiting) ∧ ¬s.Listed fWaiting
  entered : log.entered = log.left.map Prod.fst ++ s.queue
  taken : ∀ t, log.takenBy t = log.returned t ++ (s.state.thread t).holds.toList
  waiters : ∃ waiting : Finset T, (∀ t, t ∈ waiting ↔ s.Sleeps t ∨ s.Woken t) ∧
    s.mutex.waiters = waiting.card
  awake : s.queue ≠ [] → (∃ t, s.Sleeps t) → ∃ t, s.Woken t

theorem messages_kept {log : Log T V} {s : Messages T V}
    (h : Runs (fun s act => act.Sound s) log s) : Delivers log s := by
  obtain ⟨⟨q, hq, halert⟩, hsync, hentered, htaken⟩ := h.inv
  refine ⟨?_, fun act => next_none, hentered, htaken, ?_, ?_⟩
  · intro act henabled hsound
    obtain ⟨s', hnext, -⟩ := h.inv.next henabled hsound
    exact ⟨s', hnext⟩
  · refine ⟨q.asleep ∪ q.woken, fun t => ?_, ?_⟩
    · rw [mem_union, hq.asleep t, hq.woken t]
    · rw [card_union_of_disjoint halert.disjoint]
      exact hq.waiters
  · rintro hqueue ⟨t, ht⟩
    obtain ⟨t', ht'⟩ := halert.woken_nonempty (hq.queue ▸ hqueue) ⟨t, (hq.asleep t).mpr ht⟩
    exact ⟨t', (hq.woken t').mp ht'⟩

theorem rouses_nobody {T V : Type*} {s : Messages T V} (hs : ∀ t, ¬s.Sleeps t) (fWaiting : Bool) :
    s.Rouses fWaiting fun _ => false :=
  ⟨nofun, fun ⟨t, ht⟩ => absurd ht (hs t), fun _ t ht => absurd ht (hs t)⟩

/-- One thread sends 7 and another takes it. -/
theorem messages_kept_seven :
    ∃ log s, log.entered = [some 7] ∧ log.left = [(some 7, .taken false)] ∧
      log.returned false = [some 7] ∧ Delivers (T := Bool) (V := ℕ) log s := by
  have hruns := Runs.created (P := fun (s : Messages Bool ℕ) act => act.Sound s)
  have hsent := hruns.step (show (MessageAct.notify true (some (some 7)) false _).Enabled _ from
    ⟨rfl, rfl, rouses_nobody nofun false⟩) nofun rfl
  have hmade := hsent.step (show (MessageAct.eventInit true _).Enabled _ from
    ⟨_, rfl, rouses_nobody nofun false⟩) nofun rfl
  have htaken := hmade.step (show (MessageAct.mutex (.subscribe false () false (fun _ => false)
    false)).Enabled _ from ⟨⟨false, rfl, rfl⟩, rfl, nofun, nofun⟩) trivial rfl
  exact ⟨_, _, rfl, rfl, rfl, messages_kept htaken⟩

/-- Two threads make a list, and a third one removes it before the second has taken notice. -/
theorem list_lost :
    ¬∀ (log : Log (Fin 3) ℕ) (s : Messages (Fin 3) ℕ), Runs (fun _ _ => True) log s →
      ∀ act : MessageAct (Fin 3) ℕ, act.Enabled s → act.next s ≠ none := by
  intro h
  have hruns := Runs.created (T := Fin 3) (V := ℕ) (P := fun _ _ => True)
  have hfirst := hruns.step (show (MessageAct.notify 0 (some (some 7)) false _).Enabled _ from
    ⟨rfl, rfl, rouses_nobody nofun false⟩) trivial rfl
  have hsecond := hfirst.step (show (MessageAct.notify 1 (some (some 8)) false _).Enabled _ from
    ⟨rfl, rfl, rouses_nobody nofun false⟩) trivial rfl
  have hmade := hsecond.step (show (MessageAct.eventInit 0 _).Enabled _ from
    ⟨_, rfl, rouses_nobody nofun false⟩) trivial rfl
  have hagain := hmade.step (show (MessageAct.eventInit 1 _).Enabled _ from
    ⟨_, rfl, rouses_nobody nofun false⟩) trivial rfl
  have hcleared := hagain.step (show (MessageAct.mutex (.subscribe 2 () true (fun _ => false)
    false)).Enabled _ from ⟨⟨2, rfl, rfl⟩, rfl, nofun, nofun⟩) trivial rfl
  refine h _ _ hcleared (.eventInit 1 fun _ => false)
    ⟨_, rfl, rouses_nobody (fun t ht => ?_) false⟩ rfl
  match t with
  | 0 => exact nomatch ht
  | 1 => exact nomatch ht
  | 2 => exact nomatch ht

end Harbour.Vm.Mutex
