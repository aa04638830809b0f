import Harbour.Vm.MutexMessages

/-!
The log of the messages sent to a mutex, and what a subscriber does to it.
-/

namespace Harbour.Vm.Mutex

open Library.WaitQueue List Option Function Finset

variable {T V : Type*}

/-- An event leaves the queue when a subscriber takes it, or when one clears the queue. -/
inductive Fate (T : Type*) where
  | taken (subscriber : T)
  | cleared
  deriving DecidableEq

/-- The events that entered the queue and left it, in order, and what each thread was returned. -/
structure Log (T V : Type*) where
  entered : List (Option V)
  left : List (Option V × Fate T)
  returned : T → List (Option V)

namespace Log

variable (log : Log T V)

def enters (events : List (Option V)) : Log T V := { log with entered := log.entered ++ events }

def clears (fClear : Bool) (queue : List (Option V)) : Log T V :=
  if fClear then { log with left := log.left ++ queue.map fun event => (event, .cleared) } else log

variable [DecidableEq T] (self : T)

def takes (got : Option (Option V)) : Log T V :=
  { log with left := log.left ++ got.toList.map fun event => (event, .taken self) }

def returns (got : Option (Option V)) : Log T V :=
  { log with returned := update log.returned self (log.returned self ++ got.toList) }

def takenBy : List (Option V) :=
  (log.left.filter fun entry => entry.2 = .taken self).map Prod.fst

end Log

/-- What a call sends: one event, or one for each waiter for whom there is none in the queue. -/
def Messages.sent (s : Messages T V) (pNotifier : Option (Option V)) (fWaiting : Bool) :
    List (Option V) :=
  if fWaiting then replicate (s.mutex.waiters - s.queue.length) pNotifier.join
  else [pNotifier.join]

def Sending.pNotifier : Sending V → Option (Option V)
  | .init pNotifier _ => pNotifier
  | .again pNotifier _ => pNotifier

section Runs

variable [DecidableEq T]

def Log.subscribes (log : Log T V) (s s' : Messages T V) (self : T) (fClear : Bool) : Log T V :=
  ((log.clears fClear s.queue).takes self (s'.state.thread self).got).returns self
    (s'.state.thread self).returned

/-- A notifier has left the critical section, for good or in order to make a list. -/
def Log.notifies (log : Log T V) (s s' : Messages T V) (self : T) (pNotifier : Option (Option V))
    (fWaiting : Bool) : Log T V :=
  if (s'.sending self).isSome then log else log.enters (s.sent pNotifier fWaiting)

/-- Whether a thread is on its way to the queue. -/
def Place.takes {M E : Type*} : Place M E → Bool
  | .cleared _ _ => true
  | .subscribe _ _ _ _ => true
  | _ => false

def Log.resumes (log : Log T V) (s s' : Messages T V) (self : T) : Log T V :=
  if (s.state.thread self).takes then log.subscribes s s' self false
  else log.returns self (s'.state.thread self).returned

def MessageAct.log (log : Log T V) (s s' : Messages T V) : MessageAct T V → Log T V
  | .notify self pNotifier fWaiting _ => log.notifies s s' self pNotifier fWaiting
  | .eventInit self _ =>
    match s.sending self with
    | some sending => log.notifies s s' self sending.pNotifier sending.fWaiting
    | none => log
  | .mutex (.subscribe self _ fClear _ _) => log.subscribes s s' self fClear
  | .mutex (.timedSubscribe self _ _ fClear _ _) => log.subscribes s s' self fClear
  | .mutex (.resume self _ _ _) => log.resumes s s' self
  | .mutex _ => log

inductive Runs (P : Messages T V → MessageAct T V → Prop) : Log T V → Messages T V → Prop
  | created : Runs P ⟨[], [], fun _ => []⟩ (.created T V)
  | step {log : Log T V} {s s' : Messages T V} {act : MessageAct T V} : Runs P log s →
      act.Enabled s → P s act → act.next s = some s' → Runs P (act.log log s s') s'

end Runs

/-- The mutex as a queue on which threads sleep. -/
structure Represents (s : Messages T V) (q : Waiting T (Option V)) : Prop where
  queue : s.queue = q.queue
  asleep : ∀ t, t ∈ q.asleep ↔ s.Sleeps t
  woken : ∀ t, t ∈ q.woken ↔ s.Woken t
  waiters : s.mutex.waiters = q.waiters

variable [DecidableEq T]

structure Inv (log : Log T V) (s : Messages T V) : Prop where
  waiting : ∃ q, Represents s q ∧ Alert q
  sync : ∀ t, (s.state.thread t).waits ≠ .sync
  entered : log.entered = log.left.map Prod.fst ++ s.queue
  taken : ∀ t, log.takenBy t = log.returned t ++ (s.state.thread t).holds.toList

section Steps

variable {log : Log T V} {s s' : Messages T V} {q : Waiting T (Option V)} {self t : T}
  {σ : State T Unit (Option V)} {got : Option (Option V)} {waiters : Nat} {woken : T → Bool}
  {pNotifier : Option (Option V)} {fWaiting fClear : Bool} {events : List (Option V)}

theorem got_toList (place : Place Unit (Option V)) :
    place.got.toList = place.returned.toList ++ place.holds.toList := by
  unfold Place.got
  cases place with
  | ready result | restore m lockCount held result woken =>
    cases result with
    | bool fResult => rfl
    | item pResult => simp [Place.holds, Place.returned]
  | _ => rfl

theorem takenBy_takes : (log.takes self got).takenBy self = log.takenBy self ++ got.toList := by
  unfold Log.takenBy Log.takes
  cases got with
  | none => simp
  | some event => simp

theorem takenBy_takes_ne (ht : t ≠ self) : (log.takes self got).takenBy t = log.takenBy t := by
  unfold Log.takenBy Log.takes
  cases got with
  | none => simp
  | some event => simp [Ne.symm ht]

theorem takenBy_clears : (log.clears fClear events).takenBy t = log.takenBy t := by
  unfold Log.takenBy Log.clears
  split_ifs
  · simp
  · rfl

theorem returns_self : (log.returns self got).returned self = log.returned self ++ got.toList :=
  update_self ..

theorem returns_ne (ht : t ≠ self) : (log.returns self got).returned t = log.returned t :=
  update_of_ne ht ..

theorem returns_none : log.returns self none = log := by
  unfold Log.returns
  rw [toList_none, append_nil, update_eq_self]

omit [DecidableEq T] in
theorem takes_none : log.takes self none = log := by
  unfold Log.takes
  rw [toList_none, map_nil, append_nil]

theorem created_inv : Inv ⟨[], [], fun _ => []⟩ (.created T V) := by
  refine ⟨⟨⟨[], ∅, ∅⟩, ⟨rfl, ?_, ?_, rfl⟩, alert_empty⟩, nofun, rfl, fun t => rfl⟩
  · exact fun t => iff_of_false (notMem_empty t) nofun
  · exact fun t => iff_of_false (notMem_empty t) nofun

/-- Those that wait for events besides a thread that goes on. -/
def Others (s : Messages T V) (self : T) (waiters : Nat) : Prop :=
  (s.state.thread self).waits = .woken ∧ waiters = s.mutex.waiters - 1 ∨
    (s.state.thread self).waits = .away ∧ waiters = s.mutex.waiters

omit [DecidableEq T] in
theorem Others.not_sleeps (h : Others s self waiters) : ¬s.Sleeps self := by
  unfold Messages.Sleeps
  rcases h with ⟨hself, -⟩ | ⟨hself, -⟩
  · rw [hself]
    exact nofun
  · rw [hself]
    exact nofun

section Represents

variable (hq : Represents s q) (hothers : Others s self waiters)

include hq hothers

omit [DecidableEq T] in
theorem Represents.not_mem : self ∉ q.asleep :=
  fun hmem => hothers.not_sleeps ((hq.asleep self).mp hmem)

theorem Represents.waiters_park : (q.park self).waiters = waiters + 1 := by
  have hasleep := hq.not_mem hothers
  rcases hothers with ⟨hself, hwaiters⟩ | ⟨hself, hwaiters⟩
  · have hmem := (hq.woken self).mpr hself
    have hpos := card_pos.mpr ⟨self, hmem⟩
    rw [waiters_park_woken hasleep hmem, hwaiters, hq.waiters]
    unfold Waiting.waiters
    omega
  · have hmem : self ∉ q.woken := by
      rw [hq.woken self, Messages.Woken, hself]
      exact nofun
    rw [waiters_park_away hasleep hmem, hwaiters, hq.waiters]

theorem Represents.waiters_leave : (q.leave self).waiters = waiters := by
  rcases hothers with ⟨hself, hwaiters⟩ | ⟨hself, hwaiters⟩
  · rw [waiters_leave_woken ((hq.woken self).mpr hself), hwaiters, hq.waiters]
  · have hmem : self ∉ q.woken := by
      rw [hq.woken self, Messages.Woken, hself]
      exact nofun
    rw [waiters_leave_away hmem, hwaiters, hq.waiters]

omit hothers in
theorem Represents.woken_turn {part : Waits} {events : Option (List (Option V))} {n : Nat}
    (hturn : Turn s.state σ self part events n got) (hpart : part ≠ .woken) (t : T) :
    t ∈ q.woken.erase self ↔ (σ.thread t).waits = .woken := by
  rw [mem_erase]
  by_cases ht : t = self
  · subst ht
    rw [hturn.part]
    exact iff_of_false (fun h => h.1 rfl) hpart
  · rw [(hturn.others t ht).1, hq.woken t]
    exact and_iff_right ht

theorem Represents.park (hturn : Turn s.state σ self .asleep s.mutex.events (waiters + 1) none) :
    Represents { s with state := σ } (q.park self) := by
  refine ⟨?_, fun t => ?_, fun t => ?_, ?_⟩
  · change (σ.mutex ()).events.getD [] = q.queue
    rw [hturn.events]
    exact hq.queue
  · change t ∈ insert self q.asleep ↔ (σ.thread t).waits = .asleep
    rw [mem_insert]
    by_cases ht : t = self
    · subst ht
      exact iff_of_true (.inl rfl) hturn.part
    · rw [(hturn.others t ht).1, hq.asleep t]
      exact or_iff_right ht
  · exact hq.woken_turn hturn nofun t
  · rw [hq.waiters_park hothers]
    exact hturn.waiters

theorem Represents.leave
    (hturn : Turn s.state σ self .away (s.mutex.events.map tail) waiters got) :
    Represents { s with state := σ } (q.leave self) := by
  have hasleep := hq.not_mem hothers
  refine ⟨?_, fun t => ?_, fun t => ?_, ?_⟩
  · change (σ.mutex ()).events.getD [] = q.queue.tail
    rw [hturn.events, ← hq.queue]
    unfold Messages.queue
    cases s.mutex.events with
    | none => rfl
    | some events => rfl
  · change t ∈ q.asleep ↔ (σ.thread t).waits = .asleep
    by_cases ht : t = self
    · subst ht
      rw [hturn.part]
      exact iff_of_false hasleep nofun
    · rw [(hturn.others t ht).1, hq.asleep t]
      rfl
  · exact hq.woken_turn hturn nofun t
  · rw [hq.waiters_leave hothers]
    exact hturn.waiters

end Represents

theorem sync_turn {part : Waits} {events : Option (List (Option V))}
    (hsync : ∀ t, (s.state.thread t).waits ≠ .sync)
    (hturn : Turn s.state σ self part events waiters got) (hpart : part ≠ .sync) (t : T) :
    (σ.thread t).waits ≠ .sync := by
  by_cases ht : t = self
  · subst ht
    rw [hturn.part]
    exact hpart
  · rw [(hturn.others t ht).1]
    exact hsync t

theorem taken_turn {part : Waits} {events : Option (List (Option V))}
    (htaken : ∀ t, log.takenBy t = log.returned t ++ (s.state.thread t).holds.toList)
    (hholds : (s.state.thread self).holds = none)
    (hturn : Turn s.state σ self part events waiters got) (t : T) :
    ((log.takes self (σ.thread self).got).returns self (σ.thread self).returned).takenBy t =
      ((log.takes self (σ.thread self).got).returns self (σ.thread self).returned).returned t ++
        (σ.thread t).holds.toList := by
  change (log.takes self (σ.thread self).got).takenBy t = _
  by_cases ht : t = self
  · subst ht
    rw [takenBy_takes, returns_self, htaken, hholds, toList_none, append_nil,
      got_toList, append_assoc]
    rfl
  · rw [takenBy_takes_ne ht, returns_ne ht, (hturn.others t ht).2]
    exact htaken t

theorem Inv.turns (h : Inv log s) (hothers : Others s self waiters)
    (hholds : (s.state.thread self).holds = none) (hturns : Turns s.state σ self waiters) :
    Inv ((log.takes self (σ.thread self).got).returns self (σ.thread self).returned)
      { s with state := σ } := by
  obtain ⟨⟨q, hq, halert⟩, hsync, hentered, htaken⟩ := h
  cases hturns with
  | park hnone hturn =>
    have hqueue : s.queue = [] := by
      unfold HbMutex.noEvents at hnone
      unfold Messages.queue Messages.mutex
      split at hnone
      · exact nomatch hnone
      · rename_i hne
        cases hevents : (s.state.mutex ()).events with
        | none => rfl
        | some events =>
          cases events with
          | nil => rfl
          | cons event events => exact absurd hevents (hne event events)
    refine ⟨⟨_, hq.park hothers hturn, halert.park (hq.queue ▸ hqueue)⟩,
      sync_turn hsync hturn nofun, ?_, taken_turn htaken hholds hturn⟩
    change log.entered = (log.takes self (σ.thread self).got).left.map Prod.fst ++
      (σ.mutex ()).events.getD []
    rw [hturn.got, takes_none, hturn.events]
    exact hentered
  | leave hturn =>
    refine ⟨⟨_, hq.leave hothers hturn, halert.leave⟩, sync_turn hsync hturn nofun, ?_,
      taken_turn htaken hholds hturn⟩
    change log.entered = (log.left ++ (σ.thread self).got.toList.map _).map Prod.fst ++
      (σ.mutex ()).events.getD []
    rw [hturn.got, hturn.events, hentered]
    unfold Messages.queue Messages.mutex
    cases (s.state.mutex ()).events with
    | none => simp
    | some events =>
      cases events with
      | nil => simp
      | cons event events => simp

omit [DecidableEq T] in
theorem Represents.same (hq : Represents s q) (hqueue : s'.queue = events)
    (hwaits : ∀ t, (s'.state.thread t).waits = (s.state.thread t).waits)
    (hwaiters : s'.mutex.waiters = s.mutex.waiters) : Represents s' { q with queue := events } := by
  refine ⟨hqueue, fun t => ?_, fun t => ?_, hwaiters.trans hq.waiters⟩
  · change _ ↔ (s'.state.thread t).waits = _
    rw [hwaits]
    exact hq.asleep t
  · change _ ↔ (s'.state.thread t).waits = _
    rw [hwaits]
    exact hq.woken t

theorem waits_turn {events : Option (List (Option V))} (haway : (s.state.thread self).waits = .away)
    (hturn : Turn s.state σ self .away events waiters got) (t : T) :
    (σ.thread t).waits = (s.state.thread t).waits := by
  by_cases ht : t = self
  · subst ht
    rw [hturn.part, haway]
  · exact (hturn.others t ht).1

section

variable (h : Inv log s) (haway : (s.state.thread self).waits = .away)

include h haway

theorem Inv.idle (hholds : (s.state.thread self).holds = got) (hidle : Idle s.state σ self got) :
    Inv (log.returns self (σ.thread self).returned) { s with state := σ } := by
  obtain ⟨⟨q, hq, halert⟩, hsync, hentered, htaken⟩ := h
  have hqueue : (σ.mutex ()).events.getD [] = s.queue := by
    rw [hidle.events]
    rfl
  refine ⟨⟨q, hq.same (hqueue.trans hq.queue) (waits_turn haway hidle) hidle.waiters, halert⟩,
    sync_turn hsync hidle nofun, ?_, fun t => ?_⟩
  · exact hentered.trans (congrArg _ hqueue.symm)
  · change log.takenBy t = _
    by_cases ht : t = self
    · subst ht
      rw [returns_self, htaken, hholds, ← hidle.got, got_toList, append_assoc]
    · rw [returns_ne ht, htaken]
      rw [(hidle.others t ht).2]

theorem Inv.cleared (hholds : (s.state.thread self).holds = none)
    (hturn : Turn s.state σ self .away none s.mutex.waiters none) :
    Inv (log.clears true s.queue) { s with state := σ } := by
  obtain ⟨⟨q, hq, halert⟩, hsync, hentered, htaken⟩ := h
  have hqueue : (σ.mutex ()).events.getD [] = [] := by
    rw [hturn.events]
    rfl
  refine ⟨⟨_, hq.same hqueue (waits_turn haway hturn) hturn.waiters, halert.clear⟩,
    sync_turn hsync hturn nofun, ?_, fun t => ?_⟩
  · change log.entered = (log.left ++ s.queue.map _).map Prod.fst ++ (σ.mutex ()).events.getD []
    rw [hqueue, hentered, List.append_nil, List.map_append, List.map_map]
    congr 1
    exact (map_id _).symm
  · rw [takenBy_clears, htaken]
    change _ = log.returned t ++ (σ.thread t).holds.toList
    by_cases ht : t = self
    · subst ht
      have hgot : (σ.thread t).got.toList = [] := congrArg Option.toList hturn.got
      rw [got_toList] at hgot
      rw [hholds, (append_eq_nil_iff.mp hgot).2]
      rfl
    · rw [(hturn.others t ht).2]

end

omit [DecidableEq T] in
theorem waits_wake {place : Place Unit (Option V)} (h : place.waits = .asleep) :
    place.wake.waits = .woken := by
  cases place with
  | subscribe m timed lockCount woken => rfl
  | _ => exact nomatch h

omit [DecidableEq T] in
theorem holds_wake (place : Place Unit (Option V)) : place.wake.holds = place.holds := by
  cases place with
  | restore m lockCount held result woken => cases result <;> rfl
  | _ => rfl

theorem Represents.condSignal (hq : Represents s q) (hdisjoint : Disjoint q.asleep q.woken)
    (hwoken : ∀ t, woken t = true → s.Sleeps t) :
    Represents (s.condSignal woken) (q.rouse (q.asleep.filter fun t => woken t = true)) := by
  have hsubset := filter_subset (fun t => woken t = true) q.asleep
  refine ⟨hq.queue, fun t => ?_, fun t => ?_, ?_⟩
  · change t ∈ q.asleep \ _ ↔ Place.waits (if woken t then _ else _) = .asleep
    rw [Finset.mem_sdiff, Finset.mem_filter, hq.asleep t]
    split_ifs with ht
    · rw [waits_wake (hwoken t ht)]
      exact iff_of_false (fun h => h.2 ⟨h.1, ht⟩) nofun
    · exact and_iff_left fun h => ht h.2
  · change t ∈ q.woken ∪ _ ↔ Place.waits (if woken t then _ else _) = .woken
    rw [Finset.mem_union, Finset.mem_filter, hq.asleep t, hq.woken t]
    split_ifs with ht
    · rw [waits_wake (hwoken t ht)]
      exact iff_of_true (.inr ⟨hwoken t ht, ht⟩) rfl
    · exact or_iff_left fun h => ht h.2
  · exact hq.waiters.trans (waiters_rouse hdisjoint hsubset).symm

omit [DecidableEq T] in
theorem Represents.signal (hq : Represents s q) (hrouses : s.Rouses fWaiting woken) :
    q.Signal (q.asleep.filter fun t => woken t = true) := by
  refine ⟨filter_subset _ _, ?_⟩
  rintro ⟨t, ht⟩
  obtain ⟨t', ht'⟩ := hrouses.one ⟨t, (hq.asleep t).mp ht⟩
  exact ⟨t', mem_filter.mpr ⟨(hq.asleep t').mpr (hrouses.sleeps t' ht'), ht'⟩⟩

end Steps

end Harbour.Vm.Mutex
