import Harbour.Vm.MutexTouches

/-!
Threads that wait for a signal of a mutex, and others that give it.
-/

namespace Harbour.Vm.Mutex

open Function

variable {T M E : Type*}

/-- The mutex whose signal a thread waits for. -/
def Place.syncOf : Place M E → Option M
  | .syncWait m _ _ _ => some m
  | _ => none

/-- What a wait for a signal has returned, or will return when the own lock is restored. -/
def Place.answer : Place M E → Option Bool
  | .ready (.bool fResult) => some fResult
  | .syncRestore _ _ fResult => some fResult
  | _ => none

/-- The mutex on whose `cond_w` a thread waits. -/
def Place.condW : Place M E → Option M
  | .subscribe m _ _ _ => some m
  | .syncWait m _ _ _ => some m
  | _ => none

/-- `signalled` says who has been signalled while it waited, since it began to wait. -/
structure Signals (T M E : Type*) where
  state : State T M E
  signalled : T → Bool

/-- The waiters for whom there is no signal yet. -/
def HbMutex.unsignalled (pMutex : HbMutex T E) : Int := pMutex.waiters - pMutex.syncsignals

/-- Any threads are woken when `woken` holds of them. -/
def State.threadMutexSyncSignal (s : State T M E) (m : M) (woken : T → Bool) : State T M E :=
  if (s.mutex m).waiters ≠ 0 then
    if (s.mutex m).unsignalled > 0 then
      { s with thread := fun t => if woken t then (s.thread t).wake else s.thread t }
    else s
  else s

/-- `pthread_cond_signal` wakes at least one of those who sleep on `cond_w`,
`pthread_cond_broadcast` all of them. -/
structure Alerts (s : State T M E) (m : M) (woken : T → Bool) : Prop where
  sleeps : ∀ t, woken t = true → (s.thread t).condW = some m ∧ (s.thread t).asleep = true
  one : (∃ t, (s.thread t).condW = some m ∧ (s.thread t).asleep = true) → ∃ t, woken t = true
  all : (s.mutex m).unsignalled ≠ 1 →
    ∀ t, (s.thread t).condW = some m → (s.thread t).asleep = true → woken t = true

inductive SignalAct (T M E : Type*) where
  | mutex (act : Act T M E)
  | syncSignal (self : T) (m : M) (woken : T → Bool)

variable [DecidableEq T] [DecidableEq M]

def SignalAct.Enabled (s : Signals T M E) : SignalAct T M E → Prop
  | .mutex act => Mutex.Enabled s.state act ∧
      ∀ m events syncsignals, act = .others m events syncsignals →
        syncsignals = (s.state.mutex m).syncsignals
  | .syncSignal self m woken => (s.state.thread self).isReady ∧ Alerts s.state m woken

def SignalAct.begins : SignalAct T M E → Option T
  | .mutex (.syncWait self _ _ _ _) => some self
  | _ => none

def SignalAct.next (s : Signals T M E) : SignalAct T M E → Signals T M E
  | .mutex act =>
    { state := Mutex.next s.state act
      signalled := fun t =>
        if (SignalAct.mutex act).begins = some t then false else s.signalled t }
  | .syncSignal _ m woken =>
    { state := s.state.threadMutexSyncSignal m woken
      signalled := fun t => s.signalled t || ((s.state.thread t).syncOf = some m) }

/-- A wait that ends returns whether the thread has been signalled. -/
def SignalAct.Right (s : Signals T M E) (act : SignalAct T M E) : Prop :=
  ∀ t, (act.begins = some t ∨ (s.state.thread t).syncOf ≠ none) →
    ∀ fResult, ((act.next s).state.thread t).answer = some fResult →
      fResult = (act.next s).signalled t

def SignalAct.Alone (s : Signals T M E) (act : SignalAct T M E) : Prop :=
  ∀ self m woken, act = .syncSignal self m woken → ∀ t, (s.state.thread t).syncOf ≠ some m

/-- Those who have been signalled do not sleep, and whoever ends a wait returns whether it has been
signalled. -/
structure Delivered (s : Signals T M E) : Prop where
  awake : ∀ t, s.signalled t = true → (s.state.thread t).syncOf ≠ none →
    (s.state.thread t).asleep = false
  right : ∀ act : SignalAct T M E, act.Enabled s → act.Right s

/-- The states that are reached by steps of a kind. -/
inductive Continues (P : Signals T M E → SignalAct T M E → Prop) (s : Signals T M E) :
    Signals T M E → Prop
  | refl : Continues P s s
  | step {s' : Signals T M E} {act : SignalAct T M E} :
      Continues P s s' → act.Enabled s' → P s' act → Continues P s (act.next s')

def Signals.Created (s : Signals T M E) : Prop :=
  (mutexes T M E).init s.state ∧ ∀ t, s.signalled t = false

section Unsignalled

/-- What one thread does gives no signal, and leaves the waits of others as they are. -/
structure Tame (caller : T) (s s' : State T M E) : Prop where
  quiet : Unsignalled s → Unsignalled s'
  others : ∀ t, t ≠ caller → (s'.thread t).syncOf = (s.thread t).syncOf

variable {s s' s'' : State T M E} {self : T} {m : M} {place : Place M E} {pMutex : HbMutex T E}
  {woken : T → Bool} {lockCount ulMilliSec : Nat} {fRequest expired : Bool} {result : Result E}
  {given : Option (M × Nat)}

omit [DecidableEq T] [DecidableEq M] in
theorem Tame.refl (s : State T M E) : Tame self s s := ⟨id, fun _ _ => rfl⟩

omit [DecidableEq T] [DecidableEq M] in
theorem Tame.trans (h : Tame self s s') (h' : Tame self s' s'') : Tame self s s'' :=
  ⟨h'.quiet ∘ h.quiet, fun t ht => (h'.others t ht).trans (h.others t ht)⟩

omit [DecidableEq T] [DecidableEq M] in
theorem wake_syncOf (place : Place M E) : place.wake.syncOf = place.syncOf := by
  cases place <;> rfl

omit [DecidableEq T] in
theorem unsignalled_setMutex (hquiet : Unsignalled s)
    (hnone : pMutex.syncsignals = (s.mutex m).syncsignals) :
    Unsignalled (s.setMutex m pMutex) := by
  intro m'
  unfold State.setMutex
  by_cases hm : m' = m
  · subst hm
    dsimp only
    rw [update_self]
    exact hnone.trans (hquiet m')
  · dsimp only
    rw [update_of_ne hm]
    exact hquiet m'

omit [DecidableEq M] in
theorem tame_setPlace : Tame self s (s.setPlace self place) where
  quiet := id
  others t ht := by
    unfold State.setPlace
    dsimp only
    rw [update_of_ne ht]

theorem tame_setDepth {depth : Nat} : Tame self s (s.setDepth self m depth) :=
  ⟨id, fun _ _ => rfl⟩

omit [DecidableEq T] [DecidableEq M] in
theorem tame_condSignal : Tame self s (s.condSignal m woken) where
  quiet hquiet m' := by
    unfold State.condSignal
    split_ifs
    · exact hquiet m'
    · exact hquiet m'
  others t _ := by
    unfold State.condSignal
    split_ifs
    · rfl
    · dsimp only
      split_ifs
      · exact wake_syncOf (s.thread t)
      · rfl

theorem Touches.tame {locks : Bool} (h : Touches self locks s s') : Tame self s s' := by
  induction h with
  | refl => exact .refl _
  | trans _ _ ih ih' => exact ih.trans ih'
  | setMutex hsame =>
    exact ⟨fun hquiet => unsignalled_setMutex hquiet (hsame hquiet), fun _ _ => rfl⟩
  | setPlace => exact tame_setPlace
  | setDepth => exact tame_setDepth
  | condSignal => exact tame_condSignal

def Act.actor : Act T M E → Option T
  | .lock self _ => some self
  | .timedLock self _ _ => some self
  | .unlock self _ _ => some self
  | .subscribe self _ _ _ _ => some self
  | .timedSubscribe self _ _ _ _ _ => some self
  | .syncWait self _ _ _ _ => some self
  | .wake self => some self
  | .resume self _ _ _ => some self
  | .others _ _ _ => none

theorem tame_next {act : Act T M E} (h : act.actor = some self) : Tame self s (next s act) := by
  cases act with
  | lock self m =>
    cases h
    exact (touches_lock rfl).tame
  | timedLock self m ulMilliSec =>
    cases h
    exact (touches_timedLock rfl).tame
  | unlock self m woken =>
    cases h
    exact (touches_unlock rfl).tame
  | subscribe self m fClear woken fRequest =>
    cases h
    exact (touches_subscribe : Touches self false s _).tame
  | timedSubscribe self m ulMilliSec fClear woken fRequest =>
    cases h
    exact (touches_timedSubscribe : Touches self false s _).tame
  | syncWait self m ulMilliSec pSyncMutex woken =>
    cases h
    exact (touches_syncWait : Touches self false s _).tame
  | wake self =>
    cases h
    exact tame_setPlace
  | resume self expired fRequest woken =>
    cases h
    exact (touches_resume id).tame
  | others m events syncsignals => exact nomatch h

theorem asleep_next {act : Act T M E} (hquiet : Unsignalled s)
    (hothers : ∀ m events syncsignals, act = .others m events syncsignals →
      syncsignals = (s.mutex m).syncsignals) : Unsignalled (next s act) := by
  cases hactor : act.actor with
  | some self => exact (tame_next hactor).quiet hquiet
  | none =>
    cases act with
    | others m events syncsignals =>
      exact unsignalled_setMutex hquiet (hothers m events syncsignals rfl)
    | _ => exact nomatch hactor

end Unsignalled

section Answers

variable {s : State T M E} {self : T} {m : M} {woken : T → Bool} {ulMilliSec : Nat}
  {fRequest expired : Bool} {given : Option (M × Nat)}

section

variable (hquiet : Unsignalled s)

include hquiet

theorem syncWaitEnd_answer : ((s.syncWaitEnd self m given).thread self).answer = some false := by
  unfold State.syncWaitEnd State.setPlace
  dsimp only
  rw [update_self, hquiet m]
  cases given with
  | none => rfl
  | some given =>
    dsimp only
    split_ifs
    · rfl
    · rfl

theorem syncWaitLoop_place :
    (s.syncWaitLoop self m given).thread self = .syncWait m false given false := by
  unfold State.syncWaitLoop State.setPlace
  rw [if_pos (hquiet m)]
  exact update_self ..

theorem syncWaitWoken_place :
    (s.syncWaitWoken self m given).thread self = .syncWait m false given false :=
  syncWaitLoop_place (unsignalled_setMutex hquiet rfl)

theorem timedSyncWaitEnd_answer :
    ((s.timedSyncWaitEnd self m given).thread self).answer = some false :=
  syncWaitEnd_answer (unsignalled_setMutex hquiet rfl)

theorem timedSyncWaitLoop_place :
    (s.timedSyncWaitLoop self m given).thread self = .syncWait m true given false := by
  unfold State.timedSyncWaitLoop State.setPlace
  rw [if_pos (hquiet m)]
  exact update_self ..

theorem syncWaitStart_answer :
    ((s.syncWaitStart self m ulMilliSec given).thread self).answer = none := by
  unfold State.syncWaitStart
  split_ifs
  · rw [syncWaitLoop_place hquiet]
    rfl
  · refine (congrArg Place.answer (timedSyncWaitLoop_place ?_)).trans rfl
    exact unsignalled_setMutex hquiet rfl

theorem syncWait_answer {pSyncMutex : Option M} {fResult : Bool}
    (h : ((s.threadMutexSyncWait self m ulMilliSec pSyncMutex woken).thread self).answer =
      some fResult) :
    fResult = false := by
  unfold State.threadMutexSyncWait at h
  split_ifs at h
  · cases pSyncMutex with
    | none => exact absurd ((syncWaitStart_answer hquiet).symm.trans h) nofun
    | some sync =>
      dsimp only at h
      split_ifs at h
      · refine absurd ((syncWaitStart_answer ?_).symm.trans h) nofun
        exact (touches_giveUp rfl : Touches self false s _).tame.quiet hquiet
      · exact absurd ((syncWaitStart_answer hquiet).symm.trans h) nofun
  · exact Option.some.inj (h.symm.trans (syncWaitEnd_answer hquiet))

theorem resume_answer (hwaits : (s.thread self).syncOf ≠ none) {fResult : Bool}
    (h : ((s.resume self expired fRequest woken).thread self).answer = some fResult) :
    fResult = false := by
  unfold State.resume at h
  cases hplace : s.thread self with
  | syncWait m timed given woken =>
    rw [hplace] at h
    cases timed with
    | false =>
      rw [syncWaitWoken_place hquiet] at h
      cases h
    | true =>
      split_ifs at h
      · exact Option.some.inj (h.symm.trans (timedSyncWaitEnd_answer hquiet))
      · rw [timedSyncWaitLoop_place hquiet] at h
        cases h
  | _ =>
    rw [hplace] at hwaits
    exact absurd rfl hwaits

end

end Answers

section Runs

variable {s s' : Signals T M E} {act : SignalAct T M E} {P : Signals T M E → SignalAct T M E → Prop}

omit [DecidableEq T] [DecidableEq M] in
theorem quiet_syncSignal {s : State T M E} {m : M} {woken : T → Bool} (hquiet : Unsignalled s) :
    Unsignalled (s.threadMutexSyncSignal m woken) := by
  unfold State.threadMutexSyncSignal
  split_ifs
  · exact hquiet
  · exact hquiet
  · exact hquiet

omit [DecidableEq T] [DecidableEq M] in
theorem syncSignal_place (s : State T M E) (m : M) (woken : T → Bool) (t : T) :
    (s.threadMutexSyncSignal m woken).thread t = s.thread t ∨
      (s.threadMutexSyncSignal m woken).thread t = (s.thread t).wake := by
  unfold State.threadMutexSyncSignal
  split_ifs
  · dsimp only
    split_ifs
    · exact .inr rfl
    · exact .inl rfl
  · exact .inl rfl
  · exact .inl rfl

omit [DecidableEq T] [DecidableEq M] in
theorem syncSignal_syncOf (s : State T M E) (m : M) (woken : T → Bool) (t : T) :
    ((s.threadMutexSyncSignal m woken).thread t).syncOf = (s.thread t).syncOf := by
  rcases syncSignal_place s m woken t with h | h
  · rw [h]
  · rw [h, wake_syncOf]

theorem SignalAct.quiet (henabled : act.Enabled s) (hquiet : Unsignalled s.state) :
    Unsignalled (act.next s).state := by
  cases act with
  | mutex act => exact asleep_next hquiet henabled.2
  | syncSignal self m woken => exact quiet_syncSignal hquiet

theorem Continues.quiet (h : Continues P s s') (hquiet : Unsignalled s.state) :
    Unsignalled s'.state := by
  induction h with
  | refl => exact hquiet
  | step _ henabled _ ih => exact SignalAct.quiet henabled ih

theorem Signals.Created.quiet (h : s.Created) : Unsignalled s.state := by
  intro m
  rw [h.1.1 m]
  rfl

omit [DecidableEq T] [DecidableEq M] in
theorem answer_of_waits {place : Place M E} (h : place.syncOf ≠ none) : place.answer = none := by
  cases place with
  | syncWait m timed given woken => rfl
  | _ => exact absurd rfl h

theorem next_waits {s : State T M E} {act : Act T M E} {t : T} (hwaits : (s.thread t).syncOf ≠ none)
    (hresume : ∀ expired fRequest woken, act ≠ .resume t expired fRequest woken)
    (henabled : Enabled s act) : ((next s act).thread t).syncOf ≠ none := by
  have hready : (s.thread t).isReady ≠ true := by
    intro hself
    cases hplace : s.thread t with
    | ready result =>
      rw [hplace] at hwaits
      exact hwaits rfl
    | _ =>
      rw [hplace] at hself
      exact nomatch hself
  by_cases hactor : act.actor = some t
  · cases act with
    | lock self m | timedLock self m ulMilliSec =>
      cases hactor
      exact absurd henabled hready
    | unlock self m woken | subscribe self m fClear woken fRequest
    | timedSubscribe self m ulMilliSec fClear woken fRequest
    | syncWait self m ulMilliSec pSyncMutex woken =>
      cases hactor
      exact absurd henabled.1 hready
    | wake self =>
      cases hactor
      unfold next State.setPlace
      dsimp only
      rwa [update_self, wake_syncOf]
    | resume self expired fRequest woken =>
      cases hactor
      exact absurd rfl (hresume expired fRequest woken)
    | others m events syncsignals => exact nomatch hactor
  · cases hsome : act.actor with
    | some self =>
      have ht : t ≠ self := by
        rintro rfl
        exact hactor hsome
      rwa [(tame_next hsome).others t ht]
    | none =>
      cases act with
      | others m events syncsignals => exact hwaits
      | _ => exact nomatch hsome

theorem SignalAct.answer (henabled : act.Enabled s) (hquiet : Unsignalled s.state) {t : T}
    (hends : act.begins = some t ∨ (s.state.thread t).syncOf ≠ none) {fResult : Bool}
    (h : ((act.next s).state.thread t).answer = some fResult) : fResult = false := by
  cases act with
  | syncSignal self m woken =>
    rcases hends with hbegins | hwaits
    · exact nomatch hbegins
    · have hstill := syncSignal_syncOf s.state m woken t
      rw [answer_of_waits (hstill ▸ hwaits)] at h
      exact nomatch h
  | mutex act =>
    by_cases hbegins : (SignalAct.mutex act).begins = some t
    · cases act with
      | syncWait self m ulMilliSec pSyncMutex woken =>
        cases hbegins
        exact syncWait_answer hquiet h
      | _ => exact nomatch hbegins
    · have hwaits := hends.resolve_left hbegins
      by_cases hresume : ∀ expired fRequest woken, act ≠ .resume t expired fRequest woken
      · have hstill := next_waits hwaits hresume henabled.1
        exact absurd ((answer_of_waits hstill).symm.trans h) nofun
      · push Not at hresume
        obtain ⟨expired, fRequest, woken, rfl⟩ := hresume
        exact resume_answer hquiet hwaits h

theorem SignalAct.Alone.signalled (halone : act.Alone s) (hnone : ∀ t, s.signalled t = false)
    (t : T) : (act.next s).signalled t = false := by
  cases act with
  | mutex act =>
    change (if (SignalAct.mutex act).begins = some t then false else s.signalled t) = false
    split_ifs
    · rfl
    · exact hnone t
  | syncSignal self m woken =>
    change (s.signalled t || decide ((s.state.thread t).syncOf = some m)) = false
    rw [hnone t, decide_eq_false (halone self m woken rfl t)]
    rfl

theorem Continues.signalled (h : Continues (fun s act => act.Alone s) s s')
    (hnone : ∀ t, s.signalled t = false) (t : T) : s'.signalled t = false := by
  induction h generalizing t with
  | refl => exact hnone t
  | step _ _ halone ih => exact halone.signalled ih t

theorem Continues.delivered (h : Continues (fun s act => act.Alone s) s s') (hcreated : s.Created) :
    Delivered s' := by
  have hquiet := h.quiet hcreated.quiet
  have hnone := h.signalled hcreated.2
  refine ⟨fun t ht => absurd ht (by rw [hnone t]; exact nofun), ?_⟩
  intro act henabled t hends fResult hanswer
  rw [act.answer henabled hquiet hends hanswer]
  cases act with
  | mutex act =>
    have halone : (SignalAct.mutex act).Alone s' := nofun
    exact (halone.signalled hnone t).symm
  | syncSignal self m woken =>
    have hwaits := hends.resolve_left nofun
    have hstill := syncSignal_syncOf s'.state m woken t
    rw [answer_of_waits (hstill ▸ hwaits)] at hanswer
    exact nomatch hanswer

theorem Continues.trans {s'' : Signals T M E} (h : Continues P s s') (h' : Continues P s' s'') :
    Continues P s s'' := by
  induction h' with
  | refl => exact h
  | step _ henabled hP ih => exact .step ih henabled hP

theorem Continues.mono {P' : Signals T M E → SignalAct T M E → Prop}
    (h : Continues P s s') (hP : ∀ s act, P s act → P' s act) : Continues P' s s' := by
  induction h with
  | refl => exact .refl
  | step _ henabled hstep ih => exact .step ih henabled (hP _ _ hstep)

theorem signal_lost {self t : T} {m : M} {woken : T → Bool} (hquiet : Unsignalled s.state)
    (hwaits : (s.state.thread t).syncOf = some m) :
    ∃ s', Continues (fun s act => act.Alone s) ((SignalAct.syncSignal self m woken).next s) s' ∧
      ¬Delivered s' := by
  have hsignalled : ((SignalAct.syncSignal self m woken).next s).signalled t = true := by
    change (s.signalled t || decide ((s.state.thread t).syncOf = some m)) = true
    rw [decide_eq_true hwaits, Bool.or_true]
  have hquiet' : Unsignalled ((SignalAct.syncSignal self m woken).next s).state :=
    quiet_syncSignal hquiet
  have hstill : (((SignalAct.syncSignal self m woken).next s).state.thread t).syncOf = some m :=
    (syncSignal_syncOf s.state m woken t).trans hwaits
  generalize (SignalAct.syncSignal self m woken).next s = s' at hsignalled hquiet' hstill
  by_cases hasleep : (s'.state.thread t).asleep = true
  · refine ⟨s', .refl, fun h => ?_⟩
    have hawake := h.awake t hsignalled (by rw [hstill]; exact nofun)
    rw [hasleep] at hawake
    exact nomatch hawake
  · cases hplace : s'.state.thread t with
    | syncWait m' timed given woken' =>
      let act : SignalAct T M E := .mutex (.resume t true false fun _ => false)
      have hgoes : act.Enabled s' := by
        refine ⟨⟨?_, Bool.eq_false_iff.mpr hasleep, ?_⟩, nofun⟩
        · rw [hplace]
          rfl
        · intro m'' ulMilliSec heq
          rw [hplace] at heq
          exact nomatch heq
      cases timed with
      | false =>
        refine ⟨_, .step .refl hgoes nofun, fun h => ?_⟩
        have hsleeps : (act.next s').state.thread t = .syncWait m' false given false := by
          change (s'.state.resume t true false fun _ => false).thread t = _
          unfold State.resume
          rw [hplace]
          exact syncWaitWoken_place hquiet'
        have hawake := h.awake t hsignalled (by rw [hsleeps]; exact nofun)
        rw [hsleeps] at hawake
        exact nomatch hawake
      | true =>
        refine ⟨s', .refl, fun h => ?_⟩
        have hends : ((act.next s').state.thread t).answer = some false := by
          change ((s'.state.resume t true false fun _ => false).thread t).answer = _
          unfold State.resume
          rw [hplace]
          exact timedSyncWaitEnd_answer hquiet'
        have hright := h.right _ hgoes t (.inr (by rw [hstill]; exact nofun)) false hends
        change false = s'.signalled t at hright
        rw [hsignalled] at hright
        exact nomatch hright
    | _ =>
      rw [hplace] at hstill
      exact nomatch hstill

/-- No wait ever returns `HB_TRUE`, and so signals reach those they are for only where there are
none. -/
theorem signals_delivered_iff {s : Signals T M E} (hcreated : s.Created) :
    (∀ s', Continues (fun s act => act.Alone s) s s' → Delivered s') ∧
    (∀ s' (act : SignalAct T M E), Continues (fun _ _ => True) s s' → act.Enabled s' →
      ∀ t, (act.begins = some t ∨ (s'.state.thread t).syncOf ≠ none) →
        ((act.next s').state.thread t).answer ≠ some true) ∧
    ∀ s' (act : SignalAct T M E), Continues (fun s act => act.Alone s) s s' → act.Enabled s' →
      ((∀ s'', Continues (fun s act => act.Alone s) (act.next s') s'' → Delivered s'') ↔
        act.Alone s') := by
  refine ⟨fun s' h => h.delivered hcreated, ?_, ?_⟩
  · intro s' act h henabled t hends htrue
    exact nomatch act.answer henabled (h.quiet hcreated.quiet) hends htrue
  · intro s' act h henabled
    constructor
    · rintro hall self m woken rfl t hwaits
      obtain ⟨s'', hcontinues, hlost⟩ := signal_lost (h.quiet hcreated.quiet) hwaits
      exact hlost (hall s'' hcontinues)
    · intro halone s'' hcontinues
      exact ((h.step henabled halone).trans hcontinues).delivered hcreated

def twoThreads : Signals Bool Unit Unit where
  state := ⟨fun _ => .created Bool Unit, fun _ => .ready (.bool false), fun _ _ => 0⟩
  signalled _ := false

theorem twoThreads_created : twoThreads.Created :=
  ⟨⟨fun _ => rfl, fun _ => rfl, fun _ _ => rfl⟩, fun _ => rfl⟩

omit [DecidableEq T] [DecidableEq M] in
theorem alerts_nobody {s : State T M E} {m : M} (hnobody : ∀ t, (s.thread t).asleep = false) :
    Alerts s m fun _ => false where
  sleeps _ ht := nomatch ht
  one := fun ⟨t, _, hasleep⟩ => nomatch (hnobody t).symm.trans hasleep
  all _ t _ hasleep := nomatch (hnobody t).symm.trans hasleep

theorem alerts_waiter {s : State Bool Unit Unit} {timed : Bool}
    (hwaits : s.thread false = .syncWait () timed none false)
    (hother : s.thread true = .ready (.bool false)) : Alerts s () fun t => !t := by
  refine ⟨fun t ht => ?_, fun _ => ⟨false, rfl⟩, fun _ t hcond _ => ?_⟩
  · cases t with
    | false =>
      rw [hwaits]
      exact ⟨rfl, rfl⟩
    | true => exact nomatch ht
  · cases t with
    | false => rfl
    | true =>
      rw [hother] at hcond
      exact nomatch hcond

/-- A wait that times out, a signal that nobody waits for, and a wait without end. -/
def waitActs : List (SignalAct Bool Unit Unit) :=
  [.mutex (.syncWait false () 10 none fun _ => false), .mutex (.wake false),
    .mutex (.resume false true false fun _ => false), .syncSignal true () fun _ => false,
    .mutex (.syncWait false () infiniteWait none fun _ => false)]

def waiting : Signals Bool Unit Unit := waitActs.foldl (fun s act => act.next s) twoThreads

theorem waiting_continues : Continues (fun s act => act.Alone s) twoThreads waiting := by
  have h₁ := Continues.step (.refl : Continues (fun s act => act.Alone s) twoThreads _)
    (show (SignalAct.mutex (.syncWait false () 10 none fun _ => false)).Enabled twoThreads from
      ⟨⟨rfl, nofun, nofun⟩, nofun⟩) nofun
  have h₂ := h₁.step (show (SignalAct.mutex (.wake false)).Enabled _ from ⟨rfl, nofun⟩) nofun
  have h₃ := h₂.step
    (show (SignalAct.mutex (.resume false true false fun _ => false)).Enabled _ from
      ⟨⟨rfl, rfl, nofun⟩, nofun⟩) nofun
  have hback : ∀ t, ((waitActs.take 3).foldl (fun s act => act.next s) twoThreads).state.thread t =
      .ready (.bool false) := by
    intro t
    cases t <;> rfl
  have h₄ := h₃.step (show (SignalAct.syncSignal true () fun _ => false).Enabled _ from
    ⟨rfl, alerts_nobody fun t => congrArg Place.asleep (hback t)⟩) (by
      rintro self m woken - t hwaits
      exact nomatch (congrArg Place.syncOf (hback t)).symm.trans hwaits)
  exact h₄.step (show
    (SignalAct.mutex (.syncWait false () infiniteWait none fun _ => false)).Enabled _
    from ⟨⟨rfl, nofun, nofun⟩, nofun⟩) nofun

/-- All is well up to here; the signal that the thread waits for is lost. -/
theorem signals_delivered_iff_waiting :
    (waiting.state.thread false).syncOf = some () ∧ Delivered waiting ∧
      ∃ s, Continues (fun _ _ => True) ((SignalAct.syncSignal true () fun t => !t).next waiting) s ∧
        ¬Delivered s := by
  obtain ⟨hdelivered, -, hiff⟩ := signals_delivered_iff twoThreads_created
  have hplace : waiting.state.thread false = .syncWait () false none false := rfl
  have hlost := (hiff waiting (.syncSignal true () fun t => !t) waiting_continues
    ⟨rfl, alerts_waiter hplace rfl⟩).not.mpr fun halone =>
    halone true () _ rfl false (congrArg Place.syncOf hplace)
  push Not at hlost
  obtain ⟨s, hcontinues, hnot⟩ := hlost
  exact ⟨congrArg Place.syncOf hplace, hdelivered _ waiting_continues, s,
    hcontinues.mono fun _ _ _ => trivial, hnot⟩

/-- One thread waits and the other one gives it a signal. -/
theorem signal_lost_between_two :
    ¬∀ s, Continues (fun _ _ => True) twoThreads s → Delivered s := by
  intro hall
  let act : SignalAct Bool Unit Unit := .mutex (.syncWait false () infiniteWait none fun _ => false)
  have hwaiting := Continues.step (.refl : Continues (fun _ _ => True) twoThreads _)
    (show act.Enabled twoThreads from ⟨⟨rfl, nofun, nofun⟩, nofun⟩) trivial
  have hplace : (act.next twoThreads).state.thread false = .syncWait () false none false := by
    have hloop : (twoThreads.state.syncWaitLoop false () none).thread false =
      .syncWait () false none false := syncWaitLoop_place twoThreads_created.quiet
    exact hloop
  have hother : (act.next twoThreads).state.thread true = .ready (.bool false) := rfl
  have hquiet := hwaiting.quiet twoThreads_created.quiet
  generalize act.next twoThreads = s at hwaiting hplace hother hquiet
  have hsignal := hwaiting.step (show (SignalAct.syncSignal true () fun t => !t).Enabled s from
    ⟨by rw [hother]; rfl, alerts_waiter hplace hother⟩) trivial
  obtain ⟨s', hcontinues, hlost⟩ := signal_lost hquiet (congrArg Place.syncOf hplace)
  exact hlost (hall s' (hsignal.trans (hcontinues.mono fun _ _ _ => trivial)))

end Runs

end Harbour.Vm.Mutex
