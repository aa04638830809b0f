import Harbour.Vm.MutexMoves
import Harbour.Vm.MutexTouches

/-!
What holds of mutexes in every interleaving of the threads that use them.
-/

namespace Harbour.Vm.Mutex

open Library.RecursiveLock Library.Transitions Function

variable {T M E : Type*} [DecidableEq T] [DecidableEq M]

theorem moves_next {s : State T M E} {act : Act T M E} (henabled : Enabled s act) :
    Moves s (next s act) := by
  cases act with
  | lock self m => exact moves_lock (part_ready henabled m)
  | timedLock self m ulMilliSec => exact moves_timedLock (part_ready henabled m) ulMilliSec
  | unlock self m woken => exact moves_unlock henabled.1 henabled.2
  | subscribe self m fClear woken fRequest =>
    exact moves_subscribe (part_ready henabled.1 m) (ready_asleep henabled.1) henabled.2 fClear
  | timedSubscribe self m ulMilliSec fClear woken fRequest =>
    exact moves_timedSubscribe (part_ready henabled.1 m) (ready_asleep henabled.1) henabled.2
      ulMilliSec fClear
  | syncWait self m ulMilliSec pSyncMutex woken =>
    exact moves_syncWait ulMilliSec pSyncMutex henabled.1 henabled.2.1
  | wake self => exact moves_wake
  | resume self expired fRequest woken =>
    exact moves_resume expired henabled.1 henabled.2.1 henabled.2.2
  | others m events syncsignals => exact moves_neutral rfl rfl rfl

theorem sound_created {s : State T M E} (h : (mutexes T M E).init s) (m : M) :
    Sound (lockOf s m) := by
  obtain ⟨hmutex, hready, hdepth⟩ := h
  have hpart : ∀ t, (lockOf s m).part t = ⟨.away, 0⟩ := fun t => part_at (part_ready (hready t) m)
  have hlock : lockOf s m = ⟨none, 0, 0, (lockOf s m).part, fun _ => 0⟩ := by
    unfold lockOf
    rw [hmutex m]
    congr 1
    funext t
    exact hdepth t m
  rw [hlock]
  refine sound_free (fun t => by rw [hpart]) ⟨∅, rfl, fun t => ?_⟩ ?_
  · rw [hpart]
    exact iff_of_false (Finset.notMem_empty t) fun hne => hne rfl
  · rintro ⟨t, hasleep⟩
    rw [hpart] at hasleep
    exact nomatch hasleep

theorem sound_of_reachable {s : State T M E} (h : (mutexes T M E).Reachable s) (m : M) :
    Sound (lockOf s m) := by
  revert m
  apply h.invariant
  · intro s hs m
    exact sound_created hs m
  · rintro s s' hs ⟨act, henabled, rfl⟩ m
    exact (hs m).moves (moves_next henabled m)

/-- A thread locks and unlocks nothing, and does not begin to. -/
structure Quiet (t : T) (s s' : State T M E) : Prop where
  depth : s'.depth t = s.depth t
  locks : (s.thread t).locks = false → (s'.thread t).locks = false

section Quiet

variable {t self : T} {m : M} {s s' s'' : State T M E} {pMutex : HbMutex T E} {place : Place M E}
  {woken : T → Bool} {fRequest expired : Bool} {lockCount ulMilliSec : Nat} {result : Result E}

omit [DecidableEq T] [DecidableEq M] in
theorem Quiet.refl : Quiet t s s := ⟨rfl, id⟩

omit [DecidableEq T] [DecidableEq M] in
theorem Quiet.trans (h : Quiet t s s') (h' : Quiet t s' s'') : Quiet t s s'' :=
  ⟨h'.depth.trans h.depth, fun hlocks => h'.locks (h.locks hlocks)⟩

omit [DecidableEq T] in
theorem quiet_setMutex : Quiet t s (s.setMutex m pMutex) := ⟨rfl, id⟩

omit [DecidableEq M] in
theorem quiet_setPlace (h : t = self → place.locks = false) :
    Quiet t s (s.setPlace self place) := by
  refine ⟨rfl, fun hlocks => ?_⟩
  unfold State.setPlace
  dsimp only
  by_cases ht : t = self
  · subst ht
    rw [update_self]
    exact h rfl
  · rw [update_of_ne ht]
    exact hlocks

theorem quiet_setDepth {depth : Nat} (h : t ≠ self) : Quiet t s (s.setDepth self m depth) := by
  refine ⟨?_, id⟩
  unfold State.setDepth
  dsimp only
  rw [update_of_ne h]

omit [DecidableEq M] in
theorem locks_wake (place : Place M E) : place.wake.locks = place.locks := by
  cases place <;> rfl

omit [DecidableEq T] [DecidableEq M] in
theorem quiet_condSignal : Quiet t s (s.condSignal m woken) := by
  unfold State.condSignal
  split_ifs
  · exact .refl
  · refine ⟨rfl, fun hlocks => ?_⟩
    dsimp only
    split_ifs
    · exact (locks_wake _).trans hlocks
    · exact hlocks

theorem Touches.quiet {locks : Bool} (h : Touches self locks s s') (ht : t = self → locks = false) :
    Quiet t s s' := by
  induction h with
  | refl => exact .refl
  | trans _ _ ih ih' => exact ih.trans ih'
  | setMutex => exact quiet_setMutex
  | setPlace hplace => exact quiet_setPlace fun heq => hplace (ht heq)
  | setDepth hlocks => exact quiet_setDepth fun heq => nomatch hlocks.symm.trans (ht heq)
  | condSignal => exact quiet_condSignal

end Quiet

omit [DecidableEq T] [DecidableEq M] in
theorem ready_locks {s : State T M E} {t : T} (hready : (s.thread t).isReady) :
    (s.thread t).locks = false := by
  cases hplace : s.thread t with
  | ready result => rfl
  | _ =>
    rw [hplace] at hready
    exact nomatch hready

theorem quiet_next {s : State T M E} {t : T} {act : Act T M E} (henabled : Enabled s act)
    (hready : (s.thread t).isReady = false) (hlocks : (s.thread t).locks = false) :
    Quiet t s (next s act) := by
  have hother : ∀ self, (s.thread self).isReady → t ≠ self := by
    rintro self hself rfl
    rw [hready] at hself
    exact nomatch hself
  have hne : ∀ self, (s.thread self).isReady → t = self → true = false :=
    fun self hself heq => absurd heq (hother self hself)
  cases act with
  | lock self m => exact (touches_lock rfl).quiet (hne self henabled)
  | timedLock self m ulMilliSec => exact (touches_timedLock rfl).quiet (hne self henabled)
  | unlock self m woken => exact (touches_unlock rfl).quiet (hne self henabled.1)
  | subscribe self m fClear woken fRequest => exact touches_subscribe.quiet fun _ => rfl
  | timedSubscribe self m ulMilliSec fClear woken fRequest =>
    exact touches_timedSubscribe.quiet fun _ => rfl
  | syncWait self m ulMilliSec pSyncMutex woken => exact touches_syncWait.quiet fun _ => rfl
  | wake self =>
    apply quiet_setPlace
    rintro rfl
    exact (locks_wake _).trans hlocks
  | resume self expired fRequest woken =>
    apply (touches_resume id).quiet
    rintro rfl
    exact hlocks
  | others m events syncsignals => exact quiet_setMutex

/-- The calls in which a thread may give up a lock. -/
def Act.Waits (t : T) : Act T M E → Prop
  | .subscribe self _ _ _ _ => self = t
  | .timedSubscribe self _ _ _ _ _ => self = t
  | .syncWait self _ _ _ _ => self = t
  | _ => False

/-- The states of a run until such a call, made in the first state, returns. -/
inductive Inside (t : T) (s : State T M E) : State T M E → Prop
  | call {act : Act T M E} : act.Waits t → Enabled s act → Inside t s (next s act)
  | step {s' : State T M E} {act : Act T M E} : Inside t s s' → (s'.thread t).isReady = false →
      Enabled s' act → Inside t s (next s' act)

section Inside

variable {t : T} {s s' : State T M E}

theorem Inside.reachable (h : Inside t s s') (hs : (mutexes T M E).Reachable s) :
    (mutexes T M E).Reachable s' := by
  induction h with
  | call _ henabled => exact hs.step ⟨_, henabled, rfl⟩
  | step _ _ henabled ih => exact ih.step ⟨_, henabled, rfl⟩

theorem quiet_call {act : Act T M E} (hwaits : act.Waits t) : Quiet t s (next s act) := by
  cases act with
  | subscribe self m fClear woken fRequest => exact touches_subscribe.quiet fun _ => rfl
  | timedSubscribe self m ulMilliSec fClear woken fRequest =>
    exact touches_timedSubscribe.quiet fun _ => rfl
  | syncWait self m ulMilliSec pSyncMutex woken => exact touches_syncWait.quiet fun _ => rfl
  | _ => exact hwaits.elim

omit [DecidableEq T] [DecidableEq M] in
theorem call_ready {act : Act T M E} (hwaits : act.Waits t) (henabled : Enabled s act) :
    (s.thread t).isReady := by
  cases act with
  | subscribe self m fClear woken fRequest
  | timedSubscribe self m ulMilliSec fClear woken fRequest
  | syncWait self m ulMilliSec pSyncMutex woken =>
    exact hwaits ▸ henabled.1
  | _ => exact hwaits.elim

theorem Inside.quiet (h : Inside t s s') :
    s'.depth t = s.depth t ∧ (s'.thread t).locks = false := by
  induction h with
  | call hwaits henabled =>
    have hquiet := quiet_call (s := s) hwaits
    exact ⟨hquiet.depth, hquiet.locks (ready_locks (call_ready hwaits henabled))⟩
  | step _ hready henabled ih =>
    have hquiet := quiet_next henabled hready ih.2
    exact ⟨hquiet.depth.trans ih.1, hquiet.locks ih.2⟩

end Inside

/-- The call to lock that a step makes, or ends after a wait. -/
def Act.locking (s : State T M E) : Act T M E → Option (T × M)
  | .lock self m => some (self, m)
  | .timedLock self m _ => some (self, m)
  | .resume self _ _ _ =>
    match s.thread self with
    | .lock m _ => some (self, m)
    | .timedLock m _ => some (self, m)
    | _ => none
  | _ => none

def Act.unlocking : Act T M E → Option (T × M)
  | .unlock self m _ => some (self, m)
  | _ => none

/-- The thread has got `HB_TRUE`. -/
def Place.succeeded : Place M E → Bool
  | .ready (.bool fResult) => fResult
  | _ => false

/-- `nesting` is how often each thread has been told that it locked each mutex, less how often it
has been told that it unlocked it. -/
structure Watched (T M E : Type*) where
  state : State T M E
  nesting : T → M → Nat

def Watched.next (w : Watched T M E) (act : Act T M E) : Watched T M E where
  state := Mutex.next w.state act
  nesting t m :=
    if ((Mutex.next w.state act).thread t).succeeded then
      if act.locking w.state = some (t, m) then w.nesting t m + 1
      else if act.unlocking = some (t, m) then w.nesting t m - 1
      else w.nesting t m
    else w.nesting t m

def watched (T M E : Type*) [DecidableEq T] [DecidableEq M] : System (Watched T M E) where
  init w := (mutexes T M E).init w.state ∧ ∀ t m, w.nesting t m = 0
  step w w' := ∃ act, Enabled w.state act ∧ w' = w.next act

/-- Recursive mutexes exclude, and lose no wake-up. A thread outside of the functions owns each
mutex that it was told it has, also after a call in which it gave one up. -/
structure Excludes (w : Watched T M E) : Prop where
  owner_iff : ∀ m, (w.state.mutex m).owner = none ↔ (w.state.mutex m).lockCount = 0
  nested : ∀ m t, (w.state.mutex m).owner = some t → (w.state.mutex m).lockCount = w.nesting t m
  owns : ∀ m t, (w.state.thread t).isReady → w.nesting t m ≠ 0 →
    (w.state.mutex m).owner = some t
  granted : ∀ act m t, Enabled w.state act → act.locking w.state = some (t, m) →
    ((w.next act).state.thread t).succeeded → ((w.next act).state.mutex m).owner = some t
  unlock : ∀ m t woken, Enabled w.state (.unlock t m woken) → (w.state.mutex m).owner ≠ some t →
    (w.next (.unlock t m woken)).state = w.state.setPlace t (.ready (.bool false))
  returns : ∀ t s', Inside t w.state s' → (s'.thread t).isReady →
    ∀ m, (w.state.mutex m).owner = some t →
      (s'.mutex m).owner = some t ∧ (s'.mutex m).lockCount = (w.state.mutex m).lockCount
  awake : ∀ m t, (w.state.mutex m).lockCount = 0 → Asleep w.state m t → ∃ t', Woken w.state m t'

section Counts

variable {s s' : State T M E} {self t : T} {m : M} {pMutex : HbMutex T E} {place : Place M E}
  {woken : T → Bool} {ulMilliSec : Nat} {expired : Bool} {act : Act T M E}

omit [DecidableEq T] [DecidableEq M] in
theorem succeeded_ready (h : (s.thread t).succeeded) : (s.thread t).isReady := by
  cases hplace : s.thread t with
  | ready result => rfl
  | _ =>
    rw [hplace] at h
    exact nomatch h

/-- What a call that is to set the depth of a mutex to `depth` does, by what it returns. -/
inductive Counts (self : T) (m : M) (depth : Nat) (old : T → M → Nat) (s : State T M E) : Prop
  | succeeds : (s.thread self).succeeded = true →
      s.depth = update old self (update (old self) m depth) → Counts self m depth old s
  | fails : (s.thread self).succeeded = false → s.depth = old → Counts self m depth old s

omit [DecidableEq M] in
theorem setPlace_succeeded (s : State T M E) (self : T) (place : Place M E) :
    ((s.setPlace self place).thread self).succeeded = place.succeeded := by
  unfold State.setPlace
  dsimp only
  rw [update_self]

theorem counts_returned (s : State T M E) {depth : Nat} : Counts self m depth s.depth
    (((s.setMutex m pMutex).setDepth self m depth).setPlace self (.ready (.bool true))) :=
  .succeeds (setPlace_succeeded _ _ _) rfl

theorem counts_place (s : State T M E) {depth : Nat} (place : Place M E)
    (h : place.succeeded = false) : Counts self m depth s.depth (s.setPlace self place) :=
  .fails ((setPlace_succeeded _ _ _).trans h) rfl

theorem counts_lockLoop (s : State T M E) :
    Counts self m (s.depth self m + 1) s.depth (s.lockLoop self m) := by
  unfold State.lockLoop
  dsimp only
  split_ifs
  · exact counts_place (s.setMutex m _) _ rfl
  · exact counts_returned s

theorem counts_lock (s : State T M E) :
    Counts self m (s.depth self m + 1) s.depth (s.threadMutexLock self m) := by
  unfold State.threadMutexLock
  dsimp only
  split_ifs
  · exact counts_returned s
  · exact counts_lockLoop s

theorem counts_timedLockEnd (s : State T M E) :
    Counts self m (s.depth self m + 1) s.depth (s.timedLockEnd self m) := by
  unfold State.timedLockEnd
  dsimp only
  split_ifs
  · exact counts_returned s
  · exact counts_place s _ rfl

theorem counts_timedLock (s : State T M E) :
    Counts self m (s.depth self m + 1) s.depth (s.threadMutexTimedLock self m ulMilliSec) := by
  unfold State.threadMutexTimedLock
  dsimp only
  split_ifs
  · exact counts_returned s
  · exact counts_place (s.setMutex m _) _ rfl
  · exact counts_timedLockEnd s

theorem counts_timedLockWoken (s : State T M E) :
    Counts self m (s.depth self m + 1) s.depth (s.timedLockWoken self m expired) := by
  unfold State.timedLockWoken
  split_ifs
  · exact counts_place s _ rfl
  · exact counts_timedLockEnd (s.setMutex m _)

omit [DecidableEq T] [DecidableEq M] in
theorem succeeded_wake (place : Place M E) : place.wake.succeeded = place.succeeded := by
  cases place <;> rfl

omit [DecidableEq T] [DecidableEq M] in
theorem condSignal_depth : (s.condSignal m woken).depth = s.depth := by
  unfold State.condSignal
  split_ifs <;> rfl

omit [DecidableEq T] [DecidableEq M] in
theorem condSignal_succeeded :
    ((s.condSignal m woken).thread t).succeeded = (s.thread t).succeeded := by
  unfold State.condSignal
  split_ifs
  · rfl
  · dsimp only
    split_ifs
    · exact succeeded_wake _
    · rfl

theorem counts_unlock (s : State T M E) :
    Counts self m (s.depth self m - 1) s.depth (s.threadMutexUnlock self m woken) := by
  unfold State.threadMutexUnlock
  dsimp only
  split_ifs
  · exact .succeeds (condSignal_succeeded.trans (setPlace_succeeded _ _ _)) condSignal_depth
  · exact counts_returned s
  · exact counts_place s _ rfl

theorem Touches.depth_eq (h : Touches self false s s') : s'.depth = s.depth := by
  induction h with
  | refl => rfl
  | trans _ _ ih ih' => exact ih'.trans ih
  | setMutex => rfl
  | setPlace => rfl
  | setDepth hlocks => exact nomatch hlocks
  | condSignal => exact condSignal_depth

theorem locking_depth (h : act.locking s = some (self, m)) :
    Counts self m (s.depth self m + 1) s.depth (next s act) := by
  cases act with
  | lock self m =>
    cases h
    exact counts_lock s
  | timedLock self m ulMilliSec =>
    cases h
    exact counts_timedLock s
  | resume self expired fRequest woken =>
    cases hplace : s.thread self with
    | lock m woken =>
      simp only [Act.locking, hplace] at h
      cases h
      simp only [next, State.resume, hplace]
      exact counts_lockLoop (s.setMutex _ _)
    | timedLock m woken =>
      simp only [Act.locking, hplace] at h
      cases h
      simp only [next, State.resume, hplace]
      exact counts_timedLockWoken s
    | _ =>
      simp only [Act.locking, hplace] at h
      cases h
  | _ => cases h

theorem other_depth (hlocking : act.locking s = none) (hunlocking : act.unlocking = none) :
    (next s act).depth = s.depth := by
  cases act with
  | lock self m | timedLock self m ulMilliSec => exact nomatch hlocking
  | unlock self m woken => exact nomatch hunlocking
  | subscribe self m fClear woken fRequest =>
    exact (touches_subscribe : Touches self false s _).depth_eq
  | timedSubscribe self m ulMilliSec fClear woken fRequest =>
    exact (touches_timedSubscribe : Touches self false s _).depth_eq
  | syncWait self m ulMilliSec pSyncMutex woken =>
    exact (touches_syncWait : Touches self false s _).depth_eq
  | wake self => rfl
  | resume self expired fRequest woken =>
    refine (touches_resume fun hlocks => ?_ : Touches self false s _).depth_eq
    cases hplace : s.thread self with
    | lock m woken | timedLock m woken =>
      simp only [Act.locking, hplace] at hlocking
      exact nomatch hlocking
    | _ =>
      rw [hplace] at hlocks
      exact nomatch hlocks
  | others m events syncsignals => rfl

theorem Counts.nesting {depth : Nat} (h : Counts self m depth s.depth s') (t : T) (m' : M) :
    s'.depth t m' = if (s'.thread t).succeeded then
      if some (self, m) = some (t, m') then depth else s.depth t m' else s.depth t m' := by
  by_cases hsame : (self, m) = (t, m')
  · cases hsame
    rw [if_pos rfl]
    rcases h with ⟨hsucceeded, hset⟩ | ⟨hfailed, hset⟩
    · rw [hset, if_pos hsucceeded, update_self, update_self]
    · rw [hset, if_neg (ne_true_of_eq_false hfailed)]
  · rw [if_neg fun heq => hsame (Option.some.inj heq), ite_self]
    rcases h with ⟨-, hset⟩ | ⟨-, hset⟩
    · rw [hset]
      by_cases ht : t = self
      · subst ht
        rw [update_self, update_of_ne fun hm => hsame (by rw [hm])]
      · rw [update_of_ne ht]
    · rw [hset]

/-- The depth of the model is what the results say. -/
theorem depth_next (s : State T M E) (act : Act T M E) :
    (next s act).depth = (Watched.next ⟨s, s.depth⟩ act).nesting := by
  funext t m
  unfold Watched.next
  dsimp only
  cases hlocking : act.locking s with
  | some call =>
    obtain ⟨self, m'⟩ := call
    have hunlocking : act.unlocking = none := by
      cases act with
      | unlock self m woken => exact nomatch hlocking
      | _ => rfl
    rw [(locking_depth hlocking).nesting t m, hunlocking]
    by_cases hsame : some (self, m') = some (t, m)
    · cases hsame
      simp
    · simp [hsame]
  | none =>
    cases hunlocking : act.unlocking with
    | some call =>
      cases act with
      | unlock self m' woken =>
        cases hunlocking
        rw [next, (counts_unlock s).nesting t m]
        by_cases hsame : some (self, m') = some (t, m)
        · cases hsame
          simp
        · simp [hsame]
      | _ => exact nomatch hunlocking
    | none =>
      rw [other_depth hlocking hunlocking]
      simp

end Counts

theorem owner_of_depth {s : State T M E} (hs : ∀ m, Sound (lockOf s m)) {t : T} {m : M}
    (hready : (s.thread t).isReady) (hdepth : s.depth t m ≠ 0) : (s.mutex m).owner = some t := by
  by_contra howner
  have hsaved := (hs m).others t howner
  rw [part_at (part_ready hready m)] at hsaved
  exact hdepth hsaved.symm

theorem watched_reachable {w : Watched T M E} (h : (watched T M E).Reachable w) :
    (mutexes T M E).Reachable w.state ∧ w.nesting = w.state.depth := by
  induction h with
  | init hw =>
    refine ⟨.init hw.1, ?_⟩
    funext t m
    rw [hw.2 t m, hw.1.2.2 t m]
  | @step w w' _ hstep ih =>
    obtain ⟨act, henabled, rfl⟩ := hstep
    refine ⟨ih.1.step ⟨act, henabled, rfl⟩, ?_⟩
    change _ = (next w.state act).depth
    rw [depth_next, ← ih.2]

def started : Watched ℕ ℕ ℕ :=
  ⟨⟨fun _ => .created ℕ ℕ, fun _ => .ready (.bool false), fun _ _ => 0⟩, fun _ _ => 0⟩

/-- One thread locks twice; another one asks without waiting, in vain, and then waits. -/
def contended : Watched ℕ ℕ ℕ :=
  (((started.next (.lock 0 0)).next (.timedLock 0 0 10)).next (.timedLock 1 0 0)).next (.lock 1 0)

end Harbour.Vm.Mutex
