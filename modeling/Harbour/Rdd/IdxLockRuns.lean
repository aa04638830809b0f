import Harbour.Rdd.IdxLock

/-!
What the stations have locked in the states that they reach.
-/

namespace Harbour.Rdd.IdxLock

open Library.RangeLocks Library.Transitions Option

variable {ι : Type*} [DecidableEq ι]

section Frame

variable {s : State ι} {i j : ι} {data : LockData} {place : Place}

theorem set_station : ((s.set i data place).station i) = ⟨data, place⟩ := Function.update_self _ _ _

theorem set_station_other (h : j ≠ i) : (s.set i data place).station j = s.station j :=
  Function.update_of_ne h _ _

end Frame

/-- No byte is locked by two stations if one of them has locked it exclusively, and each station
has locked what its place says. -/
structure Inv (pos pool : Nat) (s : State ι) : Prop where
  exclusive : s.os.Exclusive
  ok : ∀ i, Ok pos pool (s.os i) (s.station i)

section Range

variable {locks : Locks ι} {i : ι} {first len : Nat} {mode : Mode} {data : LockData}

theorem covers_lock (hfree : ∀ n, locks i n = none) (hoffset : data.offset = first)
    (hsize : data.size = len) (hnext : data.next = 0) :
    Covers (locks.lock i first len mode i) data := by
  intro n
  rw [Locks.lock_self, hoffset, hsize, hnext]
  split_ifs with hin
  · exact ⟨fun _ => hin, fun _ => some_ne_none mode⟩
  · exact ⟨fun h => absurd (hfree n) h, fun h => absurd h hin⟩

theorem locked_in (n : Nat) (hfirst : first ≤ n) (hlast : n < first + len) :
    locks.lock i first len mode i n = some mode := by
  rw [Locks.lock_self, if_pos ⟨hfirst, hlast⟩]

end Range

section Places

variable {pos pool : Nat} {locks : Locks ι} {i : ι} {data : LockData} {mode : Mode}
  {fWrite : Bool} {tolock random : Nat}

theorem startLock_write (data : LockData) :
    Tries pos pool (startLock pos pool data .exclusive).1 true
      (startLock pos pool data .exclusive).2 0 := by
  unfold startLock
  rw [if_neg (fun h => nomatch h.2)]
  exact ⟨rfl, rfl, .inl rfl, fun _ => ⟨rfl, rfl, fun _ => rfl⟩, nofun⟩

theorem startLock_read (data : LockData) :
    Tries pos pool (startLock pos pool data .shared).1 false
    (startLock pos pool data .shared).2 0 := by
  unfold startLock
  dsimp only
  split_ifs with hpool hcount
  · exact ⟨rfl, rfl, .inl rfl, nofun, fun _ => ⟨rfl, .inr ⟨rfl, rfl⟩⟩⟩
  · exact ⟨rfl, rfl, .inl rfl, nofun, fun _ => ⟨rfl, .inl ⟨Nat.succ_ne_zero _, rfl⟩⟩⟩
  · have hzero : pool = 0 := by
      by_contra hne
      exact hpool ⟨hne, rfl⟩
    exact ⟨rfl, rfl, .inl rfl, nofun, fun _ => ⟨rfl, .inr ⟨rfl, hzero⟩⟩⟩

theorem startLock_tries (data : LockData) (fWrite : Bool) :
    Tries pos pool (startLock pos pool data (if fWrite then .exclusive else .shared)).1 fWrite
      (startLock pos pool data (if fWrite then .exclusive else .shared)).2 0 := by
  cases fWrite with
  | true => exact startLock_write data
  | false => exact startLock_read data

theorem tryRange_whole (h : Tries pos pool data true mode 0) :
    tryRange data random = (pos, pool + 1) := by
  obtain ⟨-, hcount, hsize⟩ := h.write rfl
  unfold tryRange
  rw [if_neg (not_not_intro hcount), hsize rfl, h.offset]
  split_ifs with hpool
  · rfl
  · rw [not_not.mp hpool]

theorem tryRange_first (h : Tries pos pool data true mode tolock) (htolock : tolock ≠ 0) :
    tryRange data random = (pos, 1) := by
  obtain ⟨-, hcount, -⟩ := h.write rfl
  obtain ⟨-, hsize⟩ := h.tolock_pool.resolve_left htolock
  unfold tryRange
  rw [if_neg (not_not_intro hcount), if_neg (not_not_intro hsize), h.offset]

theorem tryRange_read (h : Tries pos pool data false mode tolock)
    (hrandom : data.count ≠ 0 → random < data.size) :
    (tryRange data random).2 = 1 ∧ pos ≤ (tryRange data random).1 ∧
      (tryRange data random).1 ≤ pos + pool := by
  have hoffset := h.offset
  obtain ⟨-, ⟨hcount, hsize⟩ | ⟨hcount, hsize⟩⟩ := h.read rfl
  · have hlt := hrandom hcount
    unfold tryRange
    rw [if_pos hcount]
    exact ⟨rfl, by dsimp only; omega, by dsimp only; omega⟩
  · unfold tryRange
    rw [if_neg (not_not_intro hcount), if_neg (not_not_intro hsize)]
    exact ⟨rfl, (Nat.le_of_eq hoffset.symm), by dsimp only; omega⟩

theorem granted_ok {fLate : Bool} (hfree : ∀ n, locks i n = none)
    (h : Tries pos pool data fWrite mode tolock) (hrandom : data.count ≠ 0 → random < data.size) :
    Ok pos pool (locks.lock i (tryRange data random).1 (tryRange data random).2 mode i)
      ⟨{ data with
          offset := (tryRange data random).1
          size := (tryRange data random).2
          tolock := tolock
          mode := mode },
        if fLate = false ∧ tolock ≠ 0 then .writing false else .locked fWrite (tolock = 0)⟩ := by
  cases fWrite with
  | true =>
    obtain ⟨rfl, hcount, hsize⟩ := h.write rfl
    by_cases htolock : tolock = 0
    · subst htolock
      rw [if_neg (fun h => h.2 rfl), tryRange_whole h]
      exact ⟨covers_lock hfree rfl rfl h.next, fun n hlow hhigh =>
        locked_in n hlow (Nat.lt_succ_of_le hhigh)⟩
    · obtain ⟨hpool, -⟩ := h.tolock_pool.resolve_left htolock
      have hwaits : Waits pos pool (locks.lock i pos 1 .exclusive i)
          { data with offset := pos, size := 1, tolock := tolock, mode := .exclusive } :=
        ⟨rfl, rfl, h.next, hpool, rfl, covers_lock hfree rfl rfl h.next,
          locked_in pos (Nat.le_refl _) (Nat.lt_succ_self pos)⟩
      rw [tryRange_first h htolock, decide_eq_false htolock]
      split_ifs
      · exact hwaits
      · exact hwaits
  | false =>
    obtain ⟨rfl, -⟩ := h.read rfl
    obtain ⟨hsize, hlow, hhigh⟩ := tryRange_read h hrandom
    rw [if_neg (fun h => h.2 rfl)]
    refine ⟨rfl, covers_lock hfree rfl rfl h.next, _, hlow, hhigh, ?_⟩
    rw [hsize, locked_in _ (Nat.le_refl _) (Nat.lt_succ_self _)]
    exact some_ne_none mode

theorem again_tries (h : Tries pos pool data fWrite mode tolock)
    (hsize : (tryRange data random).2 > 1) :
    Tries pos pool { data with size := 0 } fWrite mode ((tryRange data random).2 - 1) := by
  cases fWrite with
  | true =>
    by_cases htolock : tolock = 0
    · subst htolock
      obtain ⟨hmode, hcount, -⟩ := h.write rfl
      rw [tryRange_whole h] at hsize ⊢
      have hpool : pool ≠ 0 := by
        omega
      exact ⟨h.offset, h.next, .inr ⟨rfl, rfl⟩, fun _ => ⟨hmode, hcount, fun h => absurd h hpool⟩,
        nofun⟩
    · rw [tryRange_first h htolock] at hsize
      exact absurd hsize (Nat.lt_irrefl 1)
  | false =>
    obtain ⟨-, ⟨hcount, -⟩ | ⟨hcount, hzero⟩⟩ := h.read rfl
    · unfold tryRange at hsize
      rw [if_pos hcount] at hsize
      exact absurd hsize (Nat.lt_irrefl 1)
    · unfold tryRange at hsize
      rw [if_neg (not_not_intro hcount), if_neg (not_not_intro hzero)] at hsize
      exact absurd hsize (Nat.lt_irrefl 1)

theorem written_ok (h : Waits pos pool (locks i) data) :
    Ok pos pool (locks.lock i (data.offset + data.size) data.tolock data.mode i)
      ⟨{ data with next := data.tolock, tolock := 0 }, .locked true true⟩ := by
  obtain ⟨hoffset, hsize, hnext, htolock, hmode, hcovers, hfirst⟩ := h
  have hlocked : ∀ n, locks.lock i (data.offset + data.size) data.tolock data.mode i n =
      if pos + 1 ≤ n ∧ n < pos + 1 + pool then some .exclusive else locks i n := by
    intro n
    rw [Locks.lock_self, hoffset, hsize, htolock, hmode]
  refine ⟨fun n => ?_, fun n hlow hhigh => ?_⟩
  · rw [hlocked]
    have h := hcovers n
    dsimp only
    split_ifs with hin
    · exact ⟨fun _ => by omega, fun _ => some_ne_none _⟩
    · rw [h]
      omega
  · rw [hlocked]
    split_ifs with hin
    · rfl
    · obtain rfl : n = pos := by omega
      exact hfirst

theorem unlockFirst_ok (h : Covers (locks i) data) :
    Ok pos pool (locks.unlock i data.offset data.size i) ⟨data, .unlocking⟩ := by
  intro n hn
  rw [Locks.unlock_self] at hn
  split_ifs at hn with hin
  · exact absurd rfl hn
  · have hcovers := (h n).mp hn
    dsimp only
    omega

theorem unlockNext_ok (h : ∀ n, locks i n ≠ none → data.next ≠ 0 ∧ data.offset + data.size ≤ n ∧
    n < data.offset + data.size + data.next) :
    Ok pos pool (locks.unlock i (data.offset + data.size) data.next i) ⟨data.reset, .idle⟩ := by
  intro n
  rw [Locks.unlock_self]
  split_ifs with hin
  · rfl
  · by_contra hn
    exact hin (h n hn).2

end Places

def Writes (station : Station) : Prop := station.place = .locked true true

def Holds (station : Station) : Prop :=
  (∃ fWrite complete, station.place = .locked fWrite complete) ∨ station.place = .writing true

section Exclusion

variable {pos pool : Nat} {locked : Nat → Option Mode} {station : Station}

theorem Ok.some_locked (h : Ok pos pool locked station) (hholds : Holds station) :
    ∃ n, pos ≤ n ∧ n ≤ pos + pool ∧ locked n ≠ none := by
  unfold Ok at h
  have hwaits : Waits pos pool locked station.data →
      ∃ n, pos ≤ n ∧ n ≤ pos + pool ∧ locked n ≠ none := fun hw =>
    ⟨pos, Nat.le_refl _, Nat.le_add_right _ _, by rw [hw.first]; exact some_ne_none _⟩
  rcases hholds with ⟨fWrite, complete, hplace⟩ | hplace
  · rw [hplace] at h
    cases fWrite with
    | true =>
      cases complete with
      | true =>
        exact ⟨pos, Nat.le_refl _, Nat.le_add_right _ _, by
          rw [h.2 pos (Nat.le_refl _) (Nat.le_add_right _ _)]
          exact some_ne_none _⟩
      | false => exact hwaits h
    | false => exact h.2.2
  · rw [hplace] at h
    exact hwaits h

theorem Ok.covers (h : Ok pos pool locked station) (hholds : Holds station) :
    Covers locked station.data := by
  unfold Ok at h
  rcases hholds with ⟨fWrite, complete, hplace⟩ | hplace
  · rw [hplace] at h
    cases fWrite with
    | true =>
      cases complete with
      | true => exact h.1
      | false => exact h.covers
    | false => exact h.2.1
  · rw [hplace] at h
    exact Waits.covers h

end Exclusion

section Runs

variable {scheme : Scheme} {pos pool : Nat} {s s' : State ι}

theorem inv_init (h : (stations ι scheme).init s) : Inv pos pool s := by
  obtain ⟨hos, hidle⟩ := h
  refine ⟨by rw [hos]; exact Locks.exclusive_free, fun i => ?_⟩
  unfold Ok
  rw [hidle i, hos]
  exact fun n => rfl

theorem Inv.step_of {i : ι} (h : Inv pos pool s) (hexclusive : s'.os.Exclusive)
    (hos : ∀ j ≠ i, s'.os j = s.os j) (hstation : ∀ j ≠ i, s'.station j = s.station j)
    (hok : Ok pos pool (s'.os i) (s'.station i)) : Inv pos pool s' := by
  refine ⟨hexclusive, fun j => ?_⟩
  by_cases hj : j = i
  · rw [hj]
    exact hok
  · rw [hos j hj, hstation j hj]
    exact h.ok j

theorem Inv.set {i : ι} {data : LockData} {place : Place} (h : Inv pos pool s)
    (hok : Ok pos pool (s.os i) ⟨data, place⟩) : Inv pos pool (s.set i data place) := by
  refine h.step_of h.exclusive (fun _ _ => rfl) (fun j hj => set_station_other hj) ?_
  rw [set_station]
  exact hok

omit [DecidableEq ι] in
theorem Inv.ok_at {i : ι} {place : Place} (h : Inv pos pool s)
    (hplace : (s.station i).place = place) :
    Ok pos pool (s.os i) ⟨(s.station i).data, place⟩ :=
  hplace ▸ h.ok i

theorem Inv.step (hpos : ∀ p, lockPos scheme = some p → p = (pos, pool)) (h : Inv pos pool s)
    (hstep : Step scheme s s') : Inv pos pool s' := by
  cases hstep with
  | @noScheme i hidle _ =>
    have hok := h.ok_at hidle
    exact h.set hok
  | @start i pos' pool' fWrite fLate wait hidle hsome =>
    obtain ⟨rfl, rfl⟩ := Prod.mk.inj (hpos _ hsome)
    have hok := h.ok_at hidle
    exact h.set ⟨hok, startLock_tries _ fWrite⟩
  | @granted i fWrite fLate wait mode tolock random hplace hrandom hgrant =>
    have hok := h.ok_at hplace
    refine h.step_of (h.exclusive.lock hgrant) (fun j hj => Locks.lock_other hj)
      (fun j hj => set_station_other hj) ?_
    unfold State.granted
    rw [set_station]
    exact granted_ok hok.1 hok.2 hrandom
  | @refused i fWrite fLate mode tolock hplace =>
    have hok := h.ok_at hplace
    exact h.set hok.1
  | @again i fWrite fLate mode tolock random hplace =>
    have hok := h.ok_at hplace
    unfold State.again
    dsimp only
    split_ifs with hsize
    · exact h.set ⟨hok.1, again_tries hok.2 hsize⟩
    · exact h
  | @lockWrite i hplace =>
    have hok := h.ok_at hplace
    exact h.set hok
  | @written i fLate hplace hgrant =>
    have hok := h.ok_at hplace
    refine h.step_of (h.exclusive.lock hgrant) (fun j hj => Locks.lock_other hj)
      (fun j hj => set_station_other hj) ?_
    unfold State.written
    rw [set_station]
    exact written_ok hok
  | @unlockFirst i fWrite complete hplace =>
    have hcovers := (h.ok i).covers (.inl ⟨fWrite, complete, hplace⟩)
    refine h.step_of h.exclusive.unlock (fun j hj => Locks.unlock_other hj)
      (fun j hj => set_station_other hj) ?_
    unfold State.unlockFirst
    rw [set_station]
    exact unlockFirst_ok hcovers
  | @unlockNext i hplace =>
    have hok := h.ok_at hplace
    unfold State.unlockNext
    dsimp only
    split_ifs with hnext
    · refine h.step_of h.exclusive.unlock (fun j hj => Locks.unlock_other hj)
        (fun j hj => set_station_other hj) ?_
      rw [set_station]
      exact unlockNext_ok hok
    · refine h.set fun n => ?_
      by_contra hn
      exact (hok n hn).1 (not_not.mp hnext)

theorem reachable_inv (hpos : ∀ p, lockPos scheme = some p → p = (pos, pool))
    (h : (stations ι scheme).Reachable s) : Inv pos pool s :=
  h.invariant (fun _ hinit => inv_init hinit) fun _ _ hinv hstep => hinv.step hpos hstep

end Runs

theorem unlock_covers {s : State ι} {i : ι} (h : Covers (s.os i) (s.station i).data) :
    (∀ n, ((s.unlockFirst i).unlockNext i).os i n = none) ∧
      ∀ j ≠ i, ((s.unlockFirst i).unlockNext i).os j = s.os j := by
  have hstation : (s.unlockFirst i).station i = ⟨(s.station i).data, .unlocking⟩ := set_station
  have hfirst : ∀ n, (s.unlockFirst i).os i n = if (s.station i).data.offset ≤ n ∧
      n < (s.station i).data.offset + (s.station i).data.size then none else s.os i n :=
    fun n => Locks.unlock_self n
  unfold State.unlockNext
  rw [hstation]
  dsimp only
  refine ⟨fun n => ?_, fun j hj => ?_⟩
  · have hcovers := h n
    split_ifs with hnext
    · change (Locks.unlock _ _ _ _) i n = _
      rw [Locks.unlock_self, hfirst]
      split_ifs with hin hin'
      · rfl
      · rfl
      · by_contra hn
        have := hcovers.mp hn
        omega
    · change (s.unlockFirst i).os i n = _
      rw [hfirst]
      split_ifs with hin
      · rfl
      · by_contra hn
        have := hcovers.mp hn
        omega
  · have hother : (s.unlockFirst i).os j = s.os j := Locks.unlock_other hj
    split_ifs
    · exact (Locks.unlock_other hj).trans hother
    · exact hother

/-- While one station may write no other reads or writes; a station that has a lock has locked
exactly the ranges that its unlock releases, and none when it is through. -/
theorem idxLock_exclusion (scheme : Scheme) (s : State ι)
    (h : (stations ι scheme).Reachable s) :
    (∀ i j, Writes (s.station i) → Holds (s.station j) → i = j) ∧
      (∀ i, Holds (s.station i) → Covers (s.os i) (s.station i).data ∧
        (∀ n, ((s.unlockFirst i).unlockNext i).os i n = none) ∧
        ∀ j ≠ i, ((s.unlockFirst i).unlockNext i).os j = s.os j) ∧
      ∀ i, (s.station i).place = .idle → ∀ n, s.os i n = none := by
  obtain ⟨⟨pos, pool⟩, hpos⟩ : ∃ p, ∀ p', lockPos scheme = some p' → p' = p := by
    cases hscheme : lockPos scheme with
    | none => exact ⟨(0, 0), fun _ h => nomatch h⟩
    | some p => exact ⟨p, fun _ h => (some.inj h).symm⟩
  have hinv := reachable_inv hpos h
  refine ⟨fun i j hi hj => ?_, fun i hi => ?_, fun i hi => ?_⟩
  · obtain ⟨n, hlow, hhigh, hn⟩ := (hinv.ok j).some_locked hj
    have hok := hinv.ok_at hi
    exact hinv.exclusive i j n (hok.2 n hlow hhigh) hn
  · have hcovers := (hinv.ok i).covers hi
    exact ⟨hcovers, unlock_covers hcovers⟩
  · have hok := hinv.ok_at hi
    exact hok

def opened : State Nat := ⟨Locks.free, fun _ => ⟨⟨0, 0, 0, 0, .exclusive, 0⟩, .idle⟩⟩

def written : State Nat :=
  (opened.start 7 0xfffeffff 0x00010000 true false true).granted 7 true false .exclusive 0 0

theorem written_reachable : (stations Nat .comix).Reachable written := by
  have hopened : (stations Nat .comix).Reachable opened := .init ⟨rfl, fun _ => rfl⟩
  refine (hopened.step (Step.start (i := 7) true false true rfl rfl)).step
    (Step.granted 0 rfl (fun h => absurd rfl h) ?_)
  intro j _ n _ _ m hm
  exact nomatch hm

theorem idxLock_exclusion_written :
    (∀ i j, Writes (written.station i) → Holds (written.station j) → i = j) ∧
      (∀ i, Holds (written.station i) → Covers (written.os i) (written.station i).data ∧
        (∀ n, ((written.unlockFirst i).unlockNext i).os i n = none) ∧
        ∀ j ≠ i, ((written.unlockFirst i).unlockNext i).os j = written.os j) ∧
      ∀ i, (written.station i).place = .idle → ∀ n, written.os i n = none :=
  idxLock_exclusion .comix written written_reachable

end Harbour.Rdd.IdxLock
