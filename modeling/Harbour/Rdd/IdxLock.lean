import Harbour.Library.RangeList
import Harbour.Library.Loops
import Mathlib.Tactic.ByContra

/-!
The locks that stations set in an index file before they read or write it.
-/

namespace Harbour.Rdd.IdxLock

open Library.RangeLocks Library.Transitions

inductive Scheme where
  | none
  | clipper
  | clipper2
  | comix
  | vfp
  | hb32
  | hb64
deriving DecidableEq, Repr

structure LockData where
  offset : Nat
  size : Nat
  next : Nat
  tolock : Nat
  mode : Mode
  count : Nat
deriving DecidableEq, Repr

def lockPos : Scheme → Option (Nat × Nat)
  | .none => Option.none
  | .clipper => some (1000000000, 0)
  | .clipper2 => some (1000000000, 0)
  | .comix => some (0xfffeffff, 0x00010000)
  | .vfp => some (0x7ffffffe, 0)
  | .hb32 => some (0xfffeffff, 0x00010000)
  | .hb64 => some (0x7FFFFFFF00000001, 0x00010000)

/-- Where a station is in its calls. While it tries, `mode`, `wait` and `tolock` are local to the
call. `fWrite` tells that the exclusive lock was asked for, `fLate` that its range may be completed
later by a call of its own. -/
inductive Place where
  | idle
  | trying (fWrite fLate : Bool) (mode : Mode) (wait : Bool) (tolock : Nat)
  | writing (fLate : Bool)
  | locked (fWrite complete : Bool)
  | unlocking
deriving DecidableEq, Repr

structure Station where
  data : LockData
  place : Place

structure State (ι : Type*) where
  os : Locks ι
  station : ι → Station

variable {ι : Type*} [DecidableEq ι]

def State.set (s : State ι) (i : ι) (data : LockData) (place : Place) : State ι :=
  { s with station := Function.update s.station i ⟨data, place⟩ }

def LockData.reset (data : LockData) : LockData :=
  { data with offset := 0, size := 0, next := 0, tolock := 0, mode := .exclusive }

section Calls

variable (pos pool : Nat)

/-- The data and the mode with which a call starts to try: every sixteenth reader locks
exclusively. -/
def startLock (data : LockData) (mode : Mode) : LockData × Mode :=
  let data := { data with offset := pos, size := pool, next := 0, tolock := 0, mode := .exclusive }
  if data.size ≠ 0 ∧ mode = .shared then
    if data.count + 1 ≥ 16 then ({ data with size := 0, count := 0 }, .exclusive)
    else ({ data with count := data.count + 1 }, mode)
  else ({ data with count := 0 }, mode)

/-- The range that a pass of the loop asks for, with a byte of the pool that is drawn by chance. -/
def tryRange (data : LockData) (random : Nat) : Nat × Nat :=
  if data.count ≠ 0 then (data.offset + (random + 1), 1)
  else if data.size ≠ 0 then (data.offset, data.size + 1)
  else (data.offset, 1)

end Calls

section Steps

variable (scheme : Scheme) (s : State ι) (i : ι)

def State.lock (first len : Nat) (mode : Mode) : State ι :=
  { s with os := s.os.lock i first len mode }

def State.unlock (first len : Nat) : State ι := { s with os := s.os.unlock i first len }

/-- `hb_dbfLockIdxFile` to lock, up to its loop. -/
def State.start (pos pool : Nat) (fWrite fLate wait : Bool) : State ι :=
  let started := startLock pos pool (s.station i).data (if fWrite then .exclusive else .shared)
  s.set i started.1 (.trying fWrite fLate started.2 wait 0)

def State.granted (fWrite fLate : Bool) (mode : Mode) (tolock random : Nat) : State ι :=
  let data := (s.station i).data
  let (offset, size) := tryRange data random
  (s.lock i offset size mode).set i
    { data with offset := offset, size := size, tolock := tolock, mode := mode }
    (if fLate = false ∧ tolock ≠ 0 then .writing false else .locked fWrite (tolock = 0))

/-- A pass of the loop of a call that waits in which the range is refused. -/
def State.again (fWrite fLate : Bool) (mode : Mode) (random : Nat) : State ι :=
  let data := (s.station i).data
  let size := (tryRange data random).2
  if size > 1 then
    s.set i { data with size := 0 } (.trying fWrite fLate mode true (size - 1))
  else s

def State.written : State ι :=
  let data := (s.station i).data
  (s.lock i (data.offset + data.size) data.tolock data.mode).set i
    { data with next := data.tolock, tolock := 0 } (.locked true true)

/-- `hb_dbfLockIdxFile` to unlock, up to the second range. -/
def State.unlockFirst : State ι :=
  (s.unlock i (s.station i).data.offset (s.station i).data.size).set i (s.station i).data .unlocking

def State.unlockNext : State ι :=
  let data := (s.station i).data
  (if data.next ≠ 0 then s.unlock i (data.offset + data.size) data.next else s).set
    i data.reset .idle

end Steps

inductive Step (scheme : Scheme) : State ι → State ι → Prop
  | noScheme {s : State ι} {i : ι} (hidle : (s.station i).place = .idle)
      (hnone : lockPos scheme = none) : Step scheme s (s.set i (s.station i).data.reset .idle)
  | start {s : State ι} {i : ι} {pos pool : Nat} (fWrite fLate wait : Bool)
      (hidle : (s.station i).place = .idle) (hpos : lockPos scheme = some (pos, pool)) :
      Step scheme s (s.start i pos pool fWrite fLate wait)
  | granted {s : State ι} {i : ι} {fWrite fLate wait : Bool} {mode : Mode} {tolock : Nat}
      (random : Nat) (hplace : (s.station i).place = .trying fWrite fLate mode wait tolock)
      (hrandom : (s.station i).data.count ≠ 0 → random < (s.station i).data.size)
      (hgrant : s.os.Grantable i (tryRange (s.station i).data random).1
        (tryRange (s.station i).data random).2 mode) :
      Step scheme s (s.granted i fWrite fLate mode tolock random)
  | refused {s : State ι} {i : ι} {fWrite fLate : Bool} {mode : Mode} {tolock : Nat}
      (hplace : (s.station i).place = .trying fWrite fLate mode false tolock) :
      Step scheme s (s.set i (s.station i).data.reset .idle)
  | again {s : State ι} {i : ι} {fWrite fLate : Bool} {mode : Mode} {tolock : Nat} (random : Nat)
      (hplace : (s.station i).place = .trying fWrite fLate mode true tolock) :
      Step scheme s (s.again i fWrite fLate mode random)
  | lockWrite {s : State ι} {i : ι} (hplace : (s.station i).place = .locked true false) :
      Step scheme s (s.set i (s.station i).data (.writing true))
  | written {s : State ι} {i : ι} {fLate : Bool} (hplace : (s.station i).place = .writing fLate)
      (hgrant : s.os.Grantable i ((s.station i).data.offset + (s.station i).data.size)
        (s.station i).data.tolock (s.station i).data.mode) :
      Step scheme s (s.written i)
  | unlockFirst {s : State ι} {i : ι} {fWrite complete : Bool}
      (hplace : (s.station i).place = .locked fWrite complete) : Step scheme s (s.unlockFirst i)
  | unlockNext {s : State ι} {i : ι} (hplace : (s.station i).place = .unlocking) :
      Step scheme s (s.unlockNext i)

def stations (ι : Type*) [DecidableEq ι] (scheme : Scheme) : System (State ι) where
  init s := s.os = Locks.free ∧ ∀ i, (s.station i).place = .idle
  step := Step scheme

def Covers (locked : Nat → Option Mode) (data : LockData) : Prop :=
  ∀ n, locked n ≠ none ↔ data.offset ≤ n ∧ n < data.offset + data.size + data.next

structure Tries (pos pool : Nat) (data : LockData) (fWrite : Bool) (mode : Mode) (tolock : Nat) :
    Prop where
  offset : data.offset = pos
  next : data.next = 0
  tolock_pool : tolock = 0 ∨ tolock = pool ∧ data.size = 0
  write : fWrite = true → mode = .exclusive ∧ data.count = 0 ∧ (tolock = 0 → data.size = pool)
  read : fWrite = false → tolock = 0 ∧ (data.count ≠ 0 ∧ data.size = pool ∨
    data.count = 0 ∧ data.size = 0)

/-- A station has locked the first byte only, of a range that it has to lock as a whole. -/
structure Waits (pos pool : Nat) (locked : Nat → Option Mode) (data : LockData) : Prop where
  offset : data.offset = pos
  size : data.size = 1
  next : data.next = 0
  tolock : data.tolock = pool
  mode : data.mode = .exclusive
  covers : Covers locked data
  first : locked pos = some .exclusive

def Ok (pos pool : Nat) (locked : Nat → Option Mode) (station : Station) : Prop :=
  match station.place with
  | .idle => ∀ n, locked n = none
  | .trying fWrite _ mode _ tolock =>
    (∀ n, locked n = none) ∧ Tries pos pool station.data fWrite mode tolock
  | .writing _ => Waits pos pool locked station.data
  | .locked true false => Waits pos pool locked station.data
  | .locked true true => Covers locked station.data ∧
      ∀ n, pos ≤ n → n ≤ pos + pool → locked n = some .exclusive
  | .locked false complete => complete = true ∧ Covers locked station.data ∧
      ∃ n, pos ≤ n ∧ n ≤ pos + pool ∧ locked n ≠ none
  | .unlocking => ∀ n, locked n ≠ none →
      station.data.next ≠ 0 ∧ station.data.offset + station.data.size ≤ n ∧
        n < station.data.offset + station.data.size + station.data.next

end Harbour.Rdd.IdxLock
