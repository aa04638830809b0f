import Mathlib.Data.Finset.Card

/-!
A queue on which threads sleep while it is empty. Who puts an element in it wakes one of them, and
who has been woken may find that somebody else has taken the element.
-/

namespace Harbour.Library.WaitQueue

open List Finset

/-- Those who have been woken are not yet on. -/
structure Waiting (T E : Type*) where
  queue : List E
  asleep : Finset T
  woken : Finset T

variable {T E : Type*} [DecidableEq T]

namespace Waiting

variable (q : Waiting T E) (t : T) (roused : Finset T)

def waiters : Nat := q.asleep.card + q.woken.card

def rouse : Waiting T E := { q with asleep := q.asleep \ roused, woken := q.woken ∪ roused }

def send (elements : List E) : Waiting T E := { q with queue := q.queue ++ elements }

def clear : Waiting T E := { q with queue := [] }

/-- A thread that was woken, or that has not slept, falls asleep. -/
def park : Waiting T E := { q with asleep := insert t q.asleep, woken := q.woken.erase t }

/-- A thread that was woken, or that has not slept, goes on with the first element. -/
def leave : Waiting T E := { q with queue := q.queue.tail, woken := q.woken.erase t }

/-- What a signal wakes: one of those asleep at least, when there are any. -/
structure Signal : Prop where
  subset : roused ⊆ q.asleep
  nonempty : q.asleep.Nonempty → roused.Nonempty

end Waiting

/-- Nobody is both asleep and woken, and when somebody sleeps there is somebody woken for every
element. -/
structure Alert (q : Waiting T E) : Prop where
  disjoint : Disjoint q.asleep q.woken
  woken : q.asleep.Nonempty → q.queue.length ≤ q.woken.card

variable {q : Waiting T E} {t : T} {roused : Finset T}

omit [DecidableEq T] in
theorem alert_empty : Alert (⟨[], ∅, ∅⟩ : Waiting T E) :=
  ⟨disjoint_empty_left _, fun h => absurd h not_nonempty_empty⟩

omit [DecidableEq T] in
theorem Alert.woken_nonempty (h : Alert q) (hqueue : q.queue ≠ []) (hasleep : q.asleep.Nonempty) :
    q.woken.Nonempty := by
  apply card_pos.mp
  exact lt_of_lt_of_le (length_pos_of_ne_nil hqueue) (h.woken hasleep)

theorem Alert.disjoint_rouse (h : Alert q) :
    Disjoint (q.rouse roused).asleep (q.rouse roused).woken := by
  apply disjoint_union_right.mpr
  exact ⟨h.disjoint.mono_left sdiff_subset, sdiff_disjoint⟩

theorem card_rouse (hdisjoint : Disjoint q.asleep q.woken) (hsubset : roused ⊆ q.asleep) :
    (q.rouse roused).woken.card = q.woken.card + roused.card :=
  card_union_of_disjoint (hdisjoint.symm.mono_right hsubset)

theorem Alert.rouse (h : Alert q) (hsubset : roused ⊆ q.asleep) : Alert (q.rouse roused) := by
  refine ⟨h.disjoint_rouse, fun hasleep => ?_⟩
  rw [card_rouse h.disjoint hsubset]
  exact (h.woken (hasleep.mono sdiff_subset)).trans (Nat.le_add_right _ _)

theorem waiters_rouse (hdisjoint : Disjoint q.asleep q.woken) (hsubset : roused ⊆ q.asleep) :
    (q.rouse roused).waiters = q.waiters := by
  unfold Waiting.waiters
  rw [card_rouse hdisjoint hsubset]
  change (q.asleep \ roused).card + _ = _
  rw [card_sdiff_of_subset hsubset]
  have hle := card_le_card hsubset
  omega

omit [DecidableEq T] in
theorem Alert.send_idle (h : Alert q) (hwaiters : q.waiters = 0) (elements : List E) :
    Alert (q.send elements) := by
  refine ⟨h.disjoint, fun hasleep => ?_⟩
  have hpos := card_pos.mpr hasleep
  change 0 < q.asleep.card at hpos
  unfold Waiting.waiters at hwaiters
  omega

theorem Alert.send (h : Alert q) (hsignal : q.Signal roused) (e : E) :
    Alert ((q.send [e]).rouse roused) := by
  refine ⟨h.disjoint_rouse, fun hasleep => ?_⟩
  have hsome : q.asleep.Nonempty := hasleep.mono sdiff_subset
  have hcard : (q.woken ∪ roused).card = q.woken.card + roused.card :=
    card_rouse h.disjoint hsignal.subset
  have hroused := card_pos.mpr (hsignal.nonempty hsome)
  have hlength := h.woken hsome
  change (q.queue ++ [e]).length ≤ (q.woken ∪ roused).card
  rw [length_append, length_singleton, hcard]
  omega

/-- As many elements as there are waiters for whom there is none yet: one signal is enough for one
element, since all others that wait have been woken. -/
theorem Alert.sendAll (h : Alert q) {elements : List E}
    (hlength : q.queue.length + elements.length = q.waiters) (hsignal : q.Signal roused)
    (hall : elements.length ≠ 1 → roused = q.asleep) : Alert ((q.send elements).rouse roused) := by
  refine ⟨h.disjoint_rouse, fun hasleep => ?_⟩
  have hsome : q.asleep.Nonempty := hasleep.mono sdiff_subset
  exfalso
  by_cases hone : elements.length = 1
  · have hwoken := h.woken hsome
    have hroused := card_pos.mpr (hsignal.nonempty hsome)
    have hrest : 0 < (q.asleep \ roused).card := card_pos.mpr hasleep
    rw [card_sdiff_of_subset hsignal.subset] at hrest
    unfold Waiting.waiters at hlength
    omega
  · rw [hall hone] at hasleep
    change (q.asleep \ q.asleep).Nonempty at hasleep
    rw [sdiff_self] at hasleep
    exact not_nonempty_empty hasleep

omit [DecidableEq T] in
theorem Alert.clear (h : Alert q) : Alert q.clear :=
  ⟨h.disjoint, fun _ => Nat.zero_le _⟩

theorem Alert.park (h : Alert q) (hqueue : q.queue = []) : Alert (q.park t) := by
  constructor
  · apply disjoint_insert_left.mpr
    exact ⟨notMem_erase t _, h.disjoint.mono_right (erase_subset _ _)⟩
  · intro _
    change q.queue.length ≤ _
    rw [hqueue]
    exact Nat.zero_le _

theorem Alert.leave (h : Alert q) : Alert (q.leave t) := by
  refine ⟨h.disjoint.mono_right (erase_subset _ _), fun hasleep => ?_⟩
  have hwoken := h.woken hasleep
  have herase := pred_card_le_card_erase (s := q.woken) (a := t)
  change q.queue.tail.length ≤ (q.woken.erase t).card
  rw [length_tail]
  omega

theorem waiters_park_woken (hasleep : t ∉ q.asleep) (hwoken : t ∈ q.woken) :
    (q.park t).waiters = q.waiters := by
  have hpos := card_pos.mpr ⟨t, hwoken⟩
  unfold Waiting.waiters Waiting.park
  rw [card_insert_of_notMem hasleep, card_erase_of_mem hwoken]
  omega

theorem waiters_park_away (hasleep : t ∉ q.asleep) (hwoken : t ∉ q.woken) :
    (q.park t).waiters = q.waiters + 1 := by
  unfold Waiting.waiters Waiting.park
  dsimp only
  rw [card_insert_of_notMem hasleep, erase_eq_of_notMem hwoken]
  omega

theorem waiters_leave_woken (hwoken : t ∈ q.woken) : (q.leave t).waiters = q.waiters - 1 := by
  have hpos := card_pos.mpr ⟨t, hwoken⟩
  unfold Waiting.waiters Waiting.leave
  dsimp only
  rw [card_erase_of_mem hwoken]
  omega

theorem waiters_leave_away (hwoken : t ∉ q.woken) : (q.leave t).waiters = q.waiters := by
  unfold Waiting.waiters Waiting.leave
  rw [erase_eq_of_notMem hwoken]

end Harbour.Library.WaitQueue
