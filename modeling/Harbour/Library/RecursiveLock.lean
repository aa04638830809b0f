import Mathlib.Data.Finset.Card
import Mathlib.Logic.Function.Basic
import Mathlib.Logic.Relation

/-!
Recursive locks with threads that wait for them asleep, that may be woken at any time, and that may
give a lock up for a while and take it back as deep as it was.
-/

namespace Harbour.Library.RecursiveLock

open Function Finset

inductive Wait where
  | away
  | asleep
  | woken
  deriving DecidableEq, Repr

/-- What a thread has to do with a lock that it does not own: whether it waits for it, and how deep
it held the lock that it gave up. -/
structure Part where
  wait : Wait
  saved : Nat
  deriving DecidableEq, Repr

def Part.none : Part := ⟨.away, 0⟩

/-- `depth` is how often each thread has taken the lock and not released it. -/
structure Lock (T : Type*) where
  owner : Option T
  count : Nat
  waiters : Nat
  part : T → Part
  depth : T → Nat

variable {T : Type*}

def Wakes (part part' : T → Part) : Prop :=
  ∀ t, part' t = part t ∨ (part t).wait = .asleep ∧ part' t = ⟨.woken, (part t).saved⟩

/-- When there are threads asleep, one of them at least has been woken. There is no need to look for
them when nobody is counted. -/
def Signals (waiters : Nat) (part part' : T → Part) : Prop :=
  Wakes part part' ∧
    (waiters ≠ 0 → (∃ t, (part t).wait = .asleep) → ∃ t, (part' t).wait = .woken)

section Move

variable [DecidableEq T]

/-- What threads do with a lock. A thread that is not asleep takes the lock when it is free, whether
it has waited for it or not. -/
inductive Move (L : Lock T) : Lock T → Prop
  | wake (part : T → Part) : Wakes L.part part → Move L { L with part := part }
  | nest (t : T) : L.owner = some t →
      Move L { L with count := L.count + 1, depth := update L.depth t (L.depth t + 1) }
  | unnest (t : T) : L.owner = some t → L.count - 1 ≠ 0 →
      Move L { L with count := L.count - 1, depth := update L.depth t (L.depth t - 1) }
  | unlock (t : T) (part : T → Part) : L.owner = some t → L.count - 1 = 0 →
    Signals L.waiters L.part part →
      Move L { L with owner := none, count := 0, part := part,
                      depth := update L.depth t (L.depth t - 1) }
  | giveUp (t : T) (part : T → Part) : L.owner = some t → (L.part t).wait = .away →
      Signals L.waiters (update L.part t ⟨.away, L.count⟩) part →
      Move L { L with owner := none, count := 0, part := part }
  | sleep (t : T) (n : Nat) : L.count ≠ 0 → L.part t = ⟨.away, n⟩ →
      Move L { L with waiters := L.waiters + 1, part := update L.part t ⟨.asleep, n⟩ }
  | again (t : T) (n : Nat) : L.count ≠ 0 → L.part t = ⟨.woken, n⟩ →
      Move L { L with part := update L.part t ⟨.asleep, n⟩ }
  | leave (t : T) (n : Nat) : L.count ≠ 0 → L.part t = ⟨.woken, n⟩ →
      Move L { L with waiters := L.waiters - 1, part := update L.part t ⟨.away, n⟩ }
  | take (t : T) : L.count = 0 → L.part t = ⟨.away, 0⟩ →
      Move L { L with owner := some t, count := 1,
                      depth := update L.depth t (L.depth t + 1) }
  | takeWoken (t : T) : L.count = 0 → L.part t = ⟨.woken, 0⟩ →
      Move L { L with owner := some t, count := 1, waiters := L.waiters - 1,
                      part := update L.part t ⟨.away, 0⟩,
                      depth := update L.depth t (L.depth t + 1) }
  | takeBack (t : T) (n : Nat) : L.owner = none ∨ L.count = 0 → n ≠ 0 → L.part t = ⟨.away, n⟩ →
      Move L { L with owner := some t, count := n, part := update L.part t ⟨.away, 0⟩ }
  | takeBackWoken (t : T) (n : Nat) : L.count = 0 → n ≠ 0 → L.part t = ⟨.woken, n⟩ →
      Move L { L with owner := some t, count := n, waiters := L.waiters - 1,
                      part := update L.part t ⟨.away, 0⟩ }

end Move

def Counted (part : T → Part) (n : Nat) : Prop :=
  ∃ waiting : Finset T, waiting.card = n ∧ ∀ t, t ∈ waiting ↔ (part t).wait ≠ .away

/-- The threads that wait are counted, and no thread sleeps on a free lock unless another has been
woken for it. -/
structure Sound (L : Lock T) : Prop where
  owner_iff : L.owner = none ↔ L.count = 0
  held : ∀ t, L.owner = some t → L.count = L.depth t ∧ (L.part t).saved = 0
  others : ∀ t, L.owner ≠ some t → (L.part t).saved = L.depth t
  waiters : Counted L.part L.waiters
  awake : L.count = 0 → (∃ t, (L.part t).wait = .asleep) → ∃ t, (L.part t).wait = .woken

section Parts

variable {part part' : T → Part}

section

variable (h : Wakes part part')

include h

theorem Wakes.saved (t : T) : (part' t).saved = (part t).saved := by
  rcases h t with heq | ⟨-, heq⟩
  · rw [heq]
  · rw [heq]

theorem Wakes.away_iff (t : T) : (part' t).wait ≠ .away ↔ (part t).wait ≠ .away := by
  rcases h t with heq | ⟨hasleep, heq⟩
  · rw [heq]
  · rw [heq, hasleep]
    exact iff_of_true nofun nofun

theorem Wakes.counted {n : Nat} (hcounted : Counted part n) : Counted part' n := by
  obtain ⟨waiting, hcard, hmem⟩ := hcounted
  exact ⟨waiting, hcard, fun t => (hmem t).trans (h.away_iff t).symm⟩

theorem Wakes.woken {t : T} (hwoken : (part t).wait = .woken) : (part' t).wait = .woken := by
  rcases h t with heq | ⟨hasleep, -⟩
  · rw [heq, hwoken]
  · rw [hwoken] at hasleep
    exact nomatch hasleep

theorem Wakes.asleep {t : T} (hasleep : (part' t).wait = .asleep) : (part t).wait = .asleep := by
  rcases h t with heq | ⟨hbefore, -⟩
  · rw [← heq, hasleep]
  · exact hbefore

end

end Parts

section Count

variable {part part' : T → Part} {n : Nat} {t : T} {p : Part}

theorem Counted.ne_zero (h : Counted part n) (hwaits : (part t).wait ≠ .away) : n ≠ 0 := by
  obtain ⟨waiting, rfl, hmem⟩ := h
  exact card_ne_zero_of_mem ((hmem t).mpr hwaits)

theorem Counted.awake (h : Counted part n) (hsignals : Signals n part part')
    (hasleep : ∃ t, (part' t).wait = .asleep) : ∃ t, (part' t).wait = .woken := by
  obtain ⟨t, ht⟩ := hasleep
  have hbefore := hsignals.1.asleep ht
  refine hsignals.2 (h.ne_zero (t := t) ?_) ⟨t, hbefore⟩
  rw [hbefore]
  exact nofun

variable [DecidableEq T]

theorem Counted.same (h : Counted part n) (hp : p.wait ≠ .away ↔ (part t).wait ≠ .away) :
    Counted (update part t p) n := by
  obtain ⟨waiting, hcard, hmem⟩ := h
  refine ⟨waiting, hcard, fun t' => ?_⟩
  by_cases ht : t' = t
  · subst ht
    rw [update_self, hp, hmem]
  · rw [update_of_ne ht, hmem]

theorem Counted.arrive (h : Counted part n) (haway : (part t).wait = .away)
    (hp : p.wait ≠ .away) : Counted (update part t p) (n + 1) := by
  obtain ⟨waiting, hcard, hmem⟩ := h
  refine ⟨insert t waiting, ?_, fun t' => ?_⟩
  · rw [card_insert_of_notMem, hcard]
    rw [hmem, haway]
    exact fun hne => hne rfl
  · rw [mem_insert]
    by_cases ht : t' = t
    · subst ht
      rw [update_self]
      exact iff_of_true (.inl rfl) hp
    · rw [update_of_ne ht, hmem]
      exact or_iff_right ht

theorem Counted.depart (h : Counted part n) (hwaits : (part t).wait ≠ .away)
    (hp : p.wait = .away) : Counted (update part t p) (n - 1) := by
  obtain ⟨waiting, hcard, hmem⟩ := h
  refine ⟨waiting.erase t, ?_, fun t' => ?_⟩
  · rw [card_erase_of_mem ((hmem t).mpr hwaits), hcard]
  · rw [mem_erase]
    by_cases ht : t' = t
    · subst ht
      rw [update_self]
      exact iff_of_false (fun hne => hne.1 rfl) (fun hne => hne hp)
    · rw [update_of_ne ht, hmem]
      exact and_iff_right ht

end Count

section Sound

variable {L L' : Lock T}

theorem sound_owned {t : T} {count waiters : Nat} {part : T → Part} {depth : T → Nat}
    (hcount : count ≠ 0) (hdepth : count = depth t) (hsaved : (part t).saved = 0)
    (hothers : ∀ t', t' ≠ t → (part t').saved = depth t') (hcounted : Counted part waiters) :
    Sound ⟨some t, count, waiters, part, depth⟩ where
  owner_iff := iff_of_false nofun hcount
  held t' ht' := by
    obtain rfl : t = t' := Option.some.inj ht'
    exact ⟨hdepth, hsaved⟩
  others t' ht' := hothers t' fun heq => ht' (congrArg some heq.symm)
  waiters := hcounted
  awake hfree := absurd hfree hcount

theorem sound_free {waiters : Nat} {part : T → Part} {depth : T → Nat}
    (hsaved : ∀ t, (part t).saved = depth t) (hcounted : Counted part waiters)
    (hawake : (∃ t, (part t).wait = .asleep) → ∃ t, (part t).wait = .woken) :
    Sound ⟨none, 0, waiters, part, depth⟩ where
  owner_iff := iff_of_true rfl rfl
  held _ ht := nomatch ht
  others t _ := hsaved t
  waiters := hcounted
  awake _ := hawake

theorem Sound.rearrange (h : Sound L) (hheld : L.count ≠ 0) {part : T → Part} {n : Nat}
    (hsaved : ∀ t, (part t).saved = (L.part t).saved) (hcounted : Counted part n) :
    Sound { L with waiters := n, part := part } where
  owner_iff := h.owner_iff
  held t ht := ⟨(h.held t ht).1, (hsaved t).trans (h.held t ht).2⟩
  others t ht := (hsaved t).trans (h.others t ht)
  waiters := hcounted
  awake hfree := absurd hfree hheld

theorem Sound.count_ne_zero (h : Sound L) {t : T} (howner : L.owner = some t) : L.count ≠ 0 := by
  intro hfree
  rw [h.owner_iff.mpr hfree] at howner
  exact nomatch howner

theorem Sound.other (h : Sound L) {t t' : T} (howner : L.owner = some t) (hne : t' ≠ t) :
    (L.part t').saved = L.depth t' := by
  apply h.others
  rw [howner]
  exact fun heq => hne (Option.some.inj heq).symm

theorem Sound.free (h : Sound L) (hfree : L.count = 0) (t : T) : (L.part t).saved = L.depth t := by
  apply h.others
  rw [h.owner_iff.mpr hfree]
  exact nofun

variable [DecidableEq T]

theorem saved_update {part : T → Part} {t : T} {wait wait' : Wait} {n : Nat}
    (hpart : part t = ⟨wait, n⟩) (t' : T) :
    (update part t ⟨wait', n⟩ t').saved = (part t').saved := by
  by_cases ht : t' = t
  · subst ht
    rw [update_self, hpart]
  · rw [update_of_ne ht]

theorem Move.sound (hmove : Move L L') (h : Sound L) : Sound L' := by
  cases hmove with
  | wake part hwakes =>
    refine ⟨h.owner_iff, fun t ht => ⟨(h.held t ht).1, ?_⟩, fun t ht => ?_, ?_, ?_⟩
    · exact (hwakes.saved t).trans (h.held t ht).2
    · exact (hwakes.saved t).trans (h.others t ht)
    · exact hwakes.counted h.waiters
    · rintro hfree ⟨t, hasleep⟩
      obtain ⟨t', hwoken⟩ := h.awake hfree ⟨t, hwakes.asleep hasleep⟩
      exact ⟨t', hwakes.woken hwoken⟩
  | nest t howner =>
    obtain ⟨hdepth, hsaved⟩ := h.held t howner
    rw [howner]
    refine sound_owned (Nat.succ_ne_zero _) ?_ hsaved ?_ h.waiters
    · rw [update_self, hdepth]
    · intro t' ht
      rw [update_of_ne ht]
      exact h.other howner ht
  | unnest t howner hmore =>
    obtain ⟨hdepth, hsaved⟩ := h.held t howner
    rw [howner]
    refine sound_owned hmore ?_ hsaved ?_ h.waiters
    · rw [update_self, hdepth]
    · intro t' ht
      rw [update_of_ne ht]
      exact h.other howner ht
  | unlock t part howner hlast hsignals =>
    obtain ⟨hdepth, hsaved⟩ := h.held t howner
    refine sound_free ?_ (hsignals.1.counted h.waiters) (h.waiters.awake hsignals)
    intro t'
    rw [hsignals.1.saved]
    by_cases ht : t' = t
    · subst ht
      rw [update_self, hsaved, ← hdepth, hlast]
    · rw [update_of_ne ht]
      exact h.other howner ht
  | giveUp t part howner haway hsignals =>
    obtain ⟨hdepth, -⟩ := h.held t howner
    have hcounted : Counted (update L.part t ⟨.away, L.count⟩) L.waiters := by
      apply h.waiters.same
      rw [haway]
    refine sound_free ?_ (hsignals.1.counted hcounted) (hcounted.awake hsignals)
    intro t'
    rw [hsignals.1.saved]
    by_cases ht : t' = t
    · subst ht
      rw [update_self, hdepth]
    · rw [update_of_ne ht]
      exact h.other howner ht
  | sleep t n hheld hpart =>
    exact h.rearrange hheld (saved_update hpart) (h.waiters.arrive (by rw [hpart]) nofun)
  | again t n hheld hpart =>
    refine h.rearrange hheld (saved_update hpart) (h.waiters.same ?_)
    rw [hpart]
    exact iff_of_true nofun nofun
  | leave t n hheld hpart =>
    refine h.rearrange hheld (saved_update hpart) (h.waiters.depart ?_ rfl)
    rw [hpart]
    exact nofun
  | take t hfree hpart =>
    have hdepth : L.depth t = 0 := by rw [← h.free hfree t, hpart]
    refine sound_owned Nat.one_ne_zero ?_ (by rw [hpart]) ?_ h.waiters
    · rw [update_self, hdepth]
    · intro t' ht
      rw [update_of_ne ht]
      exact h.free hfree t'
  | takeWoken t hfree hpart =>
    have hdepth : L.depth t = 0 := by rw [← h.free hfree t, hpart]
    refine sound_owned Nat.one_ne_zero ?_ (by rw [update_self]) ?_
      (h.waiters.depart (by rw [hpart]; exact nofun) rfl)
    · rw [update_self, hdepth]
    · intro t' ht
      rw [update_of_ne ht, update_of_ne ht]
      exact h.free hfree t'
  | takeBack t n hnone hn hpart =>
    have hfree : L.count = 0 := hnone.elim h.owner_iff.mp id
    refine sound_owned hn ?_ (by rw [update_self]) ?_
      (h.waiters.same (by rw [hpart]))
    · rw [← h.free hfree t, hpart]
    · intro t' ht
      rw [update_of_ne ht]
      exact h.free hfree t'
  | takeBackWoken t n hfree hn hpart =>
    refine sound_owned hn ?_ (by rw [update_self]) ?_
      (h.waiters.depart (by rw [hpart]; exact nofun) rfl)
    · rw [← h.free hfree t, hpart]
    · intro t' ht
      rw [update_of_ne ht]
      exact h.free hfree t'

theorem Sound.moves (h : Sound L) (hmoves : Relation.ReflTransGen Move L L') : Sound L' := by
  induction hmoves with
  | refl => exact h
  | tail _ hmove ih => exact hmove.sound ih

end Sound

end Harbour.Library.RecursiveLock
