import Harbour.Vm.GarbageListSteps

/-!
Runs of the collector: what every call and return keeps, and the calls of clean-up functions that
the lists do not survive.
-/

namespace Harbour.Vm.GarbageLists

open Library.Transitions List Option Finset
open Harbour.Vm.Garbage (Used)

variable {β : Type*} {p q : Pool β} {stack : List (Frame β)} {frame : Frame β} {b : β}

/-- The calls that hold a block of their own. -/
def Frame.owner : Frame β → Bool
  | .refFree _ | .allocRaw _ => true
  | _ => false

/-- What the calls that wait for others know of their blocks. -/
structure Stacked (p : Pool β) (stack : List (Frame β)) : Prop where
  clearing : ∀ b, .refFree b ∈ stack →
    b ∈ p.live ∧ (p.used b).delete = true ∧ (p.used b).deletelst = false
  pending : ∀ b, .allocRaw b ∈ stack → b ∉ p.live
  once : (stack.filter Frame.owner).Nodup

theorem Stacked.push (hstacked : Stacked p stack) (howner : frame.owner = false) :
    Stacked p (frame :: stack) := by
  refine ⟨fun b hb => ?_, fun b hb => ?_, ?_⟩
  · rcases mem_cons.mp hb with rfl | hb
    · exact absurd howner.symm Bool.false_ne_true
    · exact hstacked.clearing b hb
  · rcases mem_cons.mp hb with rfl | hb
    · exact absurd howner.symm Bool.false_ne_true
    · exact hstacked.pending b hb
  · rw [filter_cons_of_neg (by simp [howner])]
    exact hstacked.once

theorem Stacked.pop (hstacked : Stacked p (frame :: stack)) : Stacked p stack :=
  ⟨fun b hb => hstacked.clearing b (mem_cons_of_mem frame hb),
    fun b hb => hstacked.pending b (mem_cons_of_mem frame hb),
    hstacked.once.sublist ((sublist_cons_self frame stack).filter Frame.owner)⟩

theorem Stacked.not_mem (hstacked : Stacked p (frame :: stack)) (howner : frame.owner = true) :
    frame ∉ stack := by
  have honce := hstacked.once
  rw [filter_cons_of_pos howner, nodup_cons] at honce
  exact fun h => honce.1 (mem_filter.mpr ⟨h, howner⟩)

section

variable (hstacked : Stacked p stack)

include hstacked

theorem Stacked.congr (hlive : ∀ b, .refFree b ∈ stack → b ∈ p.live → b ∈ q.live)
    (hdelete : ∀ b, .refFree b ∈ stack → (q.used b).delete = (p.used b).delete)
    (hdeletelst : ∀ b, .refFree b ∈ stack → (q.used b).deletelst = (p.used b).deletelst)
    (hpending : ∀ b, .allocRaw b ∈ stack → b ∉ p.live → b ∉ q.live) : Stacked q stack := by
  refine ⟨fun b hb => ?_, fun b hb => hpending b hb (hstacked.pending b hb), hstacked.once⟩
  obtain ⟨hin, hdel, hlst⟩ := hstacked.clearing b hb
  exact ⟨hlive b hb hin, (hdelete b hb).trans hdel, (hdeletelst b hb).trans hlst⟩

theorem Stacked.touch (hlive : q.live = p.live) (hused : ∀ x, x ≠ b → q.used x = p.used x)
    (hb : .refFree b ∉ stack) : Stacked q stack := by
  have hne : ∀ x, .refFree x ∈ stack → q.used x = p.used x := by
    intro x hx
    refine hused x ?_
    rintro rfl
    exact hb hx
  refine hstacked.congr (fun x _ hx => hlive ▸ hx) (fun x hx => ?_) (fun x hx => ?_)
    fun x _ hx => hlive ▸ hx
  · rw [hne x hx]
  · rw [hne x hx]

theorem Stacked.same (hlive : q.live = p.live) (hused : q.used = p.used) : Stacked q stack :=
  hstacked.congr (fun _ _ hx => hlive ▸ hx) (fun _ _ => by rw [hused]) (fun _ _ => by rw [hused])
    fun _ _ hx => hlive ▸ hx

theorem Stacked.not_clearing (hdelete : (p.used b).delete = false) : .refFree b ∉ stack := fun h =>
  Bool.false_ne_true (hdelete.symm.trans (hstacked.clearing b h).2.1)

theorem Stacked.not_clearing_deleted (hdeletelst : (p.used b).deletelst = true) :
    .refFree b ∉ stack := fun h =>
  Bool.false_ne_true ((hstacked.clearing b h).2.2.symm.trans hdeletelst)

theorem Stacked.gcMark (reached : β → Bool) : Stacked (p.gcMark reached) stack := by
  have hused : ∀ x, ((p.gcMark reached).used x).delete = (p.used x).delete ∧
      ((p.gcMark reached).used x).deletelst = (p.used x).deletelst := by
    intro x
    unfold Pool.gcMark
    dsimp only
    split_ifs
    · exact ⟨rfl, rfl⟩
    · exact ⟨rfl, rfl⟩
  exact hstacked.congr (fun _ _ => id) (fun x _ => (hused x).1) (fun x _ => (hused x).2)
    fun _ _ => id

end

structure Inv (s : State β) : Prop where
  sound : Sound s.pool
  stacked : Stacked s.pool s.stack

variable {s s' : State β} {c : Call β}

theorem Inv.init (hinit : Init s) : Inv s := by
  obtain ⟨hstack, hlive, hfreed, hheads⟩ := hinit
  refine ⟨⟨⟨fun _ => [], ⟨fun _ => Library.RingList.Links.ring_nil, hheads, ?_⟩, ?_⟩, ?_, ?_⟩,
    ?_, ?_, ?_⟩
  · intro i j _ b hb
    exact absurd hb not_mem_nil
  · intro i b
    simp [Pool.Stands, hlive]
  · simp [hfreed]
  · simp [hlive]
  · simp [hstack]
  · simp [hstack]
  · simp [hstack]

theorem Inv.collectAll (hinv : Inv s) (reached : β → Bool) : Inv (s.collectAll reached) := by
  unfold State.collectAll
  split_ifs
  · exact hinv
  · refine ⟨?_, ?_⟩
    · exact (hinv.sound.gcMark reached).congr rfl rfl rfl rfl (fun _ _ => id) (fun _ _ => rfl)
        fun _ _ => rfl
    · have hmarked := (hinv.stacked.gcMark reached).same
        (q := { s.pool.gcMark reached with collecting := true }) rfl rfl
      exact Stacked.push hmarked rfl

theorem Inv.releaseNext (hsound : Sound p) (hstacked : Stacked p stack) :
    Inv (State.releaseNext p stack) := by
  unfold State.releaseNext
  split
  · exact ⟨hsound, Stacked.push hstacked rfl⟩
  · exact ⟨hsound.congr rfl rfl rfl rfl (fun _ _ => id) (fun _ _ => rfl) fun _ _ => rfl,
      hstacked.same rfl rfl⟩

variable [DecidableEq β]

section

variable (hstacked : Stacked p stack)

include hstacked

theorem Stacked.garbageNew {n : Nat} {i : ListId} (hb : b ∉ p.live)
    (hpending : .allocRaw b ∉ stack) :
    Stacked ((p.garbageNew b n).gcLink i b) stack := by
  have hlive : ((p.garbageNew b n).gcLink i b).live = insert b p.live := gcLink_live ..
  have hused : ∀ x, .refFree x ∈ stack →
      ((p.garbageNew b n).gcLink i b).used x = p.used x := by
    intro x hx
    rw [gcLink_used]
    refine Function.update_of_ne ?_ ..
    rintro rfl
    exact hb (hstacked.clearing x hx).1
  refine hstacked.congr (fun x _ hx => ?_) (fun x hx => by rw [hused x hx])
    (fun x hx => by rw [hused x hx]) (fun x hx hin => ?_)
  · rw [hlive]
    exact mem_insert_of_mem hx
  · rw [hlive, mem_insert, not_or]
    refine ⟨?_, hin⟩
    rintro rfl
    exact hpending hx

theorem Stacked.garbageFree {i : ListId} (hb : .refFree b ∉ stack) :
    Stacked ((p.gcUnlink i b).garbageFree b) stack := by
  refine hstacked.congr (fun x hx hin => ?_) (fun _ _ => rfl) (fun _ _ => rfl) fun x _ hin => ?_
  · refine mem_erase.mpr ⟨?_, hin⟩
    rintro rfl
    exact hb hx
  · exact fun h => hin (mem_of_mem_erase h)

theorem Stacked.gcLock : Stacked (p.gcLock b) stack := by
  unfold Pool.gcLock
  refine hstacked.same ?_ ?_
  · split_ifs
    · exact gcLink_live ..
    · rfl
  · split_ifs
    · exact gcLink_used ..
    · rfl

theorem Stacked.unlocked (hdelete : (p.used b).delete = false) : Stacked (p.unlocked b) stack := by
  refine hstacked.touch (b := b) (gcLink_live ..) (fun x hx => ?_) (hstacked.not_clearing hdelete)
  unfold Pool.unlocked
  rw [gcLink_used]
  exact setUsed_used_of_ne _ hx

theorem Stacked.gcUnlock (hcareful : p.locked b = 1 → (p.used b).delete = false) :
    Stacked (p.gcUnlock b) stack := by
  unfold Pool.gcUnlock
  split_ifs with hzero hlast
  · exact hstacked
  · exact hstacked.unlocked (hcareful (by omega))
  · exact hstacked.same rfl rfl

theorem Stacked.gcAttach (hcareful : p.locked b = 1 → (p.used b).delete = false) :
    Stacked (p.gcAttach b) stack := by
  unfold Pool.gcAttach
  split_ifs with hzero hlast
  · exact hstacked.same rfl rfl
  · exact hstacked.unlocked (hcareful (by omega))
  · exact hstacked.same rfl rfl

end

theorem Inv.refFree (hinv : Inv s) (hb : b ∈ s.pool.live) : Inv (s.refFree b) := by
  unfold State.refFree
  dsimp only
  have hsound : Sound (s.pool.refDec b) := hinv.sound.setCount _
  have hstacked : Stacked (s.pool.refDec b) s.stack := hinv.stacked.same rfl rfl
  split_ifs with hzero
  · have hdelete : ((s.pool.refDec b).used b).delete = false := hzero.2
    have hdeletelst : ((s.pool.refDec b).used b).deletelst = false := by
      by_contra hdeleted
      have hdel := (hsound.deleting b hb (by simpa using hdeleted)).1
      exact Bool.false_ne_true (hdelete.symm.trans hdel)
    have hnot := hstacked.not_clearing hdelete
    have htouched := hstacked.touch (q := (s.pool.refDec b).setUsed b
      { (s.pool.refDec b).used b with delete := true }) (b := b) rfl
      (fun x hx => setUsed_used_of_ne _ hx) hnot
    refine ⟨hsound.setUsed rfl fun _ _ => rfl, fun x hx => ?_, fun x hx => ?_, ?_⟩
    · rcases mem_cons.mp hx with hx | hx
      · obtain rfl : x = b := by simpa using hx
        refine ⟨hb, ?_, ?_⟩
        · exact congrArg _ (setUsed_used_self ..)
        · exact (congrArg _ (setUsed_used_self ..)).trans hdeletelst
      · exact htouched.clearing x hx
    · rcases mem_cons.mp hx with hx | hx
      · exact nomatch hx
      · exact htouched.pending x hx
    · rw [List.filter_cons_of_pos rfl, nodup_cons]
      exact ⟨fun h => hnot (mem_of_mem_filter h), hstacked.once⟩
  · exact ⟨hsound, hstacked⟩

theorem Inv.call (hinv : Inv s) (hcareful : Careful s c) (hcall : s.call c = some s') : Inv s' := by
  have hsound := hinv.sound
  have hstacked := hinv.stacked
  unfold State.call at hcall
  split at hcall
  · exact nomatch hcall
  · cases c with
    | gcAllocate b | gcAllocRaw b =>
      obtain ⟨hfresh, rfl⟩ := ite_none_right_eq_some.mp hcall |>.imp_right some.inj
      exact ⟨hsound.garbageNew hfresh.1 rfl, hstacked.garbageNew hfresh.1 hfresh.2⟩
    | gcAllocRawCollect b reached =>
      obtain ⟨hfresh, rfl⟩ := ite_none_right_eq_some.mp hcall |>.imp_right some.inj
      have hpushed : Stacked s.pool (.allocRaw b :: s.stack) := by
        refine ⟨fun x hx => ?_, fun x hx => ?_, ?_⟩
        · rcases mem_cons.mp hx with hx | hx
          · exact nomatch hx
          · exact hstacked.clearing x hx
        · rcases mem_cons.mp hx with hx | hx
          · obtain rfl : x = b := by simpa using hx
            exact hfresh.1
          · exact hstacked.pending x hx
        · rw [List.filter_cons_of_pos rfl, nodup_cons]
          exact ⟨fun h => hfresh.2 (mem_of_mem_filter h), hstacked.once⟩
      have hwaiting : Inv (s.push (.allocRaw b)) := ⟨hsound, hpushed⟩
      exact hwaiting.collectAll reached
    | gcAttach b =>
      obtain ⟨hb, rfl⟩ := ite_none_right_eq_some.mp hcall |>.imp_right some.inj
      exact ⟨hsound.gcAttach hb, hstacked.gcAttach hcareful⟩
    | gcLock b =>
      obtain ⟨hb, rfl⟩ := ite_none_right_eq_some.mp hcall |>.imp_right some.inj
      exact ⟨hsound.gcLock hb hcareful.1 hcareful.2, hstacked.gcLock⟩
    | gcUnlock b =>
      obtain ⟨hb, rfl⟩ := ite_none_right_eq_some.mp hcall |>.imp_right some.inj
      exact ⟨hsound.gcUnlock hb, hstacked.gcUnlock hcareful⟩
    | refInc b =>
      obtain ⟨hb, rfl⟩ := ite_none_right_eq_some.mp hcall |>.imp_right some.inj
      exact ⟨hsound.setCount _, hstacked.same rfl rfl⟩
    | refFree b =>
      obtain ⟨hb, rfl⟩ := ite_none_right_eq_some.mp hcall |>.imp_right some.inj
      exact hinv.refFree hb
    | collectAll reached =>
      obtain rfl := some.inj hcall
      exact hinv.collectAll reached

theorem Inv.sweepEnd {pAlloc : Option β} (hsound : Sound p) (hstacked : Stacked p stack) :
    Inv (if pAlloc = p.heads .curr then
      let p := { p with usedFlag := !p.usedFlag }
      match p.heads .deleted with
      | some pDelete => ⟨p, .clear pDelete :: stack⟩
      | none => ⟨{ p with collecting := false }, stack⟩
    else ⟨p, .sweep pAlloc :: stack⟩) := by
  have hflipped : Sound { p with usedFlag := !p.usedFlag } :=
    hsound.congr rfl rfl rfl rfl (fun _ _ => id) (fun _ _ => rfl) fun _ _ => rfl
  have hflippedStack : Stacked { p with usedFlag := !p.usedFlag } stack := hstacked.same rfl rfl
  split_ifs
  · dsimp only
    split
    · exact ⟨hflipped, Stacked.push hflippedStack rfl⟩
    · exact ⟨hflipped.congr rfl rfl rfl rfl (fun _ _ => id) (fun _ _ => rfl) fun _ _ => rfl,
        hflippedStack.same rfl rfl⟩
  · exact ⟨hsound, Stacked.push hstacked rfl⟩

theorem Inv.sweepTurn {pAlloc : Option β} (hsound : Sound p) (hstacked : Stacked p stack)
    (hhead : p.heads .curr = some b) : Inv (State.sweepTurn p pAlloc stack b) := by
  unfold State.sweepTurn
  by_cases hunused : p.used b = p.plain
  · rw [if_pos hunused]
    have hdelete : (p.used b).delete = false := by
      rw [hunused]
      rfl
    refine Inv.sweepEnd (hsound.sweep hhead) (hstacked.touch (b := b) (gcLink_live ..)
      (fun x hx => ?_) (hstacked.not_clearing hdelete))
    rw [gcLink_used]
    exact setUsed_used_of_ne _ hx
  · rw [if_neg hunused]
    exact Inv.sweepEnd (hsound.advance hhead) (hstacked.same rfl rfl)

theorem Inv.retRefFree (hsound : Sound p) (hstacked : Stacked p (.refFree b :: stack))
    (hret : State.ret ⟨p, .refFree b :: stack⟩ = some s') : Inv s' := by
  obtain ⟨hb, -, hdeletelst⟩ := hstacked.clearing b mem_cons_self
  have hnot := hstacked.not_mem rfl
  unfold State.ret at hret
  dsimp only at hret
  split_ifs at hret with hcount hdelete hlocked
  · obtain rfl := some.inj hret
    refine ⟨hsound.setUsed hdeletelst.symm fun _ h => ?_, Stacked.push ?_ rfl⟩
    · exact absurd (hdeletelst.symm.trans h) Bool.false_ne_true
    · exact hstacked.pop.touch (b := b) rfl (fun x hx => setUsed_used_of_ne _ hx) hnot
  · obtain rfl := some.inj hret
    exact ⟨hsound, hstacked.pop⟩
  · obtain rfl := some.inj hret
    have hplace := placeOf_locked hdeletelst hlocked
    exact ⟨hsound.garbageFree hb hplace (not_not.mp hcount), hstacked.pop.garbageFree hnot⟩
  · obtain rfl := some.inj hret
    have hplace := placeOf_curr hdeletelst (not_not.mp hlocked)
    exact ⟨hsound.garbageFree hb hplace (not_not.mp hcount), hstacked.pop.garbageFree hnot⟩

theorem Inv.retRelease (hsound : Sound p) (hstacked : Stacked p (.release :: stack))
    (hret : State.ret ⟨p, .release :: stack⟩ = some s') : Inv s' := by
  obtain ⟨b, hhead, hret⟩ := map_eq_some_iff.mp hret
  obtain ⟨hb, hplace⟩ := hsound.arranged.head_mem hhead
  have hnot := hstacked.pop.not_clearing_deleted (of_placeOf_deleted hplace)
  dsimp only at hret
  split_ifs at hret with hcount
  · obtain rfl := hret
    refine ⟨hsound.revive hhead, Stacked.push ?_ rfl⟩
    refine hstacked.pop.touch (b := b) (gcLink_live ..) (fun x hx => ?_) hnot
    rw [gcLink_used]
    exact setUsed_used_of_ne _ hx
  · obtain rfl := hret
    exact Inv.releaseNext (hsound.garbageFree hb hplace (not_not.mp hcount))
      (hstacked.pop.garbageFree hnot)

theorem Inv.ret (hinv : Inv s) (hret : s.ret = some s') : Inv s' := by
  obtain ⟨p, stack⟩ := s
  have hsound : Sound p := hinv.sound
  have hstacked : Stacked p stack := hinv.stacked
  cases stack with
  | nil => exact nomatch hret
  | cons frame stack =>
    cases frame with
    | refFree b => exact Inv.retRefFree hsound hstacked hret
    | refError =>
      obtain rfl := some.inj hret
      exact ⟨hsound, hstacked.pop⟩
    | sweep pAlloc =>
      obtain ⟨head, hhead, rfl⟩ := map_eq_some_iff.mp hret
      exact Inv.sweepTurn hsound hstacked.pop hhead
    | clear pAlloc =>
      obtain ⟨head, hhead, rfl⟩ := map_eq_some_iff.mp hret
      refine ⟨hsound.advance hhead, Stacked.push (hstacked.pop.same rfl rfl) ?_⟩
      split_ifs
      · rfl
      · rfl
    | release => exact Inv.retRelease hsound hstacked hret
    | error =>
      obtain rfl := some.inj hret
      exact Inv.releaseNext hsound hstacked.pop
    | allocRaw b =>
      obtain rfl := some.inj hret
      have hb := hstacked.pending b mem_cons_self
      exact ⟨hsound.garbageNew hb rfl, hstacked.pop.garbageNew hb (hstacked.not_mem rfl)⟩

theorem Inv.of_reachable (hreach : (carefulSystem β).Reachable s) : Inv s := by
  refine hreach.invariant (fun s hinit => Inv.init hinit) fun s s' hinv hstep => ?_
  rcases hstep with ⟨c, hcareful, hcall⟩ | hret
  · exact hinv.call hcareful hcall
  · exact hinv.ret hret

/-- In every run of careful calls every block in use stands in the list that its lock counter and
its flags say, and what is released is released once, without references. -/
theorem careful_tidy (hreach : (carefulSystem β).Reachable s) : Tidy s.pool :=
  (Inv.of_reachable hreach).sound.tidy

instance (s : State β) (c : Call β) : Decidable (Careful s c) :=
  match c with
  | .gcLock _ => inferInstanceAs (Decidable (_ ∧ _))
  | .gcUnlock _ | .gcAttach _ => inferInstanceAs (Decidable (_ → _))
  | .gcAllocate _ | .gcAllocRaw _ | .gcAllocRawCollect _ _ | .refInc _ | .refFree _
  | .collectAll _ => isTrue trivial

/-- A run by its calls, with `none` where the topmost one returns. -/
def State.follow (allowed : State β → Call β → Bool) (s : State β) :
    List (Option (Call β)) → Option (State β)
  | [] => some s
  | none :: rest => s.ret.bind (follow allowed · rest)
  | some c :: rest => if allowed s c then (s.call c).bind (follow allowed · rest) else none

theorem follow_reachable {S : System (State β)} {allowed : State β → Call β → Bool}
    (hcall : ∀ s c s', allowed s c = true → s.call c = some s' → S.step s s')
    (hret : ∀ s s', s.ret = some s' → S.step s s') (run : List (Option (Call β)))
    (hreach : S.Reachable s) (hfollow : s.follow allowed run = some s') : S.Reachable s' := by
  induction run generalizing s with
  | nil =>
    obtain rfl := some.inj hfollow
    exact hreach
  | cons move rest ih =>
    cases move with
    | none =>
      obtain ⟨t, ht, hrest⟩ := bind_eq_some_iff.mp hfollow
      exact ih (hreach.step (hret s t ht)) hrest
    | some c =>
      unfold State.follow at hfollow
      split_ifs at hfollow with hallowed
      obtain ⟨t, ht, hrest⟩ := bind_eq_some_iff.mp hfollow
      exact ih (hreach.step (hcall s c t hallowed ht)) hrest

def start : State ℕ where
  pool :=
    { links := ⟨id, id⟩, used := fun _ => ⟨false, false, false⟩, locked := fun _ => 0,
      count := fun _ => 0, heads := fun _ => none, live := ∅, usedFlag := true,
      collecting := false, freed := [] }
  stack := []

theorem start_init : Init start := ⟨rfl, rfl, rfl, fun _ => rfl⟩

/-- A block that only refers to itself: its clean-up function locks another block and drops the
reference. -/
def clearedRun : List (Option (Call ℕ)) :=
  [some (.gcAllocRaw 1), some (.gcAllocate 2), some (.gcUnlock 2), some (.refInc 2),
    some (.collectAll (· = 2)), none, none, some (.gcLock 2), some (.refFree 1), none, none]

theorem careful_tidy_cleared : ∃ s, (carefulSystem ℕ).Reachable s ∧
    s.pool.freed = [⟨1, true, 0⟩] ∧ s.pool.heads .locked = some 2 ∧ Tidy s.pool := by
  have hfollow : ∃ s, start.follow (fun s c => decide (Careful s c)) clearedRun = some s ∧
      s.pool.freed = [⟨1, true, 0⟩] ∧ s.pool.heads .locked = some 2 := by
    have hrun : (start.follow (fun s c => decide (Careful s c)) clearedRun).map
        (fun s => (s.pool.freed, s.pool.heads .locked)) = some ([⟨1, true, 0⟩], some 2) := by
      decide
    obtain ⟨s, hs, heq⟩ := map_eq_some_iff.mp hrun
    exact ⟨s, hs, congrArg Prod.fst heq, congrArg Prod.snd heq⟩
  obtain ⟨s, hs, hfreed, hlocked⟩ := hfollow
  have hreach : (carefulSystem ℕ).Reachable s :=
    follow_reachable (fun s c s' hallowed hcall => Or.inl ⟨c, of_decide_eq_true hallowed, hcall⟩)
      (fun s s' hret => Or.inr hret) clearedRun (.init start_init) hs
  exact ⟨s, hreach, hfreed, hlocked, careful_tidy hreach⟩

theorem follow_system {run : List (Option (Call ℕ))} {s : State ℕ}
    (hfollow : start.follow (fun _ _ => true) run = some s) : (system ℕ).Reachable s :=
  follow_reachable (fun _ c _ _ hcall => Or.inl ⟨c, hcall⟩) (fun _ _ hret => Or.inr hret) run
    (.init start_init) hfollow

/-- A clean-up function that locks its block puts it at the head of two lists, and one that unlocks
its block and gives it a reference for a moment has it released twice. -/
theorem not_tidy : (¬∀ s, (system ℕ).Reachable s → Tidy s.pool) ∧
    ¬∀ s, (system ℕ).Reachable s → ∀ f ∈ s.pool.freed, f.live = true := by
  constructor
  · intro htidy
    have hrun : (start.follow (fun _ _ => true)
        [some (.gcAllocRaw 1), some (.collectAll fun _ => false), none, some (.gcLock 1)]).map
        (fun s => (s.pool.heads .deleted, s.pool.heads .locked)) = some (some 1, some 1) := by
      decide
    obtain ⟨s, hs, heq⟩ := map_eq_some_iff.mp hrun
    obtain ⟨⟨lists, hlisted, -⟩, -⟩ := htidy s (follow_system hs)
    have hdeleted : (lists .deleted).head? = some 1 :=
      (hlisted.head .deleted).symm.trans (congrArg Prod.fst heq)
    have hlocked : (lists .locked).head? = some 1 :=
      (hlisted.head .locked).symm.trans (congrArg Prod.snd heq)
    exact hlisted.disjoint .deleted .locked (by decide) 1 (mem_of_head? hdeleted)
      (mem_of_head? hlocked)
  · intro hfreed
    have hrun : (start.follow (fun _ _ => true)
        [some (.gcAllocate 1), some (.refFree 1), some (.gcUnlock 1), some (.refInc 1),
          some (.refFree 1), none, none]).map (fun s => s.pool.freed) =
        some [⟨1, false, 0⟩, ⟨1, true, 0⟩] := by
      decide
    obtain ⟨s, hs, heq⟩ := map_eq_some_iff.mp hrun
    have hlive := hfreed s (follow_system hs) ⟨1, false, 0⟩ (heq ▸ mem_cons_self)
    exact Bool.false_ne_true hlive

end Harbour.Vm.GarbageLists
