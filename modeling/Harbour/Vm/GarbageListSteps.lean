import Harbour.Vm.GarbageListMoves

/-!
The collector's operations keep every block in the list where it should be.
-/

namespace Harbour.Vm.GarbageLists

open Library.RingList Function Finset
open Harbour.Vm.Garbage (Used)

variable {β : Type*} {p q : Pool β} {b : β} {i j : ListId}

def Pool.Stands (p : Pool β) (b : β) (i : ListId) : Prop := b ∈ p.live ∧ p.placeOf b = i

/-- What holds of the blocks and lists between any two steps. -/
structure Sound (p : Pool β) : Prop where
  arranged : Holds p p.Stands
  freed : ∀ f ∈ p.freed, f.live = true ∧ f.count = 0
  deleting : ∀ b ∈ p.live, (p.used b).deletelst = true → (p.used b).delete = true ∧ p.locked b = 0

theorem Sound.tidy (hsound : Sound p) : Tidy p := ⟨hsound.arranged, hsound.freed⟩

theorem placeOf_congr (hused : (q.used b).deletelst = (p.used b).deletelst)
    (hlocked : q.locked b = p.locked b) : q.placeOf b = p.placeOf b := by
  unfold Pool.placeOf
  rw [hused, hlocked]

theorem placeOf_deleted (hdeleted : (p.used b).deletelst = true) : p.placeOf b = .deleted :=
  if_pos hdeleted

theorem placeOf_locked (hdeleted : (p.used b).deletelst = false) (hlocked : p.locked b ≠ 0) :
    p.placeOf b = .locked := by
  unfold Pool.placeOf
  rw [if_neg (by simp [hdeleted]), if_pos hlocked]

theorem placeOf_curr (hdeleted : (p.used b).deletelst = false) (hlocked : p.locked b = 0) :
    p.placeOf b = .curr := by
  unfold Pool.placeOf
  rw [if_neg (by simp [hdeleted]), if_neg (not_not.mpr hlocked)]

theorem of_placeOf_deleted (hplace : p.placeOf b = .deleted) : (p.used b).deletelst = true := by
  by_contra hdeleted
  unfold Pool.placeOf at hplace
  split_ifs at hplace

theorem of_placeOf_curr (hplace : p.placeOf b = .curr) :
    (p.used b).deletelst = false ∧ p.locked b = 0 := by
  unfold Pool.placeOf at hplace
  split_ifs at hplace with hdeleted hlocked
  exact ⟨by simpa using hdeleted, not_not.mp hlocked⟩

theorem Sound.of_locked (hsound : Sound p) (hb : b ∈ p.live) (hlocked : p.locked b ≠ 0) :
    (p.used b).deletelst = false := by
  by_contra hdeleted
  exact hlocked (hsound.deleting b hb (by simpa using hdeleted)).2

theorem Sound.congr (hsound : Sound p) (hlinks : q.links = p.links) (hheads : q.heads = p.heads)
    (hlive : q.live = p.live) (hfreed : q.freed = p.freed)
    (hdelete : ∀ b ∈ p.live, (p.used b).delete = true → (q.used b).delete = true)
    (hdeletelst : ∀ b ∈ p.live, (q.used b).deletelst = (p.used b).deletelst)
    (hlocked : ∀ b ∈ p.live, q.locked b = p.locked b) : Sound q := by
  refine ⟨hsound.arranged.congr hlinks hheads fun b i => ?_, hfreed ▸ hsound.freed, ?_⟩
  · unfold Pool.Stands
    rw [hlive]
    exact and_congr_right fun hb => by rw [placeOf_congr (hdeletelst b hb) (hlocked b hb)]
  · intro b hb hdeleted
    rw [hlive] at hb
    rw [hdeletelst b hb] at hdeleted
    obtain ⟨hdel, hlock⟩ := hsound.deleting b hb hdeleted
    exact ⟨hdelete b hb hdel, (hlocked b hb).trans hlock⟩

theorem Sound.moved (hsound : Sound p) (hb : b ∈ p.live)
    (hholds : Holds q fun x k => (x = b ∧ k = j) ∨ (x ≠ b ∧ p.Stands x k)) (hlive : q.live = p.live)
    (hfreed : q.freed = p.freed) (hused : ∀ x, x ≠ b → q.used x = p.used x)
    (hlocked : ∀ x, x ≠ b → q.locked x = p.locked x) (hplace : q.placeOf b = j)
    (hdeleting : (q.used b).deletelst = true → (q.used b).delete = true ∧ q.locked b = 0) :
    Sound q := by
  refine ⟨hholds.congr rfl rfl fun x k => ?_, hfreed ▸ hsound.freed, fun x hx hdeleted => ?_⟩
  · unfold Pool.Stands
    rw [hlive]
    rcases eq_or_ne x b with rfl | hne
    · simp [hb, hplace, eq_comm]
    · rw [placeOf_congr (congrArg _ (hused x hne)) (hlocked x hne)]
      simp [hne]
  · rcases eq_or_ne x b with rfl | hne
    · exact hdeleting hdeleted
    · rw [hused x hne] at hdeleted ⊢
      rw [hlocked x hne]
      exact hsound.deleting x (hlive ▸ hx) hdeleted

theorem Sound.gcMark (hsound : Sound p) (reached : β → Bool) : Sound (p.gcMark reached) := by
  refine hsound.congr rfl rfl rfl rfl (fun b _ hdelete => ?_) (fun b _ => ?_) fun _ _ => rfl
  · unfold Pool.gcMark
    dsimp only
    split_ifs
    · exact hdelete
    · exact hdelete
  · unfold Pool.gcMark
    dsimp only
    split_ifs
    · rfl
    · rfl

variable [DecidableEq β]

@[simp] theorem setUsed_used_self (u : Used) : (p.setUsed b u).used b = u :=
  update_self ..

theorem setUsed_used_of_ne {x : β} (u : Used) (hx : x ≠ b) :
    (p.setUsed b u).used x = p.used x := update_of_ne hx ..

@[simp] theorem setLocked_locked_self (n : Nat) : (p.setLocked b n).locked b = n :=
  update_self ..

theorem setLocked_locked_of_ne {x : β} (n : Nat) (hx : x ≠ b) :
    (p.setLocked b n).locked x = p.locked x := update_of_ne hx ..

section

variable (hsound : Sound p)

include hsound

theorem Sound.garbageNew {n : Nat} (hb : b ∉ p.live) (hi : i = if n ≠ 0 then .locked else .curr) :
    Sound ((p.garbageNew b n).gcLink i b) := by
  have hstart : Holds (p.garbageNew b n) p.Stands :=
    hsound.arranged.congr rfl rfl fun _ _ => Iff.rfl
  have hlinked := hstart.gcLink (i := i) (b := b) fun k hk => hb hk.1
  have hself : ((p.garbageNew b n).gcLink i b).used b = p.plain := by
    rw [gcLink_used]
    exact update_self ..
  have hcount : ((p.garbageNew b n).gcLink i b).locked b = n := by
    rw [gcLink_locked]
    exact update_self ..
  have hused : ∀ x, x ≠ b → ((p.garbageNew b n).gcLink i b).used x = p.used x := by
    intro x hx
    rw [gcLink_used]
    exact update_of_ne hx ..
  have hlocked : ∀ x, x ≠ b → ((p.garbageNew b n).gcLink i b).locked x = p.locked x := by
    intro x hx
    rw [gcLink_locked]
    exact update_of_ne hx ..
  have hlive : ((p.garbageNew b n).gcLink i b).live = insert b p.live := gcLink_live ..
  have hplace : ((p.garbageNew b n).gcLink i b).placeOf b = i := by
    unfold Pool.placeOf
    rw [hself, hcount, hi]
    rfl
  refine ⟨hlinked.congr rfl rfl fun x k => ?_, ?_, fun x hx hdeleted => ?_⟩
  · unfold Pool.Stands
    rw [hlive, mem_insert]
    rcases eq_or_ne x b with rfl | hne
    · simp [hb, hplace, eq_comm]
    · rw [placeOf_congr (congrArg _ (hused x hne)) (hlocked x hne)]
      simp [hne]
  · rw [gcLink_freed]
    exact hsound.freed
  · rcases eq_or_ne x b with rfl | hne
    · rw [hself] at hdeleted
      exact absurd hdeleted Bool.false_ne_true
    · rw [hused x hne] at hdeleted ⊢
      rw [hlocked x hne]
      rw [hlive, mem_insert] at hx
      exact hsound.deleting x (hx.resolve_left hne) hdeleted

theorem Sound.setLocked {n : Nat} (hb : b ∈ p.live) (hlocked : p.locked b ≠ 0) (hn : n ≠ 0) :
    Sound (p.setLocked b n) := by
  have hdeleted := hsound.of_locked hb hlocked
  have hplace : p.placeOf b = .locked := placeOf_locked hdeleted hlocked
  refine hsound.moved (b := b) (j := .locked) hb ?_ rfl rfl (fun _ _ => rfl)
    (fun x hx => setLocked_locked_of_ne n hx) ?_ ?_
  · refine hsound.arranged.congr rfl rfl fun x k => ?_
    rcases eq_or_ne x b with rfl | hne
    · simp [Pool.Stands, hb, hplace, eq_comm]
    · simp [hne]
  · exact placeOf_locked hdeleted (by rwa [setLocked_locked_self])
  · intro h
    exact absurd (hdeleted.symm.trans h) Bool.false_ne_true

theorem Sound.gcLock (hb : b ∈ p.live) (hdeleted : (p.used b).deletelst = false)
    (hlimit : p.locked b < 2 ^ 16 - 1) : Sound (p.gcLock b) := by
  have hmod : (p.locked b + 1) % 2 ^ 16 = p.locked b + 1 := Nat.mod_eq_of_lt (by omega)
  unfold Pool.gcLock
  rw [hmod]
  split_ifs with hlocked
  · have hplace : p.placeOf b = .curr := placeOf_curr hdeleted hlocked
    have hmoved := hsound.arranged.move (j := .locked) ⟨hb, hplace⟩
    refine hsound.moved (b := b) (j := .locked) hb (hmoved.congr rfl rfl fun _ _ => Iff.rfl) ?_ ?_
      ?_ ?_ ?_ ?_
    · exact gcLink_live ..
    · exact gcLink_freed ..
    · intro x _
      exact congrFun (gcLink_used ..) x
    · intro x hx
      rw [setLocked_locked_of_ne _ hx]
      exact congrFun (gcLink_locked ..) x
    · refine placeOf_locked ?_ (by simp)
      exact (congrArg _ (congrFun (gcLink_used ..) b)).trans hdeleted
    · intro h
      have hused : ((((p.gcUnlink .curr b).gcLink .locked b).setLocked b (p.locked b + 1)).used b) =
          p.used b := congrFun (gcLink_used ..) b
      rw [hused, hdeleted] at h
      exact absurd h Bool.false_ne_true
  · exact hsound.setLocked hb hlocked (by omega)

theorem Sound.unlocked (hb : b ∈ p.live) (hlocked : p.locked b ≠ 0) : Sound (p.unlocked b) := by
  have hplace : p.placeOf b = .locked := placeOf_locked (hsound.of_locked hb hlocked) hlocked
  have hstart : Holds ((p.setLocked b 0).setUsed b p.plain) p.Stands :=
    hsound.arranged.congr rfl rfl fun _ _ => Iff.rfl
  have hmoved := hstart.move (j := .curr) ⟨hb, hplace⟩
  have hself : (p.unlocked b).used b = p.plain := by
    unfold Pool.unlocked
    rw [gcLink_used]
    exact setUsed_used_self ..
  have hzero : (p.unlocked b).locked b = 0 := by
    unfold Pool.unlocked
    rw [gcLink_locked]
    exact setLocked_locked_self ..
  refine hsound.moved (b := b) (j := .curr) hb hmoved ?_ ?_ ?_ ?_ ?_ ?_
  · exact gcLink_live ..
  · exact gcLink_freed ..
  · intro x hx
    unfold Pool.unlocked
    rw [gcLink_used]
    exact setUsed_used_of_ne _ hx
  · intro x hx
    unfold Pool.unlocked
    rw [gcLink_locked]
    exact setLocked_locked_of_ne _ hx
  · refine placeOf_curr ?_ hzero
    rw [hself]
    rfl
  · intro h
    rw [hself] at h
    exact absurd h Bool.false_ne_true

theorem Sound.gcUnlock (hb : b ∈ p.live) : Sound (p.gcUnlock b) := by
  unfold Pool.gcUnlock
  split_ifs with hzero hlast
  · exact hsound
  · exact hsound.unlocked hb hzero
  · exact hsound.setLocked hb hzero hlast

theorem Sound.setCount (n : Nat) : Sound (p.setCount b n) :=
  hsound.congr rfl rfl rfl rfl (fun _ _ => id) (fun _ _ => rfl) fun _ _ => rfl

theorem Sound.gcAttach (hb : b ∈ p.live) : Sound (p.gcAttach b) := by
  unfold Pool.gcAttach
  split_ifs with hzero hlast
  · exact hsound.setCount _
  · exact hsound.unlocked hb hzero
  · exact (hsound.setLocked hb hzero hlast).setCount _

theorem Sound.setUsed {u : Used} (hdeletelst : u.deletelst = (p.used b).deletelst)
    (hdelete : (p.used b).delete = true → (p.used b).deletelst = true → u.delete = true) :
    Sound (p.setUsed b u) := by
  refine ⟨hsound.arranged.congr rfl rfl fun x k => ?_, hsound.freed, fun x hx hdeleted => ?_⟩
  · have hplace : (p.setUsed b u).placeOf x = p.placeOf x := by
      refine placeOf_congr ?_ rfl
      rcases eq_or_ne x b with rfl | hne
      · rw [setUsed_used_self, hdeletelst]
      · rw [setUsed_used_of_ne u hne]
    unfold Pool.Stands
    rw [hplace]
    rfl
  · rcases eq_or_ne x b with rfl | hne
    · rw [setUsed_used_self] at hdeleted ⊢
      rw [hdeletelst] at hdeleted
      obtain ⟨hdel, hlock⟩ := hsound.deleting x hx hdeleted
      exact ⟨hdelete hdel hdeleted, hlock⟩
    · rw [setUsed_used_of_ne u hne] at hdeleted ⊢
      exact hsound.deleting x hx hdeleted

theorem Sound.garbageFree (hb : b ∈ p.live) (hplace : p.placeOf b = i) (hcount : p.count b = 0) :
    Sound ((p.gcUnlink i b).garbageFree b) := by
  have hunlinked := hsound.arranged.gcUnlink ⟨hb, hplace⟩
  refine ⟨hunlinked.congr rfl rfl fun x k => ?_, fun f hf => ?_, fun x hx hdeleted => ?_⟩
  · change (x ∈ p.live.erase b ∧ p.placeOf x = k) ↔ x ≠ b ∧ x ∈ p.live ∧ p.placeOf x = k
    rw [mem_erase, and_assoc]
  · rcases List.mem_cons.mp hf with rfl | hf
    · exact ⟨decide_eq_true hb, hcount⟩
    · exact hsound.freed f hf
  · exact hsound.deleting x (mem_of_mem_erase hx) hdeleted

theorem Sound.advance (hhead : p.heads i = some b) : Sound (p.advance i b) :=
  ⟨(hsound.arranged.advance hhead).congr rfl rfl fun _ _ => Iff.rfl, hsound.freed, hsound.deleting⟩

theorem Sound.sweep (hhead : p.heads .curr = some b) :
    Sound (((p.setUsed b { p.used b with delete := true, deletelst := true }).gcUnlink .curr
      b).gcLink .deleted b) := by
  obtain ⟨hb, hplace⟩ := hsound.arranged.head_mem hhead
  have hzero := (of_placeOf_curr hplace).2
  set u : Used := { p.used b with delete := true, deletelst := true }
  have hstart : Holds (p.setUsed b u) p.Stands := hsound.arranged.congr rfl rfl fun _ _ => Iff.rfl
  have hmoved := hstart.move (j := .deleted) ⟨hb, hplace⟩
  have hself : (((p.setUsed b u).gcUnlink .curr b).gcLink .deleted b).used b = u := by
    rw [gcLink_used]
    exact setUsed_used_self ..
  refine hsound.moved (b := b) (j := .deleted) hb hmoved ?_ ?_ ?_ ?_ ?_ ?_
  · exact gcLink_live ..
  · exact gcLink_freed ..
  · intro x hx
    rw [gcLink_used]
    exact setUsed_used_of_ne _ hx
  · intro x _
    exact congrFun (gcLink_locked ..) x
  · refine placeOf_deleted ?_
    rw [hself]
  · intro _
    rw [hself]
    exact ⟨rfl, (congrFun (gcLink_locked ..) b).trans hzero⟩

theorem Sound.revive (hhead : p.heads .deleted = some b) :
    Sound ((((p.gcUnlink .deleted b).setUsed b p.plain).setLocked b 0).gcLink .curr b) := by
  have hwhere := hsound.arranged.head_mem hhead
  have hunlinked := hsound.arranged.gcUnlink hwhere
  have hstart : Holds (((p.gcUnlink .deleted b).setUsed b p.plain).setLocked b 0)
      fun x k => x ≠ b ∧ p.Stands x k := hunlinked.congr rfl rfl fun _ _ => Iff.rfl
  have hmoved := hstart.gcLink (i := .curr) (b := b) fun _ h => h.1 rfl
  set q := (((p.gcUnlink .deleted b).setUsed b p.plain).setLocked b 0).gcLink .curr b
  have hself : q.used b = p.plain := (congrFun (gcLink_used ..) b).trans (setUsed_used_self ..)
  have hzero : q.locked b = 0 := (congrFun (gcLink_locked ..) b).trans (setLocked_locked_self ..)
  refine hsound.moved (b := b) (j := .curr) hwhere.1 hmoved ?_ ?_ ?_ ?_ ?_ ?_
  · exact gcLink_live ..
  · exact gcLink_freed ..
  · intro x hx
    exact (congrFun (gcLink_used ..) x).trans (setUsed_used_of_ne _ hx)
  · intro x hx
    exact (congrFun (gcLink_locked ..) x).trans (setLocked_locked_of_ne _ hx)
  · refine placeOf_curr ?_ hzero
    rw [hself]
    rfl
  · intro h
    rw [hself] at h
    exact absurd h Bool.false_ne_true

end

end Harbour.Vm.GarbageLists
