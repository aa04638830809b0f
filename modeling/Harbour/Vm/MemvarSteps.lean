import Harbour.Vm.MemvarScopes

/-!
What each step of a procedure does to the scopes of memory variables.
-/

namespace Harbour.Vm.Memvars

open Library.Scopes Option

variable {V : Type*} {s s' : State V} {e : Env V} {n : String} {value : Option (MemvarItem V)}

/-- Values may change, and what is PUBLIC, but not the stack. -/
structure SameStack (s s' : State V) : Prop where
  stack : s'.stack = s.stack
  base : s'.base = s.base
  frames : s'.frames = s.frames

theorem SameStack.trans {s'' : State V} (h : SameStack s s') (h' : SameStack s' s'') :
    SameStack s s'' :=
  ⟨h'.stack.trans h.stack, h'.base.trans h.base, h'.frames.trans h.frames⟩

theorem SameStack.full (h : SameStack s s') (hfull : s.base = s.count) : s'.base = s'.count := by
  rw [h.base, hfull]
  unfold State.count
  rw [h.stack]

theorem createPublic_same : SameStack s (s.memvarCreateFromDynSymbol n true value) := by
  unfold State.memvarCreateFromDynSymbol
  rw [if_pos rfl]
  split_ifs
  · exact ⟨rfl, rfl, rfl⟩
  · exact ⟨rfl, rfl, rfl⟩

theorem release_same : SameStack s (s.memvarRelease n) := by
  unfold State.memvarRelease State.memvarDetachDynSym
  cases s.memvar n with
  | none => exact ⟨rfl, rfl, rfl⟩
  | some c =>
    split_ifs
    · exact ⟨rfl, rfl, rfl⟩
    · exact ⟨rfl, rfl, rfl⟩

theorem clearPrivates_same (fMatch : String → Bool) (k : Nat) (stack : List (String × Option Nat))
    (s : State V) : SameStack s (State.clearPrivates fMatch k stack s) := by
  induction k generalizing stack s with
  | zero => exact ⟨rfl, rfl, rfl⟩
  | succ k ih =>
    cases stack with
    | nil => exact ⟨rfl, rfl, rfl⟩
    | cons item stack =>
      refine SameStack.trans ?_ (ih stack _)
      cases s.memvar item.1 with
      | none => exact ⟨rfl, rfl, rfl⟩
      | some c =>
        split_ifs
        · exact ⟨rfl, rfl, rfl⟩
        · exact ⟨rfl, rfl, rfl⟩

theorem bind_frames : ((((s.pushPrivate n).memvarValueNew).dynsymSetMemvar n
    (some s.blocks)).itemCopy s.blocks value).frames = s.frames := by
  have hgrow : s.growStack.frames = s.frames := by
    unfold State.growStack
    split_ifs <;> rfl
  cases value with
  | none => exact hgrow
  | some x => exact hgrow

theorem bind_base (h : Core s e) : ((((s.pushPrivate n).memvarValueNew).dynsymSetMemvar n
    (some s.blocks)).itemCopy s.blocks value).base = s.base := by
  obtain ⟨size, hgrow, -⟩ := h.growStack
  have hbase : s.growStack.base = s.base := by rw [hgrow]
  cases value with
  | none => exact hbase
  | some x => exact hbase

theorem addPrivate_frames : (s.memvarAddPrivate n value).frames = s.frames := by
  unfold State.memvarAddPrivate
  split
  · cases value with
    | none => rfl
    | some x => rfl
  · exact bind_frames

theorem addPrivate_base (h : Core s e) : (s.memvarAddPrivate n value).base = s.base := by
  unfold State.memvarAddPrivate
  split
  · cases value with
    | none => rfl
    | some x => rfl
  · exact bind_base h

theorem setValue_frames (x : MemvarItem V) : (s.memvarSetValue n x).frames = s.frames := by
  unfold State.memvarSetValue
  cases s.memvar n with
  | none => exact addPrivate_frames
  | some c => rfl

theorem setValue_base (h : Core s e) (x : MemvarItem V) : (s.memvarSetValue n x).base = s.base := by
  unfold State.memvarSetValue
  cases s.memvar n with
  | none => exact addPrivate_base h
  | some c => rfl

theorem assignBound_outer (x : MemvarItem V) : (e.assignBound n x).outer = e.outer := by
  unfold Env.assignBound
  cases e.lookup n with
  | none => rfl
  | some c => rfl

theorem declare_outer : (e.declare n value).outer = e.outer := by
  unfold Env.declare
  split_ifs
  · cases value with
    | none => rfl
    | some x => exact assignBound_outer x
  · rfl

theorem declarePublic_outer : (e.declarePublic n).outer = e.outer := by
  unfold Env.declarePublic
  split_ifs
  · rfl
  · rfl

theorem assign_outer (x : MemvarItem V) : (e.assign n x).outer = e.outer := by
  unfold Env.assign
  split_ifs
  · rfl
  · exact assignBound_outer x

theorem release_outer : (e.release n).outer = e.outer := by
  unfold Env.release
  split_ifs
  · exact assignBound_outer _
  · rfl

theorem foldl_outer (f : Env V → String → Env V) (hf : ∀ e n, (f e n).outer = e.outer)
    (names : List String) (e : Env V) : (names.foldl f e).outer = e.outer := by
  induction names generalizing e with
  | nil => rfl
  | cons n names ih => exact (ih (f e n)).trans (hf e n)

theorem Core.rebase (h : Core s e) {base : Nat} (hbase : base ≤ s.count) (frames : List Frame) :
    Core { s with base, frames } e :=
  ⟨h.memvar, h.stack, hbase, h.blocks, h.live, h.separate, h.size⟩

theorem Core.push (h : Core s e) (frame : Frame) (frames : List Frame) :
    Core { s with base := s.count, frames := frame :: frames } e.push :=
  ⟨h.memvar, h.stack, Nat.le_refl _, h.blocks, h.live, h.separate, h.size⟩

theorem Core.newFrame (h : Core s e) : Core s.stackNewFrame e :=
  h.rebase (Nat.le_refl _) _

theorem Core.oldFrame {s₂ : State V} {e' : Env V} (hs : Represents s e) (h : Core s₂ e')
    (houter : e'.outer = e.outer) (hframes : s₂.frames = .proc s.base :: s.frames)
    (hbase : s₂.base = s₂.count) (hold : s₂.stackOldFrame = some s') : Represents s' e' := by
  have hs' : s' = { s₂ with base := s.base, frames := s.frames } := by
    unfold State.stackOldFrame at hold
    rw [hframes] at hold
    rw [← some.inj hold]
    change ({ State.releasePrivates (s₂.count - s₂.base) s₂.stack _ with base := _ } : State V) = _
    rw [hbase, Nat.sub_self]
    rfl
  rw [hs']
  refine ⟨h.rebase ?_ _, ?_, ?_⟩
  · rw [h.count, hs.based]
    unfold Env.entries
    rw [List.length_append, houter]
    exact Nat.le_add_left _ _
  · exact hs.based.trans (by rw [houter])
  · rw [houter]
    exact hs.marks

theorem releasePrivates_frames (k : Nat) (stack : List (String × Option Nat)) (s : State V) :
    (State.releasePrivates k stack s).frames = s.frames := by
  induction k generalizing stack s with
  | zero => rfl
  | succ k ih =>
    cases stack with
    | nil => rfl
    | cons item stack =>
      refine (ih stack _).trans ?_
      unfold State.memvarDetachDynSym
      split_ifs
      · cases s.memvar item.1 with
        | none => rfl
        | some c => rfl
      · rfl

section

variable (h : Represents s e)

include h

theorem Represents.sameFunction {f : State V → String → State V} {g : Env V → String → Env V}
    (hcore : ∀ {s : State V} {e : Env V} n, Core s e → Core (f s n) (g e n))
    (hsame : ∀ s n, SameStack s (f s n)) (houter : ∀ e n, (g e n).outer = e.outer)
    (names : List String) (hnext : s.callFunction (fun s => names.foldl f s) = some s') :
    Represents s' (names.foldl g e) := by
  have hfold : ∀ (names : List String) (s : State V) (e : Env V), Core s e →
      Core (names.foldl f s) (names.foldl g e) ∧ SameStack s (names.foldl f s) := by
    intro names
    induction names with
    | nil => exact fun s e h => ⟨h, rfl, rfl, rfl⟩
    | cons n names ih =>
      intro s e h
      obtain ⟨hcore', hsame'⟩ := ih (f s n) (g e n) (hcore n h)
      exact ⟨hcore', (hsame s n).trans hsame'⟩
  obtain ⟨hcore', hsame'⟩ := hfold names s.stackNewFrame e h.core.newFrame
  exact Core.oldFrame h hcore' (foldl_outer g houter names e) hsame'.frames (hsame'.full rfl) hnext

theorem Represents.mvPrivate {names : List String}
    (hnext : s.callFunction (fun s => s.mvPrivate names) = some s') :
    Represents s' (names.foldl (fun e name => e.declare name none) e) := by
  have hfold : ∀ (names : List String) (s : State V) (e : Env V), Core s e → Based s e →
      Core (names.foldl (fun s n => s.memvarCreateFromDynSymbol n false none) s)
        (names.foldl (fun e name => e.declare name none) e) ∧
      (names.foldl (fun s n => s.memvarCreateFromDynSymbol n false none) s).frames = s.frames := by
    intro names
    induction names with
    | nil => exact fun s e h _ => ⟨h, rfl⟩
    | cons n names ih =>
      intro s e h hbased
      have hbased' : Based (s.memvarCreateFromDynSymbol n false none) (e.declare n none) :=
        (addPrivate_base h).trans (hbased.trans (by rw [declare_outer]))
      obtain ⟨hcore, hframes⟩ := ih _ _ (h.addPrivate hbased) hbased'
      exact ⟨hcore, hframes.trans addPrivate_frames⟩
  have houter := foldl_outer (fun (e : Env V) name => e.declare name none)
    (fun e n => declare_outer) names e
  by_cases hnames : names = []
  · subst hnames
    exact Core.oldFrame h h.core.newFrame rfl rfl rfl hnext
  · have hbody : s.stackNewFrame.mvPrivate names =
        (names.foldl (fun s n => s.memvarCreateFromDynSymbol n false none)
          s.stackNewFrame.memvarResetPrivatesBase).memvarUpdatePrivatesBase := if_neg hnames
    change (s.stackNewFrame.mvPrivate names).stackOldFrame = some s' at hnext
    rw [hbody] at hnext
    have hreset : Core s.stackNewFrame.memvarResetPrivatesBase e := h.core.rebase h.core.base _
    obtain ⟨hcore, hframes⟩ := hfold names _ e hreset h.based
    have hupdate : Core (names.foldl (fun s n => s.memvarCreateFromDynSymbol n false none)
        s.stackNewFrame.memvarResetPrivatesBase).memvarUpdatePrivatesBase
        (names.foldl (fun e name => e.declare name none) e) :=
      hcore.rebase (Nat.le_refl _) _
    exact Core.oldFrame h hupdate houter hframes rfl hnext

theorem Represents.mvPut {x : MemvarItem V}
    (hnext : s.callFunction (fun s => s.mvPut n x) = some s') : Represents s' (e.assign n x) := by
  have hcore : Core (s.stackNewFrame.memvarSetValue n x) (e.assign n x) :=
    h.core.newFrame.setValue x
  have hupdate : Core (s.stackNewFrame.mvPut n x) (e.assign n x) :=
    hcore.rebase (Nat.le_refl _) _
  exact Core.oldFrame h hupdate (assign_outer x) (setValue_frames x) rfl hnext

theorem Represents.mvRelease {mask : String → Bool} {bInclude : Bool}
    (hnext : s.callFunction (fun s => s.memvarReleaseWithMask mask bInclude) = some s') :
    Represents s' (e.releaseMatching fun name => if bInclude then mask name else !mask name) := by
  have hcore := h.core.newFrame.releaseWithMask mask bInclude h.based
  have hsame : SameStack s.stackNewFrame (s.stackNewFrame.memvarReleaseWithMask mask bInclude) :=
    clearPrivates_same _ _ _ _
  refine Core.oldFrame h hcore ?_ hsame.frames (hsame.full rfl) hnext
  exact foldl_outer (fun (e : Env V) name => e.assignBound name .nil)
    (fun e n => assignBound_outer _) _ e

theorem Represents.pop {frame : Frame} {frames : List Frame}
    (hframes : s.frames = frame :: frames) :
    Represents (({ s with frames }).memvarSetPrivatesBase frame.base) e.pop := by
  have hmarks := h.marks
  rw [hframes] at hmarks
  cases houter : e.outer with
  | nil =>
    rw [houter] at hmarks
    exact hmarks.elim
  | cons scope outer =>
    rw [houter] at hmarks
    obtain ⟨hbase, hmarks⟩ := hmarks
    have hcore : Core { s with frames } e := h.core.rebase h.core.base frames
    have hpop : e.pop.outer = outer := by
      unfold Env.pop
      rw [houter]
    rw [hbase]
    refine ⟨hcore.pop h.based houter, ?_, ?_⟩
    · change outer.flatten.length = e.pop.outer.flatten.length
      rw [hpop]
    · rw [hpop]
      change Marks (State.releasePrivates _ _ _).frames outer
      rw [releasePrivates_frames]
      exact hmarks

theorem Represents.next {op : Op V} (hnext : s.next op = some s') : Represents s' (e.next op) := by
  have hpush : ∀ frame : Frame, frame.base = s.base →
      Represents { s with base := s.count, frames := frame :: s.frames } e.push := by
    intro frame hframe
    exact ⟨h.core.push frame s.frames, h.core.count, hframe.trans h.based, h.marks⟩
  cases op with
  | call =>
    rw [← some.inj hnext]
    exact hpush (.proc s.base) rfl
  | save =>
    rw [← some.inj hnext]
    exact hpush (.saved s.base) rfl
  | ret =>
    change s.stackOldFrame = some s' at hnext
    unfold State.stackOldFrame at hnext
    split at hnext
    · rename_i nPrivateBase frames hframes
      rw [← some.inj hnext]
      exact h.pop hframes
    · exact nomatch hnext
  | restore =>
    unfold State.next at hnext
    dsimp only at hnext
    split at hnext
    · rename_i nBase frames hframes
      rw [← some.inj hnext]
      exact h.pop hframes
    · exact nomatch hnext
  | parameter name value =>
    rw [← some.inj hnext]
    refine ⟨h.core.addPrivate h.based, ?_, ?_⟩
    · refine (addPrivate_base h.core).trans (h.based.trans ?_)
      exact congrArg (fun outer => outer.flatten.length) declare_outer.symm
    · change Marks (s.memvarAddPrivate name value).frames (e.declare name value).outer
      rw [addPrivate_frames, declare_outer]
      exact h.marks
  | assign name value =>
    rw [← some.inj hnext]
    refine ⟨h.core.setValue value, ?_, ?_⟩
    · refine (setValue_base h.core value).trans (h.based.trans ?_)
      exact congrArg (fun outer => outer.flatten.length) (assign_outer value).symm
    · change Marks (s.memvarSetValue name value).frames (e.assign name value).outer
      rw [setValue_frames, assign_outer]
      exact h.marks
  | mvPrivate names => exact h.mvPrivate hnext
  | mvPublic names =>
    exact h.sameFunction (f := fun s n => s.memvarCreateFromDynSymbol n true none)
      (fun n h => h.createPublic) (fun s n => createPublic_same) (fun e n => declarePublic_outer)
      names hnext
  | mvPut name value => exact h.mvPut hnext
  | mvXRelease names =>
    exact h.sameFunction (f := fun s n => s.memvarRelease n) (fun n h => h.release)
      (fun s n => release_same) (fun e n => release_outer) names hnext
  | mvRelease mask bInclude => exact h.mvRelease hnext

theorem Represents.run {ops : List (Op V)} (hrun : s.run ops = some s') :
    Represents s' (e.run ops) := by
  induction ops generalizing s e with
  | nil =>
    rw [← some.inj hrun]
    exact h
  | cons op ops ih =>
    obtain ⟨s₁, hnext, hrun⟩ := Option.bind_eq_some_iff.mp hrun
    exact ih (h.next hnext) hrun

end

end Harbour.Vm.Memvars
