import Harbour.Vm.MemvarClear

/-!
Clearing memory variables in every run of a thread.
-/

namespace Harbour.Vm.Memvars

open Library.Scopes Option List Function

variable {V : Type*} {s s' : State V} {e e' : Env V} {t t' : Thread V} {n m : String}
  {value : Option (MemvarItem V)}

theorem stackOldFrame_frames (h : s.stackOldFrame = some s') :
    ∃ nPrivateBase, s.frames = .proc nPrivateBase :: s'.frames := by
  unfold State.stackOldFrame at h
  split at h
  · next nPrivateBase frames hframes =>
    refine ⟨nPrivateBase, hframes.trans (congrArg (List.cons _) ?_)⟩
    rw [← some.inj h]
    exact (releasePrivates_frames _ _ { s with frames }).symm
  · exact nomatch h

theorem callFunction_frames (body : State V → State V)
    (hbody : (body s.stackNewFrame).frames = s.stackNewFrame.frames)
    (h : s.callFunction body = some s') : s'.frames = s.frames := by
  obtain ⟨nPrivateBase', hframes⟩ := stackOldFrame_frames h
  exact (List.cons.inj (hframes.symm.trans hbody)).2

theorem foldl_frames {f : State V → String → State V} (hf : ∀ s n, (f s n).frames = s.frames)
    (names : List String) (s : State V) : (names.foldl f s).frames = s.frames := by
  induction names generalizing s with
  | nil => rfl
  | cons n names ih => exact (ih (f s n)).trans (hf s n)

theorem plain_frames {op : Op V} (hplain : op.Plain) (h : s.next op = some s') :
    s'.frames = s.frames := by
  cases op with
  | parameter name value =>
    rw [← some.inj h]
    exact addPrivate_frames
  | assign name value =>
    rw [← some.inj h]
    exact setValue_frames value
  | mvPrivate names =>
    refine callFunction_frames (fun s => s.mvPrivate names) ?_ h
    unfold State.mvPrivate
    split_ifs
    · rfl
    · exact foldl_frames (f := fun s n => s.memvarCreateFromDynSymbol n false none)
        (fun s n => addPrivate_frames) names s.stackNewFrame.memvarResetPrivatesBase
  | mvPublic names =>
    exact callFunction_frames (fun s => s.mvPublic names)
      (foldl_frames (fun s n => createPublic_same.frames) names s.stackNewFrame) h
  | mvPut name value =>
    exact callFunction_frames (fun s => s.mvPut name value)
      (setValue_frames (s := s.stackNewFrame) value) h
  | mvXRelease names =>
    exact callFunction_frames (fun s => s.mvXRelease names)
      (foldl_frames (fun s n => release_same.frames) names s.stackNewFrame) h
  | mvRelease mask bInclude =>
    exact callFunction_frames (fun s => s.memvarReleaseWithMask mask bInclude)
      (clearPrivates_same _ _ _ _).frames h
  | _ => exact hplain.elim

theorem plain_framed {op : Op V} (hplain : op.Plain) (h : s.next op = some s')
    (hframed : Framed s.frames) : Framed s'.frames := by
  rw [plain_frames hplain h]
  exact hframed

theorem next_framed {op : Op V} (hsave : op ≠ .save) (hrestore : op ≠ .restore)
    (h : s.next op = some s') (hframed : Framed s.frames) : Framed s'.frames := by
  cases op with
  | call =>
    rw [← some.inj h]
    exact forall_mem_cons.mpr ⟨⟨s.base, rfl⟩, hframed⟩
  | ret =>
    obtain ⟨nPrivateBase, hframes⟩ := stackOldFrame_frames h
    rw [hframes] at hframed
    exact (forall_mem_cons.mp hframed).2
  | save => exact absurd rfl hsave
  | restore => exact absurd rfl hrestore
  | _ => exact plain_framed (by exact trivial) h hframed

section Names

structure Develops (new : List String) (e e' : Env V) : Prop where
  fresh : e.fresh ≤ e'.fresh
  named : ∀ n, e'.Named n → e.Named n ∨ n ∈ new
  publics : ∀ n c, e'.publics n = some c → e.publics n = some c ∨ e.fresh ≤ c

variable {new : List String}

theorem develops_refl : Develops new e e := ⟨Nat.le_refl _, fun _ => .inl, fun _ _ => .inl⟩

theorem Develops.trans {e'' : Env V} (h : Develops new e e') (h' : Develops new e' e'') :
    Develops new e e'' := by
  refine ⟨Nat.le_trans h.fresh h'.fresh, fun n hn => ?_, fun n c hn => ?_⟩
  · rcases h'.named n hn with hn | hn
    · exact h.named n hn
    · exact .inr hn
  · rcases h'.publics n c hn with hn | hc
    · exact h.publics n c hn
    · exact .inr (Nat.le_trans h.fresh hc)

theorem develops_of_eq (hfresh : e'.fresh = e.fresh) (hentries : e'.entries = e.entries)
    (hpublics : e'.publics = e.publics) : Develops new e e' := by
  refine ⟨Nat.le_of_eq hfresh.symm, fun n hn => .inl ?_, fun n c hn => .inl (hpublics ▸ hn)⟩
  unfold Env.Named at hn ⊢
  rwa [hentries, hpublics] at hn

theorem develops_assignBound (x : MemvarItem V) : Develops new e (e.assignBound m x) := by
  unfold Env.assignBound
  split
  · exact develops_of_eq rfl rfl rfl
  · exact develops_refl

theorem develops_bind (hm : m ∈ new) : Develops new e (e.bind m value) := by
  refine ⟨Nat.le_succ _, fun n hn => ?_, fun n c hn => .inl hn⟩
  rcases hn with hn | hn
  · rcases mem_cons.mp hn with rfl | hn
    · exact .inr hm
    · exact .inl (.inl hn)
  · exact .inl (.inr hn)

theorem develops_declare (hm : m ∈ new) : Develops new e (e.declare m value) := by
  unfold Env.declare
  split_ifs
  · split
    · exact develops_assignBound _
    · exact develops_refl
  · exact develops_bind hm

theorem develops_declarePublic (hm : m ∈ new) : Develops new e (e.declarePublic m) := by
  unfold Env.declarePublic
  split_ifs
  · refine ⟨Nat.le_succ _, fun n hn => ?_, fun n c hn => ?_⟩
    · by_cases hnm : n = m
      · exact .inr (hnm ▸ hm)
      · refine .inl (hn.imp id fun hn => ?_)
        change update e.publics m _ n ≠ none at hn
        rwa [update_of_ne hnm] at hn
    · change update e.publics m _ n = some c at hn
      by_cases hnm : n = m
      · rw [hnm, update_self] at hn
        exact .inr (Nat.le_of_eq (some.inj hn))
      · rw [update_of_ne hnm] at hn
        exact .inl hn
  · exact develops_refl

theorem develops_assign (hm : m ∈ new) (x : MemvarItem V) : Develops new e (e.assign m x) := by
  unfold Env.assign
  split_ifs
  · exact develops_bind hm
  · exact develops_assignBound x

theorem develops_unbind {publics : String → Option Nat}
    (h : ∀ n c, publics n = some c → e.publics n = some c) : Develops new e { e with publics } := by
  refine ⟨Nat.le_refl _, fun n hn => .inl (hn.imp id fun hn => ?_), fun n c hn => .inl (h n c hn)⟩
  obtain ⟨c, hc⟩ := ne_none_iff_exists'.mp hn
  rw [h n c hc]
  exact nofun

theorem develops_release : Develops new e (e.release m) := by
  unfold Env.release
  split_ifs
  · exact develops_assignBound _
  · apply develops_unbind
    intro n c hn
    by_cases hnm : n = m
    · rw [hnm, update_self] at hn
      exact nomatch hn
    · rwa [update_of_ne hnm] at hn

theorem develops_foldl {f : Env V → String → Env V} {ms : List String}
    (hf : ∀ e, ∀ m ∈ ms, Develops new e (f e m)) (e : Env V) : Develops new e (ms.foldl f e) := by
  induction ms generalizing e with
  | nil => exact develops_refl
  | cons m ms ih =>
    exact (hf e m mem_cons_self).trans
      (ih (fun e m hm => hf e m (mem_cons_of_mem _ hm)) (f e m))

theorem develops_pop : Develops new e e.pop := by
  unfold Env.pop
  split
  · next scope outer houter =>
    refine ⟨Nat.le_refl _, fun n hn => .inl (hn.imp (fun hn => ?_) id), fun n c hn => .inl hn⟩
    unfold Env.entries names
    rw [map_append]
    apply mem_append_right
    rw [houter]
    exact hn
  · exact develops_refl

theorem develops_next (op : Op V) : Develops op.symbols e (e.next op) := by
  cases op with
  | call | save => exact develops_of_eq rfl rfl rfl
  | ret => exact develops_pop
  | restore => exact develops_pop
  | parameter name value => exact develops_declare (mem_singleton_self name)
  | assign name value | mvPut name value =>
    exact develops_assign (mem_singleton_self name) value
  | mvPrivate names => exact develops_foldl (fun e m hm => develops_declare hm) e
  | mvPublic names => exact develops_foldl (fun e m hm => develops_declarePublic hm) e
  | mvXRelease names => exact develops_foldl (fun e m hm => develops_release) e
  | mvRelease mask bInclude => exact develops_foldl (fun e m hm => develops_assignBound _) e

theorem setBase_entries : e.setBase.entries = e.entries := by
  unfold Env.setBase
  split
  · next scope outer houter =>
    unfold Env.entries
    rw [houter, flatten_cons, flatten_cons, append_assoc]
    rfl
  · rfl

theorem develops_clear (spared : Option String) : Develops new e (e.clear spared) := by
  have hpublics : ∀ n c, (e.clear spared).publics n = some c → e.publics n = some c := by
    intro n c hn
    change (if spared = some n then e.publics n else none) = some c at hn
    split at hn
    · exact hn
    · exact nomatch hn
  refine ⟨Nat.le_refl _, fun n hn => .inl (.inr ?_), fun n c hn => .inl (hpublics n c hn)⟩
  rcases hn with hn | hn
  · rw [clear_entries] at hn
    exact absurd hn not_mem_nil
  · obtain ⟨c, hc⟩ := ne_none_iff_exists'.mp hn
    rw [hpublics n c hc]
    exact nofun

end Names

section Commands

variable {command : Command V} {commands body : List (Command V)}

/-- What a command does to the declarations in force. -/
def Command.effect (t : Thread V) (e : Env V) : Command V → Env V
  | .op o => e.next o
  | .mvSetBase => e.setBase
  | .memvarsClear fAll => e.clear (t.spared fAll)
  | _ => e

theorem spares (hnodup : t.symbols.Nodup) (fAll : Bool) :
    t.Spares (Thread.exceptOf (if fAll then none else t.dynsymFind "GETLIST")) (t.spared fAll) := by
  intro i n hi
  have hnone : (i : Int) ≠ Thread.exceptOf none := by
    change (i : Int) ≠ -1
    omega
  unfold Thread.spared
  split_ifs
  · exact iff_of_true hnone nofun
  · cases hfind : t.dynsymFind "GETLIST" with
    | none => exact iff_of_true hnone nofun
    | some g =>
      change ¬ (i : Int) = (g : Int) ↔ _
      rw [Int.ofNat_inj]
      apply not_congr
      constructor
      · rintro rfl
        exact hi
      · intro hg
        obtain ⟨hlt, hget⟩ := List.getElem?_eq_some_iff.mp hi
        obtain ⟨hlt', hget'⟩ := List.getElem?_eq_some_iff.mp hg
        exact hnodup.getElem_inj_iff.mp (hget.trans hget'.symm)

theorem Holds.memvarsClear (h : Holds t e) (fAll : Bool) :
    Holds (t.memvarsClear fAll) (e.clear (t.spared fAll)) := by
  refine ⟨clear_represents h (spares h.nodup fAll), h.nodup, fun n hn => ?_, ?_⟩
  · exact h.covers n (((develops_clear (t.spared fAll)).named n hn).resolve_right not_mem_nil)
  · have hframes := (stackClearMemvars_sweeps t.symbols
      (Thread.exceptOf (if fAll then none else t.dynsymFind "GETLIST")) t.iDynH
      (({ t.vm.stackClearMemvarsBase with base := 0 }).memvarSetPrivatesBase 0)).frames
    have hbases : (({ t.vm.stackClearMemvarsBase with base := 0 }).memvarSetPrivatesBase 0).frames =
        clearBases t.vm.frames := releasePrivates_frames _ _ _
    change Framed (stackClearMemvars _ _ _ _).frames
    rw [hframes, hbases]
    exact (clearBases_marks h.represents.marks h.framed).2

theorem callSetBase : s.callFunction (fun s => s.mvSetBase) = some { s with base := s.count } := by
  change some ({ State.releasePrivates (s.count - s.count) _ _ with base := s.count } : State V) = _
  rw [Nat.sub_self]
  rfl

theorem Holds.setBase (h : Holds t e) (hframes : t.vm.frames ≠ []) :
    Holds { t with vm := { t.vm with base := t.vm.count } } e.setBase := by
  have hcore := h.represents.core
  have hmarks := h.represents.marks
  obtain ⟨frame, frames, hcons⟩ := exists_cons_of_ne_nil hframes
  rw [hcons] at hmarks
  cases houter : e.outer with
  | nil =>
    rw [houter] at hmarks
    exact hmarks.elim
  | cons scope outer =>
    rw [houter] at hmarks
    have hset : e.setBase = { e with scope := [], outer := (e.scope ++ scope) :: outer } := by
      unfold Env.setBase
      rw [houter]
    have hentries : e.setBase.entries = e.entries := setBase_entries
    have hpublics : e.setBase.publics = e.publics := by rw [hset]
    refine ⟨⟨⟨?_, ?_, Nat.le_refl _, ?_, ?_, ?_, hcore.size⟩, ?_, ?_⟩, h.nodup, ?_, h.framed⟩
    · unfold Env.lookup
      rw [hentries, hpublics]
      exact hcore.memvar
    · rw [hentries, hpublics]
      exact hcore.stack
    · rw [hset]
      exact hcore.blocks
    · intro c hc
      unfold Env.Live at hc
      rw [hentries, hpublics] at hc
      rw [hset]
      exact hcore.live c hc
    · rw [hentries, hpublics]
      exact hcore.separate
    · change t.vm.count = e.setBase.outer.flatten.length
      rw [hcore.count, ← hentries, hset]
      rfl
    · change Marks t.vm.frames _
      rw [hcons, hset]
      exact hmarks
    · intro n hn
      unfold Env.Named at hn
      rw [hentries, hpublics] at hn
      exact h.covers n hn

theorem takeSymbols_vm (names : List String) (t : Thread V) : (t.takeSymbols names).vm = t.vm := by
  induction names generalizing t with
  | nil => rfl
  | cons name names ih =>
    have hstep : Extends t ((t.dynsymInsert name).stackGetDynHandle name) :=
      extends_dynsymInsert.trans extends_stackGetDynHandle
    exact (ih _).trans hstep.vm

theorem next_op {op : Op V} (hnext : t.next (.op op) = some t') : op ≠ .save ∧ op ≠ .restore ∧
    ∃ vm, t.vm.next op = some vm ∧ t' = { t.takeSymbols op.symbols with vm } := by
  have hmap : ∀ op : Op V, ((t.takeSymbols op.symbols).vm.next op).map (fun vm =>
      { t.takeSymbols op.symbols with vm }) = some t' →
      ∃ vm, t.vm.next op = some vm ∧ t' = { t.takeSymbols op.symbols with vm } := by
    intro op hop
    obtain ⟨vm, hvm, rfl⟩ := Option.map_eq_some_iff.mp hop
    rw [takeSymbols_vm] at hvm
    exact ⟨vm, hvm, rfl⟩
  cases op with
  | save => exact nomatch hnext
  | restore => exact nomatch hnext
  | _ => exact ⟨nofun, nofun, hmap _ hnext⟩

theorem Holds.next (h : Holds t e) (hnext : t.next command = some t') :
    Holds t' (command.effect t e) := by
  cases command with
  | op op =>
    obtain ⟨hsave, hrestore, vm, hop, rfl⟩ := next_op hnext
    obtain ⟨hextends, hcovers⟩ := takeSymbols_covers h.nodup op.symbols
    refine ⟨h.represents.next hop, hextends.nodup h.nodup, fun n hn => ?_,
      next_framed hsave hrestore hop h.framed⟩
    rcases (develops_next op).named n hn with hn | hn
    · exact hextends.covers n (h.covers n hn)
    · exact hcovers n hn
  | dynsymInsert name =>
    rw [← some.inj hnext]
    exact h.extends extends_dynsymInsert
  | getDynHandle name =>
    rw [← some.inj hnext]
    exact h.extends extends_stackGetDynHandle
  | mvSetBase =>
    unfold Thread.next at hnext
    dsimp only at hnext
    rw [callSetBase] at hnext
    split at hnext
    · exact nomatch hnext
    · next hframes =>
      rw [← some.inj hnext]
      exact h.setBase hframes
  | memvarsClear fAll =>
    rw [← some.inj hnext]
    exact h.memvarsClear fAll

theorem Holds.run (h : Holds t e) (hrun : t.run commands = some t') : ∃ e', Holds t' e' := by
  induction commands generalizing t e with
  | nil => exact ⟨e, some.inj hrun ▸ h⟩
  | cons command commands ih =>
    obtain ⟨t₁, hnext, hrun⟩ := Option.bind_eq_some_iff.mp hrun
    exact ih (h.next hnext) hrun

end Commands

end Harbour.Vm.Memvars
