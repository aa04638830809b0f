import Harbour.Vm.MemvarClearRuns

/-!
What is bound after memory variables are cleared, and after the procedures return that were active.
-/

namespace Harbour.Vm.Memvars

open Library.Scopes List Option

variable {V : Type*} {s : State V} {e e' : Env V} {t t' : Thread V} {n : String}

structure Later (e e' : Env V) : Prop where
  fresh : e.fresh ≤ e'.fresh
  publics : ∀ n c, e'.publics n = some c → e.publics n = some c ∨ e.fresh ≤ c

theorem Develops.later {new : List String} (h : Develops new e e') : Later e e' :=
  ⟨h.fresh, h.publics⟩

theorem later_refl : Later e e := ⟨Nat.le_refl _, fun _ _ => .inl⟩

theorem Later.trans {e'' : Env V} (h : Later e e') (h' : Later e' e'') : Later e e'' := by
  refine ⟨Nat.le_trans h.fresh h'.fresh, fun n c hn => ?_⟩
  rcases h'.publics n c hn with hn | hc
  · exact h.publics n c hn
  · exact .inr (Nat.le_trans h.fresh hc)

theorem plain_later {command : Command V} (hplain : command.Plain) :
    Later e (command.effect t e) := by
  cases command with
  | op op => exact (develops_next op).later
  | dynsymInsert name => exact later_refl
  | getDynHandle name => exact later_refl
  | mvSetBase => exact hplain.elim
  | memvarsClear fAll => exact (develops_clear _ : Develops [] e _).later

section Returns

variable {commands body : List (Command V)}

theorem run_append (first rest : List (Command V)) :
    t.run (first ++ rest) = (t.run first).bind fun t' => t'.run rest := by
  induction first generalizing t with
  | nil => rfl
  | cons command first ih =>
    change _ = ((t.next command).bind fun t' => t'.run first).bind fun t' => t'.run rest
    rw [bind_assoc]
    exact congrArg (bind _) (funext fun t' => ih)

theorem plain_outer {command : Command V} (hplain : command.Plain)
    {inner base : List (List (String × Nat))} (houter : e.outer = inner ++ base)
    (hbase : ∀ scope ∈ base, scope = []) :
    ∃ inner', (command.effect t e).outer = inner' ++ base ∧ inner'.length = inner.length := by
  cases command with
  | op op => exact ⟨inner, (plain_scopes hplain e).1.trans houter, rfl⟩
  | dynsymInsert name | getDynHandle name => exact ⟨inner, houter, rfl⟩
  | mvSetBase => exact hplain.elim
  | memvarsClear fAll =>
    refine ⟨inner.map fun _ => [], ?_, length_map _⟩
    change e.outer.map (fun _ => []) = _
    rw [houter, map_append]
    congr 1
    conv_rhs => rw [← map_id base]
    exact map_congr_left fun scope hscope => (hbase scope hscope).symm

theorem steady_outer (hsteady : Steady commands) (h : Holds t e)
    {inner base : List (List (String × Nat))} (houter : e.outer = inner ++ base)
    (hbase : ∀ scope ∈ base, scope = []) (hrun : t.run commands = some t') :
    ∃ e' inner', Holds t' e' ∧ Later e e' ∧ e'.outer = inner' ++ base ∧
      inner'.length = inner.length := by
  induction hsteady generalizing t t' e inner with
  | nil =>
    obtain rfl := some.inj hrun
    exact ⟨e, inner, h, later_refl, houter, rfl⟩
  | plain hplain _ ih =>
    obtain ⟨t₁, hnext, hrun⟩ := bind_eq_some_iff.mp hrun
    obtain ⟨inner₁, houter₁, hlength₁⟩ := plain_outer (t := t) hplain houter hbase
    obtain ⟨e', inner', h', hlater, houter', hlength'⟩ := ih (h.next hnext) houter₁ hrun
    exact ⟨e', inner', h', (plain_later hplain).trans hlater, houter', hlength'.trans hlength₁⟩
  | nest _ _ ihbody ih =>
    obtain ⟨t₁, hcall, hrun⟩ := bind_eq_some_iff.mp hrun
    rw [run_append] at hrun
    obtain ⟨t₂, hbody, hrun⟩ := bind_eq_some_iff.mp hrun
    obtain ⟨t₃, hret, hrun⟩ := bind_eq_some_iff.mp hrun
    have houter₁ : e.push.outer = (e.scope :: inner) ++ base :=
      congrArg (List.cons e.scope) houter
    have h₁ : Holds t₁ e.push := h.next hcall
    obtain ⟨e₂, inner₂, h₂, hlater₂, houter₂, hlength₂⟩ := ihbody h₁ houter₁ hbody
    obtain ⟨scope, inner₃, rfl⟩ := exists_cons_of_length_eq_add_one hlength₂
    have h₃ : Holds t₃ e₂.pop := h₂.next hret
    have hpop : e₂.pop = { e₂ with scope, outer := inner₃ ++ base } := by
      unfold Env.pop
      rw [houter₂]
      rfl
    have houter₃ : e₂.pop.outer = inner₃ ++ base := by rw [hpop]
    obtain ⟨e', inner', h', hlater, houter', hlength'⟩ := ih h₃ houter₃ hrun
    have hlater₁ : Later e e.push := ⟨Nat.le_refl _, fun _ _ => .inl⟩
    have hlater₃ : Later e₂ e₂.pop := (develops_pop : Develops [] e₂ e₂.pop).later
    exact ⟨e', inner', h', hlater₁.trans (hlater₂.trans (hlater₃.trans hlater)), houter',
      hlength'.trans (Nat.succ.inj hlength₂)⟩

theorem ret_outer (hsteady : Steady body) (h : Holds t e) (hbase : ∀ scope ∈ e.outer, scope = [])
    (hrun : t.run (body ++ [.op .ret]) = some t') :
    ∃ e', Holds t' e' ∧ Later e e' ∧ e'.scope = [] ∧ ∀ scope ∈ e'.outer, scope = [] := by
  rw [run_append] at hrun
  obtain ⟨t₁, hbody, hrun⟩ := bind_eq_some_iff.mp hrun
  obtain ⟨t₂, hret, hrun⟩ := bind_eq_some_iff.mp hrun
  obtain rfl := some.inj hrun
  obtain ⟨e₁, inner, h₁, hlater, houter, hlength⟩ :=
    steady_outer hsteady h (nil_append e.outer).symm hbase hbody
  obtain rfl := eq_nil_of_length_eq_zero hlength
  have h₂ : Holds t₂ e₁.pop := h₁.next hret
  have hlater₂ : Later e₁ e₁.pop := (develops_pop : Develops [] e₁ e₁.pop).later
  refine ⟨e₁.pop, h₂, hlater.trans hlater₂, ?_⟩
  obtain ⟨-, -, vm, hvm, -⟩ := next_op hret
  obtain ⟨nPrivateBase, hframes⟩ := stackOldFrame_frames hvm
  have hmarks := h₁.represents.marks
  rw [hframes] at hmarks
  cases hcons : e₁.outer with
  | nil =>
    rw [hcons] at hmarks
    exact hmarks.elim
  | cons scope outer =>
    rw [nil_append, hcons] at houter
    rw [← houter] at hbase
    obtain ⟨hscope, hrest⟩ := forall_mem_cons.mp hbase
    unfold Env.pop
    rw [hcons]
    exact ⟨hscope, hrest⟩

theorem returns_outer {bodies : List (List (Command V))} (hsteady : ∀ body ∈ bodies, Steady body)
    (h : Holds t e) (hscope : e.scope = []) (hbase : ∀ scope ∈ e.outer, scope = [])
    (hrun : t.run (bodies.flatMap fun body => body ++ [.op .ret]) = some t') :
    ∃ e', Holds t' e' ∧ Later e e' ∧ e'.entries = [] := by
  induction bodies generalizing t e with
  | nil =>
    obtain rfl := some.inj hrun
    refine ⟨e, h, later_refl, ?_⟩
    unfold Env.entries
    rw [hscope, nil_append]
    exact flatten_eq_nil_iff.mpr hbase
  | cons body bodies ih =>
    rw [flatMap_cons, run_append] at hrun
    obtain ⟨t₁, hfirst, hrun⟩ := bind_eq_some_iff.mp hrun
    obtain ⟨hbody, hbodies⟩ := forall_mem_cons.mp hsteady
    obtain ⟨e₁, h₁, hlater₁, hscope₁, hbase₁⟩ := ret_outer hbody h hbase hfirst
    obtain ⟨e', h', hlater, hentries⟩ := ih hbodies h₁ hscope₁ hbase₁ hrun
    exact ⟨e', h', hlater₁.trans hlater, hentries⟩

end Returns

theorem outermost_eq (h : Core s e) (n : String) : s.outermost n = e.publics n := by
  have hfold : ∀ entries : List (String × Nat), (hidings e.publics entries).foldl
      (fun pMemvar item => if item.1 = n then item.2 else pMemvar) (look e.publics entries n) =
        e.publics n := by
    intro entries
    induction entries with
    | nil => rfl
    | cons entry entries ih =>
      change (hidings e.publics entries).foldl _ (if entry.1 = n then
        look e.publics entries entry.1 else look e.publics (entry :: entries) n) = _
      split
      · next hname =>
        rw [hname]
        exact ih
      · next hother =>
        rw [look_ne (Ne.symm hother)]
        exact ih
  unfold State.outermost
  rw [h.stack, h.memvar]
  exact hfold e.entries

theorem cleared_memvar (h : Holds t e) (fAll : Bool) (n : String) :
    (t.memvarsClear fAll).vm.memvar n = if t.spared fAll = some n then e.publics n else none := by
  rw [(h.memvarsClear fAll).represents.core.memvar]
  unfold Env.lookup
  rw [clear_entries]
  rfl

/-- `hb_memvarsClear( HB_FALSE )` leaves no name bound but GETLIST, to its outermost cell. -/
structure KeepsGetList (t : Thread V) : Prop where
  others : ∀ n, n ≠ "GETLIST" → (t.memvarsClear false).vm.memvar n = none
  getList : ∀ c, t.vm.outermost "GETLIST" = some c →
    (t.memvarsClear false).vm.memvar "GETLIST" = some c ∧
      (t.memvarsClear false).vm.item c = t.vm.item c

/-- Neither GETLIST nor the symbol with the next number has an outermost cell. -/
def NothingSpared (t : Thread V) : Prop :=
  ∀ uiSymNum, t.dynsymFind "GETLIST" = some uiSymNum → t.vm.outermost "GETLIST" = none ∧
    ∀ n, t.dynsymFind n = some (uiSymNum + 1) → t.vm.outermost n = none

theorem keepsGetList_iff (h : Holds t e) : KeepsGetList t ↔ NothingSpared t := by
  have hcore := h.represents.core
  cases hfind : t.dynsymFind "GETLIST" with
  | none =>
    have hspared : t.spared false = none := by
      change (t.dynsymFind "GETLIST").bind _ = none
      rw [hfind]
      rfl
    have hnone : e.publics "GETLIST" = none := by
      by_contra hne
      obtain ⟨i, -, hi⟩ := h.covers "GETLIST" (.inr hne)
      exact nomatch ((dynsymFind_iff h.nodup i).mpr hi).symm.trans hfind
    refine iff_of_true ⟨fun n _ => ?_, fun c hc => ?_⟩ fun g hg => nomatch hfind.symm.trans hg
    · rw [cleared_memvar h, hspared, if_neg nofun]
    · rw [outermost_eq hcore, hnone] at hc
      exact nomatch hc
  | some uiSymNum =>
    have hspared : ∀ n, t.spared false = some n ↔ t.dynsymFind n = some (uiSymNum + 1) := by
      intro n
      rw [dynsymFind_iff h.nodup]
      change (t.dynsymFind "GETLIST").bind _ = some n ↔ _
      rw [hfind, bind_some]
    have hgone : (t.memvarsClear false).vm.memvar "GETLIST" = none := by
      rw [cleared_memvar h, if_neg fun hsame => ?_]
      have hnext := (hspared "GETLIST").mp hsame
      exact absurd (some.inj (hnext.symm.trans hfind)) (Nat.succ_ne_self _)
    constructor
    · intro hkeeps g hg
      obtain rfl := some.inj (hg.symm.trans hfind)
      constructor
      · by_contra hne
        obtain ⟨c, hc⟩ := ne_none_iff_exists'.mp hne
        exact nomatch hgone.symm.trans (hkeeps.getList c hc).1
      · intro n hn
        have hother : n ≠ "GETLIST" := by
          rintro rfl
          exact absurd (some.inj (hn.symm.trans hfind)) (Nat.succ_ne_self _)
        have hnone := hkeeps.others n hother
        rw [cleared_memvar h, if_pos ((hspared n).mpr hn)] at hnone
        exact (outermost_eq hcore n).trans hnone
    · intro hnothing
      obtain ⟨hgetList, hnext⟩ := hnothing uiSymNum hfind
      refine ⟨fun n _ => ?_, fun c hc => nomatch hgetList.symm.trans hc⟩
      rw [cleared_memvar h]
      split
      · next hn => exact (outermost_eq hcore n).symm.trans (hnext n ((hspared n).mp hn))
      · rfl

/-- No PRIVATE is in force, and each name that is bound has the cell that the clearing has left it,
or a new one. -/
structure Returned (t t' : Thread V) : Prop where
  stack : t'.vm.stack = []
  bound : ∀ n c, t'.vm.memvar n = some c → t.vm.memvar n = some c ∨ t.vm.blocks ≤ c

theorem start_holds : Holds (Thread.start V) (Env.start V) := by
  refine ⟨start_represents, nodup_nil, fun n hn => ?_, fun frame hframe => ?_⟩
  · rcases hn with hn | hn
    · exact absurd hn not_mem_nil
    · exact absurd rfl hn
  · exact absurd hframe not_mem_nil

/-- Clearing all but GETLIST does so, in a state that a thread reaches, if and only if neither
GETLIST nor the symbol numbered after it has an outermost cell. Clearing all leaves nothing bound.
When the procedures return that were active, nothing is restored, and what they have declared is
gone. -/
theorem memvars_cleared_iff {commands : List (Command V)}
    (hrun : (Thread.start V).run commands = some t) :
    (KeepsGetList t ↔ NothingSpared t) ∧ (∀ n, (t.memvarsClear true).vm.memvar n = none) ∧
    ∀ fAll (bodies : List (List (Command V))) t', (∀ body ∈ bodies, Steady body) →
      (t.memvarsClear fAll).run (bodies.flatMap fun body => body ++ [.op .ret]) = some t' →
      Returned (t.memvarsClear fAll) t' := by
  obtain ⟨e, h⟩ := start_holds.run hrun
  refine ⟨keepsGetList_iff h, fun n => ?_, fun fAll bodies t' hsteady hreturns => ?_⟩
  · rw [cleared_memvar h]
    exact if_neg nofun
  · have hclear := h.memvarsClear fAll
    have hbase : ∀ scope ∈ (e.clear (t.spared fAll)).outer, scope = [] := by
      intro scope hscope
      obtain ⟨-, -, rfl⟩ := mem_map.mp hscope
      rfl
    obtain ⟨e', h', hlater, hentries⟩ := returns_outer hsteady hclear rfl hbase hreturns
    have hmemvar : t'.vm.memvar = e'.publics := by
      rw [h'.represents.core.memvar]
      unfold Env.lookup
      rw [hentries]
      rfl
    refine ⟨?_, fun n c hc => ?_⟩
    · rw [h'.represents.core.stack, hentries]
      rfl
    · rw [hmemvar] at hc
      rw [cleared_memvar h, hclear.represents.core.blocks]
      exact hlater.publics n c hc

def getListFirst : List (Command Nat) := [.op (.mvPublic ["GETLIST", "A"])]

/-- A procedure has its own GETLIST beside a PUBLIC of the caller. -/
def getListPrivate : List (Command Nat) :=
  [.op (.mvPublic ["A"]), .op .call, .op (.mvPrivate ["GETLIST", "B"])]

theorem memvars_cleared_iff_getList :
    (∃ t, (Thread.start Nat).run getListPrivate = some t ∧ t.vm.memvar "GETLIST" = some 1 ∧
      KeepsGetList t) ∧
    ∃ t, (Thread.start Nat).run getListFirst = some t ∧ t.vm.memvar "GETLIST" = some 0 ∧
      ¬ KeepsGetList t := by
  constructor
  · obtain ⟨t, hrun, hsymbols, hfind, hgetList, hlost, hnext⟩ :
        ∃ t, (Thread.start Nat).run getListPrivate = some t ∧
          t.symbols = ["A", "GETLIST", "B"] ∧ t.dynsymFind "GETLIST" = some 2 ∧
          t.vm.memvar "GETLIST" = some 1 ∧ t.vm.outermost "GETLIST" = none ∧
          t.vm.outermost "B" = none :=
      ⟨_, rfl, by decide, by decide, by decide, by decide, by decide⟩
    refine ⟨t, hrun, hgetList, (memvars_cleared_iff hrun).1.mpr fun g hg => ⟨hlost, fun n hn => ?_⟩⟩
    obtain rfl := some.inj (hg.symm.trans hfind)
    rw [dynsymFind_iff (by rw [hsymbols]; decide), hsymbols] at hn
    obtain rfl : "B" = n := some.inj hn
    exact hnext
  · obtain ⟨t, hrun, hfind, hgetList, hcell⟩ :
        ∃ t, (Thread.start Nat).run getListFirst = some t ∧ t.dynsymFind "GETLIST" = some 1 ∧
          t.vm.memvar "GETLIST" = some 0 ∧ t.vm.outermost "GETLIST" = some 0 :=
      ⟨_, rfl, by decide, by decide, by decide⟩
    refine ⟨t, hrun, hgetList, fun hkeeps => ?_⟩
    have hnothing := (memvars_cleared_iff hrun).1.mp hkeeps 1 hfind
    exact nomatch hcell.symm.trans hnothing.1

/-- GETLIST is cleared, and the other is kept. -/
theorem getList_lost :
    ¬ ∀ commands t, (Thread.start Nat).run commands = some t → KeepsGetList t := by
  intro h
  obtain ⟨t, hrun, hcell⟩ : ∃ t, (Thread.start Nat).run getListFirst = some t ∧
      (t.memvarsClear false).vm.memvar "A" = some 1 := ⟨_, rfl, by decide⟩
  exact nomatch hcell.symm.trans ((h _ t hrun).others "A" (by decide))

end Harbour.Vm.Memvars
