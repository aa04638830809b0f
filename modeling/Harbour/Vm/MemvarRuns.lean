import Harbour.Vm.MemvarSteps

/-!
Every run of procedures keeps the scopes of memory variables.
-/

namespace Harbour.Vm.Memvars

open Library.Scopes List Function

variable {V : Type*} {s s' : State V} {e : Env V} {n : String} {value : Option (MemvarItem V)}

def Env.Sound (e : Env V) : Prop := ∃ s : State V, Core s e

theorem Env.Sound.based (h : e.Sound) : ∃ s : State V, Core s e ∧ Based s e := by
  obtain ⟨s, h⟩ := h
  refine ⟨{ s with base := e.outer.flatten.length }, ⟨h.memvar, h.stack, ?_, h.blocks, h.live,
    h.separate, h.size⟩, rfl⟩
  change _ ≤ s.count
  rw [h.count]
  unfold Env.entries
  rw [length_append]
  exact Nat.le_add_left _ _

theorem Env.Sound.assignBound (h : e.Sound) (n : String) (x : MemvarItem V) :
    (e.assignBound n x).Sound := by
  obtain ⟨s, h⟩ := h
  cases hc : s.memvar n with
  | some c => exact ⟨_, h.assignBound hc x⟩
  | none =>
    have hnone : e.lookup n = none := h.memvar ▸ hc
    unfold Env.assignBound
    rw [hnone]
    exact ⟨s, h⟩

theorem Env.Sound.declarePublic (h : e.Sound) (n : String) : (e.declarePublic n).Sound := by
  obtain ⟨s, h⟩ := h
  exact ⟨_, h.createPublic⟩

theorem Env.Sound.release (h : e.Sound) (n : String) : (e.release n).Sound := by
  obtain ⟨s, h⟩ := h
  exact ⟨_, h.release⟩

/-- A name that is declared above some declarations keeps what they bind it to, and what that
holds. -/
structure Keeps (n : String) (rest : List (String × Nat)) (e e' : Env V) : Prop where
  sound : e'.Sound
  publics : e'.publics n = e.publics n
  value : ∀ c, look e.publics rest n = some c → e'.value c = e.value c
  entries : ∃ upper, e'.entries = upper ++ rest ∧ n ∈ names upper

section Keeps

variable {rest upper : List (String × Nat)} {e' e'' : Env V} {m : String}

theorem Keeps.trans (h : Keeps n rest e e') (h' : Keeps n rest e' e'') : Keeps n rest e e'' := by
  refine ⟨h'.sound, h'.publics.trans h.publics, fun c hc => ?_, h'.entries⟩
  have hlook : look e'.publics rest n = some c := (look_congr h.publics).trans hc
  exact (h'.value c hlook).trans (h.value c hc)

variable (h : e.Sound) (hentries : e.entries = upper ++ rest) (hn : n ∈ names upper)

include h hentries hn

theorem hidden_lookup {c : Nat} (hc : look e.publics rest n = some c) (m : String) :
    e.lookup m ≠ some c := by
  obtain ⟨s, h⟩ := h
  have hseparate := h.separate
  rw [hentries] at hseparate
  unfold Env.lookup
  rw [hentries]
  exact hseparate.hidden hn hc m

omit hn in
theorem hidden_fresh {c : Nat} (hc : look e.publics rest n = some c) : c ≠ e.fresh := by
  obtain ⟨s, h⟩ := h
  apply Nat.ne_of_lt
  apply (h.live c _).1
  rcases look_cell hc with ⟨-, hmem⟩ | hpublic
  · refine .inl ?_
    rw [hentries]
    unfold cells
    rw [map_append]
    exact mem_append_right _ hmem
  · exact .inr ⟨n, hpublic⟩

omit h in
theorem lookup_declared : e.lookup n ≠ none := by
  have hmem : n ∈ names e.entries := by
    rw [hentries]
    unfold names
    rw [map_append]
    exact mem_append_left _ hn
  obtain ⟨c, hlook, -⟩ := look_mem e.publics hmem
  intro hnone
  exact nomatch hnone.symm.trans hlook

theorem keeps_refl : Keeps n rest e e := ⟨h, rfl, fun _ _ => rfl, upper, hentries, hn⟩

theorem keeps_assignBound (m : String) (x : MemvarItem V) : Keeps n rest e (e.assignBound m x) := by
  have hsound := h.assignBound m x
  unfold Env.assignBound at hsound ⊢
  cases hm : e.lookup m with
  | none => exact keeps_refl h hentries hn
  | some c =>
    rw [hm] at hsound
    refine ⟨hsound, rfl, fun c' hc' => ?_, upper, hentries, hn⟩
    apply update_of_ne
    rintro rfl
    exact hidden_lookup h hentries hn hc' m hm

theorem keeps_bind (m : String) (value : Option (MemvarItem V)) :
    Keeps n rest e (e.bind m value) := by
  refine ⟨?_, rfl, fun c hc => ?_, (m, e.fresh) :: upper, ?_, mem_cons_of_mem _ hn⟩
  · obtain ⟨s, h⟩ := h
    exact ⟨_, h.bind⟩
  · exact update_of_ne (hidden_fresh h hentries hc) ..
  · exact congrArg (List.cons (m, e.fresh)) hentries

theorem keeps_declare (m : String) (value : Option (MemvarItem V)) :
    Keeps n rest e (e.declare m value) := by
  unfold Env.declare
  split_ifs
  · cases value with
    | none => exact keeps_refl h hentries hn
    | some x => exact keeps_assignBound h hentries hn m x
  · exact keeps_bind h hentries hn m value

theorem keeps_declarePublic (m : String) : Keeps n rest e (e.declarePublic m) := by
  have hsound := h.declarePublic m
  unfold Env.declarePublic at hsound ⊢
  split_ifs at hsound ⊢ with hnone
  · refine ⟨hsound, ?_, fun c hc => ?_, upper, hentries, hn⟩
    · apply update_of_ne
      rintro rfl
      exact lookup_declared hentries hn hnone
    · exact update_of_ne (hidden_fresh h hentries hc) ..
  · exact keeps_refl h hentries hn

theorem keeps_assign (m : String) (x : MemvarItem V) : Keeps n rest e (e.assign m x) := by
  unfold Env.assign
  split_ifs
  · exact keeps_bind h hentries hn m (some x)
  · exact keeps_assignBound h hentries hn m x

theorem keeps_release (m : String) : Keeps n rest e (e.release m) := by
  have hsound := h.release m
  unfold Env.release at hsound ⊢
  split_ifs at hsound ⊢ with hm
  · exact keeps_assignBound h hentries hn m .nil
  · refine ⟨hsound, ?_, fun _ _ => rfl, upper, hentries, hn⟩
    apply update_of_ne
    rintro rfl
    apply hm
    rw [hentries]
    unfold names
    rw [map_append]
    exact mem_append_left _ hn

theorem keeps_foldl {f : Env V → String → Env V}
    (hf : ∀ (e : Env V) upper m, e.Sound → e.entries = upper ++ rest → n ∈ names upper →
      Keeps n rest e (f e m)) (ms : List String) : Keeps n rest e (ms.foldl f e) := by
  induction ms generalizing e upper with
  | nil => exact keeps_refl h hentries hn
  | cons m ms ih =>
    have hstep := hf e upper m h hentries hn
    obtain ⟨upper', hentries', hn'⟩ := hstep.entries
    exact hstep.trans (ih hstep.sound hentries' hn')

theorem keeps_plain {op : Op V} (hplain : op.Plain) : Keeps n rest e (e.next op) := by
  cases op with
  | parameter name value => exact keeps_declare h hentries hn name value
  | assign name value | mvPut name value => exact keeps_assign h hentries hn name value
  | mvPrivate names =>
    exact keeps_foldl h hentries hn (fun e upper m h he hn => keeps_declare h he hn m none) names
  | mvPublic names =>
    exact keeps_foldl h hentries hn (fun e upper m h he hn => keeps_declarePublic h he hn m) names
  | mvXRelease names =>
    exact keeps_foldl h hentries hn (fun e upper m h he hn => keeps_release h he hn m) names
  | mvRelease mask bInclude =>
    exact keeps_foldl h hentries hn (fun e upper m h he hn => keeps_assignBound h he hn m .nil) _
  | _ => exact hplain.elim

end Keeps

section Balanced

variable {e' : Env V} {m : String} {op first last : Op V} {ops body : List (Op V)}

theorem assignBound_scope (x : MemvarItem V) : (e.assignBound m x).scope = e.scope := by
  unfold Env.assignBound
  cases e.lookup m with
  | none => rfl
  | some c => rfl

theorem declare_suffix : e.scope <:+ (e.declare m value).scope := by
  unfold Env.declare
  split_ifs
  · cases value with
    | none => exact suffix_rfl
    | some x => exact (assignBound_scope x).symm ▸ suffix_rfl
  · exact suffix_cons _ _

theorem declarePublic_scope : (e.declarePublic m).scope = e.scope := by
  unfold Env.declarePublic
  split_ifs
  · rfl
  · rfl

theorem assign_suffix (x : MemvarItem V) : e.scope <:+ (e.assign m x).scope := by
  unfold Env.assign
  split_ifs
  · exact suffix_cons _ _
  · exact (assignBound_scope x).symm ▸ suffix_rfl

theorem release_scope_eq : (e.release m).scope = e.scope := by
  unfold Env.release
  split_ifs
  · exact assignBound_scope _
  · rfl

theorem foldl_scope {f : Env V → String → Env V} (hf : ∀ e n, (f e n).scope = e.scope)
    (ms : List String) (e : Env V) : (ms.foldl f e).scope = e.scope := by
  induction ms generalizing e with
  | nil => rfl
  | cons m ms ih => exact (ih (f e m)).trans (hf e m)

theorem foldl_suffix {f : Env V → String → Env V} (hf : ∀ e n, e.scope <:+ (f e n).scope)
    (ms : List String) (e : Env V) : e.scope <:+ (ms.foldl f e).scope := by
  induction ms generalizing e with
  | nil => exact suffix_rfl
  | cons m ms ih => exact (hf e m).trans (ih (f e m))

theorem plain_scopes (hplain : op.Plain) (e : Env V) :
    (e.next op).outer = e.outer ∧ e.scope <:+ (e.next op).scope := by
  cases op with
  | parameter name value => exact ⟨declare_outer, declare_suffix⟩
  | assign name value | mvPut name value => exact ⟨assign_outer value, assign_suffix value⟩
  | mvPrivate names =>
    exact ⟨foldl_outer _ (fun _ _ => declare_outer) names e,
      foldl_suffix (fun _ _ => declare_suffix) names e⟩
  | mvPublic names =>
    exact ⟨foldl_outer _ (fun _ _ => declarePublic_outer) names e,
      (foldl_scope (fun _ _ => declarePublic_scope) names e).symm ▸ suffix_rfl⟩
  | mvXRelease names =>
    exact ⟨foldl_outer _ (fun _ _ => release_outer) names e,
      (foldl_scope (fun _ _ => release_scope_eq) names e).symm ▸ suffix_rfl⟩
  | mvRelease mask bInclude =>
    exact ⟨foldl_outer _ (fun _ _ => assignBound_outer _) _ e,
      (foldl_scope (fun _ _ => assignBound_scope _) _ e).symm ▸ suffix_rfl⟩
  | _ => exact hplain.elim

theorem Brackets.next (h : Brackets first last) (e : Env V) :
    e.next first = e.push ∧ e.next last = e.pop := by
  cases h with
  | proc => exact ⟨rfl, rfl⟩
  | base => exact ⟨rfl, rfl⟩

theorem run_nest (h : Brackets first last) (e : Env V) :
    e.run (first :: (body ++ last :: ops)) = ((e.push.run body).pop).run ops := by
  unfold Env.run
  rw [foldl_cons, foldl_append, foldl_cons, (h.next e).1, (h.next _).2]

theorem Balanced.scopes (h : Balanced ops) (e : Env V) :
    (e.run ops).outer = e.outer ∧ e.scope <:+ (e.run ops).scope := by
  induction h generalizing e with
  | nil => exact ⟨rfl, suffix_rfl⟩
  | plain hplain _ ih =>
    obtain ⟨houter, hscope⟩ := plain_scopes hplain e
    obtain ⟨houter', hscope'⟩ := ih (e.next _)
    exact ⟨houter'.trans houter, hscope.trans hscope'⟩
  | nest hbrackets _ _ ihbody ih =>
    rename_i body ops _ _
    rw [run_nest hbrackets]
    obtain ⟨houter, -⟩ := ihbody e.push
    have hpop : ((e.push.run body).pop).outer = e.outer ∧
        ((e.push.run body).pop).scope = e.scope := by
      unfold Env.pop
      rw [houter]
      exact ⟨rfl, rfl⟩
    obtain ⟨houter', hscope'⟩ := ih ((e.push.run body).pop)
    rw [hpop.1] at houter'
    rw [hpop.2] at hscope'
    exact ⟨houter', hscope'⟩

theorem Balanced.pop_entries (h : Balanced body) (e : Env V) :
    ((e.push.run body).pop).entries = e.entries ∧
      ((e.push.run body).pop).publics = (e.push.run body).publics ∧
      ((e.push.run body).pop).value = (e.push.run body).value := by
  obtain ⟨houter, -⟩ := h.scopes e.push
  unfold Env.pop
  rw [houter]
  exact ⟨rfl, rfl, rfl⟩

theorem Env.Sound.pop (h : e.Sound) : e.pop.Sound := by
  obtain ⟨s, hcore, hbased⟩ := h.based
  cases houter : e.outer with
  | nil =>
    have hpop : e.pop = e := by
      unfold Env.pop
      rw [houter]
    rw [hpop]
    exact h
  | cons scope outer => exact ⟨_, hcore.pop hbased houter⟩

theorem keeps_balanced {rest upper : List (String × Nat)} (hb : Balanced ops) (h : e.Sound)
    (hentries : e.entries = upper ++ rest) (hn : n ∈ names upper) : Keeps n rest e (e.run ops) := by
  induction hb generalizing e upper with
  | nil => exact keeps_refl h hentries hn
  | plain hplain _ ih =>
    have hstep := keeps_plain h hentries hn hplain
    obtain ⟨upper', hentries', hn'⟩ := hstep.entries
    exact hstep.trans (ih hstep.sound hentries' hn')
  | nest hbrackets hbody _ ihbody ih =>
    rename_i body ops _
    rw [run_nest hbrackets]
    have hpush : e.push.Sound := by
      obtain ⟨s, h⟩ := h
      exact ⟨_, h.push (.saved 0) []⟩
    have hinner : Keeps n rest e.push (e.push.run body) := ihbody hpush hentries hn
    obtain ⟨hsame, hpublics, hvalue⟩ := hbody.pop_entries e
    have hpop : Keeps n rest e ((e.push.run body).pop) := by
      refine ⟨hinner.sound.pop, ?_, fun c hc => ?_, upper, hsame.trans hentries, hn⟩
      · rw [hpublics]
        exact hinner.publics
      · rw [hvalue]
        exact hinner.value c hc
    exact hpop.trans (ih hpop.sound (hsame.trans hentries) hn)

theorem declare_lookup (hn : n ∈ names e.scope) :
    (e.declare m value).lookup n = e.lookup n ∧ n ∈ names (e.declare m value).scope := by
  unfold Env.declare
  split_ifs with hm
  · cases value with
    | none => exact ⟨rfl, hn⟩
    | some x =>
      refine ⟨?_, (assignBound_scope x).symm ▸ hn⟩
      unfold Env.assignBound
      cases e.lookup m with
      | none => rfl
      | some c => rfl
  · refine ⟨look_ne ?_, mem_cons_of_mem _ hn⟩
    rintro rfl
    exact hm hn

theorem next_declared (hop : n ∈ op.privates) (hn : n ∈ names e.scope) :
    (e.next op).lookup n = e.lookup n := by
  cases op with
  | parameter name value => exact (declare_lookup hn).1
  | mvPrivate ms =>
    have hfold : ∀ (ms : List String) (e : Env V), n ∈ names e.scope →
        (ms.foldl (fun e name => e.declare name none) e).lookup n = e.lookup n := by
      intro ms
      induction ms with
      | nil => exact fun _ _ => rfl
      | cons m ms ih =>
        intro e hn
        obtain ⟨hlookup, hn'⟩ : (e.declare m none).lookup n = e.lookup n ∧ _ := declare_lookup hn
        exact (ih _ hn').trans hlookup
    exact hfold ms e hn
  | _ => exact absurd hop not_mem_nil

theorem foldl_declare (ms : List String) (e : Env V) :
    (ms.foldl (fun e name => e.declare name none) e).publics = e.publics ∧
      ∀ c, c < e.fresh → (ms.foldl (fun e name => e.declare name none) e).value c = e.value c := by
  induction ms generalizing e with
  | nil => exact ⟨rfl, fun _ _ => rfl⟩
  | cons m ms ih =>
    obtain ⟨hpublics, hvalue⟩ := ih (e.declare m none)
    have hstep : (e.declare m none).publics = e.publics ∧ e.fresh ≤ (e.declare m none).fresh ∧
        ∀ c, c < e.fresh → (e.declare m none).value c = e.value c := by
      unfold Env.declare
      split_ifs
      · exact ⟨rfl, Nat.le_refl _, fun _ _ => rfl⟩
      · exact ⟨rfl, Nat.le_succ _, fun c hc => update_of_ne (Nat.ne_of_lt hc) ..⟩
    refine ⟨hpublics.trans hstep.1, fun c hc => ?_⟩
    exact (hvalue c (Nat.lt_of_lt_of_le hc hstep.2.1)).trans (hstep.2.2 c hc)

theorem hides_plain (hcore : Core s e) (hplain : op.Plain) (hbefore : n ∉ names e.scope)
    (hafter : n ∈ names (e.next op).scope) :
    (e.next op).publics = e.publics ∧
      ∀ c, e.lookup n = some c → (e.next op).value c = e.value c := by
  have hfresh : ∀ c, e.lookup n = some c → c < e.fresh :=
    fun c hc => (hcore.live c (lookup_live hc)).1
  have hbind : ∀ (name : String) (value : Option (MemvarItem V)),
      (e.bind name value).publics = e.publics ∧
        ∀ c, e.lookup n = some c → (e.bind name value).value c = e.value c :=
    fun name value => ⟨rfl, fun c hc => update_of_ne (Nat.ne_of_lt (hfresh c hc)) ..⟩
  have hassign : ∀ (name : String) (x : MemvarItem V), n ∈ names (e.assign name x).scope →
      (e.assign name x).publics = e.publics ∧
        ∀ c, e.lookup n = some c → (e.assign name x).value c = e.value c := by
    intro name x hafter
    unfold Env.assign at hafter ⊢
    split_ifs at hafter ⊢
    · exact hbind name (some x)
    · rw [assignBound_scope] at hafter
      exact absurd hafter hbefore
  cases op with
  | parameter name value =>
    change n ∈ names (e.declare name value).scope at hafter
    change (e.declare name value).publics = e.publics ∧
      ∀ c, e.lookup n = some c → (e.declare name value).value c = e.value c
    unfold Env.declare at hafter ⊢
    split_ifs at hafter ⊢
    · cases value with
      | none => exact absurd hafter hbefore
      | some x =>
        rw [assignBound_scope] at hafter
        exact absurd hafter hbefore
    · exact hbind name value
  | assign name x | mvPut name x => exact hassign name x hafter
  | mvPrivate ms =>
    obtain ⟨hpublics, hvalue⟩ := foldl_declare ms e
    exact ⟨hpublics, fun c hc => hvalue c (hfresh c hc)⟩
  | mvPublic ms =>
    have hscope := foldl_scope (fun (e : Env V) n => declarePublic_scope (e := e) (m := n)) ms e
    exact absurd (hscope ▸ hafter) hbefore
  | mvXRelease ms =>
    have hscope := foldl_scope (fun (e : Env V) n => release_scope_eq (e := e) (m := n)) ms e
    exact absurd (hscope ▸ hafter) hbefore
  | mvRelease mask bInclude =>
    have hscope := foldl_scope
      (fun (e : Env V) n => assignBound_scope (e := e) (m := n) (.nil : MemvarItem V))
      ((names e.scope).filter fun name => if bInclude then mask name else !mask name) e
    exact absurd (hscope ▸ hafter) hbefore
  | _ => exact hplain.elim

end Balanced

/-- Each name is bound to the cell of its last PRIVATE declaration in the procedures that are
active, or else to its PUBLIC one. A PRIVATE declared again keeps its cell. When a procedure
returns, or a base is restored, what it declared is gone, and each name that it has hidden is bound
to the cell that it was bound to before, which holds what it held. -/
structure Scoped (ops : List (Op V)) (s : State V) : Prop where
  bound : ∀ n, s.memvar n = ((Env.start V).run ops).lookup n
  value : ∀ n c, s.memvar n = some c → s.item c = some (((Env.start V).run ops).value c)
  again : ∀ op n s', n ∈ op.privates → s.declares n → s.next op = some s' → s'.memvar n = s.memvar n
  returns : ∀ first last body s', Brackets first last → Balanced body →
    s.run (first :: (body ++ [last])) = some s' → s'.stack = s.stack ∧ s'.base = s.base
  restores : ∀ first last before op after n s₁ s₂ s', Brackets first last → Balanced before →
    op.Plain → Balanced after → s.run (first :: before) = some s₁ → s₁.next op = some s₂ →
    ¬s₁.declares n → s₂.declares n → s₂.run (after ++ [last]) = some s' →
    s'.memvar n = s₁.memvar n ∧ ∀ c, s₁.memvar n = some c → s'.item c = s₁.item c

section

variable (h : Represents s e)

include h

theorem Represents.bound (n : String) : s.memvar n = e.lookup n :=
  congrFun h.core.memvar n

theorem Represents.holds {c : Nat} (hc : s.memvar n = some c) : s.item c = some (e.value c) :=
  (h.core.live c (lookup_live ((h.bound n).symm.trans hc))).2

theorem Represents.returns {first last : Op V} {body : List (Op V)}
    (hbrackets : Brackets first last) (hbody : Balanced body)
    (hrun : s.run (first :: (body ++ [last])) = some s') :
    s'.stack = s.stack ∧ s'.base = s.base := by
  have h' := h.run hrun
  rw [run_nest hbrackets] at h'
  change Represents s' ((e.push.run body).pop) at h'
  obtain ⟨hentries, hpublics, -⟩ := hbody.pop_entries e
  obtain ⟨houter, -⟩ := hbody.scopes e.push
  have hsound : e.push.Sound := ⟨_, h.core.push (.saved 0) []⟩
  constructor
  · rw [h'.core.stack, h.core.stack, hentries, hpublics]
    apply hidings_congr
    intro n hn
    have hkeeps : Keeps n [] e.push (e.push.run body) :=
      keeps_balanced hbody hsound (append_nil _).symm hn
    exact hkeeps.publics
  · rw [h'.based, h.based]
    unfold Env.pop
    rw [houter]
    rfl

theorem Represents.restores {first last op : Op V} {before after : List (Op V)} {s₁ s₂ : State V}
    (hbrackets : Brackets first last) (hbefore : Balanced before) (hplain : op.Plain)
    (hafter : Balanced after) (hrun : s.run (first :: before) = some s₁)
    (hnext : s₁.next op = some s₂) (hnot : ¬s₁.declares n) (hdeclared : s₂.declares n)
    (hend : s₂.run (after ++ [last]) = some s') :
    s'.memvar n = s₁.memvar n ∧ ∀ c, s₁.memvar n = some c → s'.item c = s₁.item c := by
  have h₁ : Represents s₁ (e.push.run before) := by
    have h₁ := h.run hrun
    unfold Env.run at h₁
    rw [foldl_cons, (hbrackets.next e).1] at h₁
    exact h₁
  have h₂ := h₁.next hnext
  have h₃ : Represents s' ((((e.push.run before).next op).run after).pop) := by
    have h₃ := h₂.run hend
    unfold Env.run at h₃
    rw [foldl_append, foldl_cons, (hbrackets.next _).2] at h₃
    exact h₃
  have houter₁ : (e.push.run before).outer = e.scope :: e.outer := (hbefore.scopes e.push).1
  have houter₂ := (plain_scopes hplain (e.push.run before)).1.trans houter₁
  have houter₃ := (hafter.scopes ((e.push.run before).next op)).1.trans houter₂
  have hn₁ : n ∉ names (e.push.run before).scope :=
    fun hn => hnot ((h₁.core.declared h₁.based).mpr hn)
  have hn₂ := (h₂.core.declared h₂.based).mp hdeclared
  have hentries₁ : (e.push.run before).entries = (e.push.run before).scope ++ e.entries := by
    unfold Env.entries
    rw [houter₁]
    rfl
  have hentries₂ : ((e.push.run before).next op).entries =
      ((e.push.run before).next op).scope ++ e.entries := by
    unfold Env.entries
    rw [houter₂]
    rfl
  have hkeeps := keeps_balanced hafter ⟨s₂, h₂.core⟩ hentries₂ hn₂
  obtain ⟨hpublics, hvalue⟩ := hides_plain h₁.core hplain hn₁ hn₂
  have hlook₁ : (e.push.run before).lookup n = look (e.push.run before).publics e.entries n := by
    unfold Env.lookup
    rw [hentries₁, look_append, look_not_mem hn₁]
  have hlookup : ((((e.push.run before).next op).run after).pop).lookup n =
      (e.push.run before).lookup n := by
    rw [hlook₁, ← hpublics]
    unfold Env.pop
    rw [houter₃]
    exact look_congr hkeeps.publics
  have hbound : s'.memvar n = s₁.memvar n := by
    rw [h₃.bound, h₁.bound, hlookup]
  refine ⟨hbound, fun c hc => ?_⟩
  have hc₁ : (e.push.run before).lookup n = some c := (h₁.bound n).symm.trans hc
  rw [h₃.holds (hbound.trans hc), h₁.holds hc, ← hvalue c hc₁]
  have hpop : ((((e.push.run before).next op).run after).pop).value =
      (((e.push.run before).next op).run after).value := by
    unfold Env.pop
    rw [houter₃]
  rw [hpop, hkeeps.value c (by rw [hpublics, ← hlook₁]; exact hc₁)]

end

theorem memvars_scoped {ops : List (Op V)} (h : (State.start V).run ops = some s) :
    Scoped ops s := by
  have hs : Represents s ((Env.start V).run ops) := start_represents.run h
  refine ⟨hs.bound, fun n c hc => hs.holds hc, ?_, ?_, ?_⟩
  · intro op n s' hop hdeclared hnext
    have hn := (hs.core.declared hs.based).mp hdeclared
    rw [(hs.next hnext).bound, hs.bound]
    exact next_declared hop hn
  · intro first last body s' hbrackets hbody hrun
    exact hs.returns hbrackets hbody hrun
  · intro first last before op after n s₁ s₂ s' hbrackets hbefore hplain hafter hrun hnext hnot
      hdeclared hend
    exact hs.restores hbrackets hbefore hplain hafter hrun hnext hnot hdeclared hend

/-- A procedure that hides a PUBLIC of its caller, and then one that has returned. -/
def hidePublic : List (Op Nat) :=
  [.mvPublic ["A"], .assign "A" (.other 1), .call, .mvPrivate ["A"], .assign "A" (.other 2), .ret]

theorem memvars_scoped_hiding : ∃ s, (State.start Nat).run hidePublic = some s ∧
    s.memvar "A" = some 0 ∧ Scoped hidePublic s :=
  ⟨_, rfl, by decide, memvars_scoped rfl⟩

end Harbour.Vm.Memvars
