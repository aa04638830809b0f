import Harbour.Vm.Memvars

/-!
What memory variables are for: scopes in which names are declared PRIVATE, and PUBLIC names.
-/

namespace Harbour.Vm.Memvars

open Library.Scopes List Function Option

/-- The declarations of the scope that is active and of those outside of it, and what their cells
hold. -/
structure Env (V : Type*) where
  scope : List (String × Nat)
  outer : List (List (String × Nat))
  publics : String → Option Nat
  value : Nat → MemvarItem V
  fresh : Nat

def Env.start (V : Type*) : Env V := ⟨[], [], fun _ => none, fun _ => .nil, 0⟩

variable {V : Type*}

namespace Env

variable (e : Env V)

def entries : List (String × Nat) := e.scope ++ e.outer.flatten

/-- The cell of the last PRIVATE declaration, or else of the PUBLIC one. -/
def lookup : String → Option Nat := look e.publics e.entries

def push : Env V := { e with scope := [], outer := e.scope :: e.outer }

def pop : Env V :=
  match e.outer with
  | scope :: outer => { e with scope, outer }
  | [] => e

def store (c : Nat) (value : MemvarItem V) : Env V :=
  { e with value := update e.value c value }

def bind (name : String) (value : Option (MemvarItem V)) : Env V :=
  { e with
    scope := (name, e.fresh) :: e.scope
    value := update e.value e.fresh (value.getD .nil)
    fresh := e.fresh + 1 }

def assignBound (name : String) (value : MemvarItem V) : Env V :=
  match e.lookup name with
  | some c => e.store c value
  | none => e

/-- A PRIVATE declared again in its scope keeps its cell. -/
def declare (name : String) (value : Option (MemvarItem V)) : Env V :=
  if name ∈ names e.scope then
    match value with
    | some value => e.assignBound name value
    | none => e
  else e.bind name value

def declarePublic (name : String) : Env V :=
  if e.lookup name = none then
    { e with
      publics := update e.publics name (some e.fresh)
      value := update e.value e.fresh
        (.logical (name = "HARBOUR" || name = "CLIPPER"))
      fresh := e.fresh + 1 }
  else e

/-- A name that is not bound becomes a PRIVATE. -/
def assign (name : String) (value : MemvarItem V) : Env V :=
  if e.lookup name = none then e.bind name (some value) else e.assignBound name value

/-- PRIVATEs are only cleared. -/
def release (name : String) : Env V :=
  if name ∈ names e.entries then e.assignBound name .nil
  else { e with publics := update e.publics name none }

def releaseMatching (fMatch : String → Bool) : Env V :=
  ((names e.scope).filter fMatch).foldl (fun e name => e.assignBound name .nil) e

def next : Op V → Env V
  | .call => e.push
  | .ret => e.pop
  | .save => e.push
  | .restore => e.pop
  | .parameter name value => e.declare name value
  | .assign name value => e.assign name value
  | .mvPrivate names => names.foldl (fun e name => e.declare name none) e
  | .mvPublic names => names.foldl (fun e name => e.declarePublic name) e
  | .mvPut name value => e.assign name value
  | .mvXRelease names => names.foldl (fun e name => e.release name) e
  | .mvRelease mask bInclude =>
    e.releaseMatching fun name => if bInclude then mask name else !mask name

def run (ops : List (Op V)) : Env V := ops.foldl next e

/-- A cell that a declaration in force binds. -/
def Live (c : Nat) : Prop := c ∈ cells e.entries ∨ ∃ name, e.publics name = some c

end Env

/-- The table and the stack keep the declarations in force. -/
structure Core (s : State V) (e : Env V) : Prop where
  memvar : s.memvar = e.lookup
  stack : s.stack = hidings e.publics e.entries
  base : s.base ≤ s.count
  blocks : s.blocks = e.fresh
  live : ∀ c, e.Live c → c < e.fresh ∧ s.item c = some (e.value c)
  separate : Separate e.publics e.entries
  size : s.count ≤ s.size

def Frame.base : Frame → Nat
  | .proc nPrivateBase => nPrivateBase
  | .saved nBase => nBase

/-- The frames keep where the outer scopes begin. -/
def Marks : List Frame → List (List (String × Nat)) → Prop
  | [], [] => True
  | frame :: frames, _ :: outer => frame.base = outer.flatten.length ∧ Marks frames outer
  | _, _ => False

/-- The base is where the active scope begins. -/
def Based (s : State V) (e : Env V) : Prop := s.base = e.outer.flatten.length

structure Represents (s : State V) (e : Env V) : Prop where
  core : Core s e
  based : Based s e
  marks : Marks s.frames e.outer

section Core

variable {s s' : State V} {e : Env V} {n : String} {c : Nat} {value : Option (MemvarItem V)}

theorem start_represents : Represents (State.start V) (Env.start V) := by
  refine ⟨⟨rfl, rfl, Nat.le_refl 0, rfl, ?_, ⟨nodup_nil, nofun, nofun⟩, Nat.le_refl 0⟩, rfl,
    trivial⟩
  rintro c (hc | ⟨n, hn⟩)
  · exact absurd hc not_mem_nil
  · exact nomatch hn

theorem lookup_live (h : e.lookup n = some c) : e.Live c := by
  rcases look_cell h with ⟨-, hmem⟩ | hpublic
  · exact .inl hmem
  · exact .inr ⟨n, hpublic⟩

theorem findPrivate_iff (k : Nat) (stack : List (String × Option Nat)) :
    findPrivate n k stack = true ↔ n ∈ (stack.take k).map Prod.fst := by
  induction k generalizing stack with
  | zero =>
    exact iff_of_false (by unfold findPrivate; exact nofun) not_mem_nil
  | succ k ih =>
    cases stack with
    | nil => exact iff_of_false nofun not_mem_nil
    | cons item stack =>
      unfold findPrivate
      rw [Bool.or_eq_true, decide_eq_true_eq, ih, take_succ_cons, map_cons,
        mem_cons, eq_comm]

theorem Core.count (h : Core s e) : s.count = e.entries.length := by
  unfold State.count
  rw [h.stack, hidings_length]

theorem Core.count_base (h : Core s e) (hbased : Based s e) :
    s.count - s.base = e.scope.length := by
  rw [h.count, hbased]
  unfold Env.entries
  rw [length_append, Nat.add_sub_cancel]

theorem hidings_take (globals : String → Option Nat) (upper entries : List (String × Nat)) :
    ((hidings globals (upper ++ entries)).take upper.length).map Prod.fst = names upper := by
  rw [map_take, hidings_names]
  have hlength : upper.length = (names upper).length := (length_map Prod.fst).symm
  unfold names at hlength ⊢
  rw [map_append, hlength, take_left]

section

variable (h : Core s e)

include h

theorem Core.declared (hbased : Based s e) :
    findPrivate n (s.count - s.base) s.stack = true ↔ n ∈ names e.scope := by
  rw [findPrivate_iff, h.count_base hbased, h.stack]
  unfold Env.entries
  rw [hidings_take]

theorem Core.setItem (hlive : e.Live c) (x : MemvarItem V) :
    Core (s.setItem c x) (e.store c x) := by
  refine ⟨h.memvar, h.stack, h.base, h.blocks, fun c' hc' => ?_, h.separate, h.size⟩
  obtain ⟨hfresh, hitem⟩ := h.live c' hc'
  refine ⟨hfresh, ?_⟩
  change update s.item c (some x) c' = some (update e.value c x c')
  by_cases hc : c' = c
  · subst hc
    rw [update_self, update_self]
  · rw [update_of_ne hc, update_of_ne hc]
    exact hitem

theorem Core.growStack : ∃ size, s.growStack = { s with size } ∧ s.count + 1 ≤ size := by
  unfold State.growStack
  split_ifs with hfull hzero
  · refine ⟨tableInit, ?_, ?_⟩
    · have hstack : s.stack = [] := by
        have hcount : s.stack.length = 0 := hfull.trans hzero
        exact length_eq_zero_iff.mp hcount
      have hbase : s.base = 0 := by
        have hle := h.base
        unfold State.count at hle
        rw [hstack] at hle
        exact Nat.le_zero.mp hle
      rw [← hstack, ← hbase]
    · rw [hfull, hzero]
      unfold tableInit
      omega
  · refine ⟨s.size + tableExpand, rfl, ?_⟩
    unfold tableExpand
    omega
  · have hsize := h.size
    exact ⟨s.size, rfl, by omega⟩

theorem Core.bind : Core ((((s.pushPrivate n).memvarValueNew).dynsymSetMemvar n
    (some s.blocks)).itemCopy s.blocks value) (e.bind n value) := by
  obtain ⟨size, hgrow, hsize⟩ := h.growStack
  have hfresh : ∀ c, e.Live c → c ≠ e.fresh := fun c hc => Nat.ne_of_lt (h.live c hc).1
  have hpush : ((s.pushPrivate n).memvarValueNew).dynsymSetMemvar n (some s.blocks) =
      { s with
        memvar := update s.memvar n (some s.blocks)
        item := update s.item s.blocks (some .nil)
        blocks := s.blocks + 1
        stack := (n, s.memvar n) :: s.stack
        size } := by
    unfold State.pushPrivate
    rw [hgrow]
    rfl
  have hnew : Core (((s.pushPrivate n).memvarValueNew).dynsymSetMemvar n (some s.blocks))
      (e.bind n none) := by
    rw [hpush]
    refine ⟨?_, ?_, Nat.le_succ_of_le h.base, congrArg Nat.succ h.blocks, ?_, ?_, hsize⟩
    · rw [h.memvar, h.blocks]
      rfl
    · rw [h.memvar, h.stack]
      rfl
    · intro c hc
      rw [h.blocks]
      change c < e.fresh + 1 ∧ update s.item e.fresh (some .nil) c =
        some (update e.value e.fresh .nil c)
      by_cases hnew : c = e.fresh
      · subst hnew
        rw [update_self, update_self]
        exact ⟨Nat.lt_succ_self _, rfl⟩
      · have hlive : e.Live c := by
          rcases hc with hc | hc
          · exact .inl ((mem_cons.mp hc).resolve_left hnew)
          · exact .inr hc
        obtain ⟨hlt, hitem⟩ := h.live c hlive
        rw [update_of_ne hnew, update_of_ne hnew]
        exact ⟨Nat.lt_succ_of_lt hlt, hitem⟩
    · refine ⟨nodup_cons.mpr ⟨fun hmem => hfresh _ (.inl hmem) rfl, h.separate.nodup⟩, ?_,
        h.separate.injective⟩
      intro m c hm hc
      rcases mem_cons.mp hc with rfl | hc
      · exact hfresh _ (.inr ⟨m, hm⟩) rfl
      · exact h.separate.disjoint m c hm hc
  cases value with
  | none => exact hnew
  | some x =>
    have hset := hnew.setItem (c := s.blocks)
      (.inl (by rw [h.blocks]; exact mem_cons_self)) x
    have hsame : (e.bind n none).store s.blocks x = e.bind n (some x) := by
      unfold Env.bind Env.store
      rw [h.blocks]
      rw [update_idem]
      rfl
    rw [hsame] at hset
    exact hset

theorem Core.assignBound (hc : s.memvar n = some c) (x : MemvarItem V) :
    Core (s.setItem c x) (e.assignBound n x) := by
  have hlookup : e.lookup n = some c := h.memvar ▸ hc
  unfold Env.assignBound
  rw [hlookup]
  exact h.setItem (lookup_live hlookup) x

theorem Core.addPrivate (hbased : Based s e) :
    Core (s.memvarAddPrivate n value) (e.declare n value) := by
  unfold State.memvarAddPrivate Env.declare
  split_ifs with hn
  · obtain ⟨c, hlook, -⟩ := look_mem (look e.publics e.outer.flatten) hn
    have hc : s.memvar n = some c := by
      rw [h.memvar]
      unfold Env.lookup Env.entries
      rw [look_append]
      exact hlook
    rw [hc, (h.declared hbased).mpr hn]
    cases value with
    | none => exact h
    | some x => exact h.assignBound hc x
  · have hnot : findPrivate n (s.count - s.base) s.stack = false :=
      Bool.eq_false_iff.mpr fun hfound => hn ((h.declared hbased).mp hfound)
    rw [hnot]
    cases s.memvar n with
    | none => exact h.bind
    | some c => exact h.bind

theorem Core.createPublic : Core (s.memvarCreateFromDynSymbol n true none) (e.declarePublic n) := by
  unfold State.memvarCreateFromDynSymbol Env.declarePublic
  rw [if_pos rfl, h.memvar]
  by_cases hnone : e.lookup n = none
  · rw [if_pos hnone, if_pos (isNone_iff_eq_none.mpr hnone)]
    have hn : n ∉ names e.entries := by
      intro hn
      obtain ⟨c, hlook, -⟩ := look_mem e.publics hn
      exact nomatch hnone.symm.trans hlook
    have hfresh : ∀ c, e.Live c → c ≠ e.fresh := fun c hc => Nat.ne_of_lt (h.live c hc).1
    refine ⟨?_, ?_, h.base, congrArg Nat.succ h.blocks, ?_, ?_, h.size⟩
    · change update s.memvar n (some s.blocks) =
        look (update e.publics n _) e.entries
      rw [look_update hn, h.memvar, h.blocks]
      rfl
    · change s.stack = hidings (update e.publics n _) e.entries
      rw [hidings_update hn, h.stack]
    · intro c hc
      change c < e.fresh + 1 ∧ update (update s.item s.blocks _) s.blocks _ c =
        some (update e.value e.fresh _ c)
      rw [h.blocks]
      by_cases hnew : c = e.fresh
      · subst hnew
        rw [update_self, update_self]
        exact ⟨Nat.lt_succ_self _, rfl⟩
      · have hlive : e.Live c := by
          rcases hc with hc | ⟨m, hm⟩
          · exact .inl hc
          · change update e.publics n (some e.fresh) m = some c at hm
            by_cases hmn : m = n
            · subst hmn
              rw [update_self] at hm
              exact absurd (Option.some.inj hm).symm hnew
            · rw [update_of_ne hmn] at hm
              exact .inr ⟨m, hm⟩
        obtain ⟨hlt, hitem⟩ := h.live c hlive
        rw [update_of_ne hnew, update_of_ne hnew, update_of_ne hnew]
        exact ⟨Nat.lt_succ_of_lt hlt, hitem⟩
    · have hcase : ∀ m c, update e.publics n (some e.fresh) m = some c →
          m = n ∧ c = e.fresh ∨ e.publics m = some c ∧ c ≠ e.fresh := by
        intro m c hm
        by_cases hmn : m = n
        · subst hmn
          rw [update_self] at hm
          exact .inl ⟨rfl, (Option.some.inj hm).symm⟩
        · rw [update_of_ne hmn] at hm
          exact .inr ⟨hm, hfresh c (.inr ⟨m, hm⟩)⟩
      refine ⟨h.separate.nodup, ?_, ?_⟩
      · intro m c hm hc
        rcases hcase m c hm with ⟨-, rfl⟩ | ⟨hm, -⟩
        · exact hfresh _ (.inl hc) rfl
        · exact h.separate.disjoint m c hm hc
      · intro m m' c hm hm'
        rcases hcase m c hm with ⟨rfl, rfl⟩ | ⟨hm, hne⟩
        · rcases hcase m' _ hm' with ⟨rfl, -⟩ | ⟨-, hne⟩
          · rfl
          · exact absurd rfl hne
        · rcases hcase m' c hm' with ⟨-, hc⟩ | ⟨hm', -⟩
          · exact absurd hc hne
          · exact h.separate.injective m m' c hm hm'
  · rw [if_neg hnone, if_neg fun hsome => hnone (isNone_iff_eq_none.mp hsome)]
    exact h

theorem Core.setValue (x : MemvarItem V) : Core (s.memvarSetValue n x) (e.assign n x) := by
  unfold State.memvarSetValue Env.assign
  cases hc : s.memvar n with
  | none =>
    have hnone : e.lookup n = none := h.memvar ▸ hc
    rw [if_pos hnone]
    change Core (s.memvarAddPrivate n (some x)) _
    unfold State.memvarAddPrivate
    rw [hc]
    exact h.bind
  | some c =>
    have hsome : e.lookup n = some c := h.memvar ▸ hc
    rw [if_neg fun hnone => nomatch hnone.symm.trans hsome]
    exact h.assignBound hc x

theorem Core.release : Core (s.memvarRelease n) (e.release n) := by
  have hfound : findPrivate n s.count s.stack = true ↔ n ∈ names e.entries := by
    rw [findPrivate_iff, h.count, h.stack]
    have htake := hidings_take e.publics e.entries []
    rw [append_nil] at htake
    rw [htake]
  unfold State.memvarRelease Env.release
  by_cases hn : n ∈ names e.entries
  · rw [if_pos hn]
    obtain ⟨c, hlook, -⟩ := look_mem e.publics hn
    have hc : s.memvar n = some c := h.memvar ▸ hlook
    rw [hc]
    dsimp only
    rw [if_pos (hfound.mpr hn)]
    exact h.assignBound hc .nil
  · rw [if_neg hn]
    have hlook : s.memvar n = e.publics n := by
      rw [h.memvar]
      exact look_not_mem hn
    cases hc : s.memvar n with
    | none =>
      have hpublics : update e.publics n none = e.publics := by
        rw [← hc, hlook, update_eq_self]
      rw [hpublics]
      exact h
    | some c =>
      dsimp only
      rw [if_neg fun hsome => hn (hfound.mp hsome)]
      unfold State.memvarDetachDynSym
      rw [hc]
      have hpublic : e.publics n = some c := hlook ▸ hc
      have hgone : ∀ m c', update e.publics n none m = some c' →
          e.publics m = some c' ∧ m ≠ n := by
        intro m c' hm
        by_cases hmn : m = n
        · subst hmn
          rw [update_self] at hm
          exact nomatch hm
        · rw [update_of_ne hmn] at hm
          exact ⟨hm, hmn⟩
      refine ⟨?_, ?_, h.base, h.blocks, ?_, ?_, h.size⟩
      · change update s.memvar n none = look (update e.publics n none) e.entries
        rw [look_update hn, h.memvar]
        rfl
      · change s.stack = hidings (update e.publics n none) e.entries
        rw [hidings_update hn, h.stack]
      · intro c' hc'
        have hne : c' ≠ c := by
          rintro rfl
          rcases hc' with hc' | ⟨m, hm⟩
          · exact h.separate.disjoint n _ hpublic hc'
          · obtain ⟨hm, hmn⟩ := hgone m _ hm
            exact hmn (h.separate.injective m n _ hm hpublic)
        have hlive : e.Live c' := by
          rcases hc' with hc' | ⟨m, hm⟩
          · exact .inl hc'
          · exact .inr ⟨m, (hgone m c' hm).1⟩
        obtain ⟨hlt, hitem⟩ := h.live c' hlive
        refine ⟨hlt, ?_⟩
        change update s.item c none c' = _
        rw [update_of_ne hne]
        exact hitem
      · exact ⟨h.separate.nodup, fun m c' hm => h.separate.disjoint m c' (hgone m c' hm).1,
          fun m m' c' hm hm' =>
            h.separate.injective m m' c' (hgone m c' hm).1 (hgone m' c' hm').1⟩

theorem Core.clearPrivates (fMatch : String → Bool) (upper : List (String × Nat))
    (below : List (String × Option Nat)) (globals : String → Option Nat) :
    Core (State.clearPrivates fMatch upper.length (hidings globals upper ++ below) s)
      (((names upper).filter fMatch).foldl (fun e name => e.assignBound name .nil) e) := by
  induction upper generalizing s e with
  | nil => exact h
  | cons entry upper ih =>
    obtain ⟨n, c⟩ := entry
    have hnames : (names ((n, c) :: upper)).filter fMatch =
        if fMatch n then n :: (names upper).filter fMatch else (names upper).filter fMatch :=
      filter_cons
    rw [hnames]
    change Core (State.clearPrivates fMatch upper.length (hidings globals upper ++ below) _) _
    cases hmatch : fMatch n with
    | false =>
      apply ih
      cases s.memvar n with
      | none => exact h
      | some c => exact h
    | true =>
      apply ih
      cases hc : s.memvar n with
      | none =>
        have hnone : e.lookup n = none := h.memvar ▸ hc
        change Core s (e.assignBound n .nil)
        unfold Env.assignBound
        rw [hnone]
        exact h
      | some c => exact h.assignBound hc .nil

theorem Core.releaseWithMask (mask : String → Bool) (bInclude : Bool)
    (hbase : privateBase s.frames = e.outer.flatten.length) :
    Core (s.memvarReleaseWithMask mask bInclude)
      (e.releaseMatching fun name => if bInclude then mask name else !mask name) := by
  have hcount : s.count - privateBase s.frames = e.scope.length := by
    rw [hbase, h.count]
    unfold Env.entries
    rw [length_append, Nat.add_sub_cancel]
  unfold State.memvarReleaseWithMask Env.releaseMatching
  rw [hcount, h.stack]
  unfold Env.entries
  rw [hidings_append]
  exact h.clearPrivates _ e.scope _ _

end

theorem release_scope (globals : String → Option Nat) (below upper : List (String × Nat))
    (s : State V) (hmemvar : s.memvar = look globals (upper ++ below))
    (hstack : s.stack = hidings globals (upper ++ below)) :
    ∃ item, State.releasePrivates upper.length s.stack s =
        { s with memvar := look globals below, stack := hidings globals below, item } ∧
      ∀ c, c ∉ cells upper → item c = s.item c := by
  induction upper generalizing s with
  | nil =>
    refine ⟨s.item, ?_, fun _ _ => rfl⟩
    change s =
      { s with memvar := look globals ([] ++ below), stack := hidings globals ([] ++ below) }
    rw [← hmemvar, ← hstack]
  | cons entry upper ih =>
    obtain ⟨n, c⟩ := entry
    have hn : s.memvar n = some c := by
      rw [hmemvar]
      exact look_self
    have hpop : State.releasePrivates (upper.length + 1) s.stack s =
        State.releasePrivates upper.length (hidings globals (upper ++ below))
          { s with
            memvar := look globals (upper ++ below)
            stack := hidings globals (upper ++ below)
            item := update s.item c none } := by
      rw [hstack]
      change State.releasePrivates upper.length (hidings globals (upper ++ below)) _ = _
      congr 1
      rw [hn]
      dsimp only [isSome_some]
      rw [if_pos rfl]
      unfold State.memvarDetachDynSym
      rw [hn]
      unfold State.dynsymSetMemvar State.memvarValueDecRef
      dsimp only
      rw [hmemvar]
      congr 1
      exact update_hidden
    obtain ⟨item, heq, hitem⟩ := ih
      { s with
        memvar := look globals (upper ++ below)
        stack := hidings globals (upper ++ below)
        item := update s.item c none } rfl rfl
    refine ⟨item, hpop.trans heq, fun c' hc' => ?_⟩
    have hne := ne_of_not_mem_cons hc'
    rw [hitem c' (not_mem_of_not_mem_cons hc')]
    exact update_of_ne hne _ _

theorem Core.pop (h : Core s e) (hbased : Based s e) {scope : List (String × Nat)}
    {outer : List (List (String × Nat))} (houter : e.outer = scope :: outer) :
    Core (s.memvarSetPrivatesBase outer.flatten.length) e.pop := by
  have hpop : e.pop = { e with scope, outer } := by
    unfold Env.pop
    rw [houter]
  have hentries : e.entries = e.scope ++ e.pop.entries := by
    rw [hpop]
    unfold Env.entries
    rw [houter]
    rfl
  have hpublics : e.pop.publics = e.publics := by rw [hpop]
  obtain ⟨item, heq, hitem⟩ := release_scope e.publics e.pop.entries e.scope s
    (by rw [h.memvar, ← hentries]; rfl) (by rw [h.stack, hentries])
  have hlive : ∀ c, e.pop.Live c → e.Live c ∧ c ∉ cells e.scope := by
    intro c hc
    have hcells : cells e.entries = cells e.scope ++ cells e.pop.entries := by
      rw [hentries]
      exact map_append
    rcases hc with hc | ⟨n, hn⟩
    · refine ⟨.inl ?_, fun hscope => ?_⟩
      · rw [hcells]
        exact mem_append_right _ hc
      · have hnodup := h.separate.nodup
        rw [hcells] at hnodup
        exact (nodup_append.mp hnodup).2.2 c hscope c hc rfl
    · rw [hpublics] at hn
      refine ⟨.inr ⟨n, hn⟩, fun hscope => ?_⟩
      apply h.separate.disjoint n c hn
      rw [hcells]
      exact mem_append_left _ hscope
  have hvalue : e.pop.value = e.value := by rw [hpop]
  have hfresh : e.pop.fresh = e.fresh := by rw [hpop]
  unfold State.memvarSetPrivatesBase
  rw [h.count_base hbased, heq]
  refine ⟨?_, ?_, ?_, ?_, ?_, ?_, ?_⟩
  · change look e.publics e.pop.entries = look e.pop.publics e.pop.entries
    rw [hpublics]
  · change hidings e.publics e.pop.entries = hidings e.pop.publics e.pop.entries
    rw [hpublics]
  · change outer.flatten.length ≤ (hidings e.publics e.pop.entries).length
    rw [hidings_length, hpop]
    unfold Env.entries
    rw [length_append]
    exact Nat.le_add_left _ _
  · exact h.blocks.trans hfresh.symm
  · intro c hc
    obtain ⟨hc, hscope⟩ := hlive c hc
    obtain ⟨hlt, hold⟩ := h.live c hc
    rw [hfresh, hvalue]
    exact ⟨hlt, (hitem c hscope).trans hold⟩
  · rw [hpublics]
    have hseparate : Separate e.publics (e.scope ++ e.pop.entries) := hentries ▸ h.separate
    exact hseparate.append
  · have hsize := h.size
    rw [h.count, hentries, length_append] at hsize
    change (hidings e.publics e.pop.entries).length ≤ s.size
    rw [hidings_length]
    omega

end Core

end Harbour.Vm.Memvars
