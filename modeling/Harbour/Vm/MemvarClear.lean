import Harbour.Vm.MemvarRuns

/-!
Clearing memory variables: the symbols with their numbers, the table of their handles, and
`hb_memvarsClear`.
-/

namespace Harbour.Vm.Memvars

open Library.Scopes

/-- The memory variables of a thread. A symbol has the number of its place in `symbols`, counted
from 1; `iDynH` is the size of the table of handles. -/
structure Thread (V : Type*) where
  vm : State V
  symbols : List String
  iDynH : Nat

def Thread.start (V : Type*) : Thread V := ⟨State.start V, [], 0⟩

/-- `nPrivateBase` of the frames down to the first in which it is 0. -/
def clearBases : List Frame → List Frame
  | .proc nPrivateBase :: frames =>
    if nPrivateBase ≠ 0 then .proc 0 :: clearBases frames else .proc nPrivateBase :: frames
  | .saved nBase :: frames => .saved nBase :: clearBases frames
  | [] => []

variable {V : Type*}

def State.stackClearMemvarsBase (s : State V) : State V := { s with frames := clearBases s.frames }

def State.clearHandle (s : State V) (symbols : List String) (iExcept : Int) (iDynSym : Nat) :
    State V :=
  match symbols[iDynSym]? with
  | none => s
  | some pDynSym =>
    match s.memvar pDynSym with
    | none => s
    | some pMemvar =>
      if (iDynSym : Int) ≠ iExcept then
        (s.dynsymSetMemvar pDynSym none).memvarValueDecRef pMemvar
      else s

/-- The handles below `iDynSym`, the last one first. -/
def stackClearMemvars (symbols : List String) (iExcept : Int) : (iDynSym : Nat) → State V → State V
  | 0, s => s
  | iDynSym + 1, s =>
    stackClearMemvars symbols iExcept iDynSym (s.clearHandle symbols iExcept iDynSym)

/-- `__mvSetBase`, whose caller's PRIVATEs are left to the caller of that. -/
def State.mvSetBase (s : State V) : State V :=
  match s.frames with
  | .proc _ :: frames =>
    { s.memvarGetPrivatesBase.1 with frames := .proc s.memvarGetPrivatesBase.2 :: frames }
  | _ => s

namespace Thread

variable (t : Thread V)

def dynsymFind (name : String) : Option Nat := (t.symbols.idxOf? name).map (· + 1)

def dynsymInsert (name : String) : Thread V :=
  if name ∈ t.symbols then t else { t with symbols := t.symbols ++ [name] }

def stackGetDynHandle (name : String) : Thread V :=
  match t.dynsymFind name with
  | some iDynSym => if iDynSym > t.iDynH then { t with iDynH := iDynSym } else t
  | none => t

def takeSymbols (names : List String) : Thread V :=
  names.foldl (fun t name => (t.dynsymInsert name).stackGetDynHandle name) t

/-- The place that the table keeps: the number of the symbol, -1 where there is none. -/
def exceptOf : Option Nat → Int
  | some uiSymNum => uiSymNum
  | none => -1

def memvarsClear (fAll : Bool) : Thread V :=
  let pGetList := if fAll then none else t.dynsymFind "GETLIST"
  let s := ({ t.vm.stackClearMemvarsBase with base := 0 }).memvarSetPrivatesBase 0
  { t with vm := stackClearMemvars t.symbols (exceptOf pGetList) t.iDynH s }

end Thread

def Op.symbols : Op V → List String
  | .parameter name _ => [name]
  | .assign name _ => [name]
  | .mvPrivate names => names
  | .mvPublic names => names
  | .mvPut name _ => [name]
  | _ => []

/-- What happens to the memory variables of a thread: what a procedure does, symbols that are
inserted, and by other threads too, handles that are looked up. -/
inductive Command (V : Type*) where
  | op (op : Op V)
  | dynsymInsert (name : String)
  | getDynHandle (name : String)
  | mvSetBase
  | memvarsClear (fAll : Bool)

namespace Thread

def next (t : Thread V) : Command V → Option (Thread V)
  | .op .save => none
  | .op .restore => none
  | .op op =>
    ((t.takeSymbols op.symbols).vm.next op).map fun vm =>
      { t.takeSymbols op.symbols with vm }
  | .dynsymInsert name => some (t.dynsymInsert name)
  | .getDynHandle name => some (t.stackGetDynHandle name)
  | .mvSetBase =>
    if t.vm.frames = [] then none
    else (t.vm.callFunction fun s => s.mvSetBase).map fun vm => { t with vm }
  | .memvarsClear fAll => some (t.memvarsClear fAll)

def run (t : Thread V) : List (Command V) → Option (Thread V)
  | [] => some t
  | command :: commands => (t.next command).bind fun t' => t'.run commands

end Thread

/-- A command that keeps the frames, and the PRIVATEs of each. -/
def Command.Plain : Command V → Prop
  | .op o => o.Plain
  | .mvSetBase => False
  | _ => True

/-- What a procedure does up to its return. -/
inductive Steady : List (Command V) → Prop
  | nil : Steady []
  | plain {command : Command V} {commands : List (Command V)} : command.Plain → Steady commands →
      Steady (command :: commands)
  | nest {body commands : List (Command V)} : Steady body → Steady commands →
      Steady (.op .call :: (body ++ .op .ret :: commands))

/-- What a name was bound to before the first of the PRIVATEs in force. -/
def State.outermost (s : State V) (n : String) : Option Nat :=
  s.stack.foldl (fun pMemvar item => if item.1 = n then item.2 else pMemvar) (s.memvar n)

end Harbour.Vm.Memvars

/-!
What clearing does to the scopes of memory variables.
-/

namespace Harbour.Vm.Memvars

open Library.Scopes

variable {V : Type*} {s s' : State V} {e : Env V} {t t' : Thread V} {n : String}

theorem dynsymFind_iff (hnodup : t.symbols.Nodup) (i : Nat) :
    t.dynsymFind n = some (i + 1) ↔ t.symbols[i]? = some n := by
  unfold Thread.dynsymFind
  rw [Option.map_eq_some_iff]
  constructor
  · rintro ⟨i', hi', heq⟩
    obtain rfl := Nat.succ.inj heq
    obtain ⟨hlt, hget, -⟩ := List.idxOf?_eq_some_iff.mp hi'
    exact List.getElem?_eq_some_iff.mpr ⟨hlt, hget⟩
  · intro hi
    obtain ⟨hlt, hget⟩ := List.getElem?_eq_some_iff.mp hi
    refine ⟨i, List.idxOf?_eq_some_iff.mpr ⟨hlt, hget, fun j hj heq => ?_⟩, rfl⟩
    exact Nat.ne_of_lt hj (hnodup.getElem_inj_iff.mp (heq.trans hget.symm))

def Thread.Covers (t : Thread V) (n : String) : Prop :=
  ∃ i < t.iDynH, t.symbols[i]? = some n

/-- A thread with the same memory variables, and no fewer symbols and handles. -/
structure Extends (t t' : Thread V) : Prop where
  vm : t'.vm = t.vm
  nodup : t.symbols.Nodup → t'.symbols.Nodup
  covers : ∀ n, t.Covers n → t'.Covers n

theorem Extends.trans {t'' : Thread V} (h : Extends t t') (h' : Extends t' t'') : Extends t t'' :=
  ⟨h'.vm.trans h.vm, fun hnodup => h'.nodup (h.nodup hnodup),
    fun n hn => h'.covers n (h.covers n hn)⟩

theorem extends_dynsymInsert : Extends t (t.dynsymInsert n) := by
  unfold Thread.dynsymInsert
  split
  · exact ⟨rfl, id, fun _ => id⟩
  · next hnew =>
    refine ⟨rfl, fun hnodup => ?_, ?_⟩
    · exact List.nodup_append.mpr ⟨hnodup, List.nodup_singleton n, fun m hm m' hm' heq =>
        hnew (List.mem_singleton.mp hm' ▸ heq ▸ hm)⟩
    · rintro m ⟨i, hi, hget⟩
      exact ⟨i, hi, List.getElem?_append_left (List.getElem?_eq_some_iff.mp hget).1 ▸ hget⟩

theorem extends_stackGetDynHandle : Extends t (t.stackGetDynHandle n) := by
  unfold Thread.stackGetDynHandle
  split
  · split
    · next iDynSym _ hmore =>
      refine ⟨rfl, id, ?_⟩
      rintro m ⟨i, hi, hget⟩
      exact ⟨i, Nat.lt_trans hi hmore, hget⟩
    · exact ⟨rfl, id, fun _ => id⟩
  · exact ⟨rfl, id, fun _ => id⟩

theorem dynsymInsert_mem : n ∈ (t.dynsymInsert n).symbols := by
  unfold Thread.dynsymInsert
  split
  · next hmem => exact hmem
  · exact List.mem_append_right _ (List.mem_singleton_self n)

theorem stackGetDynHandle_covers (hnodup : t.symbols.Nodup) (hn : n ∈ t.symbols) :
    (t.stackGetDynHandle n).Covers n := by
  obtain ⟨i, hi⟩ := List.mem_iff_getElem?.mp hn
  have hfind := (dynsymFind_iff hnodup i).mpr hi
  unfold Thread.stackGetDynHandle
  rw [hfind]
  dsimp only
  split
  · exact ⟨i, Nat.lt_succ_self i, hi⟩
  · next hless => exact ⟨i, Nat.lt_of_succ_le (Nat.le_of_not_lt hless), hi⟩

theorem takeSymbols_covers (hnodup : t.symbols.Nodup) (names : List String) :
    Extends t (t.takeSymbols names) ∧ ∀ n ∈ names, (t.takeSymbols names).Covers n := by
  induction names generalizing t with
  | nil => exact ⟨⟨rfl, id, fun _ => id⟩, fun n hn => absurd hn List.not_mem_nil⟩
  | cons name names ih =>
    have hinsert : Extends t (t.dynsymInsert name) := extends_dynsymInsert
    have hhandle : Extends (t.dynsymInsert name) ((t.dynsymInsert name).stackGetDynHandle name) :=
      extends_stackGetDynHandle
    obtain ⟨hextends, hcovers⟩ := ih ((hinsert.trans hhandle).nodup hnodup)
    refine ⟨(hinsert.trans hhandle).trans hextends, List.forall_mem_cons.mpr ⟨?_, hcovers⟩⟩
    exact hextends.covers _ (stackGetDynHandle_covers (hinsert.nodup hnodup) dynsymInsert_mem)

section Sweep

variable {symbols : List String} {iExcept : Int}

def Swept (symbols : List String) (iExcept : Int) (iDynSym : Nat) (n : String) : Prop :=
  ∃ i < iDynSym, symbols[i]? = some n ∧ (i : Int) ≠ iExcept

/-- The names of `swept` are bound no more. -/
structure Sweeps (swept : String → Prop) (s s' : State V) : Prop where
  stack : s'.stack = s.stack
  base : s'.base = s.base
  frames : s'.frames = s.frames
  blocks : s'.blocks = s.blocks
  size : s'.size = s.size
  gone : ∀ n, swept n → s'.memvar n = none
  kept : ∀ n, ¬ swept n → s'.memvar n = s.memvar n
  item : ∀ c, (∀ n, swept n → s.memvar n ≠ some c) → s'.item c = s.item c

theorem clearHandle_sweeps (iDynSym : Nat) (s : State V) :
    Sweeps (fun n => symbols[iDynSym]? = some n ∧ (iDynSym : Int) ≠ iExcept) s
      (s.clearHandle symbols iExcept iDynSym) := by
  unfold State.clearHandle
  split
  · next hnone =>
    exact ⟨rfl, rfl, rfl, rfl, rfl, fun n hn => absurd (hnone.symm.trans hn.1) nofun,
      fun _ _ => rfl, fun _ _ => rfl⟩
  · next m hm =>
    split
    · next hunbound =>
      refine ⟨rfl, rfl, rfl, rfl, rfl, fun n hn => ?_, fun _ _ => rfl, fun _ _ => rfl⟩
      rw [← Option.some.inj (hm.symm.trans hn.1)]
      exact hunbound
    · next c hbound =>
      split
      · next hother =>
        refine ⟨rfl, rfl, rfl, rfl, rfl, fun n hn => ?_, fun n hn => ?_, fun c' hc' => ?_⟩
        · rw [← Option.some.inj (hm.symm.trans hn.1)]
          exact Function.update_self ..
        · apply Function.update_of_ne
          rintro rfl
          exact hn ⟨hm, hother⟩
        · apply Function.update_of_ne
          rintro rfl
          exact hc' m ⟨hm, hother⟩ hbound
      · next hexcept =>
        exact ⟨rfl, rfl, rfl, rfl, rfl, fun n hn => absurd hn.2 hexcept, fun _ _ => rfl,
          fun _ _ => rfl⟩

theorem stackClearMemvars_sweeps (symbols : List String) (iExcept : Int) (iDynSym : Nat)
    (s : State V) :
    Sweeps (Swept symbols iExcept iDynSym) s (stackClearMemvars symbols iExcept iDynSym s) := by
  induction iDynSym generalizing s with
  | zero =>
    refine ⟨rfl, rfl, rfl, rfl, rfl, ?_, fun _ _ => rfl, fun _ _ => rfl⟩
    rintro n ⟨i, hi, -⟩
    exact absurd hi (Nat.not_lt_zero i)
  | succ k ih =>
    have hone : Sweeps _ s (s.clearHandle symbols iExcept k) := clearHandle_sweeps k s
    have hrest := ih (s.clearHandle symbols iExcept k)
    have hcases : ∀ n, Swept symbols iExcept (k + 1) n ↔
        Swept symbols iExcept k n ∨ symbols[k]? = some n ∧ (k : Int) ≠ iExcept := by
      intro n
      constructor
      · rintro ⟨i, hi, hswept⟩
        rcases Nat.lt_succ_iff_lt_or_eq.mp hi with hlt | rfl
        · exact .inl ⟨i, hlt, hswept⟩
        · exact .inr hswept
      · rintro (⟨i, hi, hswept⟩ | hswept)
        · exact ⟨i, Nat.lt_succ_of_lt hi, hswept⟩
        · exact ⟨k, Nat.lt_succ_self k, hswept⟩
    refine ⟨hrest.stack.trans hone.stack, hrest.base.trans hone.base,
      hrest.frames.trans hone.frames, hrest.blocks.trans hone.blocks,
      hrest.size.trans hone.size, fun n hn => ?_, fun n hn => ?_, fun c hc => ?_⟩
    · by_cases hlater : Swept symbols iExcept k n
      · exact hrest.gone n hlater
      · exact (hrest.kept n hlater).trans (hone.gone n (((hcases n).mp hn).resolve_left hlater))
    · obtain ⟨hlater, hnow⟩ := not_or.mp (mt (hcases n).mpr hn)
      exact (hrest.kept n hlater).trans (hone.kept n hnow)
    · have hnow := hone.item c fun n hn => hc n ((hcases n).mpr (.inr hn))
      refine (hrest.item c fun n hn hbound => ?_).trans hnow
      by_cases hfirst : symbols[k]? = some n ∧ (k : Int) ≠ iExcept
      · exact nomatch (hone.gone n hfirst).symm.trans hbound
      · exact hc n ((hcases n).mpr (.inl hn)) ((hone.kept n hfirst).symm.trans hbound)

end Sweep

def Env.clear (e : Env V) (spared : Option String) : Env V :=
  { e with
    scope := []
    outer := e.outer.map fun _ => []
    publics := fun n => if spared = some n then e.publics n else none }

/-- The declarations of the active scope become those of the scope outside of it. -/
def Env.setBase (e : Env V) : Env V :=
  match e.outer with
  | scope :: outer => { e with scope := [], outer := (e.scope ++ scope) :: outer }
  | [] => e

/-- The name at the place that `hb_memvarsClear` spares. -/
def Thread.spared (t : Thread V) (fAll : Bool) : Option String :=
  if fAll then none else (t.dynsymFind "GETLIST").bind fun uiSymNum => t.symbols[uiSymNum]?

/-- A name that is declared, or was. -/
def Env.Named (e : Env V) (n : String) : Prop := n ∈ names e.entries ∨ e.publics n ≠ none

def Framed (frames : List Frame) : Prop :=
  ∀ frame ∈ frames, ∃ nPrivateBase, frame = .proc nPrivateBase

/-- A thread keeps the declarations in force, and has the handles of their names. -/
structure Holds (t : Thread V) (e : Env V) : Prop where
  represents : Represents t.vm e
  nodup : t.symbols.Nodup
  covers : ∀ n, e.Named n → t.Covers n
  framed : Framed t.vm.frames

theorem Holds.extends (h : Holds t e) (hextends : Extends t t') : Holds t' e :=
  ⟨hextends.vm ▸ h.represents, hextends.nodup h.nodup,
    fun n hn => hextends.covers n (h.covers n hn), hextends.vm ▸ h.framed⟩

theorem flatten_cleared {α : Type*} (outer : List (List α)) :
    (outer.map fun _ => ([] : List α)).flatten = [] := by
  induction outer with
  | nil => rfl
  | cons scope outer ih => exact ih

theorem clear_entries (spared : Option String) : (e.clear spared).entries = [] :=
  flatten_cleared e.outer

theorem clearBases_marks {frames : List Frame} {outer : List (List (String × Nat))}
    (h : Marks frames outer) (hframed : Framed frames) :
    Marks (clearBases frames) (outer.map fun _ => []) ∧ Framed (clearBases frames) := by
  induction frames generalizing outer with
  | nil =>
    cases outer with
    | nil => exact ⟨trivial, hframed⟩
    | cons scope outer => exact h.elim
  | cons frame frames ih =>
    cases outer with
    | nil => exact h.elim
    | cons scope outer =>
      obtain ⟨hbase, hmarks⟩ := h
      obtain ⟨⟨nPrivateBase, rfl⟩, hrest⟩ := List.forall_mem_cons.mp hframed
      unfold clearBases
      split
      · obtain ⟨hmarks', hframed'⟩ := ih hmarks hrest
        refine ⟨⟨?_, hmarks'⟩, List.forall_mem_cons.mpr ⟨⟨0, rfl⟩, hframed'⟩⟩
        rw [flatten_cleared]
        rfl
      · next hzero =>
        have hflat : outer.flatten = [] :=
          List.eq_nil_of_length_eq_zero (hbase.symm.trans (not_not.mp hzero))
        have houter : outer.map (fun _ => []) = outer := by
          conv_rhs => rw [← List.map_id outer]
          exact List.map_congr_left fun sc hsc => (List.flatten_eq_nil_iff.mp hflat sc hsc).symm
        refine ⟨?_, hframed⟩
        change Marks _ ([] :: outer.map fun _ => [])
        rw [houter]
        exact ⟨hbase, hmarks⟩

theorem release_all (h : Core s e) (hbase : s.base = 0) : ∃ item,
    s.memvarSetPrivatesBase 0 = { s with memvar := e.publics, stack := [], base := 0, item } ∧
      ∀ c, c ∉ cells e.entries → item c = s.item c := by
  obtain ⟨item, heq, hitem⟩ := release_scope e.publics [] e.entries s
    (by rw [List.append_nil]; exact h.memvar) (by rw [List.append_nil]; exact h.stack)
  refine ⟨item, ?_, hitem⟩
  unfold State.memvarSetPrivatesBase
  rw [hbase, Nat.sub_zero, h.count, heq]
  rfl

/-- The place `iExcept` is the one of the name that is spared. -/
def Thread.Spares (t : Thread V) (iExcept : Int) (spared : Option String) : Prop :=
  ∀ (i : Nat) n, t.symbols[i]? = some n → ((i : Int) ≠ iExcept ↔ spared ≠ some n)

section

variable (h : Holds t e) {iExcept : Int} {spared : Option String}
  (hspared : t.Spares iExcept spared)

include h hspared

theorem Holds.swept_iff (hn : e.Named n) : Swept t.symbols iExcept t.iDynH n ↔ spared ≠ some n := by
  obtain ⟨i, hi, hget⟩ := h.covers n hn
  constructor
  · rintro ⟨j, -, hj, hother⟩
    exact (hspared j n hj).mp hother
  · intro hne
    exact ⟨i, hi, hget, (hspared i n hget).mpr hne⟩

theorem clear_represents : Represents (stackClearMemvars t.symbols iExcept t.iDynH
      (({ t.vm.stackClearMemvarsBase with base := 0 }).memvarSetPrivatesBase 0))
      (e.clear spared) := by
  have hcore := h.represents.core
  have hcore' : Core { t.vm.stackClearMemvarsBase with base := 0 } e :=
    hcore.rebase (Nat.zero_le _) _
  obtain ⟨item, heq, hitem⟩ := release_all hcore' rfl
  rw [heq]
  have hsweeps := stackClearMemvars_sweeps t.symbols iExcept t.iDynH
    { t.vm.stackClearMemvarsBase with memvar := e.publics, stack := [], base := 0, item }
  have hmarks := (clearBases_marks h.represents.marks h.framed).1
  have hpublic : ∀ n c, (e.clear spared).publics n = some c →
      e.publics n = some c ∧ spared = some n := by
    intro n c hn
    change (if spared = some n then e.publics n else none) = some c at hn
    split at hn
    · next hkept => exact ⟨hn, hkept⟩
    · exact nomatch hn
  refine ⟨⟨?_, ?_, ?_, ?_, ?_, ?_, ?_⟩, ?_, ?_⟩
  · funext n
    unfold Env.lookup
    rw [clear_entries]
    change _ = if spared = some n then e.publics n else none
    by_cases hnone : e.publics n = none
    · rw [hnone, ite_self]
      by_cases hswept : Swept t.symbols iExcept t.iDynH n
      · exact hsweeps.gone n hswept
      · exact (hsweeps.kept n hswept).trans hnone
    · have hswept := h.swept_iff hspared (.inr hnone)
      split
      · next hkept => exact hsweeps.kept n fun hn => hswept.mp hn hkept
      · next hother => exact hsweeps.gone n (hswept.mpr hother)
  · rw [hsweeps.stack, clear_entries]
    rfl
  · rw [hsweeps.base]
    exact Nat.zero_le _
  · rw [hsweeps.blocks]
    exact hcore.blocks
  · intro c hc
    obtain ⟨n, hn⟩ : ∃ n, (e.clear spared).publics n = some c := by
      rcases hc with hc | hc
      · rw [clear_entries] at hc
        exact absurd hc List.not_mem_nil
      · exact hc
    obtain ⟨hn, hkept⟩ := hpublic n c hn
    obtain ⟨hlt, hold⟩ := hcore.live c (.inr ⟨n, hn⟩)
    refine ⟨hlt, (hsweeps.item c fun m hm hmc => ?_).trans
      ((hitem c (hcore.separate.disjoint n c hn)).trans hold)⟩
    obtain rfl := hcore.separate.injective m n c hmc hn
    exact (h.swept_iff hspared (.inr (hn ▸ nofun))).mp hm hkept
  · rw [clear_entries]
    refine ⟨List.nodup_nil, fun n c _ => List.not_mem_nil, fun n m c hn hm => ?_⟩
    exact hcore.separate.injective n m c (hpublic n c hn).1 (hpublic m c hm).1
  · unfold State.count
    rw [hsweeps.stack]
    exact Nat.zero_le _
  · unfold Based
    rw [hsweeps.base]
    exact congrArg List.length (flatten_cleared e.outer).symm
  · rw [hsweeps.frames]
    exact hmarks

end

end Harbour.Vm.Memvars
