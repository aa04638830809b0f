import Harbour.Library.RingList
import Harbour.Library.Loops
import Harbour.Vm.Garbage
import Mathlib.Algebra.Group.Nat.Defs

/-!
The lists of the collector: which block is in which of them while blocks are locked, unlocked and
released and a collection runs whose clean-up functions do the same.
-/

namespace Harbour.Vm.GarbageLists

open Library.RingList Library.Transitions Function
open Harbour.Vm.Garbage (Used)

/-- `s_pCurrBlock`, `s_pLockedBlock` and `s_pDeletedBlock`. -/
inductive ListId where
  | curr
  | locked
  | deleted
deriving DecidableEq, Repr

/-- What was released: the block, whether it was in use, and its counter at that time. -/
structure Freed (β : Type*) where
  block : β
  live : Bool
  count : Nat
deriving DecidableEq, Repr

structure Pool (β : Type*) where
  links : Links β
  used : β → Used
  locked : β → Nat
  count : β → Nat
  heads : ListId → Option β
  live : Finset β
  usedFlag : Bool
  collecting : Bool
  freed : List (Freed β)

/-- A call that waits for others to return. The clean-up function of a block runs above `refFree`
and `clear`, an error handler above `refError` and `error`; nothing of the user's runs above
`sweep`, `release` and `allocRaw`. -/
inductive Frame (β : Type*) where
  | refFree (pAlloc : β)
  | refError
  | sweep (pAlloc : Option β)
  | clear (pAlloc : β)
  | release
  | error
  | allocRaw (pAlloc : β)
deriving DecidableEq, Repr

def Frame.internal {β : Type*} : Frame β → Bool
  | .sweep _ | .release | .allocRaw _ => true
  | _ => false

structure State (β : Type*) where
  pool : Pool β
  stack : List (Frame β)

/-- What the program, a clean-up function or an error handler calls. A collection is given the
blocks that are reached while it marks. -/
inductive Call (β : Type*) where
  | gcAllocate (pAlloc : β)
  | gcAllocRaw (pAlloc : β)
  | gcAllocRawCollect (pAlloc : β) (reached : β → Bool)
  | gcAttach (pAlloc : β)
  | gcLock (pAlloc : β)
  | gcUnlock (pAlloc : β)
  | refInc (pAlloc : β)
  | refFree (pAlloc : β)
  | collectAll (reached : β → Bool)

variable {β : Type*} [DecidableEq β]

namespace Pool

variable (p : Pool β)

def gcLink (list : ListId) (pAlloc : β) : Pool β :=
  match p.heads list with
  | some head => { p with links := p.links.insert head pAlloc }
  | none =>
    { p with
      links := p.links.alone pAlloc, heads := update p.heads list (some pAlloc) }

def gcUnlink (list : ListId) (pAlloc : β) : Pool β :=
  let links := p.links.remove pAlloc
  let heads :=
    if p.heads list = some pAlloc then
      update p.heads list
        (if links.next pAlloc = pAlloc then none else some (links.next pAlloc))
    else p.heads
  { p with links := links, heads := heads }

def setUsed (pAlloc : β) (used : Used) : Pool β :=
  { p with used := update p.used pAlloc used }

def setLocked (pAlloc : β) (locked : Nat) : Pool β :=
  { p with locked := update p.locked pAlloc locked }

def setCount (pAlloc : β) (count : Nat) : Pool β :=
  { p with count := update p.count pAlloc count }

def plain : Used := ⟨p.usedFlag, false, false⟩

/-- `HB_GARBAGE_NEW` with the members that are set at once. -/
def garbageNew (pAlloc : β) (locked : Nat) : Pool β :=
  { ((p.setUsed pAlloc p.plain).setLocked pAlloc locked).setCount pAlloc 1 with
    live := insert pAlloc p.live }

def garbageFree (pAlloc : β) : Pool β :=
  { p with
    live := p.live.erase pAlloc
    freed := ⟨pAlloc, decide (pAlloc ∈ p.live), p.count pAlloc⟩ :: p.freed }

/-- The counters are of 64 bits. -/
def refInc (pAlloc : β) : Pool β := p.setCount pAlloc ((p.count pAlloc + 1) % 2 ^ 64)

def refDec (pAlloc : β) : Pool β := p.setCount pAlloc ((p.count pAlloc + (2 ^ 64 - 1)) % 2 ^ 64)

def gcLock (pAlloc : β) : Pool β :=
  let moved :=
    if p.locked pAlloc = 0 then (p.gcUnlink .curr pAlloc).gcLink .locked pAlloc else p
  moved.setLocked pAlloc ((p.locked pAlloc + 1) % 2 ^ 16)

/-- The block whose lock counter has come to zero goes back to the other blocks. -/
def unlocked (pAlloc : β) : Pool β :=
  (((p.setLocked pAlloc 0).setUsed pAlloc p.plain).gcUnlink .locked pAlloc).gcLink .curr pAlloc

def gcUnlock (pAlloc : β) : Pool β :=
  if p.locked pAlloc = 0 then p
  else if p.locked pAlloc - 1 = 0 then p.unlocked pAlloc
  else p.setLocked pAlloc (p.locked pAlloc - 1)

def gcAttach (pAlloc : β) : Pool β :=
  if p.locked pAlloc = 0 then p.refInc pAlloc
  else if p.locked pAlloc - 1 = 0 then p.unlocked pAlloc
  else (p.setLocked pAlloc (p.locked pAlloc - 1)).refInc pAlloc

/-- `hb_gcMark` and `hb_gcItemRef` for the blocks that are reached. -/
def gcMark (reached : β → Bool) : Pool β :=
  { p with
    used := fun b =>
      if reached b ∧ (p.used b).flag = p.usedFlag ∧ (p.used b).deletelst = false then
        { p.used b with flag := !(p.used b).flag }
      else p.used b }

def advance (list : ListId) (pAlloc : β) : Pool β :=
  { p with heads := update p.heads list (some (p.links.next pAlloc)) }

end Pool

namespace State

variable (s : State β)

def Fresh (pAlloc : β) : Prop := pAlloc ∉ s.pool.live ∧ .allocRaw pAlloc ∉ s.stack

instance (pAlloc : β) : Decidable (s.Fresh pAlloc) := inferInstanceAs (Decidable (_ ∧ _))

def push (frame : Frame β) : State β := { s with stack := frame :: s.stack }

def onPool (f : Pool β → Pool β) : State β := { s with pool := f s.pool }

/-- The start of `hb_gcCollectAll`. -/
def collectAll (reached : β → Bool) : State β :=
  if s.pool.collecting = true ∨ s.pool.heads .curr = none then s
  else ⟨{ s.pool.gcMark reached with collecting := true }, .sweep none :: s.stack⟩

/-- `hb_gcRefFree`, up to the call of the clean-up function. -/
def refFree (pAlloc : β) : State β :=
  let p := s.pool.refDec pAlloc
  if p.count pAlloc = 0 ∧ (p.used pAlloc).delete = false then
    ⟨p.setUsed pAlloc { p.used pAlloc with delete := true }, .refFree pAlloc :: s.stack⟩
  else { s with pool := p }

/-- A call is made where the user's code runs, with blocks that are in use. -/
def call (c : Call β) : Option (State β) :=
  if s.stack.head?.any Frame.internal then none
  else
    match c with
    | .gcAllocate b =>
      if s.Fresh b then some (s.onPool fun p => (p.garbageNew b 1).gcLink .locked b) else none
    | .gcAllocRaw b =>
      if s.Fresh b then some (s.onPool fun p => (p.garbageNew b 0).gcLink .curr b) else none
    | .gcAllocRawCollect b reached =>
      if s.Fresh b then some ((s.push (.allocRaw b)).collectAll reached) else none
    | .gcAttach b => if b ∈ s.pool.live then some (s.onPool (·.gcAttach b)) else none
    | .gcLock b => if b ∈ s.pool.live then some (s.onPool (·.gcLock b)) else none
    | .gcUnlock b => if b ∈ s.pool.live then some (s.onPool (·.gcUnlock b)) else none
    | .refInc b => if b ∈ s.pool.live then some (s.onPool (·.refInc b)) else none
    | .refFree b => if b ∈ s.pool.live then some (s.refFree b) else none
    | .collectAll reached => some (s.collectAll reached)

/-- The end of the loop that releases: either it goes on or the collection is over. -/
def releaseNext (p : Pool β) (stack : List (Frame β)) : State β :=
  match p.heads .deleted with
  | some _ => ⟨p, .release :: stack⟩
  | none => ⟨{ p with collecting := false }, stack⟩

/-- One turn of the loop that puts the unused blocks on the list of those to delete. -/
def sweepTurn (p : Pool β) (pAlloc : Option β) (stack : List (Frame β)) (head : β) : State β :=
  let (p, pAlloc) :=
    if p.used head = p.plain then
      let p := p.setUsed head { p.used head with delete := true, deletelst := true }
      ((p.gcUnlink .curr head).gcLink .deleted head, pAlloc)
    else (p.advance .curr head, if pAlloc = none then some head else pAlloc)
  if pAlloc = p.heads .curr then
    let p := { p with usedFlag := !p.usedFlag }
    match p.heads .deleted with
    | some pDelete => ⟨p, .clear pDelete :: stack⟩
    | none => ⟨{ p with collecting := false }, stack⟩
  else ⟨p, .sweep pAlloc :: stack⟩

/-- What the code does once everything above the topmost call has returned. -/
def ret : Option (State β) :=
  match s.stack with
  | [] => none
  | .refFree b :: stack =>
    if s.pool.count b ≠ 0 then
      if (s.pool.used b).delete then
        some ⟨s.pool.setUsed b s.pool.plain, .refError :: stack⟩
      else some ⟨s.pool, stack⟩
    else
      let list := if s.pool.locked b ≠ 0 then .locked else .curr
      some ⟨(s.pool.gcUnlink list b).garbageFree b, stack⟩
  | .refError :: stack => some ⟨s.pool, stack⟩
  | .sweep pAlloc :: stack => (s.pool.heads .curr).map (sweepTurn s.pool pAlloc stack)
  | .clear pAlloc :: stack =>
    (s.pool.heads .deleted).map fun head =>
      let p := s.pool.advance .deleted head
      ⟨p, (if p.heads .deleted = some pAlloc then .release else .clear pAlloc) :: stack⟩
  | .release :: stack =>
    (s.pool.heads .deleted).map fun pDelete =>
      let p := s.pool.gcUnlink .deleted pDelete
      if p.count pDelete ≠ 0 then
        let p := (p.setUsed pDelete p.plain).setLocked pDelete 0
        ⟨p.gcLink .curr pDelete, .error :: stack⟩
      else releaseNext (p.garbageFree pDelete) stack
  | .error :: stack => some (releaseNext s.pool stack)
  | .allocRaw b :: stack => some ⟨(s.pool.garbageNew b 0).gcLink .curr b, stack⟩

end State

def Init (s : State β) : Prop :=
  s.stack = [] ∧ s.pool.live = ∅ ∧ s.pool.freed = [] ∧ ∀ list, s.pool.heads list = none

def system (β : Type*) [DecidableEq β] : System (State β) where
  init := Init
  step s s' := (∃ c, s.call c = some s') ∨ s.ret = some s'

/-- The calls that clean-up functions had better not make: a lock of a block on the list of those to
delete, the last unlock of a block that is being deleted, and a lock more than the counter holds. -/
def Careful (s : State β) : Call β → Prop
  | .gcLock b => (s.pool.used b).deletelst = false ∧ s.pool.locked b < 2 ^ 16 - 1
  | .gcUnlock b | .gcAttach b => s.pool.locked b = 1 → (s.pool.used b).delete = false
  | _ => True

def carefulSystem (β : Type*) [DecidableEq β] : System (State β) where
  init := Init
  step s s' := (∃ c, Careful s c ∧ s.call c = some s') ∨ s.ret = some s'

def Pool.placeOf (p : Pool β) (b : β) : ListId :=
  if (p.used b).deletelst then .deleted else if p.locked b ≠ 0 then .locked else .curr

/-- The blocks of the three lists, in the order of their links. -/
structure Listed (p : Pool β) (lists : ListId → List β) : Prop where
  ring : ∀ i, p.links.Ring (lists i)
  head : ∀ i, p.heads i = (lists i).head?
  disjoint : ∀ i j, i ≠ j → ∀ b ∈ lists i, b ∉ lists j

/-- Every block in use is in the one list that its lock counter and flags say, links are inverse,
and nothing was released that was not in use or that was referred to. -/
structure Tidy (p : Pool β) : Prop where
  arranged : ∃ lists, Listed p lists ∧ ∀ i b, b ∈ lists i ↔ b ∈ p.live ∧ p.placeOf b = i
  freed : ∀ f ∈ p.freed, f.live = true ∧ f.count = 0

end Harbour.Vm.GarbageLists
