import Mathlib.Data.Finset.Basic
import Mathlib.Logic.Function.Basic

/-!
The collector of garbage: blocks of memory in circular lists, marked from what is known to be in
use, and the counters of the references to them.
-/

namespace Harbour.Vm.Garbage

open Function

inductive GcType where
  | array | hash | block | pointer | arrayItem | grip
  deriving DecidableEq, Repr

/-- The items that hold other memory with a reference counter: the value of a memvar, an extended
reference, the detached locals of a code block. -/
inductive MemType where
  | memvar | extRef | locals
  deriving DecidableEq, Repr

/-- An item, as far as it leads to memory. A `stackVar` is a reference to a variable on the
stack, which is not counted. -/
inductive Item where
  | simple
  | gc (type : GcType) (block : Nat)
  | mem (type : MemType) (cell : Nat)
  | stackVar (slot : Nat)
  deriving DecidableEq, Repr

/-- Memory with a reference counter. -/
inductive Ref where
  | gc (block : Nat)
  | mem (cell : Nat)
  deriving DecidableEq, Repr

def Item.counted : Item → Option Ref
  | .simple => none
  | .gc _ b => some (.gc b)
  | .mem _ c => some (.mem c)
  | .stackVar _ => none

structure Used where
  flag : Bool
  delete : Bool
  deletelst : Bool
  deriving DecidableEq, Repr

/-- The heap with the statics of the collector. A circular list begins with the block its pointer
points to; `items` are in the order in which the functions of a block go through them. -/
structure Heap where
  live : Finset Ref
  items : Ref → List Item
  counter : Ref → Nat
  used : Nat → Used
  locked : Nat → Nat
  currBlock : List Nat
  lockedBlock : List Nat
  deletedBlock : List Nat
  usedFlag : Bool
  roots : List Item
  errors : List Nat

def gcLink (list : List Nat) (pAlloc : Nat) : List Nat := list ++ [pAlloc]

def gcUnlink (list : List Nat) (pAlloc : Nat) : List Nat := list.erase pAlloc

namespace Heap

variable (h : Heap)

def unmarked (used : Nat → Used) (b : Nat) : Bool :=
  (used b).flag == h.usedFlag && !(used b).deletelst

/-- The depth of the recursion is bounded by the first argument. -/
def gcItemRef (h : Heap) : Nat → (Nat → Used) → Item → (Nat → Used)
  | 0, used, _ => used
  | _ + 1, used, .simple => used
  | fuel + 1, used, .gc _ b =>
    if h.unmarked used b then
      (h.items (.gc b)).foldl (gcItemRef h fuel)
        (update used b { used b with flag := !(used b).flag })
    else used
  | fuel + 1, used, .mem _ c => (h.items (.mem c)).foldl (gcItemRef h fuel) used
  | fuel + 1, used, .stackVar slot => gcItemRef h fuel used (h.roots.getD slot .simple)

def mark (fuel : Nat) : Nat → Used :=
  h.lockedBlock.foldl (fun used b => (h.items (.gc b)).foldl (h.gcItemRef fuel) used)
    (h.roots.foldl (h.gcItemRef fuel) h.used)

/-- One round of the loop goes on with the list of blocks, the list of those to delete, and the
stop condition. -/
def sweep (usedFlag : Bool) : Nat → List Nat → List Nat → (Nat → Used) → Option Nat →
    List Nat × List Nat × (Nat → Used)
  | 0, currBlock, deletedBlock, used, _ => (currBlock, deletedBlock, used)
  | _ + 1, [], deletedBlock, used, _ => ([], deletedBlock, used)
  | fuel + 1, b :: rest, deletedBlock, used, pAlloc =>
    if used b = ⟨usedFlag, false, false⟩ then
      let currBlock := gcUnlink (b :: rest) b
      let deletedBlock := gcLink deletedBlock b
      let used := update used b { used b with delete := true, deletelst := true }
      if pAlloc = currBlock.head? then (currBlock, deletedBlock, used)
      else sweep usedFlag fuel currBlock deletedBlock used pAlloc
    else
      let pAlloc := if pAlloc = none then some b else pAlloc
      let currBlock := rest ++ [b]
      if pAlloc = currBlock.head? then (currBlock, deletedBlock, used)
      else sweep usedFlag fuel currBlock deletedBlock used pAlloc

def pop (r : Ref) : Heap := { h with items := update h.items r (h.items r).tail }

def refDec (r : Ref) : Heap := { h with counter := update h.counter r (h.counter r - 1) }

def setUsed (b : Nat) (used : Used) : Heap := { h with used := update h.used b used }

/-- The block leaves its list and its memory is released. -/
def gcFree (b : Nat) : Heap :=
  { h with
    live := h.live.erase (.gc b)
    lockedBlock := if h.locked b ≠ 0 then gcUnlink h.lockedBlock b else h.lockedBlock
    currBlock := if h.locked b ≠ 0 then h.currBlock else gcUnlink h.currBlock b }

def memFree (c : Nat) : Heap := { h with live := h.live.erase (.mem c) }

/-- What the clean-up functions do: each item in turn is set to NIL and its memory handed to the
release of one reference. -/
def clearWith (release : Heap → Ref → Heap) (h : Heap) (r : Ref) : Heap :=
  (h.items r).foldl (fun h item =>
    match item.counted with
    | some r' => release (h.pop r) r'
    | none => h.pop r) h

/-- `hb_gcRefFree` for a block, `hb_memvarValueDecRef` and the like for other memory. -/
def refFree : Nat → Heap → Ref → Heap
  | 0, h, _ => h
  | fuel + 1, h, .gc b =>
    let h := h.refDec (.gc b)
    if h.counter (.gc b) ≠ 0 ∨ (h.used b).delete then h
    else
      let h := clearWith (refFree fuel) (h.setUsed b { h.used b with delete := true }) (.gc b)
      if h.counter (.gc b) ≠ 0 then
        if (h.used b).delete then
          { h.setUsed b ⟨h.usedFlag, false, false⟩ with errors := h.errors ++ [1301] }
        else h
      else h.gcFree b
  | fuel + 1, h, .mem c =>
    let h := h.refDec (.mem c)
    if h.counter (.mem c) ≠ 0 then h
    else (clearWith (refFree fuel) h (.mem c)).memFree c

/-- The end of the collection for one block on the list of those to delete. -/
def releaseDeleted (pDelete : Nat) : Heap :=
  let h := { h with deletedBlock := gcUnlink h.deletedBlock pDelete }
  if h.counter (.gc pDelete) ≠ 0 then
    { h.setUsed pDelete ⟨h.usedFlag, false, false⟩ with
      locked := update h.locked pDelete 0
      currBlock := gcLink h.currBlock pDelete
      errors := h.errors ++ [1302] }
  else { h with live := h.live.erase (.gc pDelete) }

def collectAll (fuel : Nat) : Heap :=
  if h.currBlock = [] then h
  else
    let (currBlock, deletedBlock, used) :=
      sweep h.usedFlag (h.currBlock.length) h.currBlock h.deletedBlock (h.mark fuel) none
    let h := { h with
      currBlock := currBlock
      deletedBlock := deletedBlock
      used := used
      usedFlag := !h.usedFlag }
    let h := h.deletedBlock.foldl (fun h b => clearWith (refFree fuel) h (.gc b)) h
    h.deletedBlock.foldl releaseDeleted h

end Heap

end Harbour.Vm.Garbage
