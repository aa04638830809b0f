import Harbour.Library.Scopes

/-!
Memory variables: what each name is bound to, and the stack of the values that PRIVATEs hide.
-/

namespace Harbour.Vm.Memvars

open Function

inductive MemvarItem (V : Type*) where
  | nil
  | logical (value : Bool)
  | other (value : V)

inductive Frame where
  | proc (nPrivateBase : Nat)
  | saved (nBase : Nat)

/-- `stack` has the last PRIVATE first: its symbol, and the value that it hides. Values are numbered
as they are allocated. -/
structure State (V : Type*) where
  memvar : String → Option Nat
  item : Nat → Option (MemvarItem V)
  blocks : Nat
  stack : List (String × Option Nat)
  size : Nat
  base : Nat
  frames : List Frame

def State.start (V : Type*) : State V := ⟨fun _ => none, fun _ => none, 0, [], 0, 0, []⟩

def tableInit : Nat := 100

def tableExpand : Nat := 50

def findPrivate (pDynSym : String) : Nat → List (String × Option Nat) → Bool
  | nCount + 1, (pSymbol, _) :: stack => pSymbol = pDynSym || findPrivate pDynSym nCount stack
  | _, _ => false

/-- `nPrivateBase` in the frame of the function that is running. -/
def privateBase : List Frame → Nat
  | .proc nPrivateBase :: _ => nPrivateBase
  | .saved _ :: frames => privateBase frames
  | [] => 0

variable {V : Type*}

namespace State

variable (s : State V)

def count : Nat := s.stack.length

def setItem (pMemvar : Nat) (pValue : MemvarItem V) : State V :=
  { s with item := update s.item pMemvar (some pValue) }

def dynsymSetMemvar (pDynSym : String) (pMemvar : Option Nat) : State V :=
  { s with memvar := update s.memvar pDynSym pMemvar }

def memvarValueNew : State V :=
  { s with item := update s.item s.blocks (some .nil), blocks := s.blocks + 1 }

def memvarValueDecRef (pMemvar : Nat) : State V :=
  { s with item := update s.item pMemvar none }

def memvarDetachDynSym (pDynSym : String) (pPrevMemvar : Option Nat) : State V :=
  match s.memvar pDynSym with
  | some pMemvar => (s.dynsymSetMemvar pDynSym pPrevMemvar).memvarValueDecRef pMemvar
  | none => s.dynsymSetMemvar pDynSym pPrevMemvar

def itemCopy (pMemvar : Nat) : Option (MemvarItem V) → State V
  | some pValue => s.setItem pMemvar pValue
  | none => s

def growStack : State V :=
  if s.count = s.size then
    if s.size = 0 then { s with size := tableInit, stack := [], base := 0 }
    else { s with size := s.size + tableExpand }
  else s

def pushPrivate (pDynSym : String) : State V :=
  { s.growStack with stack := (pDynSym, s.growStack.memvar pDynSym) :: s.growStack.stack }

def memvarAddPrivate (pDynSym : String) (pValue : Option (MemvarItem V)) : State V :=
  match s.memvar pDynSym, findPrivate pDynSym (s.count - s.base) s.stack with
  | some pMemvar, true => s.itemCopy pMemvar pValue
  | _, _ =>
    (((s.pushPrivate pDynSym).memvarValueNew).dynsymSetMemvar pDynSym
      (some s.blocks)).itemCopy s.blocks pValue

def memvarGetPrivatesBase : State V × Nat := ({ s with base := s.count }, s.base)

/-- The last PRIVATEs are released, and what they have hidden is restored. -/
def releasePrivates : Nat → List (String × Option Nat) → State V → State V
  | nCount + 1, (pDynSym, pPrevMemvar) :: stack, s =>
    releasePrivates nCount stack (
      if (s.memvar pDynSym).isSome then
        ({ s with stack }).memvarDetachDynSym pDynSym pPrevMemvar
      else { s with stack })
  | _, _, s => s

def memvarSetPrivatesBase (nBase : Nat) : State V :=
  { releasePrivates (s.count - s.base) s.stack s with base := nBase }

def memvarUpdatePrivatesBase : State V := { s with base := s.count }

def memvarResetPrivatesBase : State V := { s with base := privateBase s.frames }

def stackNewFrame : State V :=
  { s.memvarGetPrivatesBase.1 with frames := .proc s.memvarGetPrivatesBase.2 :: s.frames }

def memvarCreateFromDynSymbol (pDynVar : String) (fPublic : Bool) (pValue : Option (MemvarItem V)) :
    State V :=
  if fPublic then
    if (s.memvar pDynVar).isNone then
      ((s.memvarValueNew).dynsymSetMemvar pDynVar (some s.blocks)).setItem s.blocks (
        pValue.getD (.logical (pDynVar = "HARBOUR" || pDynVar = "CLIPPER")))
    else s
  else s.memvarAddPrivate pDynVar pValue

def memvarSetValue (pDyn : String) (pItem : MemvarItem V) : State V :=
  match s.memvar pDyn with
  | some pMemvar => s.setItem pMemvar pItem
  | none => s.memvarCreateFromDynSymbol pDyn false (some pItem)

def memvarRelease (pDynSymbol : String) : State V :=
  match s.memvar pDynSymbol with
  | some pMemvar =>
    if findPrivate pDynSymbol s.count s.stack then s.setItem pMemvar .nil
    else s.memvarDetachDynSym pDynSymbol none
  | none => s

def clearPrivates (fMatch : String → Bool) : Nat → List (String × Option Nat) → State V → State V
  | nCount + 1, (pDynVar, _) :: stack, s =>
    clearPrivates fMatch nCount stack (
      match s.memvar pDynVar with
      | some pMemvar => if fMatch pDynVar then s.setItem pMemvar .nil else s
      | none => s)
  | _, _, s => s

/-- `szMask` is what it says of each name. -/
def memvarReleaseWithMask (szMask : String → Bool) (bInclude : Bool) : State V :=
  clearPrivates (fun szName => if bInclude then szMask szName else !szMask szName)
    (s.count - privateBase s.frames) s.stack s

def stackOldFrame : Option (State V) :=
  match s.frames with
  | .proc nPrivateBase :: frames =>
    some (({ s with frames }).memvarSetPrivatesBase nPrivateBase)
  | _ => none

def callFunction (body : State V → State V) : Option (State V) :=
  (body s.stackNewFrame).stackOldFrame

def mvPublic (names : List String) : State V :=
  names.foldl (fun s pMemvar => s.memvarCreateFromDynSymbol pMemvar true none) s

def mvPrivate (names : List String) : State V :=
  if names = [] then s
  else
    (names.foldl (fun s pMemvar => s.memvarCreateFromDynSymbol pMemvar false none)
      s.memvarResetPrivatesBase).memvarUpdatePrivatesBase

def mvXRelease (names : List String) : State V :=
  names.foldl (fun s pMemvar => s.memvarRelease pMemvar) s

def mvPut (pName : String) (pValue : MemvarItem V) : State V :=
  (s.memvarSetValue pName pValue).memvarUpdatePrivatesBase

end State

/-- What a procedure does: it calls another one or returns, creates variables itself or by the C
functions, assigns and releases them, saves a base and restores it. -/
inductive Op (V : Type*) where
  | call
  | ret
  | save
  | restore
  | parameter (name : String) (value : Option (MemvarItem V))
  | assign (name : String) (value : MemvarItem V)
  | mvPrivate (names : List String)
  | mvPublic (names : List String)
  | mvPut (name : String) (value : MemvarItem V)
  | mvXRelease (names : List String)
  | mvRelease (mask : String → Bool) (bInclude : Bool)

namespace State

def next (s : State V) : Op V → Option (State V)
  | .call => some s.stackNewFrame
  | .ret => s.stackOldFrame
  | .save =>
    some { s.memvarGetPrivatesBase.1 with frames := .saved s.memvarGetPrivatesBase.2 :: s.frames }
  | .restore =>
    match s.frames with
    | .saved nBase :: frames => some (({ s with frames }).memvarSetPrivatesBase nBase)
    | _ => none
  | .parameter name value => some (s.memvarCreateFromDynSymbol name false value)
  | .assign name value => some (s.memvarSetValue name value)
  | .mvPrivate names => s.callFunction fun s => s.mvPrivate names
  | .mvPublic names => s.callFunction fun s => s.mvPublic names
  | .mvPut name value => s.callFunction fun s => s.mvPut name value
  | .mvXRelease names => s.callFunction fun s => s.mvXRelease names
  | .mvRelease mask bInclude => s.callFunction fun s => s.memvarReleaseWithMask mask bInclude

def declares (s : State V) (pDynSym : String) : Prop :=
  findPrivate pDynSym (s.count - s.base) s.stack = true

/-- A run of procedures. There is no state after it when it returns from a procedure, or restores a
base, that is not the last one. -/
def run (s : State V) : List (Op V) → Option (State V)
  | [] => some s
  | op :: ops => (s.next op).bind fun s' => s'.run ops

end State

def Op.privates : Op V → List String
  | .parameter name _ => [name]
  | .mvPrivate names => names
  | _ => []

inductive Brackets : Op V → Op V → Prop
  | proc : Brackets .call .ret
  | base : Brackets .save .restore

def Op.Plain : Op V → Prop
  | .call => False
  | .ret => False
  | .save => False
  | .restore => False
  | _ => True

/-- What a procedure does between its call and its return. -/
inductive Balanced : List (Op V) → Prop
  | nil : Balanced []
  | plain {op : Op V} {ops : List (Op V)} : op.Plain → Balanced ops → Balanced (op :: ops)
  | nest {first last : Op V} {body ops : List (Op V)} : Brackets first last → Balanced body →
      Balanced ops → Balanced (first :: (body ++ last :: ops))

end Harbour.Vm.Memvars
