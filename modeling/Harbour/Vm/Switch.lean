import Harbour.Compiler.DeadCode

/-!
The instruction `SWITCH` and the jumps, as they are executed.
-/

namespace Harbour.Vm.Switch

open Compiler.PCodeSize PCode

/-- An item of the stack. Those that are neither integers nor strings are told apart by `other`. -/
inductive Item (α : Type*) where
  | integer (n : Int)
  | long (n : Int)
  | string (s : Bytes)
  | other (a : α)
  deriving DecidableEq, Repr

namespace Item

variable {α : Type*}

def numInt : Item α → Option Int
  | integer n => some n
  | long n => some n
  | _ => none

def str : Item α → Option Bytes
  | string s => some s
  | _ => none

def switchable (pSwitch : Item α) : Bool := pSwitch.numInt.isSome || pSwitch.str.isSome

end Item

/-- An error that a handler may replace by a result. -/
structure RtError (α : Type*) where
  genCode : Nat
  subCode : Nat
  operation : String
  args : List (Item α)
  deriving DecidableEq, Repr

structure State (α : Type*) where
  pCode : Nat
  stack : List (Item α)
  /-- The errors that have been raised. -/
  errors : List (RtError α)
  deriving DecidableEq, Repr

section Execute

variable {α : Type*} (code : Bytes) (handler : RtError α → Option (Item α))

def switchError (pSwitch : Item α) : RtError α := ⟨1, 3104, "SWITCH", [pSwitch]⟩

def switchGet (pSwitch : Item α) : Option (Item α) :=
  if pSwitch.switchable then some pSwitch else handler (switchError pSwitch)

/-- The value of an entry of the table: whether it is the one, and what stands behind it. -/
def switchValue (pSwitch : Item α) (pCode : Nat) : Bool × Nat :=
  match ofByte ((code.drop pCode).headD 0) with
  | .pushLong =>
    (pSwitch.numInt = some (mkSigned 4 (code.drop (pCode + 1))), pCode + 5)
  | .pushStrShort =>
    let nLen := mkUnsigned 1 (code.drop (pCode + 1))
    (pSwitch.str.any fun s => nLen = s.length + 1 ∧ (code.drop (pCode + 2)).take s.length = s,
      pCode + (2 + nLen))
  | .pushNil => (true, pCode + 1)
  | _ => (false, pCode)

def jumpTo (width pCode : Nat) : Nat :=
  ((pCode : Int) + mkSigned width (code.drop (pCode + 1))).toNat

def switchJump (fFound : Bool) (pCode : Nat) : Nat :=
  match ofByte ((code.drop pCode).headD 0) with
  | .jumpNear => if fFound then jumpTo code 1 pCode else pCode + 2
  | .jump => if fFound then jumpTo code 2 pCode else pCode + 3
  | .jumpFar => if fFound then jumpTo code 3 pCode else pCode + 4
  | _ => pCode

def switchLoop (pSwitch : Item α) : (casesCnt : Nat) → (pCode : Nat) → Nat
  | 0, pCode => pCode
  | casesCnt + 1, pCode =>
    let (fFound, pCode) := switchValue code pSwitch pCode
    let pCode := switchJump code fFound pCode
    if fFound then pCode else switchLoop pSwitch casesCnt pCode

/-- `hb_vmSwitch`, of the item at the top of the stack. -/
def vmSwitch (casesCnt : Nat) (s : State α) : State α :=
  match s.stack with
  | [] => s
  | pSwitch :: stack =>
    ⟨match switchGet handler pSwitch with
      | some pSwitch => switchLoop code pSwitch casesCnt s.pCode
      | none => s.pCode,
      stack,
      if pSwitch.switchable then s.errors else s.errors ++ [switchError pSwitch]⟩

/-- The instruction at `pCode` is executed, if it is a switch or a jump. -/
def vmExecute (s : State α) : Option (State α) :=
  match ofByte ((code.drop s.pCode).headD 0) with
  | .switch =>
    some (vmSwitch code handler (mkUnsigned 2 (code.drop (s.pCode + 1)))
      { s with pCode := s.pCode + 3 })
  | .jumpNear => some { s with pCode := jumpTo code 1 s.pCode }
  | .jump => some { s with pCode := jumpTo code 2 s.pCode }
  | .jumpFar => some { s with pCode := jumpTo code 3 s.pCode }
  | _ => none

end Execute

end Harbour.Vm.Switch
