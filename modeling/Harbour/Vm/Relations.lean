import Harbour.Vm.Operators

/-!
The relational and logical operators of the virtual machine, with SET EXACT OFF and strings
compared by bytes.
-/

namespace Harbour.Vm.Operators

def strCmpBytes : Bytes → Bytes → Int
  | [], [] => 0
  | [], _ :: _ => -1
  | _ :: _, [] => 0
  | b1 :: s1, b2 :: s2 => if b1 ≠ b2 then if b1 < b2 then -1 else 1 else strCmpBytes s1 s2

/-- `hb_itemStrCmp`, not forced to be exact. -/
def itemStrCmp (s1 s2 : Bytes) : Int :=
  if s1 ≠ [] ∧ s2 ≠ [] then strCmpBytes s1 s2
  else if s1.length ≠ s2.length then if s2.length = 0 then 0 else -1 else 0

def strAtFrom (szSub : Bytes) : (left nPos : Nat) → (szText : Bytes) → Nat
  | 0, _, _ => 0
  | left + 1, nPos, szText =>
    if szSub.isPrefixOf szText then nPos + 1 else strAtFrom szSub left (nPos + 1) szText.tail

def strAt (szSub szText : Bytes) : Nat :=
  if szSub.length > 0 ∧ szText.length ≥ szSub.length then
    strAtFrom szSub (szText.length - szSub.length + 1) 0 szText
  else 0

def numDblRaw : Item → ℚ
  | .numInt _ n => (Library.Rounding.Rounded.ofInt n : Double).value
  | .double d => d.value
  | _ => 0

def isNumeric : Item → Bool
  | .numInt _ _ | .double _ => true
  | _ => false

def ofBool (b : Bool) : Except VmError Item := .ok (.logical b)

def vmExactlyEqual : Item → Item → Except VmError Item
  | .nil, item2 => ofBool (item2 = .nil)
  | _, .nil => ofBool false
  | .string s1, .string s2 => ofBool (s1 = s2)
  | .numInt _ n1, .numInt _ n2 => ofBool (n1 = n2)
  | .date j1, .date j2 => ofBool (j1 = j2)
  | .date j1, .timestamp j2 t2 => ofBool (j1 = j2 ∧ 0 = t2)
  | .timestamp j1 t1, .date j2 => ofBool (j1 = j2 ∧ t1 = 0)
  | .timestamp j1 t1, .timestamp j2 t2 => ofBool (j1 = j2 ∧ t1 = t2)
  | .logical b1, .logical b2 => ofBool (if b1 then b2 else ! b2)
  | item1, item2 =>
    if isNumeric item1 ∧ isNumeric item2 then ofBool (numDblRaw item1 = numDblRaw item2)
    else .error (.arg 1070 "==")

def vmEqual : Item → Item → Except VmError Item
  | .nil, item2 => ofBool (item2 = .nil)
  | _, .nil => ofBool false
  | .string s1, .string s2 => ofBool (itemStrCmp s1 s2 = 0)
  | .numInt _ n1, .numInt _ n2 => ofBool (n1 = n2)
  | .date j1, .date j2 => ofBool (j1 = j2)
  | .date j1, .timestamp j2 _ => ofBool (j1 = j2)
  | .timestamp j1 _, .date j2 => ofBool (j1 = j2)
  | .timestamp j1 t1, .timestamp j2 t2 => ofBool (j1 = j2 ∧ t1 = t2)
  | .logical b1, .logical b2 => ofBool (if b1 then b2 else ! b2)
  | item1, item2 =>
    if isNumeric item1 ∧ isNumeric item2 then ofBool (numDblRaw item1 = numDblRaw item2)
    else .error (.arg 1071 "=")

def vmNotEqual : Item → Item → Except VmError Item
  | .nil, item2 => ofBool (item2 ≠ .nil)
  | _, .nil => ofBool true
  | .string s1, .string s2 => ofBool (itemStrCmp s1 s2 ≠ 0)
  | .numInt _ n1, .numInt _ n2 => ofBool (n1 ≠ n2)
  | .date j1, .date j2 => ofBool (j1 ≠ j2)
  | .date j1, .timestamp j2 _ => ofBool (j1 ≠ j2)
  | .timestamp j1 _, .date j2 => ofBool (j1 ≠ j2)
  | .timestamp j1 t1, .timestamp j2 t2 => ofBool (j1 ≠ j2 ∨ t1 ≠ t2)
  | .logical b1, .logical b2 => ofBool (if b1 then ! b2 else b2)
  | item1, item2 =>
    if isNumeric item1 ∧ isNumeric item2 then ofBool (numDblRaw item1 ≠ numDblRaw item2)
    else .error (.arg 1072 "<>")

/-- The four orders: `less` and `equal` tell whether smaller and equal operands meet it. -/
structure Order where
  less : Bool
  equal : Bool
  greater : Bool
  subCode : Nat
  operation : String

namespace Order

variable (order : Order)

def holds {α : Type} [DecidableEq α] (lt : α → α → Prop) [DecidableRel lt] (a b : α) : Bool :=
  if lt a b then order.less else if a = b then order.equal else order.greater

/-- A timestamp is compared by its time of day last. -/
def holdsStamps (j1 t1 j2 t2 : Int) : Bool :=
  if j1 < j2 then order.less else if j1 = j2 then order.holds (· < ·) t1 t2 else order.greater

def vmCompare : Item → Item → Except VmError Item
  | .string s1, .string s2 => ofBool (order.holds (· < ·) (itemStrCmp s1 s2) 0)
  | .numInt _ n1, .numInt _ n2 => ofBool (order.holds (· < ·) n1 n2)
  | .date j1, .date j2 => ofBool (order.holds (· < ·) j1 j2)
  | .date j1, .timestamp j2 _ => ofBool (order.holds (· < ·) j1 j2)
  | .timestamp j1 _, .date j2 => ofBool (order.holds (· < ·) j1 j2)
  | .timestamp j1 t1, .timestamp j2 t2 => ofBool (order.holdsStamps j1 t1 j2 t2)
  | .logical b1, .logical b2 => ofBool (order.holds (· < ·) b1 b2)
  | item1, item2 =>
    if isNumeric item1 ∧ isNumeric item2 then
      ofBool (order.holds (· < ·) (numDblRaw item1) (numDblRaw item2))
    else .error (.arg order.subCode order.operation)

end Order

def less : Order := ⟨true, false, false, 1073, "<"⟩
def lessEqual : Order := ⟨true, true, false, 1074, "<="⟩
def greater : Order := ⟨false, false, true, 1075, ">"⟩
def greaterEqual : Order := ⟨false, true, true, 1076, ">="⟩

def vmLess : Item → Item → Except VmError Item := less.vmCompare
def vmLessEqual : Item → Item → Except VmError Item := lessEqual.vmCompare
def vmGreater : Item → Item → Except VmError Item := greater.vmCompare
def vmGreaterEqual : Item → Item → Except VmError Item := greaterEqual.vmCompare

def vmInstring : Item → Item → Except VmError Item
  | .string s1, .string s2 => ofBool (strAt s1 s2 ≠ 0)
  | _, _ => .error (.arg 1109 "$")

def vmNot : Item → Except VmError Item
  | .logical b => ofBool (! b)
  | _ => .error (.arg 1077 ".NOT.")

def vmAnd : Item → Item → Except VmError Item
  | .logical b1, .logical b2 => ofBool (b1 && b2)
  | _, _ => .error (.arg 1078 ".AND.")

def vmOr : Item → Item → Except VmError Item
  | .logical b1, .logical b2 => ofBool (b1 || b2)
  | _, _ => .error (.arg 1079 ".OR.")

def popLogical : Item → Except VmError Bool
  | .logical b => .ok b
  | _ => .error (.arg 1066 "conditional")

end Harbour.Vm.Operators
