import Mathlib.Algebra.BigOperators.Group.List.Basic
import Mathlib.Data.List.Basic
import Mathlib.Algebra.GroupWithZero.Nat

/-!
The path in an NSX tag: a stack of pages with the places reached in them.

A page stands for its number, and what is loaded by it.
-/

namespace Harbour.Rdd.NsxTree

open List

variable {Key : Type}

/-- A branch has `uiKeys` keys, each between two of its `uiKeys + 1` pages. -/
inductive Page (Key : Type) where
  | leaf (keys : List Key)
  | branch (uiKeys : Nat) (key : Nat → Key) (child : Nat → Page Key)

abbrev Stack (Key : Type) := List (Page Key × Nat)

namespace Page

def uiKeys : Page Key → Nat
  | leaf keys => keys.length
  | branch uiKeys _ _ => uiKeys

def keys : Page Key → List Key
  | leaf keys => keys
  | branch uiKeys key child =>
    ((range uiKeys).flatMap fun j => (child j).keys ++ [key j]) ++ (child uiKeys).keys

def Full : Page Key → Prop
  | leaf keys => keys ≠ []
  | branch uiKeys _ child => ∀ j ≤ uiKeys, (child j).Full

/-- Only a leaf that is the root may be empty. -/
def Valid : Page Key → Prop
  | leaf _ => True
  | branch uiKeys key child => (branch uiKeys key child).Full

end Page

def hb_nsxTagGetCurKey : Page Key → Nat → Option Key
  | .leaf keys, uiKey => keys[uiKey]?
  | .branch uiKeys key _, uiKey =>
    if uiKey ≠ 0 ∧ uiKey ≤ uiKeys then some (key (uiKey - 1)) else none

/-- `hb_nsxPageTopMove`, on the path to a page; none where a page is not valid. -/
def hb_nsxPageTopMove (stack : Stack Key) : Page Key → Option (Stack Key)
  | .leaf keys => if keys.length = 0 ∧ stack ≠ [] then none else some ((.leaf keys, 0) :: stack)
  | .branch uiKeys key child =>
    hb_nsxPageTopMove ((.branch uiKeys key child, 0) :: stack) (child 0)

def hb_nsxPageBottomMove (stack : Stack Key) : Page Key → Option (Stack Key)
  | .leaf keys =>
    if keys.length = 0 ∧ stack ≠ [] then none else some ((.leaf keys, keys.length - 1) :: stack)
  | .branch uiKeys key child =>
    hb_nsxPageBottomMove ((.branch uiKeys key child, uiKeys) :: stack) (child uiKeys)

def climbNext : Stack Key → Option (Stack Key)
  | [] => none
  | (page, ikey) :: stack =>
    if page.uiKeys ≠ 0 ∧ ikey < page.uiKeys then some ((page, ikey + 1) :: stack)
    else climbNext stack

def hb_nsxTagNextKey : Stack Key → Option (Stack Key)
  | [] => none
  | (.branch uiKeys key child, ikey) :: stack =>
    if ikey = 0 then none
    else hb_nsxPageTopMove ((.branch uiKeys key child, ikey) :: stack) (child ikey)
  | (.leaf keys, ikey) :: stack =>
    if ikey + 1 < keys.length then some ((.leaf keys, ikey + 1) :: stack) else climbNext stack

def climbPrev : Stack Key → Option (Stack Key)
  | [] => none
  | (page, ikey) :: stack => if ikey ≠ 0 then some ((page, ikey) :: stack) else climbPrev stack

def hb_nsxTagPrevKey : Stack Key → Option (Stack Key)
  | [] => none
  | (.branch uiKeys key child, ikey) :: stack =>
    if ikey = 0 then none
    else hb_nsxPageBottomMove ((.branch uiKeys key child, ikey - 1) :: stack) (child (ikey - 1))
  | (.leaf keys, ikey) :: stack =>
    if ikey ≠ 0 then some ((.leaf keys, ikey - 1) :: stack) else climbPrev stack

def hb_nsxPageCountKeys : Page Key → Nat
  | .leaf keys => keys.length
  | .branch uiKeys _ child =>
    uiKeys + hb_nsxPageCountKeys (child 0) +
      ((range uiKeys).map fun u => hb_nsxPageCountKeys (child (u + 1))).sum

/-- The loop of `hb_nsxOrdKeyNo` in the order of the keys. -/
def keyNoForward : Stack Key → Nat
  | [] => 0
  | (.leaf _, iKey) :: stack => iKey + 1 + keyNoForward stack
  | (.branch _ _ child, iKey) :: stack =>
    iKey + ((range iKey).map fun j => hb_nsxPageCountKeys (child j)).sum +
      keyNoForward stack

def keyNoBack : (fFirst : Bool) → Stack Key → Nat
  | _, [] => 0
  | _, (.leaf keys, iKey) :: stack => keys.length - iKey + keyNoBack false stack
  | fFirst, (.branch uiKeys _ child, iKey) :: stack =>
    let iKey := if fFirst ∧ iKey ≠ 0 then iKey - 1 else iKey
    uiKeys - iKey + ((range (uiKeys - iKey)).map fun j =>
      hb_nsxPageCountKeys (child (iKey + 1 + j))).sum + keyNoBack false stack

/-- The loop of `hb_nsxOrdKeyGoto` in the order of the keys: the steps that are left, and the
path. -/
def gotoForward : (ulKeyNo : Nat) → Stack Key → Nat × Stack Key
  | 0, stack => (0, stack)
  | ulKeyNo + 1, [] => (ulKeyNo + 1, [])
  | ulKeyNo + 1, (.leaf keys, ikey) :: stack =>
    let iKey := keys.length - ikey - 1
    if iKey < ulKeyNo + 1 then gotoForward (ulKeyNo + 1 - iKey) stack
    else (0, (.leaf keys, ikey + (ulKeyNo + 1)) :: stack)
  | ulKeyNo + 1, (.branch uiKeys key child, iKey) :: stack =>
    if iKey ≥ uiKeys then gotoForward (ulKeyNo + 1) stack
    else if ulKeyNo = 0 then (0, (.branch uiKeys key child, iKey + 1) :: stack)
    else
      match hb_nsxPageTopMove ((.branch uiKeys key child, iKey + 1) :: stack)
          (child (iKey + 1)) with
      | none => (ulKeyNo, [])
      | some stack => gotoForward (ulKeyNo - 1) stack
termination_by ulKeyNo stack => (ulKeyNo, stack.length)
decreasing_by
  · rcases Nat.eq_zero_or_pos (keys.length - ikey - 1) with hzero | hpos
    · rw [hzero]
      exact Prod.Lex.right _ (Nat.lt_succ_self _)
    · exact Prod.Lex.left _ _ (by omega)
  · exact Prod.Lex.right _ (Nat.lt_succ_self _)
  · exact Prod.Lex.left _ _ (by omega)

def gotoBack : (fFirst : Bool) → (ulKeyNo : Nat) → Stack Key → Nat × Stack Key
  | _, 0, stack => (0, stack)
  | _, ulKeyNo + 1, [] => (ulKeyNo + 1, [])
  | _, ulKeyNo + 1, (.leaf keys, iKey) :: stack =>
    if iKey < ulKeyNo + 1 then gotoBack false (ulKeyNo + 1 - iKey) stack
    else (0, (.leaf keys, iKey - (ulKeyNo + 1)) :: stack)
  | fFirst, ulKeyNo + 1, (.branch uiKeys key child, iKey) :: stack =>
    if iKey = 0 then gotoBack false (ulKeyNo + 1) stack
    else if ¬ fFirst ∧ ulKeyNo = 0 then (0, (.branch uiKeys key child, iKey) :: stack)
    else
      match hb_nsxPageBottomMove ((.branch uiKeys key child, iKey - 1) :: stack)
          (child (iKey - 1)) with
      | none => (if fFirst then ulKeyNo + 1 else ulKeyNo, [])
      | some stack => gotoBack false (if fFirst then ulKeyNo else ulKeyNo - 1) stack
termination_by _ ulKeyNo stack => (ulKeyNo, stack.length)
decreasing_by
  · rcases Nat.eq_zero_or_pos iKey with hzero | hpos
    · rw [hzero]
      exact Prod.Lex.right _ (Nat.lt_succ_self _)
    · exact Prod.Lex.left _ _ (by omega)
  · exact Prod.Lex.right _ (Nat.lt_succ_self _)
  · exact Prod.Lex.left _ _ (by split <;> omega)

section Tags

/-- What a tag and its area know of the place they are at; `record` is the key whose record the
area is on, none at the end of the file. -/
structure State (Key : Type) where
  stack : Stack Key
  CurKeyInfo : Option Key
  TagEOF : Bool
  record : Option Key

/-- A tag without scopes, in an area without filter. -/
structure Tag (Key : Type) where
  root : Page Key
  fUsrDescend : Bool

variable (tag : Tag Key)

def curKey : Stack Key → Option Key
  | [] => none
  | (page, ikey) :: _ => hb_nsxTagGetCurKey page ikey

def hb_nsxTagGoTop (state : State Key) : State Key :=
  match if tag.fUsrDescend then hb_nsxPageBottomMove [] tag.root
      else hb_nsxPageTopMove [] tag.root with
  | none => { state with TagEOF := state.CurKeyInfo.isNone }
  | some stack =>
    { state with stack, CurKeyInfo := curKey stack, TagEOF := (curKey stack).isNone }

def hb_nsxTagSkipNext (state : State Key) : State Key :=
  if state.stack = [] then { state with TagEOF := true }
  else
    match if tag.fUsrDescend then hb_nsxTagPrevKey state.stack
        else hb_nsxTagNextKey state.stack with
    | none => { state with TagEOF := true }
    | some stack => { state with stack, CurKeyInfo := curKey stack, TagEOF := false }

def hb_nsxOrdKeyNo (state : State Key) : Nat :=
  if tag.fUsrDescend then keyNoBack true state.stack else keyNoForward state.stack

def hb_nsxOrdKeyGoto (ulKeyNo : Nat) (state : State Key) : Bool × State Key :=
  if ulKeyNo = 0 then (false, state)
  else
    let state := hb_nsxTagGoTop tag state
    let (left, stack) :=
      if state.TagEOF then (ulKeyNo, state.stack)
      else if tag.fUsrDescend then gotoBack true (ulKeyNo - 1) state.stack
      else gotoForward (ulKeyNo - 1) state.stack
    if left ≠ 0 then (true, { state with stack := [], record := none })
    else (true, { state with stack, CurKeyInfo := curKey stack, record := curKey stack })

end Tags

end Harbour.Rdd.NsxTree
