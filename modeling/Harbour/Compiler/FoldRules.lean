import Harbour.Compiler.Expr
import Harbour.Vm.Sums

/-!
The reduction of one operator over literals, and what the virtual machine makes of it unreduced,
without extended optimisation.
-/

namespace Harbour.Compiler.Expr

open Vm.Operators Library.Rounding Rounded

/-- The same error, or the same value of the same type. -/
def SameResult : Except VmError Item → Except VmError Item → Prop
  | .ok item1, .ok item2 => item1.Same item2
  | .error err1, .error err2 => err1 = err2
  | _, _ => False

section Same

variable {item1 item2 item3 item1' item2' : Item} {r1 r2 r3 : Except VmError Item}

theorem same_refl (item : Item) : item.Same item := by
  cases item <;> rfl

theorem same_iff : item1.Same item2 ↔ item1 = item2 ∨
    ∃ f1 f2 n, item1 = .numInt f1 n ∧ item2 = .numInt f2 n := by
  constructor
  · intro h
    cases item1 with
    | numInt f1 n1 =>
      cases item2 with
      | numInt f2 n2 =>
        obtain rfl : n1 = n2 := h
        exact .inr ⟨f1, f2, n1, rfl, rfl⟩
      | _ => exact .inl h
    | _ => exact .inl h
  · rintro (rfl | ⟨f1, f2, n, rfl, rfl⟩)
    · exact same_refl item1
    · rfl

theorem same_trans (h12 : item1.Same item2) (h23 : item2.Same item3) : item1.Same item3 := by
  rcases same_iff.mp h12 with rfl | ⟨f1, f2, n, rfl, rfl⟩
  · exact h23
  · rcases same_iff.mp h23 with rfl | ⟨f2', f3, n', heq, rfl⟩
    · exact h12
    · obtain ⟨-, rfl⟩ := Item.numInt.inj heq
      rfl

theorem SameResult.refl (r : Except VmError Item) : SameResult r r := by
  cases r with
  | ok item => exact same_refl item
  | error err => rfl

theorem SameResult.of_eq (h : r1 = r2) : SameResult r1 r2 := h ▸ .refl r1

theorem SameResult.trans (h12 : SameResult r1 r2) (h23 : SameResult r2 r3) : SameResult r1 r3 := by
  cases r1 <;> cases r2 <;> cases r3 <;> first
    | exact h12.elim
    | exact h23.elim
    | exact same_trans h12 h23
    | exact Eq.trans h12 h23

section

variable {op : BinaryOp} (hop : op ≠ .mult)

include hop

theorem vm_numInt_left (f1 f2 : Bool) (n : Int) (item : Item) :
    op.vm (.numInt f1 n) item = op.vm (.numInt f2 n) item := by
  cases op with
  | mult => exact absurd rfl hop
  | _ => cases item <;> rfl

theorem vm_numInt_right (f1 f2 : Bool) (n : Int) (item : Item) :
    op.vm item (.numInt f1 n) = op.vm item (.numInt f2 n) := by
  cases op with
  | mult => exact absurd rfl hop
  | _ => cases item <;> rfl

theorem vm_same (h1 : item1.Same item1') (h2 : item2.Same item2') :
    op.vm item1 item2 = op.vm item1' item2' := by
  have hleft : op.vm item1 item2 = op.vm item1' item2 := by
    rcases same_iff.mp h1 with rfl | ⟨f1, f2, n, rfl, rfl⟩
    · rfl
    · exact vm_numInt_left hop f1 f2 n item2
  have hright : op.vm item1' item2 = op.vm item1' item2' := by
    rcases same_iff.mp h2 with rfl | ⟨f1, f2, n, rfl, rfl⟩
    · rfl
    · exact vm_numInt_right hop f1 f2 n item1'
  exact hleft.trans hright

end

theorem vmNot_same (h : item1.Same item2) : vmNot item1 = vmNot item2 := by
  rcases same_iff.mp h with rfl | ⟨f1, f2, n, rfl, rfl⟩
  · rfl
  · rfl

theorem popLogical_same (h : item1.Same item2) : popLogical item1 = popLogical item2 := by
  rcases same_iff.mp h with rfl | ⟨f1, f2, n, rfl, rfl⟩
  · rfl
  · rfl

theorem SameResult.bind {f1 f2 : Item → Except VmError Item} (h : SameResult r1 r2)
    (hf : ∀ item1 item2 : Item, item1.Same item2 → SameResult (f1 item1) (f2 item2)) :
    SameResult (r1 >>= f1) (r2 >>= f2) := by
  cases r1 with
  | ok item1 =>
    cases r2 with
    | ok item2 => exact hf item1 item2 h
    | error err2 => exact h.elim
  | error err1 =>
    cases r2 with
    | ok item2 => exact h.elim
    | error err2 => exact h

theorem SameResult.branch {t1 t2 f1 f2 : Except VmError Item} (c : Except VmError Bool)
    (ht : SameResult t1 t2) (hf : SameResult f1 f2) :
    SameResult (do if ← c then t1 else f1) (do if ← c then t2 else f2) := by
  cases c with
  | error err => rfl
  | ok b =>
    cases b with
    | true => exact ht
    | false => exact hf

end Same

variable {pExpr : HbExpr} {l1 l2 n : Int}

variable {op : BinaryOp}

section Eval

variable {modes : Modes} {env : String → Item} {pLeft pRight pLeft' pRight' : HbExpr}

theorem eval_binary_same (hop : op ≠ .mult)
    (hleft : SameResult (eval modes env pLeft) (eval modes env pLeft'))
    (hright : SameResult (eval modes env pRight) (eval modes env pRight')) :
    SameResult (eval modes env (.binary op pLeft pRight))
      (eval modes env (.binary op pLeft' pRight')) := by
  refine hleft.bind fun item1 item1' h1 => ?_
  rw [popLogical_same h1]
  split_ifs
  · exact .branch _ hright h1
  · exact .branch _ h1 hright
  · exact hright.bind fun item2 item2' h2 => .of_eq (vm_same hop h1 h2)

theorem eval_not_same {pExpr' : HbExpr}
    (h : SameResult (eval modes env pExpr) (eval modes env pExpr')) :
    SameResult (eval modes env (.not pExpr)) (eval modes env (.not pExpr')) :=
  h.bind fun _ _ h => .of_eq (vmNot_same h)

theorem eval_iif_same {pCond pTrue pFalse pCond' pTrue' pFalse' : HbExpr}
    (hcond : SameResult (eval modes env pCond) (eval modes env pCond'))
    (htrue : SameResult (eval modes env pTrue) (eval modes env pTrue'))
    (hfalse : SameResult (eval modes env pFalse) (eval modes env pFalse')) :
    SameResult (eval modes env (.iif pCond pTrue pFalse))
      (eval modes env (.iif pCond' pTrue' pFalse')) := by
  refine hcond.bind fun item item' h => ?_
  rw [popLogical_same h]
  exact .branch _ htrue hfalse

end Eval

section Rules

variable {modes : Modes} {env : String → Item}

def LongFits (pExpr : HbExpr) : Prop := ∀ l, pExpr = .numeric (.long l) → LimLong l

theorem maxDbl_value (h : |n| ≤ 2 ^ 64) : (ofInt n : MaxDbl).value = n :=
  ofInt_value h

theorem abs_le_of_lim (h : LimLong n) : |n| ≤ 2 ^ 64 := by
  obtain ⟨hlow, hhigh⟩ := h
  exact abs_le.mpr ⟨by omega, by omega⟩

theorem maxDbl_add (h1 : LimLong l1) (h2 : LimLong l2) :
    ((ofInt l1 : MaxDbl).add (ofInt l2)).value = ((l1 + l2 : Int) : ℚ) := by
  have hsum : (ofInt l1 : MaxDbl).value + (ofInt l2 : MaxDbl).value
      = ((l1 + l2 : Int) : ℚ) := by
    rw [maxDbl_value (abs_le_of_lim h1), maxDbl_value (abs_le_of_lim h2), Int.cast_add]
  obtain ⟨hlow1, hhigh1⟩ := h1
  obtain ⟨hlow2, hhigh2⟩ := h2
  unfold add
  rw [hsum]
  exact maxDbl_value (abs_le.mpr ⟨by omega, by omega⟩)

theorem maxDbl_sub (h1 : LimLong l1) (h2 : LimLong l2) :
    ((ofInt l1 : MaxDbl).sub (ofInt l2)).value = ((l1 - l2 : Int) : ℚ) := by
  have hdiff : (ofInt l1 : MaxDbl).value - (ofInt l2 : MaxDbl).value
      = ((l1 - l2 : Int) : ℚ) := by
    rw [maxDbl_value (abs_le_of_lim h1), maxDbl_value (abs_le_of_lim h2), Int.cast_sub]
  obtain ⟨hlow1, hhigh1⟩ := h1
  obtain ⟨hlow2, hhigh2⟩ := h2
  unfold sub
  rw [hdiff]
  exact maxDbl_value (abs_le.mpr ⟨by omega, by omega⟩)

theorem dblLimLong_intCast : DblLimLong (n : ℚ) ↔ LimLong n := by
  unfold DblLimLong LimLong
  norm_cast

theorem limited_whole {dVal : MaxDbl} {l : Int} (hval : dVal.value = l) :
    limited dVal l = if LimLong l then .long l else .double (round l) := by
  unfold limited
  rw [hval]
  by_cases h : LimLong l
  · rw [if_pos h, if_pos (dblLimLong_intCast.mpr h)]
  · rw [if_neg h, if_neg (mt dblLimLong_intCast.mp h)]

theorem addNums_long (h1 : LimLong l1) (h2 : LimLong l2) (h : LimLong (l1 + l2)) :
    addNums (.long l1) (.long l2) = .long (l1 + l2) :=
  (limited_whole (maxDbl_add h1 h2)).trans (if_pos h)

theorem subNums_long (h1 : LimLong l1) (h2 : LimLong l2) (h : LimLong (l1 - l2)) :
    subNums (.long l1) (.long l2) = .long (l1 - l2) :=
  (limited_whole (maxDbl_sub h1 h2)).trans (if_pos h)

theorem vmPlus_long (h : LimLong (l1 + l2)) :
    vmPlus (putNumIntRaw l1) (putNumIntRaw l2) = .ok (putNumIntRaw (l1 + l2)) := by
  have hwrap := wrap64_of_lim h
  change (if if l2 ≥ 0 then wrap64 (l1 + l2) ≥ l1 else wrap64 (l1 + l2) < l1 then
    Except.ok (putNumIntRaw (wrap64 (l1 + l2))) else _) = _
  rw [hwrap]
  refine if_pos ?_
  split_ifs with hl2
  · omega
  · omega

theorem vmMinus_long (h : LimLong (l1 - l2)) :
    vmMinus (putNumIntRaw l1) (putNumIntRaw l2) = .ok (putNumIntRaw (l1 - l2)) := by
  have hwrap := wrap64_of_lim h
  change (if if l2 ≤ 0 then wrap64 (l1 - l2) ≥ l1 else wrap64 (l1 - l2) < l1 then
    Except.ok (putNumIntRaw (wrap64 (l1 - l2))) else _) = _
  rw [hwrap]
  refine if_pos ?_
  split_ifs with hl2
  · omega
  · omega

variable {a b : HbExpr}

/-- The integers that are added or subtracted stay within 64 bits. -/
def Stays (combine : Int → Int → Int) (a b : HbExpr) : Prop :=
  ∀ l1 l2, a = .numeric (.long l1) → b = .numeric (.long l2) → LimLong (combine l1 l2)

theorem reducePlusNum_off (hext : modes.extOpt = false) (n : Num) (pOther pSelf : HbExpr) :
    reducePlusNum modes n pOther pSelf = pSelf := by
  unfold reducePlusNum
  rw [hext]
  rfl

theorem kept (op : BinaryOp) (hand : op ≠ .and) (hor : op ≠ .or) (a b : HbExpr) :
    SameResult (do let item1 ← eval modes env a; let item2 ← eval modes env b; op.vm item1 item2)
      (eval modes env (.binary op a b)) :=
  .of_eq (eval_binary modes env a b hand hor).symm

theorem reducePlusStrings_same (s1 s2 : Bytes) :
    SameResult (vmPlus (.string s1) (.string s2))
      (eval modes env (reducePlusStrings modes s1 s2)) := by
  have hvm : vmPlus (.string s1) (.string s2) = if s2 ≠ [] then
      if s1 ≠ [] then .ok (.string (s1 ++ s2)) else .ok (.string s2) else .ok (.string s1) := rfl
  unfold reducePlusStrings
  split_ifs with h2 h1 hmacro
  · rw [hvm, if_neg (not_not_intro h2)]
    exact .refl _
  · rw [hvm, if_pos h2, if_neg (not_not_intro h1)]
    exact .refl _
  · exact kept .plus (by decide) (by decide) (.string s1) (.string s2)
  · rw [hvm, if_pos h2, if_pos h1]
    exact .refl _

theorem reducePlus_same (hext : modes.extOpt = false) (ha : LongFits a) (hb : LongFits b)
    (hfits : Stays (· + ·) a b) :
    SameResult (eval modes env (.binary .plus a b)) (eval modes env (reducePlus modes a b)) := by
  rw [eval_binary modes env a b (by decide) (by decide)]
  unfold reducePlus
  split
  case h_1 n1 n2 =>
    cases n1 with
    | long l1 =>
      cases n2 with
      | long l2 =>
        have hlim := hfits l1 l2 rfl rfl
        rw [addNums_long (ha l1 rfl) (hb l2 rfl) hlim]
        exact .of_eq (vmPlus_long hlim)
      | double d2 => exact .refl _
    | double d1 => cases n2 <;> exact .refl _
  case h_2 n lDate =>
    rw [Int.add_comm lDate]
    cases n <;> exact .refl _
  case h_3 n lDate lTime =>
    cases n with
    | long l =>
      change SameResult _ (eval modes env (reduceTimeStampPut (wrap64 (lDate + l)) lTime))
      rw [Int.add_comm lDate]
      exact .refl _
    | double d => exact .refl _
  case h_4 n _ _ _ =>
    rw [reducePlusNum_off hext]
    exact kept .plus (by decide) (by decide) _ _
  case h_5 lDate n => cases n <;> exact .refl _
  case h_6 lDate lTime n => cases n <;> exact .refl _
  case h_7 n _ _ _ =>
    rw [reducePlusNum_off hext]
    exact kept .plus (by decide) (by decide) _ _
  case h_12 s1 s2 => exact reducePlusStrings_same s1 s2
  case h_13 => exact kept .plus (by decide) (by decide) _ _
  all_goals exact .refl _

theorem reduceMinusStrings_same (s1 s2 : Bytes) :
    SameResult (vmMinus (.string s1) (.string s2))
      (eval modes env (reduceMinusStrings modes s1 s2)) := by
  have hvm : vmMinus (.string s1) (.string s2) = if s1 = [] then .ok (.string s2)
      else if s2 = [] then .ok (.string s1) else .ok (.string (trimRight s1 ++ s2 ++
        List.replicate (s1.length - (trimRight s1).length) blank)) := rfl
  unfold reduceMinusStrings
  split_ifs with h2 h1 hmacro
  · rw [hvm, h2]
    by_cases h1 : s1 = []
    · rw [if_pos h1, h1]
      exact .refl _
    · rw [if_neg h1, if_pos rfl]
      exact .refl _
  · rw [hvm, if_pos h1]
    exact .refl _
  · exact kept .minus (by decide) (by decide) (.string s1) (.string s2)
  · rw [hvm, if_neg h1, if_neg h2]
    exact .refl _

theorem reduceDateDiff_same (lDate lTime : Int) :
    SameResult (.ok (dateDiff lDate lTime)) (eval modes env (reduceDateDiff lDate lTime)) := by
  unfold dateDiff reduceDateDiff
  by_cases h : lTime = 0
  · rw [if_neg (not_not_intro h), if_pos h]
    rfl
  · rw [if_pos h, if_neg h]
    rfl

theorem reduceMinus_same (ha : LongFits a) (hb : LongFits b) (hfits : Stays (· - ·) a b) :
    SameResult (eval modes env (.binary .minus a b)) (eval modes env (reduceMinus modes a b)) := by
  rw [eval_binary modes env a b (by decide) (by decide)]
  unfold reduceMinus
  split
  case h_1 n1 n2 =>
    cases n1 with
    | long l1 =>
      cases n2 with
      | long l2 =>
        have hlim := hfits l1 l2 rfl rfl
        rw [subNums_long (ha l1 rfl) (hb l2 rfl) hlim]
        exact .of_eq (vmMinus_long hlim)
      | double d2 => exact .refl _
    | double d1 => cases n2 <;> exact .refl _
  case h_2 d1 d2 => exact reduceDateDiff_same _ _
  case h_3 d1 d2 t2 => exact reduceDateDiff_same _ _
  case h_4 d1 t1 d2 => exact reduceDateDiff_same _ _
  case h_5 d1 t1 d2 t2 => exact reduceDateDiff_same _ _
  case h_6 lDate n => cases n <;> exact .refl _
  case h_9 s1 s2 => exact reduceMinusStrings_same s1 s2
  case h_10 => exact kept .minus (by decide) (by decide) _ _
  all_goals exact .refl _

theorem constant_eval (modes : Modes) (env : String → Item) (h : isConstant pExpr = true) :
    ∃ item, eval modes env pExpr = .ok item ∧ item ≠ .nil := by
  cases pExpr with
  | numeric n => cases n <;> exact ⟨_, rfl, nofun⟩
  | date => exact ⟨_, rfl, nofun⟩
  | timestamp => exact ⟨_, rfl, nofun⟩
  | string => exact ⟨_, rfl, nofun⟩
  | logical => exact ⟨_, rfl, nofun⟩
  | _ => exact nomatch h

theorem reduceCompared_same (hext : modes.extOpt = false) {same : Bool} (hand : op ≠ .and)
    (hor : op ≠ .or) (hleft : ∀ item, item ≠ .nil → op.vm .nil item = ofBool (! same))
    (hright : ∀ item, item ≠ .nil → op.vm item .nil = ofBool (! same)) (a b : HbExpr) :
    SameResult (do let item1 ← eval modes env a; let item2 ← eval modes env b; op.vm item1 item2)
      (eval modes env (reduceCompared modes op same a b)) := by
  unfold reduceCompared
  rw [hext]
  change SameResult _ (eval modes env (if a = .nil ∧ isConstant b ∨ b = .nil ∧ isConstant a then
    .logical (! same) else .binary op a b))
  split_ifs with h
  · rcases h with ⟨rfl, hb⟩ | ⟨rfl, ha⟩
    · obtain ⟨item, heq, hnil⟩ := constant_eval modes env hb
      rw [heq]
      exact .of_eq (hleft item hnil)
    · obtain ⟨item, heq, hnil⟩ := constant_eval modes env ha
      rw [heq]
      exact .of_eq (hright item hnil)
  · exact kept op hand hor a b

theorem reduceNE_same (hext : modes.extOpt = false) :
    SameResult (eval modes env (.binary .ne a b)) (eval modes env (reduceNE modes a b)) := by
  rw [eval_binary modes env a b (by decide) (by decide)]
  unfold reduceNE
  split
  case h_1 b1 b2 => cases b1 <;> cases b2 <;> exact .refl _
  case h_2 s1 s2 =>
    split_ifs with h
    · rw [h.1, h.2]
      exact .refl _
    · exact kept .ne (by decide) (by decide) _ _
  case h_3 n1 n2 =>
    cases n1 <;> cases n2 <;> exact .of_eq (congrArg ofBool decide_not)
  case h_9 =>
    refine reduceCompared_same hext (by decide) (by decide) (fun item hnil => ?_)
      (fun item hnil => ?_) a b
    · exact congrArg ofBool (decide_eq_true hnil)
    · cases item with
      | nil => exact absurd rfl hnil
      | _ => rfl
  all_goals exact .refl _

def equalOp (fExact : Bool) : BinaryOp := if fExact then .exactEqual else .equal

theorem reduceEQ_same (hext : modes.extOpt = false) (fExact : Bool) :
    SameResult (eval modes env (.binary (equalOp fExact) a b))
      (eval modes env (reduceEQ modes fExact a b)) := by
  have hand : equalOp fExact ≠ .and := by cases fExact <;> decide
  have hor : equalOp fExact ≠ .or := by cases fExact <;> decide
  rw [eval_binary modes env a b hand hor]
  unfold reduceEQ
  split
  case h_1 b1 b2 => cases fExact <;> cases b1 <;> cases b2 <;> exact .refl _
  case h_2 s1 s2 =>
    split_ifs with h hexact
    · rcases h with ⟨rfl, rfl⟩ | ⟨rfl, -⟩
      · cases fExact <;> exact .refl _
      · exact .refl _
    · subst hexact
      exact kept .exactEqual hand hor _ _
    · obtain rfl := Bool.eq_false_of_not_eq_true hexact
      exact kept .equal hand hor _ _
  case h_3 n1 n2 => cases fExact <;> cases n1 <;> cases n2 <;> exact .refl _
  case h_9 =>
    refine reduceCompared_same hext hand hor (fun item hnil => ?_) (fun item hnil => ?_) a b
    · cases fExact <;> exact congrArg ofBool (decide_eq_false hnil)
    · cases item with
      | nil => exact absurd rfl hnil
      | _ => cases fExact <;> rfl
  case h_7 d1 t1 d2 =>
    cases fExact with
    | true | false => exact .of_eq (congrArg ofBool (decide_eq_decide.mpr (by simp)))
  case h_8 d1 d2 t2 =>
    cases fExact with
    | true | false => exact .of_eq (congrArg ofBool (decide_eq_decide.mpr (by simp)))
  all_goals cases fExact <;> exact .refl _

theorem reduceOrder_same {order : Order} (hand : op ≠ .and) (hor : op ≠ .or)
    (hop : op.vm = order.vmCompare) :
    SameResult (eval modes env (.binary op a b)) (eval modes env (reduceOrder op order a b)) := by
  rw [eval_binary modes env a b hand hor]
  unfold reduceOrder
  split
  case h_2 n1 n2 =>
    rw [hop]
    cases n1 <;> cases n2 <;> exact .refl _
  case h_7 => exact kept op hand hor _ _
  all_goals
    rw [hop]
    exact .refl _

theorem reduceIN_same (hmode : modes.compiler = false ∨ modes.harbour = true ∨ a ≠ .string []) :
    SameResult (eval modes env (.binary .inString a b)) (eval modes env (reduceIN modes a b)) := by
  rw [eval_binary modes env a b (by decide) (by decide)]
  unfold reduceIN
  split
  case h_1 s1 s2 =>
    split_ifs with h h1
    · subst h1
      have hfalse : ¬ (modes.compiler = true ∧ modes.harbour = false) := by
        rintro ⟨hcompiler, hharbour⟩
        rcases hmode with h' | h' | h'
        · exact absurd (hcompiler.symm.trans h') (by decide)
        · exact absurd (h'.symm.trans hharbour) (by decide)
        · exact h' rfl
      rw [decide_eq_false hfalse]
      exact .refl _
    · exact .refl _
    · exact kept .inString (by decide) (by decide) _ _
  case h_2 => exact kept .inString (by decide) (by decide) _ _

/-- The operand in front of a logical literal is logical, if the literal is taken for decided. -/
def LogicalFirst (modes : Modes) (first : Except VmError Item) (b : HbExpr) : Prop :=
  ∀ value, b = .logical value → modes.shortcuts = true →
    modes.compiler = true ∨ modes.harbour = true → ∃ value1, first = .ok (.logical value1)

def Shortcut (modes : Modes) (env : String → Item) (op : BinaryOp) (decides : Bool) : Prop :=
  ∀ a b, eval modes env (.binary op a b) = (do
    let item1 ← eval modes env a
    if (← popLogical item1) = decides then return item1 else eval modes env b)

theorem eval_and (hshort : modes.shortcuts = true) : Shortcut modes env .and false := by
  intro a b
  rw [eval]
  congr 1
  funext item1
  rw [if_pos ⟨hshort, rfl⟩]
  congr 1
  funext value
  cases value <;> rfl

theorem eval_or (hshort : modes.shortcuts = true) : Shortcut modes env .or true := by
  intro a b
  rw [eval]
  congr 1
  funext item1
  rw [if_neg (by rintro ⟨-, ⟨⟩⟩), if_pos ⟨hshort, rfl⟩]

theorem eval_slow (hshort : modes.shortcuts = false) (a b : HbExpr) :
    eval modes env (.binary op a b) = (do
      let item1 ← eval modes env a
      let item2 ← eval modes env b
      op.vm item1 item2) := by
  rw [eval]
  congr 1
  funext item1
  rw [if_neg (fun h => absurd (hshort.symm.trans h.1) (by decide)),
    if_neg (fun h => absurd (hshort.symm.trans h.1) (by decide))]

theorem reduceShortcut_same {decides : Bool}
    (hfast : modes.shortcuts = true → Shortcut modes env op decides)
    (hslow : ∀ b1 b2, op.vm (.logical b1) (.logical b2) =
      .ok (.logical (if b1 = decides then decides else b2)))
    (hfirst : LogicalFirst modes (eval modes env a) b) :
    SameResult (eval modes env (.binary op a b))
      (eval modes env (reduceShortcut modes op decides a b)) := by
  unfold reduceShortcut
  split
  case h_1 b1 b2 =>
    cases hshort : modes.shortcuts with
    | true =>
      rw [hfast hshort]
      cases b1 <;> cases decides <;> exact .refl _
    | false =>
      rw [eval_slow hshort]
      exact .of_eq (hslow b1 b2)
  case h_2 b1 =>
    split_ifs with hshort hdecides
    · rw [hfast hshort, hdecides]
      exact .of_eq (if_pos rfl)
    · rw [hfast hshort]
      exact .of_eq (if_neg hdecides)
    · exact .refl _
  case h_3 b2 _ =>
    split_ifs with hshort hdecides
    · obtain ⟨value1, heq⟩ := hfirst b2 rfl hshort.1 hshort.2
      rw [hfast hshort.1, heq, hdecides]
      cases value1 <;> cases decides <;> exact .refl _
    · obtain ⟨value1, heq⟩ := hfirst b2 rfl hshort.1 hshort.2
      rw [hfast hshort.1, heq, Bool.eq_not_of_ne hdecides]
      cases value1 <;> cases decides <;> exact .refl _
    · exact .refl _
  case h_4 => exact .refl _

theorem reduceAnd_same (hfirst : LogicalFirst modes (eval modes env a) b) :
    SameResult (eval modes env (.binary .and a b)) (eval modes env (reduceAnd modes a b)) :=
  reduceShortcut_same eval_and (fun b1 _ => by cases b1 <;> rfl) hfirst

theorem reduceOr_same (hfirst : LogicalFirst modes (eval modes env a) b) :
    SameResult (eval modes env (.binary .or a b)) (eval modes env (reduceOr modes a b)) :=
  reduceShortcut_same eval_or (fun b1 _ => by cases b1 <;> rfl) hfirst

theorem reduceNot_same (hext : modes.extOpt = false) :
    SameResult (eval modes env (.not a)) (eval modes env (reduceNot modes a)) := by
  unfold reduceNot
  split
  · exact .refl _
  · rw [hext]
    exact .refl _
  · exact .refl _

theorem reduceIIF_same (pTrue pFalse : HbExpr) :
    SameResult (eval modes env (.iif a pTrue pFalse))
      (eval modes env (reduceIIF a pTrue pFalse)) := by
  cases a with
  | logical b => cases b <;> exact .refl _
  | _ => exact .refl _

end Rules

end Harbour.Compiler.Expr
