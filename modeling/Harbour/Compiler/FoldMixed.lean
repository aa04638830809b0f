import Harbour.Compiler.FoldRules

/-!
Expressions over dates, timestamps, logical values, NIL, strings and integers: their reduction and
what the virtual machine makes of them unreduced.
-/

namespace Harbour.Compiler.Expr

open Vm.Operators Library.Rounding

/-- Expressions over literals other than decimals, without the operators that are numeric only;
without macros in its strings. -/
def Mixed (modes : Modes) : HbExpr → Prop
  | .numeric (.long l) => LimLong l
  | .string s => modes.macroText = true → hasMacro modes.harbour s = false
  | .binary op pLeft pRight =>
    op ≠ .mult ∧ op ≠ .div ∧ op ≠ .mod ∧ Mixed modes pLeft ∧ Mixed modes pRight
  | .not pExpr => Mixed modes pExpr
  | .iif pCond pTrue pFalse => Mixed modes pCond ∧ Mixed modes pTrue ∧ Mixed modes pFalse
  | .numeric (.double _) | .negate _ | .var _ => False
  | _ => True

/-- What an operator has to meet for its reduction to be what it computes. -/
def Agrees (modes : Modes) (env : String → Item) : BinaryOp → HbExpr → HbExpr → Prop
  | .plus, pLeft, pRight => Stays (· + ·) (reduce modes pLeft) (reduce modes pRight)
  | .minus, pLeft, pRight => Stays (· - ·) (reduce modes pLeft) (reduce modes pRight)
  | .inString, pLeft, _ =>
    modes.compiler = false ∨ modes.harbour = true ∨ reduce modes pLeft ≠ .string []
  | .and, pLeft, pRight => LogicalFirst modes (eval modes env pLeft) (reduce modes pRight)
  | .or, pLeft, pRight => LogicalFirst modes (eval modes env pLeft) (reduce modes pRight)
  | _, _, _ => True

def AllAgree (modes : Modes) (env : String → Item) : HbExpr → Prop
  | .binary op pLeft pRight =>
    Agrees modes env op pLeft pRight ∧ AllAgree modes env pLeft ∧ AllAgree modes env pRight
  | .not pExpr => AllAgree modes env pExpr
  | .iif pCond pTrue pFalse =>
    AllAgree modes env pCond ∧ AllAgree modes env pTrue ∧ AllAgree modes env pFalse
  | _ => True

section Reduce

variable {modes : Modes} {env : String → Item} {item item1 item2 : Item} {f : Bool} {n : Int}

theorem putNumIntRaw_fits {m : Int} (h : putNumIntRaw (wrap64 m) = .numInt f n) : LimLong n := by
  obtain ⟨-, rfl⟩ := Item.numInt.inj h
  exact wrap64_lim m

theorem vmPlus_fits (h : vmPlus item1 item2 = .ok (.numInt f n)) : LimLong n := by
  unfold vmPlus at h
  split at h
  case h_1 =>
    dsimp only at h
    split_ifs at h <;> first
      | exact putNumIntRaw_fits (Except.ok.inj h)
      | cases h
  case h_5 => split_ifs at h <;> cases h
  all_goals cases h

theorem dateDiff_fits {m lTime : Int} (h : dateDiff (wrap64 m) lTime = .numInt f n) :
    LimLong n := by
  unfold dateDiff at h
  split_ifs at h
  obtain ⟨-, rfl⟩ := Item.numInt.inj h
  exact wrap64_lim m

theorem vmMinus_fits (h : vmMinus item1 item2 = .ok (.numInt f n)) : LimLong n := by
  unfold vmMinus at h
  split at h
  case h_1 =>
    dsimp only at h
    split_ifs at h <;> first
      | exact putNumIntRaw_fits (Except.ok.inj h)
      | cases h
  case h_5 => exact dateDiff_fits (Except.ok.inj h)
  case h_6 => exact dateDiff_fits (Except.ok.inj h)
  case h_7 => exact dateDiff_fits (Except.ok.inj h)
  case h_8 => exact dateDiff_fits (Except.ok.inj h)
  case h_13 => split_ifs at h <;> cases h
  all_goals cases h

theorem vm_fits {op : BinaryOp} (hmult : op ≠ .mult) (hdiv : op ≠ .div) (hmod : op ≠ .mod)
    (h : op.vm item1 item2 = .ok (.numInt f n)) : LimLong n := by
  cases op with
  | plus => exact vmPlus_fits h
  | minus => exact vmMinus_fits h
  | mult => exact absurd rfl hmult
  | div => exact absurd rfl hdiv
  | mod => exact absurd rfl hmod
  | _ => cases item1 <;> cases item2 <;> cases h

theorem eval_fits {e : HbExpr} (hmixed : Mixed modes e) {f : Bool} {n : Int}
    (h : eval modes env e = .ok (.numInt f n)) : LimLong n := by
  induction e generalizing f n with
  | numeric m =>
    cases m with
    | long l =>
      obtain ⟨-, rfl⟩ := Item.numInt.inj (Except.ok.inj h)
      exact hmixed
    | double d => exact hmixed.elim
  | var name => exact hmixed.elim
  | negate pExpr => exact hmixed.elim
  | binary op pLeft pRight ihleft ihright =>
    obtain ⟨hmult, hdiv, hmod, hleft, hright⟩ := hmixed
    rw [eval] at h
    cases hfirst : eval modes env pLeft with
    | error err =>
      rw [hfirst] at h
      cases h
    | ok item1 =>
      rw [hfirst] at h
      change (if _ then _ else _) = _ at h
      split_ifs at h
      · cases hpop : popLogical item1 with
        | error err =>
          rw [hpop] at h
          cases h
        | ok b =>
          rw [hpop] at h
          cases b with
          | true => exact ihright hright h
          | false => exact ihleft hleft (hfirst.trans h)
      · cases hpop : popLogical item1 with
        | error err =>
          rw [hpop] at h
          cases h
        | ok b =>
          rw [hpop] at h
          cases b with
          | true => exact ihleft hleft (hfirst.trans h)
          | false => exact ihright hright h
      · cases hsecond : eval modes env pRight with
        | error err =>
          rw [hsecond] at h
          cases h
        | ok item2 =>
          rw [hsecond] at h
          exact vm_fits hmult hdiv hmod h
  | not pExpr ih =>
    rw [eval] at h
    cases hexpr : eval modes env pExpr with
    | error err =>
      rw [hexpr] at h
      cases h
    | ok item =>
      rw [hexpr] at h
      cases item <;> cases h
  | iif pCond pTrue pFalse ihcond ihtrue ihfalse =>
    obtain ⟨-, htrue, hfalse⟩ := hmixed
    rw [eval] at h
    cases hcond : eval modes env pCond with
    | error err =>
      rw [hcond] at h
      cases h
    | ok item =>
      rw [hcond] at h
      cases item with
      | logical b =>
        cases b with
        | true => exact ihtrue htrue h
        | false => exact ihfalse hfalse h
      | _ => cases h
  | _ => cases h

theorem longFits_of_same {e e' : HbExpr} (hmixed : Mixed modes e)
    (h : SameResult (eval modes env e) (eval modes env e')) : LongFits e' := by
  rintro l rfl
  cases heval : eval modes env e with
  | error err =>
    rw [heval] at h
    exact h.elim
  | ok item =>
    rw [heval] at h
    rcases same_iff.mp h with rfl | ⟨f1, f2, n, rfl, heq⟩
    · exact eval_fits hmixed heval
    · obtain ⟨-, rfl⟩ := Item.numInt.inj heq
      exact eval_fits hmixed heval

theorem LogicalFirst.of_same {r1 r2 : Except VmError Item} {b : HbExpr}
    (hfirst : LogicalFirst modes r1 b) (h : SameResult r1 r2) : LogicalFirst modes r2 b := by
  intro value heq hshort hmode
  obtain ⟨value1, rfl⟩ := hfirst value heq hshort hmode
  cases r2 with
  | error err => exact h.elim
  | ok item => exact ⟨value1, congrArg Except.ok (h : Item.logical value1 = item).symm⟩

theorem reduce_same (hext : modes.extOpt = false) {e : HbExpr} (hmixed : Mixed modes e)
    (hagree : AllAgree modes env e) :
    SameResult (eval modes env e) (eval modes env (reduce modes e)) := by
  induction e with
  | binary op pLeft pRight ihleft ihright =>
    obtain ⟨hmult, hdiv, hmod, hleft, hright⟩ := hmixed
    obtain ⟨hagrees, hagreeLeft, hagreeRight⟩ := hagree
    have hsameLeft := ihleft hleft hagreeLeft
    have hsameRight := ihright hright hagreeRight
    have hfitsLeft := longFits_of_same hleft hsameLeft
    have hfitsRight := longFits_of_same hright hsameRight
    refine (eval_binary_same hmult hsameLeft hsameRight).trans ?_
    cases op with
    | plus => exact reducePlus_same hext hfitsLeft hfitsRight hagrees
    | minus => exact reduceMinus_same hfitsLeft hfitsRight hagrees
    | mult => exact absurd rfl hmult
    | div => exact absurd rfl hdiv
    | mod => exact absurd rfl hmod
    | equal => exact reduceEQ_same hext false
    | exactEqual => exact reduceEQ_same hext true
    | ne => exact reduceNE_same hext
    | lt | le | gt | ge => exact reduceOrder_same (by decide) (by decide) rfl
    | inString => exact reduceIN_same hagrees
    | and => exact reduceAnd_same (hagrees.of_same hsameLeft)
    | or => exact reduceOr_same (hagrees.of_same hsameLeft)
  | negate pExpr => exact hmixed.elim
  | not pExpr ih => exact (eval_not_same (ih hmixed hagree)).trans (reduceNot_same hext)
  | iif pCond pTrue pFalse ihcond ihtrue ihfalse =>
    obtain ⟨hcond, htrue, hfalse⟩ := hmixed
    obtain ⟨hagreeCond, hagreeTrue, hagreeFalse⟩ := hagree
    exact (eval_iif_same (ihcond hcond hagreeCond) (ihtrue htrue hagreeTrue)
      (ihfalse hfalse hagreeFalse)).trans (reduceIIF_same _ _)
  | _ => exact .refl _

end Reduce

def plainModes : Modes := ⟨true, true, false, true, true⟩

def dueTree : HbExpr :=
  .binary .and (.binary .le (.binary .plus (.date 2460000) (.numeric (.long 5))) (.date 2460010))
    (.logical true)

def numberTree : HbExpr := .binary .and (.numeric (.long 5)) (.logical true)

end Harbour.Compiler.Expr
