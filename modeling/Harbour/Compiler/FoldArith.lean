import Harbour.Compiler.FoldRules

/-!
Trees of integers and arithmetic operators: the literal that the compiler folds them to and what the
virtual machine computes.
-/

namespace Harbour.Compiler.FoldArith

open Vm.Operators Library.Rounding Harbour.Compiler.Expr Rounded

def arithmetic : BinaryOp → Bool
  | .plus | .minus | .mult | .div | .mod => true
  | _ => false

def Arith : HbExpr → Prop
  | .numeric (.long l) => LimLong l
  | .binary op pLeft pRight => arithmetic op = true ∧ Arith pLeft ∧ Arith pRight
  | .negate pExpr => Arith pExpr
  | _ => False

def quotient : HbExpr → Bool
  | .binary op pLeft pRight => op = .div ∨ op = .mod ∨ quotient pLeft ∨ quotient pRight
  | .negate pExpr => quotient pExpr
  | _ => false

inductive LongOp where
  | add (l1 l2 : Int)
  | sub (l1 l2 : Int)
  | mul (l1 l2 : Int)
  | div (l1 l2 : Int)
  | rem (l1 l2 : Int)
  | neg (l : Int)

def LongOp.Defined : LongOp → Prop
  | .add l1 l2 => LimLong (l1 + l2)
  | .sub l1 l2 => LimLong (l1 - l2)
  | .mul l1 l2 => LimLong (l1 * l2)
  | .div l1 l2 => l2 ≠ 0 ∧ ¬ (l1 = -2 ^ 63 ∧ l2 = -1)
  | .rem l1 l2 => l2 ≠ 0 ∧ ¬ (l1 = -2 ^ 63 ∧ l2 = -1)
  | .neg l => LimLong (-l)

def stepOps : BinaryOp → HbExpr → HbExpr → List LongOp
  | .plus, .numeric (.long l1), .numeric (.long l2) =>
    if DblLimLong ((ofInt l1 : MaxDbl).add (ofInt l2)).value then [.add l1 l2]
    else []
  | .minus, .numeric (.long l1), .numeric (.long l2) =>
    if DblLimLong ((ofInt l1 : MaxDbl).sub (ofInt l2)).value then [.sub l1 l2]
    else []
  | .mult, .numeric (.long l1), .numeric (.long l2) =>
    if DblLimLong ((ofInt l1 : MaxDbl).mul (ofInt l2)).value then [.mul l1 l2]
    else []
  | .div, .numeric (.long l1), .numeric (.long l2) =>
    if l2 = 0 then []
    else if l1.tmod l2 = 0 then [.rem l1 l2, .div l1 l2] else [.rem l1 l2]
  | .mod, .numeric (.long l1), .numeric (.long l2) => if l2 = 0 then [] else [.rem l1 l2]
  | _, _, _ => []

def negateOps : HbExpr → List LongOp
  | .numeric (.long l) => if l < -(2 ^ 63 - 1) then [] else [.neg l]
  | _ => []

def longOps (modes : Modes) : HbExpr → List LongOp
  | .binary op pLeft pRight =>
    longOps modes pLeft ++ longOps modes pRight ++
      stepOps op (reduce modes pLeft) (reduce modes pRight)
  | .negate pExpr => longOps modes pExpr ++ negateOps (reduce modes pExpr)
  | _ => []

/-- An integer that is not rounded as a double. -/
def Whole53 (l : Int) : Prop := Representable 53 l

/-- A sum or difference `s` of two integers that is rounded neither by the compiler nor by the
virtual machine, or by both alike. -/
def SumExact (fQuotient : Bool) (l1 l2 s : Int) : Prop :=
  fQuotient = false ∧ LimLong s ∨ Whole53 l1 ∧ Whole53 l2 ∧ (LimLong s → Whole53 s)

/-- What two integers have to meet for the operator to be folded to its value. Operands of a
quotient may be doubles in the virtual machine. -/
def StepExact (fQuotient : Bool) : BinaryOp → Expr.Num → Expr.Num → Prop
  | .plus, .long l1, .long l2 => SumExact fQuotient l1 l2 (l1 + l2)
  | .minus, .long l1, .long l2 => SumExact fQuotient l1 l2 (l1 - l2)
  | .mult, .long l1, .long l2 => fQuotient = false ∧ LimInt l1 ∧ LimInt l2 ∨
      Whole53 l1 ∧ Whole53 l2 ∧ Whole53 (l1 * l2)
  | .div, .long l1, .long l2 => ¬ (l1 = -2 ^ 63 ∧ l2 = -1) ∧
      (l1.tmod l2 = 0 → Whole53 l1 ∧ Whole53 l2 ∧ Whole53 (l1.tdiv l2))
  | .mod, .long l1, .long l2 => ¬ (l1 = -2 ^ 63 ∧ l2 = -1) ∧ Whole53 (l1.tmod l2) ∧
      (fQuotient = true → Whole53 l1 ∧ Whole53 l2)
  | _, _, _ => True

def AllExact (modes : Modes) : HbExpr → Prop
  | .binary op pLeft pRight => AllExact modes pLeft ∧ AllExact modes pRight ∧
      ∀ n1 n2, reduce modes pLeft = .numeric n1 → reduce modes pRight = .numeric n2 →
        StepExact (quotient pLeft || quotient pRight) op n1 n2
  | .negate pExpr => AllExact modes pExpr
  | _ => True

section Kept

def Kept : HbExpr → Prop
  | .binary _ _ _ => True
  | .negate pExpr => Kept pExpr
  | _ => False

def Folded (pExpr : HbExpr) : Prop := (∃ n, pExpr = .numeric n) ∨ Kept pExpr

variable {modes : Modes} {a b pSum : HbExpr} {n : Expr.Num}

theorem reducePlusNums_kept (h : reducePlusNums a n = some pSum) : Kept pSum := by
  unfold reducePlusNums at h
  split at h
  · obtain rfl := Option.some.inj h
    trivial
  · obtain rfl := Option.some.inj h
    trivial
  · obtain ⟨p, -, rfl⟩ := Option.map_eq_some_iff.mp h
    trivial
  · obtain ⟨p, -, rfl⟩ := Option.map_eq_some_iff.mp h
    trivial
  · exact nomatch h

theorem reducePlusNum_kept (hother : Kept a) (hself : Kept b) :
    Kept (reducePlusNum modes n a b) := by
  unfold reducePlusNum
  split_ifs
  · exact hother
  · cases h : reducePlusNums a n with
    | none => exact hself
    | some pSum => exact reducePlusNums_kept h
  · exact hself

theorem reducePlus_kept (ha : Folded a) (hb : Folded b) (h : Kept a ∨ Kept b) :
    Kept (reducePlus modes a b) := by
  rcases ha with ⟨n1, rfl⟩ | ha
  · rcases h with h | h
    · exact h.elim
    · cases b with
      | binary op pLeft pRight | negate pExpr => exact reducePlusNum_kept h trivial
      | _ => exact h.elim
  · rcases hb with ⟨n2, rfl⟩ | hb
    · cases a with
      | binary op pLeft pRight | negate pExpr => exact reducePlusNum_kept ha trivial
      | _ => exact ha.elim
    · cases a with
      | binary op pLeft pRight => cases b <;> trivial
      | negate pExpr => cases b <;> trivial
      | _ => exact ha.elim

theorem reduceBinary_kept {op : BinaryOp} (hop : arithmetic op = true) (ha : Folded a)
    (hb : Folded b) (h : Kept a ∨ Kept b) : Kept (reduceBinary modes op a b) := by
  have hleft : ∀ n1, a = .numeric n1 → Kept b := by
    rintro n1 rfl
    rcases h with h | h
    · exact h.elim
    · exact h
  cases op with
  | plus => exact reducePlus_kept ha hb h
  | minus | mult =>
    rcases ha with ⟨n1, rfl⟩ | ha
    · have hb' := hleft n1 rfl
      cases b <;> trivial
    · cases a <;> first | exact ha.elim | cases b <;> trivial
  | div | mod =>
    rcases ha with ⟨n1, rfl⟩ | ha
    · have hb' := hleft n1 rfl
      cases n1 <;> cases b <;> trivial
    · cases a <;> first | exact ha.elim | cases b <;> trivial
  | _ => exact nomatch hop

theorem reduceBinary_folded {op : BinaryOp} (hop : arithmetic op = true) (n1 n2 : Expr.Num) :
    Folded (reduceBinary modes op (.numeric n1) (.numeric n2)) := by
  cases op with
  | plus => exact .inl ⟨_, rfl⟩
  | minus => exact .inl ⟨_, rfl⟩
  | mult => exact .inl ⟨_, rfl⟩
  | div =>
    change Folded (reduceDiv _ _)
    unfold reduceDiv
    split
    · split_ifs
      · exact .inr trivial
      · exact .inl ⟨_, rfl⟩
      · exact .inl ⟨_, rfl⟩
    · split_ifs
      · exact .inr trivial
      · exact .inl ⟨_, rfl⟩
    · exact .inr trivial
  | mod =>
    change Folded (reduceMod _ _ _)
    unfold reduceMod
    split
    · split_ifs
      · exact .inr trivial
      · exact .inl ⟨_, rfl⟩
    · split_ifs
      · exact .inl ⟨_, rfl⟩
      · exact .inr trivial
    · exact .inr trivial
  | _ => cases hop

theorem reduceNegate_folded (ha : Folded a) : Folded (reduceNegate modes a) := by
  rcases ha with ⟨n, rfl⟩ | ha
  · cases n with
    | long l =>
      change Folded (if _ then _ else _)
      split_ifs
      · exact .inl ⟨_, rfl⟩
      · exact .inl ⟨_, rfl⟩
    | double d => exact .inl ⟨_, rfl⟩
  · cases a with
    | binary op pLeft pRight => exact .inr trivial
    | negate pExpr =>
      change Folded (if _ then _ else _)
      split_ifs
      · exact .inr ha
      · exact .inr ha
    | _ => exact ha.elim

theorem reduce_folded {e : HbExpr} (h : Arith e) (modes : Modes) : Folded (reduce modes e) := by
  induction e with
  | numeric n => exact .inl ⟨n, rfl⟩
  | binary op pLeft pRight ihleft ihright =>
    obtain ⟨hop, hleft, hright⟩ := h
    rcases ihleft hleft with ⟨n1, hn1⟩ | hkept
    · rcases ihright hright with ⟨n2, hn2⟩ | hkept
      · change Folded (reduceBinary modes op (reduce modes pLeft) (reduce modes pRight))
        rw [hn1, hn2]
        exact reduceBinary_folded hop n1 n2
      · exact .inr (reduceBinary_kept hop (ihleft hleft) (.inr hkept) (.inr hkept))
    · exact .inr (reduceBinary_kept hop (.inr hkept) (ihright hright) (.inl hkept))
  | negate pExpr ih => exact reduceNegate_folded (ih h)
  | _ => exact h.elim

theorem operands_of_reduce {op : BinaryOp} {pLeft pRight : HbExpr}
    (h : Arith (.binary op pLeft pRight))
    (hn : reduce modes (.binary op pLeft pRight) = .numeric n) :
    ∃ n1 n2, reduce modes pLeft = .numeric n1 ∧ reduce modes pRight = .numeric n2 := by
  obtain ⟨hop, hleft, hright⟩ := h
  have hnot : ¬ Kept (reduce modes (.binary op pLeft pRight)) := by
    rw [hn]
    exact id
  rcases reduce_folded hleft modes with ⟨n1, hn1⟩ | hkept
  · rcases reduce_folded hright modes with ⟨n2, hn2⟩ | hkept
    · exact ⟨n1, n2, hn1, hn2⟩
    · exact absurd (reduceBinary_kept hop (.inl ⟨n1, hn1⟩) (.inr hkept) (.inr hkept)) hnot
  · exact absurd (reduceBinary_kept hop (.inr hkept) (reduce_folded hright modes) (.inl hkept)) hnot

theorem operand_of_reduce {pExpr : HbExpr} (h : Arith pExpr)
    (hn : reduce modes (.negate pExpr) = .numeric n) : ∃ m, reduce modes pExpr = .numeric m := by
  rcases reduce_folded h modes with hliteral | hkept
  · exact hliteral
  · change reduceNegate modes (reduce modes pExpr) = _ at hn
    cases hexpr : reduce modes pExpr with
    | binary op pLeft pRight =>
      rw [hexpr] at hn
      exact nomatch hn
    | negate p =>
      rw [hexpr] at hn hkept
      change (if _ then _ else _) = _ at hn
      split_ifs at hn
      · rw [hn] at hkept
        exact hkept.elim
    | _ =>
      rw [hexpr] at hkept
      exact hkept.elim

end Kept

end Harbour.Compiler.FoldArith
