import Harbour.Compiler.FoldExact

/-!
Whole trees of integers: what is folded is what the virtual machine computes, and no operation of
the compiler on the way is undefined.
-/

namespace Harbour.Compiler.FoldArith

open Vm.Operators Library.Rounding Harbour.Compiler.Expr List

section Trees

variable {modes : Modes} {env : String → Item} {fQuotient : Bool} {n n1 n2 : Expr.Num}
  {item1 item2 : Item}

theorem step_computes {op : BinaryOp} (hop : arithmetic op = true)
    (h1 : Computes fQuotient n1 item1) (h2 : Computes fQuotient n2 item2)
    (hexact : StepExact fQuotient op n1 n2)
    (hn : reduceBinary modes op (.numeric n1) (.numeric n2) = .numeric n) :
    ∃ item, op.vm item1 item2 = .ok item ∧
      Computes (op = .div ∨ op = .mod ∨ fQuotient) n item := by
  cases op with
  | plus =>
    obtain rfl := HbExpr.numeric.inj hn
    obtain ⟨item, heq, h⟩ := plus_computes h1 h2 hexact
    exact ⟨item, heq, h.mono fun hquot => decide_eq_true (.inr (.inr hquot))⟩
  | minus =>
    obtain rfl := HbExpr.numeric.inj hn
    obtain ⟨item, heq, h⟩ := minus_computes h1 h2 hexact
    exact ⟨item, heq, h.mono fun hquot => decide_eq_true (.inr (.inr hquot))⟩
  | mult =>
    obtain rfl := HbExpr.numeric.inj hn
    obtain ⟨item, heq, h⟩ := mult_computes h1 h2 hexact
    exact ⟨item, heq, h.mono fun hquot => decide_eq_true (.inr (.inr hquot))⟩
  | div =>
    obtain ⟨item, heq, h⟩ := div_computes h1 h2 hexact hn
    exact ⟨item, heq, h.mono fun _ => decide_eq_true (.inl rfl)⟩
  | mod =>
    obtain ⟨item, heq, h⟩ := mod_computes h1 h2 hexact hn
    exact ⟨item, heq, h.mono fun _ => decide_eq_true (.inr (.inl rfl))⟩
  | _ => exact nomatch hop

theorem reduce_computes {e : HbExpr} (harith : Arith e) (hexact : AllExact modes e)
    (hn : reduce modes e = .numeric n) :
    ∃ item, eval modes env e = .ok item ∧ Computes (quotient e) n item := by
  induction e generalizing n with
  | numeric m =>
    obtain rfl := HbExpr.numeric.inj hn
    cases m with
    | long l => exact ⟨_, rfl, .raw harith⟩
    | double d => exact harith.elim
  | binary op pLeft pRight ihleft ihright =>
    obtain ⟨n1, n2, hn1, hn2⟩ := operands_of_reduce harith hn
    obtain ⟨hop, hleft, hright⟩ := harith
    obtain ⟨hexactLeft, hexactRight, hstep⟩ := hexact
    obtain ⟨item1, heq1, h1⟩ := ihleft hleft hexactLeft hn1
    obtain ⟨item2, heq2, h2⟩ := ihright hright hexactRight hn2
    have hand : op ≠ .and := by
      rintro rfl
      exact nomatch hop
    have hor : op ≠ .or := by
      rintro rfl
      exact nomatch hop
    change reduceBinary modes op (reduce modes pLeft) (reduce modes pRight) = _ at hn
    rw [hn1, hn2] at hn
    obtain ⟨item, heq, h⟩ := step_computes hop
      (h1.mono fun hquot => (Bool.or_eq_true _ _).mpr (.inl hquot))
      (h2.mono fun hquot => (Bool.or_eq_true _ _).mpr (.inr hquot)) (hstep n1 n2 hn1 hn2) hn
    refine ⟨item, ?_, h.mono fun hquot => ?_⟩
    · rw [eval_binary modes env pLeft pRight hand hor, heq1, heq2]
      exact heq
    · rcases of_decide_eq_true hquot with hdiv | hmod | hquot
      · exact decide_eq_true (.inl hdiv)
      · exact decide_eq_true (.inr (.inl hmod))
      · exact decide_eq_true (.inr (.inr ((Bool.or_eq_true _ _).mp hquot)))
  | negate pExpr ih =>
    have harith' : Arith pExpr := harith
    obtain ⟨m, hm⟩ := operand_of_reduce harith' hn
    obtain ⟨item, heq, h⟩ := ih harith hexact hm
    change reduceNegate modes (reduce modes pExpr) = _ at hn
    rw [hm] at hn
    obtain ⟨item', heq', h'⟩ := negate_computes h hn
    refine ⟨item', ?_, h'⟩
    rw [eval, heq]
    exact heq'
  | _ => exact harith.elim

theorem stepOps_defined {op : BinaryOp} (h1 : Computes fQuotient n1 item1)
    (h2 : Computes fQuotient n2 item2) (hexact : StepExact fQuotient op n1 n2) :
    ∀ o ∈ stepOps op (.numeric n1) (.numeric n2), o.Defined := by
  cases n1 with
  | double d1 => cases op <;> exact fun o ho => nomatch ho
  | long l1 =>
    cases n2 with
    | double d2 => cases op <;> exact fun o ho => nomatch ho
    | long l2 =>
      cases op with
      | plus =>
        intro o ho
        change o ∈ (if _ then _ else _) at ho
        rw [maxDbl_add h1.lim h2.lim] at ho
        split_ifs at ho with hlim
        · obtain rfl := mem_singleton.mp ho
          exact dblLimLong_intCast.mp hlim
        · exact nomatch ho
      | minus =>
        intro o ho
        change o ∈ (if _ then _ else _) at ho
        rw [maxDbl_sub h1.lim h2.lim] at ho
        split_ifs at ho with hlim
        · obtain rfl := mem_singleton.mp ho
          exact dblLimLong_intCast.mp hlim
        · exact nomatch ho
      | mult =>
        intro o ho
        change o ∈ (if _ then _ else _) at ho
        rw [maxDbl_mul h1.lim h2.lim (hexact.imp And.right fun h => h.2.2)] at ho
        split_ifs at ho with hlim
        · obtain rfl := mem_singleton.mp ho
          exact dblLimLong_intCast.mp hlim
        · exact nomatch ho
      | div =>
        intro o ho
        change o ∈ (if _ then _ else if _ then _ else _) at ho
        split_ifs at ho with hzero hmod
        · exact nomatch ho
        · rcases mem_pair.mp ho with rfl | rfl
          · exact ⟨hzero, hexact.1⟩
          · exact ⟨hzero, hexact.1⟩
        · obtain rfl := mem_singleton.mp ho
          exact ⟨hzero, hexact.1⟩
      | mod =>
        intro o ho
        change o ∈ (if _ then _ else _) at ho
        split_ifs at ho with hzero
        · exact nomatch ho
        · obtain rfl := mem_singleton.mp ho
          exact ⟨hzero, hexact.1⟩
      | _ => exact fun o ho => nomatch ho

theorem negateOps_defined (h : Computes fQuotient n item1) :
    ∀ o ∈ negateOps (.numeric n), o.Defined := by
  cases n with
  | double d => exact fun o ho => nomatch ho
  | long l =>
    intro o ho
    have hlim := h.lim
    change o ∈ (if _ then _ else _) at ho
    split_ifs at ho with hlow
    · exact nomatch ho
    · obtain rfl := mem_singleton.mp ho
      unfold LimLong at hlim
      exact ⟨by omega, by omega⟩

theorem longOps_defined {e : HbExpr} (harith : Arith e) (hexact : AllExact modes e)
    (hn : reduce modes e = .numeric n) : ∀ o ∈ longOps modes e, o.Defined := by
  induction e generalizing n with
  | binary op pLeft pRight ihleft ihright =>
    obtain ⟨n1, n2, hn1, hn2⟩ := operands_of_reduce harith hn
    obtain ⟨hop, hleft, hright⟩ := harith
    obtain ⟨hexactLeft, hexactRight, hstep⟩ := hexact
    obtain ⟨item1, -, h1⟩ := @reduce_computes modes (fun _ => .nil) n1 _ hleft hexactLeft hn1
    obtain ⟨item2, -, h2⟩ := @reduce_computes modes (fun _ => .nil) n2 _ hright hexactRight hn2
    intro o ho
    rcases mem_append.mp ho with ho | ho
    · rcases mem_append.mp ho with ho | ho
      · exact ihleft hleft hexactLeft hn1 o ho
      · exact ihright hright hexactRight hn2 o ho
    · rw [hn1, hn2] at ho
      exact stepOps_defined (h1.mono fun hquot => (Bool.or_eq_true _ _).mpr (.inl hquot))
        (h2.mono fun hquot => (Bool.or_eq_true _ _).mpr (.inr hquot)) (hstep n1 n2 hn1 hn2) o ho
  | negate pExpr ih =>
    have harith' : Arith pExpr := harith
    obtain ⟨m, hm⟩ := operand_of_reduce harith' hn
    obtain ⟨item, -, h⟩ := @reduce_computes modes (fun _ => .nil) m _ harith' hexact hm
    intro o ho
    rcases mem_append.mp ho with ho | ho
    · exact ih harith hexact hm o ho
    · rw [hm] at ho
      exact negateOps_defined h o ho
  | _ => exact fun o ho => nomatch ho

/-- A tree of exact operators is folded without undefined operations, to the number that the virtual
machine computes: of the same kind, or an integer for the double of a quotient. -/
theorem reduce_arith (modes : Modes) (env : String → Item) (e : HbExpr) (n : Expr.Num)
    (harith : Arith e) (hexact : AllExact modes e) (hn : reduce modes e = .numeric n) :
    (∀ o ∈ longOps modes e, o.Defined) ∧ ∃ item, eval modes env e = .ok item ∧
      item.total = n.item.total ∧ (item.rank = n.item.rank ∨
        quotient e = true ∧ n.item.rank = 0 ∧ item.rank = 1) := by
  obtain ⟨item, heq, h⟩ := @reduce_computes modes env n e harith hexact hn
  refine ⟨longOps_defined harith hexact hn, item, heq, ?_⟩
  cases h with
  | long _ _ => exact ⟨rfl, .inl rfl⟩
  | divided hquotient _ hvalue => exact ⟨hvalue, .inr ⟨hquotient, rfl, rfl⟩⟩
  | double d => exact ⟨rfl, .inl rfl⟩

def remainderTree : HbExpr :=
  .binary .plus
    (.binary .mult (.binary .minus (.numeric (.long 7)) (.numeric (.long 2))) (.numeric (.long 3)))
    (.binary .mod (.numeric (.long 20)) (.numeric (.long 6)))

theorem whole53_small {l : Int} (h : |l| ≤ 2 ^ 53) : Whole53 l :=
  representable_intCast h (by decide)

def startModes : Modes := ⟨true, true, true, true, true⟩

theorem reduce_arith_remainder :
    (∀ o ∈ longOps startModes remainderTree, o.Defined) ∧
      ∃ item, eval startModes (fun _ => .nil) remainderTree = .ok item ∧
        item.total = (Expr.Num.long 17).item.total ∧ (item.rank = (Expr.Num.long 17).item.rank ∨
          quotient remainderTree = true ∧ (Expr.Num.long 17).item.rank = 0 ∧ item.rank = 1) := by
  have hfive : subNums (.long 7) (.long 2) = .long 5 :=
    subNums_long (by decide) (by decide) (by decide)
  have hfifteen : multNums (.long 5) (.long 3) = .long 15 :=
    (limited_whole (maxDbl_mul (by decide) (by decide) (.inl (by decide)))).trans
      (if_pos (by decide))
  have hsum : addNums (.long 15) (.long 2) = .long 17 :=
    addNums_long (by decide) (by decide) (by decide)
  have hminus : reduce startModes (.binary .minus (.numeric (.long 7)) (.numeric (.long 2))) =
      .numeric (.long 5) := congrArg HbExpr.numeric hfive
  have hmult : reduce startModes (.binary .mult
      (.binary .minus (.numeric (.long 7)) (.numeric (.long 2))) (.numeric (.long 3))) =
      .numeric (.long 15) := by
    rw [reduce, hminus]
    exact congrArg HbExpr.numeric hfifteen
  have hmod : reduce startModes (.binary .mod (.numeric (.long 20)) (.numeric (.long 6))) =
      .numeric (.long 2) := rfl
  refine reduce_arith startModes _ remainderTree (.long 17) ?_ ?_ ?_
  · exact ⟨rfl, ⟨rfl, ⟨rfl, ⟨by decide, by decide⟩, by decide, by decide⟩, by decide, by decide⟩,
      rfl, ⟨by decide, by decide⟩, by decide, by decide⟩
  · refine ⟨⟨⟨trivial, trivial, fun n1 n2 h1 h2 => ?_⟩, trivial, fun n1 n2 h1 h2 => ?_⟩,
      ⟨trivial, trivial, fun n1 n2 h1 h2 => ?_⟩, fun n1 n2 h1 h2 => ?_⟩
    · obtain rfl := HbExpr.numeric.inj h1
      obtain rfl := HbExpr.numeric.inj h2
      exact .inl ⟨rfl, by decide⟩
    · obtain rfl := HbExpr.numeric.inj (hminus.symm.trans h1)
      obtain rfl := HbExpr.numeric.inj h2
      exact .inl ⟨rfl, by decide, by decide⟩
    · obtain rfl := HbExpr.numeric.inj h1
      obtain rfl := HbExpr.numeric.inj h2
      exact ⟨by decide, whole53_small (by decide), fun h => nomatch h⟩
    · obtain rfl := HbExpr.numeric.inj (hmult.symm.trans h1)
      obtain rfl := HbExpr.numeric.inj (hmod.symm.trans h2)
      exact .inr ⟨whole53_small (by decide), whole53_small (by decide),
        fun _ => whole53_small (by decide)⟩
  · rw [remainderTree, reduce, hmult, hmod]
    exact congrArg HbExpr.numeric hsum

def quotientTree : HbExpr := .binary .div (.numeric (.long 6)) (.numeric (.long 3))

/-- A quotient of integers is folded to an integer, but computed as a double. -/
theorem reduce_arith_quotient : ¬ ∀ (modes : Modes) (env : String → Item)
    (e : HbExpr) (n : Expr.Num),
    Arith e → reduce modes e = .numeric n →
    (∀ o ∈ longOps modes e, o.Defined) ∧ ∃ item, eval modes env e = .ok item ∧
      item.total = n.item.total ∧ item.rank = n.item.rank := by
  intro h
  obtain ⟨-, item, heq, -, hrank⟩ := h startModes (fun _ => .nil) quotientTree
    (.long 2) ⟨rfl, ⟨by decide, by decide⟩, by decide, by decide⟩ rfl
  obtain rfl := Except.ok.inj heq
  cases hrank

end Trees

end Harbour.Compiler.FoldArith
