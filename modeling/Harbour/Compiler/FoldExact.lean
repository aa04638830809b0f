import Harbour.Compiler.FoldArith

/-!
The literals that integers are folded to are what the virtual machine computes, where both are
exact.
-/

namespace Harbour.Compiler.FoldArith

open Vm.Operators Library.Rounding Harbour.Compiler.Expr Rounded

def Stored (fLong : Bool) (n : Int) : Prop :=
  if fLong then ¬ LimInt n ∨ n = -2 ^ 31 else LimInt n

/-- The literal is the item's number; below a quotient the item may be a double of an integer. -/
inductive Computes (fQuotient : Bool) : Expr.Num → Item → Prop
  | long {l : Int} {fLong : Bool} (hlim : LimLong l) (hstored : Stored fLong l) :
      Computes fQuotient (.long l) (.numInt fLong l)
  | divided {l : Int} {d : Double} (hquotient : fQuotient = true) (hlim : LimLong l)
      (hvalue : d.value = l) : Computes fQuotient (.long l) (.double d)
  | double (d : Double) : Computes fQuotient (.double d) (.double d)

def itemDbl : Item → Double
  | .numInt _ n => ofInt n
  | .double d => d
  | _ => ofInt 0

structure AsDoubles (item1 item2 : Item) : Prop where
  plus : vmPlus item1 item2 = .ok (.double ((itemDbl item1).add (itemDbl item2)))
  minus : vmMinus item1 item2 = .ok (.double ((itemDbl item1).sub (itemDbl item2)))
  mult : vmMult item1 item2 = .ok (.double ((itemDbl item1).mul (itemDbl item2)))
  divide : vmDivide item1 item2 = divideDbl (itemDbl item1) (itemDbl item2)
  modulus : vmModulus item1 item2 = modulusDbl (itemDbl item1) (itemDbl item2)

section Computes

variable {fQuotient f' : Bool} {n n1 n2 : Expr.Num} {item item1 item2 : Item} {l : Int} {d : Double}

theorem stored_putNumIntRaw (n : Int) : Stored (¬ LimInt n) n := by
  unfold Stored
  split_ifs with h
  · exact .inl (of_decide_eq_true h)
  · exact not_not.mp fun hnot => h (decide_eq_true hnot)

theorem ofInt_of_value (h : d.value = l) : ofInt l = d := by
  refine ext ?_
  rw [h]
  exact round_value (h ▸ d.representable)

theorem Computes.lim (h : Computes fQuotient (.long l) item) : LimLong l := by
  cases h with
  | long hlim _ => exact hlim
  | divided _ hlim _ => exact hlim

theorem Computes.dbl (h : Computes fQuotient n item) : itemDbl item = n.dbl := by
  cases h with
  | long _ _ => rfl
  | divided _ _ hvalue => exact (ofInt_of_value hvalue).symm
  | double d => rfl

theorem Computes.mono (h : Computes fQuotient n item) (hle : fQuotient = true → f' = true) :
    Computes f' n item := by
  cases h with
  | long hlim hstored => exact .long hlim hstored
  | divided hquotient hlim hvalue => exact .divided (hle hquotient) hlim hvalue
  | double d => exact .double d

theorem Computes.raw (h : LimLong l) : Computes fQuotient (.long l) (putNumIntRaw l) :=
  .long h (stored_putNumIntRaw l)

theorem asDoubles_left (d1 : Double) (fLong : Bool) (n : Int) :
    AsDoubles (.double d1) (.numInt fLong n) := ⟨rfl, rfl, rfl, rfl, rfl⟩

theorem asDoubles_right (fLong : Bool) (n : Int) (d2 : Double) :
    AsDoubles (.numInt fLong n) (.double d2) := by
  refine ⟨rfl, rfl, ?_, rfl, rfl⟩
  cases fLong with
  | false => rfl
  | true => rfl

theorem asDoubles (d1 d2 : Double) : AsDoubles (.double d1) (.double d2) :=
  ⟨rfl, rfl, rfl, rfl, rfl⟩

section

variable (h1 : Computes fQuotient n1 item1) (h2 : Computes fQuotient n2 item2)

include h1 h2

theorem Computes.kinds :
    (∃ f1 f2 l1 l2, item1 = .numInt f1 l1 ∧ item2 = .numInt f2 l2 ∧ n1 = .long l1 ∧ n2 = .long l2 ∧
      Stored f1 l1 ∧ Stored f2 l2) ∨
    AsDoubles item1 item2 ∧ ∀ l1 l2, n1 = .long l1 → n2 = .long l2 → fQuotient = true := by
  cases h1 with
  | @long l1 f1 _ hstored1 =>
    cases h2 with
    | @long l2 f2 _ hstored2 =>
      exact .inl ⟨f1, f2, l1, l2, rfl, rfl, rfl, rfl, hstored1, hstored2⟩
    | divided hquotient _ _ => exact .inr ⟨asDoubles_right _ _ _, fun _ _ _ _ => hquotient⟩
    | double d2 => exact .inr ⟨asDoubles_right _ _ _, fun _ _ _ h => nomatch h⟩
  | divided hquotient _ _ =>
    cases h2 with
    | long _ _ => exact .inr ⟨asDoubles_left _ _ _, fun _ _ _ _ => hquotient⟩
    | divided _ _ _ | double d2 => exact .inr ⟨asDoubles _ _, fun _ _ _ _ => hquotient⟩
  | double d1 =>
    cases h2 with
    | long _ _ => exact .inr ⟨asDoubles_left _ _ _, fun _ _ h _ => nomatch h⟩
    | divided _ _ _ | double d2 => exact .inr ⟨asDoubles _ _, fun _ _ h _ => nomatch h⟩

theorem Computes.asDoubles (h : ∀ l1 l2, n1 = .long l1 → n2 ≠ .long l2) :
    AsDoubles item1 item2 := by
  rcases h1.kinds h2 with ⟨f1, f2, l1, l2, -, -, heq1, heq2, -, -⟩ | ⟨has, -⟩
  · exact absurd heq2 (h l1 l2 heq1)
  · exact has

end

end Computes

variable {dVal : MaxDbl} {d d1 d2 : Double} {modes : Modes}

section Sums

variable {fQuotient : Bool} {item1 item2 : Item} {l1 l2 s : Int}

theorem ofInt_whole (h : Whole53 s) : (ofInt s : Double).value = s := round_value h

theorem limited_computes {item : Item} (hval : dVal.value = s)
    (hlong : LimLong s → Computes fQuotient (.long s) item)
    (hdouble : ¬ LimLong s → item = .double (ofInt s)) :
    Computes fQuotient (limited dVal s) item := by
  rw [limited_whole hval]
  split_ifs with h
  · exact hlong h
  · rw [hdouble h]
    exact .double _

theorem long_computes {vm : Item → Item → Except VmError Item} {combine : Double → Double → Double}
    (h1 : Computes fQuotient (.long l1) item1) (h2 : Computes fQuotient (.long l2) item2)
    (hval : dVal.value = s) (hexact : SumExact fQuotient l1 l2 s)
    (hcombine : Whole53 l1 → Whole53 l2 → combine (ofInt l1) (ofInt l2) = ofInt s)
    (hlong : ∀ f1 f2, Stored f1 l1 → Stored f2 l2 → vm (.numInt f1 l1) (.numInt f2 l2) =
      .ok (if LimLong s then putNumIntRaw s
        else .double (combine (ofInt l1) (ofInt l2)))) (hdouble : AsDoubles item1 item2 →
      vm item1 item2 = .ok (.double (combine (itemDbl item1) (itemDbl item2)))) :
    ∃ item, vm item1 item2 = .ok item ∧ Computes fQuotient (limited dVal s) item := by
  rcases h1.kinds h2 with ⟨f1, f2, _, _, rfl, rfl, heq1, heq2, hstored1, hstored2⟩ | ⟨has, hquot⟩
  · obtain rfl := Expr.Num.long.inj heq1
    obtain rfl := Expr.Num.long.inj heq2
    refine ⟨_, hlong f1 f2 hstored1 hstored2, limited_computes hval (fun hlim => ?_) fun hlim => ?_⟩
    · rw [if_pos hlim]
      exact .raw hlim
    · rw [if_neg hlim]
      rcases hexact with ⟨-, hlim'⟩ | ⟨hwhole1, hwhole2, -⟩
      · exact absurd hlim' hlim
      · rw [hcombine hwhole1 hwhole2]
  · have hquotient := hquot l1 l2 rfl rfl
    rcases hexact with ⟨hnot, -⟩ | ⟨hwhole1, hwhole2, hwhole⟩
    · exact absurd (hquotient.symm.trans hnot) (by decide)
    · have heq : combine (itemDbl item1) (itemDbl item2) = ofInt s := by
        rw [h1.dbl, h2.dbl]
        exact hcombine hwhole1 hwhole2
      refine ⟨_, hdouble has, limited_computes hval (fun hlim => ?_) fun _ => ?_⟩
      · exact .divided hquotient hlim (by rw [heq]; exact ofInt_whole (hwhole hlim))
      · rw [heq]

end Sums

section Operators

variable {fQuotient f1 f2 : Bool} {n n1 n2 : Expr.Num} {item1 item2 : Item} {l1 l2 s : Int}

theorem wrap64_shift (n : Int) : ∃ k, wrap64 n = n + 2 ^ 64 * k := by
  obtain ⟨k, hk⟩ := Int.dvd_bmod_sub_self (x := n) (m := 2 ^ 64)
  exact ⟨k, by unfold wrap64; omega⟩

theorem vmPlus_numInt (h1 : LimLong l1) (h2 : LimLong l2) :
    vmPlus (.numInt f1 l1) (.numInt f2 l2) = .ok (if LimLong (l1 + l2) then putNumIntRaw (l1 + l2)
      else .double ((ofInt l1).add (ofInt l2))) := by
  by_cases h : LimLong (l1 + l2)
  · rw [if_pos h]
    exact vmPlus_long h
  · have hnot : ¬ if l2 ≥ 0 then wrap64 (l1 + l2) ≥ l1 else wrap64 (l1 + l2) < l1 := by
      obtain ⟨k, hk⟩ := wrap64_shift (l1 + l2)
      have hlim := wrap64_lim (l1 + l2)
      unfold LimLong at h h1 h2 hlim
      split_ifs
      · omega
      · omega
    rw [if_neg h]
    exact if_neg hnot

theorem vmMinus_numInt (h1 : LimLong l1) (h2 : LimLong l2) :
    vmMinus (.numInt f1 l1) (.numInt f2 l2) = .ok (if LimLong (l1 - l2) then putNumIntRaw (l1 - l2)
      else .double ((ofInt l1).sub (ofInt l2))) := by
  by_cases h : LimLong (l1 - l2)
  · rw [if_pos h]
    exact vmMinus_long h
  · have hnot : ¬ if l2 ≤ 0 then wrap64 (l1 - l2) ≥ l1 else wrap64 (l1 - l2) < l1 := by
      obtain ⟨k, hk⟩ := wrap64_shift (l1 - l2)
      have hlim := wrap64_lim (l1 - l2)
      unfold LimLong at h h1 h2 hlim
      split_ifs
      · omega
      · omega
    rw [if_neg h]
    exact if_neg hnot

section

variable (h1 : Whole53 l1) (h2 : Whole53 l2)

include h1 h2

theorem add_whole :
    (ofInt l1 : Double).add (ofInt l2) = ofInt (l1 + l2) := by
  unfold add
  rw [ofInt_whole h1, ofInt_whole h2, ← Int.cast_add]
  rfl

theorem sub_whole :
    (ofInt l1 : Double).sub (ofInt l2) = ofInt (l1 - l2) := by
  unfold sub
  rw [ofInt_whole h1, ofInt_whole h2, ← Int.cast_sub]
  rfl

theorem mul_whole :
    (ofInt l1 : Double).mul (ofInt l2) = ofInt (l1 * l2) := by
  unfold mul
  rw [ofInt_whole h1, ofInt_whole h2, ← Int.cast_mul]
  rfl

end

section

variable (h1 : Computes fQuotient n1 item1) (h2 : Computes fQuotient n2 item2)

include h1 h2

theorem plus_computes (hexact : StepExact fQuotient .plus n1 n2) :
    ∃ item, vmPlus item1 item2 = .ok item ∧ Computes fQuotient (addNums n1 n2) item := by
  have hdouble (hnot : ∀ l1 l2, n1 = .long l1 → n2 ≠ .long l2) :
      vmPlus item1 item2 = .ok (.double (n1.dbl.add n2.dbl)) := by
    rw [(h1.asDoubles h2 hnot).plus, h1.dbl, h2.dbl]
  cases n1 with
  | long l1 =>
    cases n2 with
    | long l2 =>
      exact long_computes h1 h2 (maxDbl_add h1.lim h2.lim) hexact add_whole
        (fun _ _ _ _ => vmPlus_numInt h1.lim h2.lim) AsDoubles.plus
    | double d2 => exact ⟨_, hdouble (fun _ _ _ h => nomatch h), .double _⟩
  | double d1 => exact ⟨_, hdouble (fun _ _ h => nomatch h), .double _⟩

theorem minus_computes (hexact : StepExact fQuotient .minus n1 n2) :
    ∃ item, vmMinus item1 item2 = .ok item ∧ Computes fQuotient (subNums n1 n2) item := by
  have hdouble (hnot : ∀ l1 l2, n1 = .long l1 → n2 ≠ .long l2) :
      vmMinus item1 item2 = .ok (.double (n1.dbl.sub n2.dbl)) := by
    rw [(h1.asDoubles h2 hnot).minus, h1.dbl, h2.dbl]
  cases n1 with
  | long l1 =>
    cases n2 with
    | long l2 =>
      exact long_computes h1 h2 (maxDbl_sub h1.lim h2.lim) hexact sub_whole
        (fun _ _ _ _ => vmMinus_numInt h1.lim h2.lim) AsDoubles.minus
    | double d2 => exact ⟨_, hdouble (fun _ _ _ h => nomatch h), .double _⟩
  | double d1 => exact ⟨_, hdouble (fun _ _ h => nomatch h), .double _⟩

end

theorem abs_mul_le (h1 : LimInt l1) (h2 : LimInt l2) : |l1 * l2| ≤ 2 ^ 62 := by
  have habs1 : |l1| ≤ 2 ^ 31 := abs_le.mpr ⟨h1.1, h1.2.trans (by decide)⟩
  have habs2 : |l2| ≤ 2 ^ 31 := abs_le.mpr ⟨h2.1, h2.2.trans (by decide)⟩
  rw [abs_mul]
  exact mul_le_mul habs1 habs2 (abs_nonneg l2) (by decide)

theorem limLong_mul (h1 : LimInt l1) (h2 : LimInt l2) : LimLong (l1 * l2) := by
  obtain ⟨hlow, hhigh⟩ := abs_le.mp (abs_mul_le h1 h2)
  exact ⟨by omega, by omega⟩

theorem whole53_limInt (h : LimInt l1) : Whole53 l1 := by
  obtain ⟨hlow, hhigh⟩ := h
  exact representable_intCast (abs_le.mpr ⟨by omega, by omega⟩) (by decide)

theorem whole53_mul_low (h : LimInt l1) : Whole53 (-2 ^ 31 * l1) := by
  obtain ⟨hlow, hhigh⟩ := h
  refine ⟨-l1, 31, abs_lt.mpr ⟨by omega, by omega⟩, ?_⟩
  push_cast
  ring

theorem Stored.low (h : Stored true l1) (hlim : LimInt l1) : l1 = -2 ^ 31 :=
  Or.resolve_left h (not_not_intro hlim)

theorem itemPutNumType_whole (h : d.value = s) :
    itemPutNumType d false = if LimLong s then putNumIntRaw s else .double d := by
  have hint : DblLimInt (s : ℚ) ↔ LimInt s := by
    unfold DblLimInt LimInt
    norm_cast
  change (if DblLimInt d.value then _ else if DblLimLong d.value then _ else _) = _
  rw [h, truncate_intCast]
  by_cases hlim : LimInt s
  · have hlim' : LimLong s := ⟨by unfold LimInt at hlim; omega, by unfold LimInt at hlim; omega⟩
    rw [if_pos (hint.mpr hlim), if_pos hlim']
    exact congrArg (Item.numInt · s) (decide_eq_false (not_not_intro hlim)).symm
  · rw [if_neg (mt hint.mp hlim)]
    by_cases hlong : LimLong s
    · rw [if_pos (dblLimLong_intCast.mpr hlong), if_pos hlong]
      exact congrArg (Item.numInt · s) (decide_eq_true hlim).symm
    · rw [if_neg (mt dblLimLong_intCast.mp hlong), if_neg hlong]

theorem vmMult_whole (h1 : Whole53 l1) (h2 : Whole53 l2) (h : Whole53 (l1 * l2))
    (hlong : f1 = true ∨ f2 = true) :
    vmMult (.numInt f1 l1) (.numInt f2 l2) = .ok (if LimLong (l1 * l2) then putNumIntRaw (l1 * l2)
      else .double ((ofInt l1).mul (ofInt l2))) := by
  have hvm : vmMult (.numInt f1 l1) (.numInt f2 l2) =
      .ok (itemPutNumType ((ofInt l1).mul (ofInt l2)) false) := by
    cases f1 with
    | true => rfl
    | false =>
      cases f2 with
      | true => rfl
      | false => exact nomatch hlong
  rw [hvm, itemPutNumType_whole (s := l1 * l2) (by rw [mul_whole h1 h2]; exact ofInt_whole h)]

theorem vmMult_numInt (hstored1 : Stored f1 l1) (hstored2 : Stored f2 l2)
    (hexact : LimInt l1 ∧ LimInt l2 ∨ Whole53 l1 ∧ Whole53 l2 ∧ Whole53 (l1 * l2)) :
    vmMult (.numInt f1 l1) (.numInt f2 l2) = .ok (if LimLong (l1 * l2) then putNumIntRaw (l1 * l2)
      else .double ((ofInt l1).mul (ofInt l2))) := by
  by_cases hint : f1 = false ∧ f2 = false
  · obtain ⟨rfl, rfl⟩ := hint
    have hlim := limLong_mul hstored1 hstored2
    change Except.ok (putNumIntRaw (wrap64 (l1 * l2))) = _
    rw [wrap64_of_lim hlim, if_pos hlim]
  · have hlong : f1 = true ∨ f2 = true := by
      cases f1 <;> cases f2 <;> simp at hint ⊢
    rcases hexact with ⟨hlim1, hlim2⟩ | ⟨hwhole1, hwhole2, hwhole⟩
    · refine vmMult_whole (whole53_limInt hlim1) (whole53_limInt hlim2) ?_ hlong
      rcases hlong with rfl | rfl
      · rw [hstored1.low hlim1]
        exact whole53_mul_low hlim2
      · rw [hstored2.low hlim2, mul_comm]
        exact whole53_mul_low hlim1
    · exact vmMult_whole hwhole1 hwhole2 hwhole hlong

theorem maxDbl_mul (h1 : LimLong l1) (h2 : LimLong l2)
    (h : LimInt l1 ∧ LimInt l2 ∨ Whole53 (l1 * l2)) :
    ((ofInt l1 : MaxDbl).mul (ofInt l2)).value = ((l1 * l2 : Int) : ℚ) := by
  have hmul : (ofInt l1 : MaxDbl).value * (ofInt l2 : MaxDbl).value
      = ((l1 * l2 : Int) : ℚ) := by
    rw [maxDbl_value (abs_le_of_lim h1), maxDbl_value (abs_le_of_lim h2), Int.cast_mul]
  unfold mul
  rw [hmul]
  refine round_value ?_
  rcases h with ⟨hlim1, hlim2⟩ | ⟨m, e, hm, heq⟩
  · exact representable_intCast ((abs_mul_le hlim1 hlim2).trans (by decide)) (by decide)
  · exact ⟨m, e, hm.trans (by decide), heq⟩

theorem mult_computes (h1 : Computes fQuotient n1 item1) (h2 : Computes fQuotient n2 item2)
    (hexact : StepExact fQuotient .mult n1 n2) :
    ∃ item, vmMult item1 item2 = .ok item ∧ Computes fQuotient (multNums n1 n2) item := by
  have hdouble (hnot : ∀ l1 l2, n1 = .long l1 → n2 ≠ .long l2) :
      vmMult item1 item2 = .ok (.double (n1.dbl.mul n2.dbl)) := by
    rw [(h1.asDoubles h2 hnot).mult, h1.dbl, h2.dbl]
  cases n1 with
  | long l1 =>
    cases n2 with
    | long l2 =>
      have hwhole : LimInt l1 ∧ LimInt l2 ∨ Whole53 l1 ∧ Whole53 l2 ∧ Whole53 (l1 * l2) :=
        hexact.imp_left And.right
      have hsum : SumExact fQuotient l1 l2 (l1 * l2) := by
        rcases hexact with ⟨hquotient, hlim1, hlim2⟩ | ⟨hwhole1, hwhole2, hwhole⟩
        · exact .inl ⟨hquotient, limLong_mul hlim1 hlim2⟩
        · exact .inr ⟨hwhole1, hwhole2, fun _ => hwhole⟩
      exact long_computes h1 h2
        (maxDbl_mul h1.lim h2.lim (hwhole.imp_right fun h => h.2.2)) hsum mul_whole
        (fun _ _ hstored1 hstored2 => vmMult_numInt hstored1 hstored2 hwhole) AsDoubles.mult
    | double d2 => exact ⟨_, hdouble (fun _ _ _ h => nomatch h), .double _⟩
  | double d1 => exact ⟨_, hdouble (fun _ _ h => nomatch h), .double _⟩

end Operators

section Quotients

variable {fQuotient f1 f2 : Bool} {n n1 n2 : Expr.Num} {item item1 item2 : Item} {l1 l2 s : Int}

theorem ofInt_ne_zero (h : l1 ≠ 0) : (ofInt l1 : Double).value ≠ 0 := by
  rcases lt_or_gt_of_ne h with hneg | hpos
  · have hle : (l1 : ℚ) ≤ -2 ^ 0 := by
      exact_mod_cast Int.le_sub_one_of_lt hneg
    have h' := @roundTo_le_neg_pow 53 l1 (by decide) 0 hle
    exact (h'.trans_lt (neg_neg_of_pos one_pos)).ne
  · have hle : (2 : ℚ) ^ 0 ≤ l1 := by
      exact_mod_cast hpos
    have h' := @pow_le_roundTo 53 l1 (by decide) 0 hle
    exact (one_pos.trans_le h').ne'

theorem dbl_ne_zero (h : n.isZero = false) : n.dbl.value ≠ 0 := by
  cases n with
  | long l => exact ofInt_ne_zero (of_decide_eq_false h)
  | double d => exact of_decide_eq_false h

theorem divideDbl_ne (h : d2.value ≠ 0) :
    divideDbl d1 d2 = .ok (.double (d1.div d2)) := if_neg h

theorem modulusDbl_ne (h : d2.value ≠ 0) :
    modulusDbl d1 d2 = .ok (.double (fmod d1 d2)) := if_neg h

theorem vmDivide_long (h1 : Computes fQuotient (.long l1) item1)
    (h2 : Computes fQuotient (.long l2) item2) (hne : l2 ≠ 0) :
    vmDivide item1 item2 = .ok (.double ((ofInt l1).div (ofInt l2))) := by
  rcases h1.kinds h2 with ⟨f1, f2, _, _, rfl, rfl, heq1, heq2, -, -⟩ | ⟨has, -⟩
  · obtain rfl := Expr.Num.long.inj heq1
    obtain rfl := Expr.Num.long.inj heq2
    exact if_neg hne
  · rw [has.divide, h1.dbl, h2.dbl]
    exact divideDbl_ne (ofInt_ne_zero hne)

theorem tdiv_lim (h1 : LimLong l1) (hnot : ¬ (l1 = -2 ^ 63 ∧ l2 = -1)) : LimLong (l1.tdiv l2) := by
  obtain ⟨hlow, hhigh⟩ := h1
  by_cases hone : l2 = 1
  · rw [hone, Int.tdiv_one]
    exact ⟨hlow, hhigh⟩
  · by_cases hminus : l2 = -1
    · rw [hminus, Int.tdiv_neg, Int.tdiv_one]
      exact ⟨by omega, by omega⟩
    · have habs := Int.natAbs_tdiv l1 l2
      have hhalf : l1.natAbs.div l2.natAbs ≤ 2 ^ 62 := by
        by_cases hzero : l2 = 0
        · rw [hzero]
          exact (Nat.div_zero _).le.trans (Nat.zero_le _)
        · calc l1.natAbs / l2.natAbs ≤ l1.natAbs / 2 := Nat.div_le_div_left (by omega) (by decide)
            _ ≤ 2 ^ 62 := by omega
      exact ⟨by omega, by omega⟩

theorem div_value (h1 : Whole53 l1) (h2 : Whole53 l2) (h : Whole53 (l1.tdiv l2)) (hne : l2 ≠ 0)
    (hmod : l1.tmod l2 = 0) :
    ((ofInt l1 : Double).div (ofInt l2)).value = (l1.tdiv l2 : Int) := by
  have hdiv : (l1 : ℚ) / l2 = (l1.tdiv l2 : Int) := by
    have hmul : l1.tdiv l2 * l2 = l1 := Int.tdiv_mul_cancel_of_tmod_eq_zero hmod
    rw [div_eq_iff (Int.cast_ne_zero.mpr hne)]
    exact_mod_cast hmul.symm
  unfold div
  rw [ofInt_whole h1, ofInt_whole h2, hdiv]
  exact round_value h

theorem div_computes (h1 : Computes fQuotient n1 item1) (h2 : Computes fQuotient n2 item2)
    (hexact : StepExact fQuotient .div n1 n2)
    (hn : reduceDiv (.numeric n1) (.numeric n2) = .numeric n) :
    ∃ item, vmDivide item1 item2 = .ok item ∧ Computes true n item := by
  have hdouble (hnot : ∀ l1 l2, n1 = .long l1 → n2 ≠ .long l2)
      (hn : (if n2.isZero then HbExpr.binary .div (.numeric n1) (.numeric n2)
        else .numeric (.double (n1.dbl.div n2.dbl))) = .numeric n) :
      ∃ item, vmDivide item1 item2 = .ok item ∧ Computes true n item := by
    split_ifs at hn with hzero
    obtain rfl := HbExpr.numeric.inj hn
    refine ⟨_, ?_, .double _⟩
    rw [(h1.asDoubles h2 hnot).divide, h1.dbl, h2.dbl]
    exact divideDbl_ne (dbl_ne_zero (Bool.eq_false_of_not_eq_true hzero))
  cases n1 with
  | long l1 =>
    cases n2 with
    | long l2 =>
      obtain ⟨hnot, hwhole⟩ := hexact
      change (if l2 = 0 then _ else if l1.tmod l2 = 0 then _ else _) = _ at hn
      split_ifs at hn with hzero hmod
      · obtain rfl := HbExpr.numeric.inj hn
        obtain ⟨hwhole1, hwhole2, hwhole⟩ := hwhole hmod
        exact ⟨_, vmDivide_long h1 h2 hzero, .divided rfl (tdiv_lim h1.lim hnot)
          (div_value hwhole1 hwhole2 hwhole hzero hmod)⟩
      · obtain rfl := HbExpr.numeric.inj hn
        exact ⟨_, vmDivide_long h1 h2 hzero, .double _⟩
    | double d2 => exact hdouble (by rintro _ _ _ ⟨⟩) hn
  | double d1 => exact hdouble (by rintro _ _ ⟨⟩) hn

theorem tdiv_cancel {a b c : Int} (h : c ≠ 0) : (c * a).tdiv (c * b) = a.tdiv b := by
  rcases lt_or_gt_of_ne h with hneg | hpos
  · rw [← Int.neg_tdiv_neg, ← Int.neg_mul, ← Int.neg_mul]
    exact Int.mul_tdiv_mul_of_pos a b (Int.neg_pos_of_neg hneg)
  · exact Int.mul_tdiv_mul_of_pos a b hpos

theorem truncate_div (h : l2 ≠ 0) : truncate ((l1 : ℚ) / l2) = l1.tdiv l2 := by
  obtain ⟨c, hnum, hden⟩ := Rat.num_den_mk h (Rat.divInt_eq_div l1 l2).symm
  have hc : c ≠ 0 := by
    rintro rfl
    rw [zero_mul] at hden
    exact h hden
  calc truncate ((l1 : ℚ) / l2)
      = (c * ((l1 : ℚ) / l2).num).tdiv (c * ((l1 : ℚ) / l2).den) := (tdiv_cancel hc).symm
    _ = l1.tdiv l2 := by rw [← hnum, ← hden]

theorem fmod_whole (h1 : Whole53 l1) (h2 : Whole53 l2) (hne : l2 ≠ 0) :
    fmod (ofInt l1) (ofInt l2) = ofInt (l1.tmod l2) := by
  unfold fmod
  rw [ofInt_whole h1, ofInt_whole h2, truncate_div hne, Int.tmod_def, ofInt]
  push_cast
  rfl

theorem vmModulus_long (h1 : Computes fQuotient (.long l1) item1)
    (h2 : Computes fQuotient (.long l2) item2) (hne : l2 ≠ 0)
    (hwhole : fQuotient = true → Whole53 l1 ∧ Whole53 l2) :
    vmModulus item1 item2 = .ok (.double (ofInt (l1.tmod l2))) := by
  rcases h1.kinds h2 with ⟨f1, f2, _, _, rfl, rfl, heq1, heq2, -, -⟩ | ⟨has, hquot⟩
  · obtain rfl := Expr.Num.long.inj heq1
    obtain rfl := Expr.Num.long.inj heq2
    exact if_neg hne
  · obtain ⟨hwhole1, hwhole2⟩ := hwhole (hquot l1 l2 rfl rfl)
    rw [has.modulus, h1.dbl, h2.dbl, ← fmod_whole hwhole1 hwhole2 hne]
    exact modulusDbl_ne (ofInt_ne_zero hne)

theorem tmod_lim (h2 : LimLong l2) (hne : l2 ≠ 0) : LimLong (l1.tmod l2) := by
  obtain ⟨hlow, hhigh⟩ := h2
  have habs := Int.natAbs_tmod l1 l2
  have hlt := Nat.mod_lt l1.natAbs (Int.natAbs_pos.mpr hne)
  exact ⟨by omega, by omega⟩

theorem mod_computes (h1 : Computes fQuotient n1 item1) (h2 : Computes fQuotient n2 item2)
    (hexact : StepExact fQuotient .mod n1 n2)
    (hn : reduceMod modes (.numeric n1) (.numeric n2) = .numeric n) :
    ∃ item, vmModulus item1 item2 = .ok item ∧ Computes true n item := by
  have hdouble (hnot : ∀ l1 l2, n1 = .long l1 → n2 ≠ .long l2)
      (hn : (if modes.harbour ∧ n2.dbl.value ≠ 0 then .numeric (.double (fmod n1.dbl n2.dbl))
        else HbExpr.binary .mod (.numeric n1) (.numeric n2)) = .numeric n) :
      ∃ item, vmModulus item1 item2 = .ok item ∧ Computes true n item := by
    split_ifs at hn with hmode
    obtain rfl := HbExpr.numeric.inj hn
    refine ⟨_, ?_, .double _⟩
    rw [(h1.asDoubles h2 hnot).modulus, h1.dbl, h2.dbl]
    exact modulusDbl_ne hmode.2
  cases n1 with
  | long l1 =>
    cases n2 with
    | long l2 =>
      obtain ⟨-, hwhole, hwholes⟩ := hexact
      change (if l2 = 0 then _ else _) = _ at hn
      split_ifs at hn with hzero
      obtain rfl := HbExpr.numeric.inj hn
      exact ⟨_, vmModulus_long h1 h2 hzero hwholes, .divided rfl (tmod_lim h2.lim hzero)
        (ofInt_whole hwhole)⟩
    | double d2 => exact hdouble (by rintro _ _ _ ⟨⟩) hn
  | double d1 => exact hdouble (by rintro _ _ ⟨⟩) hn

theorem whole53_neg (h : Whole53 l1) : Whole53 (-l1) := by
  obtain ⟨m, e, hm, heq⟩ := h
  refine ⟨-m, e, by rw [abs_neg]; exact hm, ?_⟩
  push_cast
  rw [heq, neg_mul]

theorem neg_value (h : d.value = l1) : d.neg.value = ((-l1 : Int) : ℚ) := by
  unfold neg
  rw [h, ← Int.cast_neg]
  have hwhole : Whole53 l1 := by
    unfold Whole53
    rw [← h]
    exact d.representable
  exact round_value (whole53_neg hwhole)

theorem negate_computes (h : Computes fQuotient n1 item1)
    (hn : reduceNegate modes (.numeric n1) = .numeric n) :
    ∃ item, vmNegate item1 = .ok item ∧ Computes fQuotient n item := by
  cases h with
  | @long l fLong hlim hstored =>
    obtain ⟨hmin, hmax⟩ := hlim
    change (if l < -(2 ^ 63 - 1) then _ else _) = _ at hn
    cases fLong with
    | false =>
      have hint : LimInt l := hstored
      obtain ⟨hlow, hhigh⟩ := hint
      rw [if_neg (by omega)] at hn
      obtain rfl := HbExpr.numeric.inj hn
      by_cases hedge : l < -(2 ^ 31 - 1)
      · exact ⟨_, if_pos hedge, .long ⟨by omega, by omega⟩
          (.inl fun hlim => by unfold LimInt at hlim; omega)⟩
      · have hneg : LimInt (-l) := ⟨by omega, by omega⟩
        exact ⟨_, if_neg hedge, .long ⟨by omega, by omega⟩ hneg⟩
    | true =>
      have hlong : ¬ LimInt l ∨ l = -2 ^ 31 := hstored
      split_ifs at hn with hedge
      · obtain rfl := HbExpr.numeric.inj hn
        exact ⟨_, if_pos hedge, .double _⟩
      · obtain rfl := HbExpr.numeric.inj hn
        have hneg : ¬ LimInt (-l) ∨ -l = -2 ^ 31 := by
          unfold LimInt at hlong ⊢
          omega
        exact ⟨_, if_neg hedge, .long ⟨by omega, by omega⟩ hneg⟩
  | @divided l d hquotient hlim hvalue =>
    change (if l < -(2 ^ 63 - 1) then _ else _) = _ at hn
    split_ifs at hn with hlow
    · obtain rfl := HbExpr.numeric.inj hn
      rw [ofInt_of_value hvalue]
      exact ⟨_, rfl, .double _⟩
    · obtain rfl := HbExpr.numeric.inj hn
      exact ⟨_, rfl, .divided hquotient (by unfold LimLong at *; omega) (neg_value hvalue)⟩
  | double d =>
    obtain rfl := HbExpr.numeric.inj hn
    exact ⟨_, rfl, .double _⟩

end Quotients

end Harbour.Compiler.FoldArith
