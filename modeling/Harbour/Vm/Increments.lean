import Harbour.Vm.Operators

/-!
The increments of the virtual machine beside its general operators, with the lengths and decimals
of output, and what the operators make of 64-bit integers.
-/

namespace Harbour.Vm.Increments

open Library.Rounding Operators Rounded

structure Stored where
  item : Item
  length : Nat
  decimal : Nat
deriving DecidableEq

def expLength : Item → Nat
  | .numInt false n => if n < -999999999 then 20 else 10
  | .numInt true n => if n < -999999999 ∨ n > 9999999999 then 20 else 10
  | .double d => if d.value > 9999999999 ∨ d.value < -999999999 then 20 else 10
  | _ => 0

def isDouble : Item → Bool
  | .double _ => true
  | _ => false

def stored (iDec : Nat) (item : Item) : Stored :=
  ⟨item, expLength item, if isDouble item then iDec else 0⟩

def Stored.iDec (pItem : Stored) : Nat := if isDouble pItem.item then pItem.decimal else 0

/-- The decimals that `hb_itemPutNDDec` stores, of `HB_DEFAULT_DECIMALS` those that are set. -/
def putDec (HB_SET_DECIMALS iDec : Nat) : Nat := if iDec = 255 then HB_SET_DECIMALS else iDec

def plus (HB_SET_DECIMALS : Nat) (pItem1 pItem2 : Stored) : Except VmError Stored :=
  (vmPlus pItem1.item pItem2.item).map
    (stored (putDec HB_SET_DECIMALS (max pItem1.iDec pItem2.iDec)))

def minus (HB_SET_DECIMALS : Nat) (pItem1 pItem2 : Stored) : Except VmError Stored :=
  (vmMinus pItem1.item pItem2.item).map
    (stored (putDec HB_SET_DECIMALS (max pItem1.iDec pItem2.iDec)))

def constant (n : Int) : Stored := stored 0 (putNumIntRaw n)

def vmAddInt (pResult : Stored) (lAdd : Int) : Except VmError Stored :=
  match pResult.item with
  | .numInt _ nVal =>
    let nResult := wrap64 (nVal + lAdd)
    if if lAdd ≥ 0 then nResult ≥ nVal else nResult < nVal then
      .ok (stored 0 (putNumIntRaw nResult))
    else .ok (stored 0 (.double ((ofInt nVal).add (ofInt lAdd))))
  | .double d => .ok (stored pResult.decimal (.double (d.add (ofInt lAdd))))
  | .date julian => .ok (stored 0 (.date (wrap64 (julian + lAdd))))
  | .timestamp julian time => .ok (stored 0 (.timestamp (wrap64 (julian + lAdd)) time))
  | _ => .error (.arg 1081 "+")

/-- What `hb_vmInc` and `hb_vmDec` share: the step, what they test of the two kinds of integers, the
step of a double, and the error. -/
def vmStep (lAdd : Int) (fInt fLong : Int → Bool) (op : Double → Double) (error : VmError)
    (pItem : Stored) : Except VmError Stored :=
  match pItem.item with
  | .numInt false n =>
    if fInt n then .ok (stored 0 (.numInt false (n + lAdd)))
    else .ok (stored 0 (.numInt true (n + lAdd)))
  | .numInt true n =>
    if fLong n then .ok (stored 0 (.numInt true (n + lAdd)))
    else .ok (stored 0 (.double (op (ofInt n))))
  | .double d => .ok (stored pItem.decimal (.double (op d)))
  | .date julian => .ok (stored 0 (.date (wrap64 (julian + lAdd))))
  | .timestamp julian time => .ok (stored 0 (.timestamp (wrap64 (julian + lAdd)) time))
  | _ => .error error

def vmInc (pItem : Stored) : Except VmError Stored :=
  vmStep 1 (· < 2 ^ 31 - 1) (· < 2 ^ 63 - 1) (fun d => d.add (ofInt 1)) (.arg 1086 "++")
    pItem

def vmDec (pItem : Stored) : Except VmError Stored :=
  vmStep (-1) (· > -2 ^ 31) (· > -2 ^ 63) (fun d => d.sub (ofInt 1)) (.arg 1087 "--")
    pItem

/-- An integer is one of the 32 bits of `HB_IT_INTEGER` or the 64 bits of `HB_IT_LONG`. -/
def Held (fLong : Bool) (n : Int) : Prop := if fLong then LimLong n else LimInt n

def Stored.Valid (pItem : Stored) : Prop :=
  match pItem.item with
  | .numInt fLong n => Held fLong n
  | .double _ => pItem.decimal ≠ 255
  | .date _ => True
  | .timestamp _ time => 0 ≤ time ∧ time < millisecsPerDay
  | _ => False

/-- A time of day is kept where the day does not become negative. -/
def Stored.Keeps (pItem : Stored) (lAdd : Int) : Prop :=
  match pItem.item with
  | .timestamp julian time => 0 ≤ wrap64 (julian + lAdd) ∨ time = 0
  | _ => True

/-- The exact integer where it fits, and else a double. -/
def widen (n : Int) (d : Double) : Item := if LimLong n then putNumIntRaw n else .double d

def Stored.narrow (pItem : Stored) : Stored :=
  match pItem.item with
  | .numInt _ n => constant n
  | _ => pItem

section Integers

variable {fLong1 fLong2 : Bool} {n n1 n2 : Int}

theorem Held.lim (h : Held fLong1 n) : LimLong n := by
  unfold Held at h
  split at h
  · exact h
  · obtain ⟨hlow, hhigh⟩ := h
    constructor
    · omega
    · omega

theorem not_wrapped_iff (h1 : LimLong n1) (hlow : -2 ^ 63 ≤ n) (hhigh : n ≤ 2 ^ 63) :
    (if n ≥ 0 then wrap64 (n1 + n) ≥ n1 else wrap64 (n1 + n) < n1) ↔ LimLong (n1 + n) := by
  obtain ⟨hlow1, hhigh1⟩ := h1
  by_cases hlim : LimLong (n1 + n)
  · rw [wrap64_of_lim hlim]
    refine iff_of_true ?_ hlim
    split <;> omega
  · refine iff_of_false ?_ hlim
    unfold LimLong at hlim
    unfold wrap64
    rcases lt_or_ge (n1 + n) 0 with hneg | hpos
    · rw [← Int.add_bmod_right, Int.bmod_eq_of_le (by omega) (by omega)]
      split <;> omega
    · rw [← Int.sub_bmod_right, Int.bmod_eq_of_le (by omega) (by omega)]
      split <;> omega

theorem vmPlus_widens (h1 : LimLong n1) (h2 : LimLong n2) :
    vmPlus (.numInt fLong1 n1) (.numInt fLong2 n2) =
      .ok (widen (n1 + n2) ((ofInt n1).add (ofInt n2))) := by
  have htest := not_wrapped_iff h1 h2.1 (h2.2.trans (by decide))
  unfold vmPlus widen
  simp only [htest]
  split
  · rename_i hlim
    rw [wrap64_of_lim hlim]
  · rfl

theorem vmMinus_widens (h1 : LimLong n1) (h2 : LimLong n2) :
    vmMinus (.numInt fLong1 n1) (.numInt fLong2 n2) =
      .ok (widen (n1 - n2) ((ofInt n1).sub (ofInt n2))) := by
  have htest := not_wrapped_iff (n := -n2) h1 (by have := h2.2; omega) (by have := h2.1; omega)
  simp only [← sub_eq_add_neg, ge_iff_le, neg_nonneg] at htest
  unfold vmMinus widen
  simp only [ge_iff_le, htest]
  split
  · rename_i hlim
    rw [wrap64_of_lim hlim]
  · rfl

theorem vmNegate_exact (h : Held fLong1 n) : ∃ item, vmNegate (.numInt fLong1 n) = .ok item ∧
    (LimLong (-n) ∧ (∃ fLong, item = .numInt fLong (-n)) ∨
      ¬ LimLong (-n) ∧ ∃ d : Double, item = .double d ∧ d.value = (-n : ℤ)) := by
  obtain ⟨hlow, hhigh⟩ := h.lim
  cases fLong1 with
  | false =>
    obtain ⟨hlow', hhigh'⟩ : LimInt n := h
    have hlim : LimLong (-n) := ⟨by omega, by omega⟩
    rw [vmNegate]
    split
    · exact ⟨_, rfl, .inl ⟨hlim, _, rfl⟩⟩
    · exact ⟨_, rfl, .inl ⟨hlim, _, rfl⟩⟩
  | true =>
    rw [vmNegate]
    split
    · obtain rfl : n = -2 ^ 63 := by omega
      refine ⟨_, rfl, .inr ⟨fun hlim => ?_, _, rfl, ?_⟩⟩
      · unfold LimLong at hlim
        omega
      · decide +kernel
    · exact ⟨_, rfl, .inl ⟨⟨by omega, by omega⟩, _, rfl⟩⟩

end Integers

variable {d : Double} {decimal : Nat} {fLong : Bool} {n : Int}

section FastPaths

variable {pItem : Stored} {lAdd : Int} (HB_SET_DECIMALS : Nat)

theorem sub_ofInt_neg (d : Double) (h : LimInt lAdd) :
    d.sub (ofInt (-lAdd)) = d.add (ofInt lAdd) := by
  obtain ⟨hlow, hhigh⟩ := h
  have hvalue : (ofInt lAdd : Double).value = lAdd :=
    ofInt_value (abs_le.mpr ⟨by omega, by omega⟩)
  have hneg : (ofInt (-lAdd) : Double).value = -lAdd := by
    rw [ofInt_value (abs_le.mpr ⟨by omega, by omega⟩), Int.cast_neg]
  rw [sub, add, hvalue, hneg, sub_neg_eq_add]

theorem timeStampPut_eq {julian time : Int} (hlow : 0 ≤ time) (hhigh : time < millisecsPerDay)
    (h : 0 ≤ julian ∨ time = 0) : timeStampPut julian time = .timestamp julian time := by
  unfold timeStampPut Operators.normalize millisecsPerDay at *
  split_ifs <;> first | rfl | omega

theorem stored_double (h : decimal ≠ 255) :
    stored (putDec HB_SET_DECIMALS (max decimal 0)) (.double d) = stored decimal (.double d) := by
  rw [Nat.max_zero, putDec, if_neg h]

theorem vmAddInt_widens {length : Nat} (hn : LimLong n) (h : LimInt lAdd) :
    vmAddInt ⟨.numInt fLong n, length, decimal⟩ lAdd =
      .ok (stored 0 (widen (n + lAdd) ((ofInt n).add (ofInt lAdd)))) := by
  have htest := not_wrapped_iff (n := lAdd) hn (by have := h.1; omega) (by have := h.2; omega)
  unfold vmAddInt widen
  simp only [htest]
  split
  · rename_i hlim
    rw [wrap64_of_lim hlim]
  · rfl

theorem vmAddInt_plus (hvalid : pItem.Valid) (hkeeps : pItem.Keeps lAdd)
    (h : LimInt lAdd) : vmAddInt pItem lAdd = plus HB_SET_DECIMALS pItem (constant lAdd) := by
  obtain ⟨item, length, decimal⟩ := pItem
  cases item with
  | numInt fLong n =>
    have hlim : LimLong lAdd := ⟨by have := h.1; omega, by have := h.2; omega⟩
    rw [vmAddInt_widens (Held.lim hvalid) h]
    simp only [plus, constant, stored, putNumIntRaw, vmPlus_widens (Held.lim hvalid) hlim]
    rfl
  | double d => exact congrArg Except.ok (stored_double HB_SET_DECIMALS hvalid).symm
  | date julian => rfl
  | timestamp julian time =>
    change Except.ok _ = Except.ok (stored _ (timeStampPut _ _))
    rw [timeStampPut_eq hvalid.1 hvalid.2 hkeeps]
    rfl
  | nil | logical _ | string _ => exact hvalid.elim

theorem plus_eq_minus (hvalid : pItem.Valid) (h : LimInt lAdd) :
    plus HB_SET_DECIMALS pItem (constant lAdd) =
      minus HB_SET_DECIMALS pItem (constant (-lAdd)) := by
  obtain ⟨item, length, decimal⟩ := pItem
  have hlim : LimLong lAdd := ⟨by have := h.1; omega, by have := h.2; omega⟩
  have hlim' : LimLong (-lAdd) := ⟨by have := h.2; omega, by have := h.1; omega⟩
  cases item with
  | numInt fLong n =>
    have hn : LimLong n := Held.lim hvalid
    simp only [plus, minus, constant, stored, putNumIntRaw, vmPlus_widens hn hlim,
      vmMinus_widens hn hlim', sub_neg_eq_add, sub_ofInt_neg _ h]
    rfl
  | double d => exact congrArg (fun d => Except.ok (stored _ (.double d))) (sub_ofInt_neg d h).symm
  | date julian =>
    exact congrArg (fun n => Except.ok (stored _ (.date (wrap64 n)))) (sub_neg_eq_add _ _).symm
  | timestamp julian time =>
    exact congrArg (fun n => Except.ok (stored _ (timeStampPut (wrap64 n) time)))
      (sub_neg_eq_add _ _).symm
  | nil | logical _ | string _ => exact hvalid.elim

theorem widen_of_lim (h : LimLong n) : widen n d = putNumIntRaw n := if_pos h

theorem vmStep_narrow {fInt fLong : Int → Bool} {op : Double → Double} {error : VmError}
    (hvalid : pItem.Valid) (h : LimInt lAdd)
    (hint : ∀ n, LimInt n → LimLong (n + lAdd) ∧ fInt n = decide (LimInt (n + lAdd)))
    (hlong : ∀ n, LimLong n → fLong n = decide (LimLong (n + lAdd)))
    (hop : ∀ d, op d = d.add (ofInt lAdd)) :
    ∃ pResult, vmStep lAdd fInt fLong op error pItem = .ok pResult ∧
      vmAddInt pItem lAdd = .ok pResult.narrow ∧
      ((∀ n, pItem.item ≠ .numInt true n) → pResult.narrow = pResult) := by
  obtain ⟨item, length, decimal⟩ := pItem
  cases item with
  | numInt fLong n =>
    rw [vmAddInt_widens (Held.lim hvalid) h]
    cases fLong with
    | false =>
      obtain ⟨hlim, htest⟩ := hint n hvalid
      rw [widen_of_lim hlim]
      by_cases hnarrow : LimInt (n + lAdd)
      · have hput : putNumIntRaw (n + lAdd) = .numInt false (n + lAdd) := by
          rw [putNumIntRaw, decide_eq_false (not_not.mpr hnarrow)]
        exact ⟨_, if_pos (htest.trans (decide_eq_true hnarrow)), rfl,
          fun _ => congrArg (stored 0) hput⟩
      · have hput : putNumIntRaw (n + lAdd) = .numInt true (n + lAdd) := by
          rw [putNumIntRaw, decide_eq_true hnarrow]
        exact ⟨_, if_neg (by rw [htest, decide_eq_true_iff]; exact hnarrow), rfl,
          fun _ => congrArg (stored 0) hput⟩
    | true =>
      have htest := hlong n hvalid
      rw [widen, ← hop]
      by_cases hlim : LimLong (n + lAdd)
      · rw [if_pos hlim]
        exact ⟨_, if_pos (htest.trans (decide_eq_true hlim)), rfl, fun hint => absurd rfl (hint n)⟩
      · rw [if_neg hlim]
        exact ⟨_, if_neg (by rw [htest, decide_eq_true_iff]; exact hlim), rfl, fun _ => rfl⟩
  | double d =>
    refine ⟨_, rfl, ?_, fun _ => rfl⟩
    exact congrArg (fun d => Except.ok (stored decimal (.double d))) (hop d).symm
  | date julian | timestamp julian time => exact ⟨_, rfl, rfl, fun _ => rfl⟩
  | nil | logical _ | string _ => exact hvalid.elim

section

variable (hvalid : pItem.Valid)

include hvalid

theorem vmInc_narrow : ∃ pResult, vmInc pItem = .ok pResult ∧
    vmAddInt pItem 1 = .ok pResult.narrow ∧
    ((∀ n, pItem.item ≠ .numInt true n) → pResult.narrow = pResult) := by
  refine vmStep_narrow hvalid ⟨by decide, by decide⟩ (fun n hn => ?_) (fun n hn => ?_) fun _ => rfl
  · obtain ⟨hlow, hhigh⟩ := hn
    exact ⟨⟨by omega, by omega⟩, decide_eq_decide.mpr (by unfold LimInt; omega)⟩
  · obtain ⟨hlow, hhigh⟩ := hn
    exact decide_eq_decide.mpr (by unfold LimLong; omega)

theorem vmDec_narrow : ∃ pResult, vmDec pItem = .ok pResult ∧
    vmAddInt pItem (-1) = .ok pResult.narrow ∧
    ((∀ n, pItem.item ≠ .numInt true n) → pResult.narrow = pResult) := by
  refine vmStep_narrow hvalid ⟨by decide, by decide⟩ (fun n hn => ?_) (fun n hn => ?_) fun d => ?_
  · obtain ⟨hlow, hhigh⟩ := hn
    exact ⟨⟨by omega, by omega⟩, decide_eq_decide.mpr (by unfold LimInt; omega)⟩
  · obtain ⟨hlow, hhigh⟩ := hn
    exact decide_eq_decide.mpr (by unfold LimLong; omega)
  · have hneg := sub_ofInt_neg d (show LimInt (-1) from ⟨by decide, by decide⟩)
    rwa [neg_neg] at hneg

end

end FastPaths

section Results

variable {fLong1 fLong2 : Bool} {n1 n2 lAdd : Int} {pItem : Stored}

theorem mul_lim (h1 : LimInt n1) (h2 : LimInt n2) : LimLong (n1 * n2) := by
  have habs1 : |n1| ≤ 2 ^ 31 := abs_le.mpr ⟨h1.1, by have := h1.2; omega⟩
  have habs2 : |n2| ≤ 2 ^ 31 := abs_le.mpr ⟨h2.1, by have := h2.2; omega⟩
  have hmul : |n1 * n2| ≤ 2 ^ 31 * 2 ^ 31 := by
    rw [abs_mul]
    exact mul_le_mul habs1 habs2 (abs_nonneg n2) (by decide)
  obtain ⟨hlow, hhigh⟩ := abs_le.mp hmul
  exact ⟨by omega, by omega⟩

theorem vmMult_exact (h1 : Held fLong1 n1) (h2 : Held fLong2 n2)
    (hmult : vmMult (.numInt fLong1 n1) (.numInt fLong2 n2) = .ok (.numInt fLong n))
    (hexact : fLong1 = false ∧ fLong2 = false ∨ Representable 53 (n1 : ℚ) ∧
      Representable 53 (n2 : ℚ) ∧ Representable 53 ((n1 * n2 : ℤ) : ℚ)) : n = n1 * n2 := by
  have hdouble (hput : itemPutNumType ((ofInt n1).mul (ofInt n2)) false =
      .numInt fLong n) (hrepr : Representable 53 (n1 : ℚ) ∧ Representable 53 (n2 : ℚ) ∧
        Representable 53 ((n1 * n2 : ℤ) : ℚ)) : n = n1 * n2 := by
    obtain ⟨hrepr1, hrepr2, hrepr⟩ := hrepr
    have hvalue : ((ofInt n1 : Double).mul (ofInt n2)).value =
        ((n1 * n2 : ℤ) : ℚ) := by
      rw [mul, ofInt, ofInt, round_value hrepr1,
        round_value hrepr2, ← Int.cast_mul, round_value hrepr]
    have htruncate : truncate ((n1 * n2 : ℤ) : ℚ) = n1 * n2 := by
      exact Int.tdiv_one _
    unfold itemPutNumType at hput
    rw [hvalue, htruncate] at hput
    split_ifs at hput <;> cases hput <;> rfl
  cases fLong1 with
  | false =>
    cases fLong2 with
    | false =>
      rw [vmMult, wrap64_of_lim (mul_lim h1 h2)] at hmult
      cases hmult
      rfl
    | true => exact hdouble (Except.ok.inj hmult) (hexact.resolve_left nofun)
  | true => exact hdouble (Except.ok.inj hmult) (hexact.resolve_left nofun)

theorem vmDivide_double :
    vmDivide (.numInt fLong1 n1) (.numInt fLong2 n2) ≠ .ok (.numInt fLong n) := by
  rw [vmDivide]
  split <;> rintro ⟨⟩

/-- The integer operators are exact or widened, and the increments are their special cases. -/
theorem integers_exact_or_widened (h1 : Held fLong1 n1) (h2 : Held fLong2 n2)
    (hvalid : pItem.Valid) (h : LimInt lAdd) (HB_SET_DECIMALS : Nat) :
    vmPlus (.numInt fLong1 n1) (.numInt fLong2 n2) =
        .ok (widen (n1 + n2) ((ofInt n1).add (ofInt n2))) ∧
      vmMinus (.numInt fLong1 n1) (.numInt fLong2 n2) =
        .ok (widen (n1 - n2) ((ofInt n1).sub (ofInt n2))) ∧
      (∃ item, vmNegate (.numInt fLong1 n1) = .ok item ∧
        (LimLong (-n1) ∧ (∃ fLong, item = .numInt fLong (-n1)) ∨
          ¬ LimLong (-n1) ∧ ∃ d : Double, item = .double d ∧ d.value = (-n1 : ℤ))) ∧
      (∀ fLong n, vmMult (.numInt fLong1 n1) (.numInt fLong2 n2) = .ok (.numInt fLong n) →
        (fLong1 = false ∧ fLong2 = false ∨ Representable 53 (n1 : ℚ) ∧
          Representable 53 (n2 : ℚ) ∧ Representable 53 ((n1 * n2 : ℤ) : ℚ)) → n = n1 * n2) ∧
      (∀ fLong n, vmDivide (.numInt fLong1 n1) (.numInt fLong2 n2) ≠ .ok (.numInt fLong n)) ∧
      (pItem.Keeps lAdd →
        vmAddInt pItem lAdd = plus HB_SET_DECIMALS pItem (constant lAdd) ∧
          vmAddInt pItem lAdd = minus HB_SET_DECIMALS pItem (constant (-lAdd))) ∧
      (pItem.Keeps 1 → ∃ pResult, vmInc pItem = .ok pResult ∧
        plus HB_SET_DECIMALS pItem (constant 1) = .ok pResult.narrow ∧
        ((∀ n, pItem.item ≠ .numInt true n) → pResult.narrow = pResult)) ∧
      (pItem.Keeps (-1) → ∃ pResult, vmDec pItem = .ok pResult ∧
        minus HB_SET_DECIMALS pItem (constant 1) = .ok pResult.narrow ∧
        ((∀ n, pItem.item ≠ .numInt true n) → pResult.narrow = pResult)) := by
  have hadd {l : Int} (hl : LimInt l) (hkeeps : pItem.Keeps l) :
      vmAddInt pItem l = plus HB_SET_DECIMALS pItem (constant l) ∧
        vmAddInt pItem l = minus HB_SET_DECIMALS pItem (constant (-l)) := by
    have hplus := vmAddInt_plus HB_SET_DECIMALS hvalid hkeeps hl
    exact ⟨hplus, hplus.trans (plus_eq_minus HB_SET_DECIMALS hvalid hl)⟩
  refine ⟨vmPlus_widens h1.lim h2.lim, vmMinus_widens h1.lim h2.lim, vmNegate_exact h1,
    fun fLong n => vmMult_exact h1 h2, fun fLong n => vmDivide_double, hadd h, fun hkeeps => ?_,
    fun hkeeps => ?_⟩
  · rw [← (hadd ⟨by decide, by decide⟩ hkeeps).1]
    exact vmInc_narrow hvalid
  · have hminus := (hadd ⟨by decide, by decide⟩ hkeeps).2
    rw [neg_neg] at hminus
    rw [← hminus]
    exact vmDec_narrow hvalid

theorem integers_exact_or_widened_greatest :
    vmPlus (.numInt true (2 ^ 63 - 1)) (.numInt false 1) =
      .ok (.double ((ofInt (2 ^ 63 - 1)).add (ofInt 1))) :=
  (integers_exact_or_widened (show Held true (2 ^ 63 - 1) from ⟨by decide, by decide⟩)
    (show Held false 1 from ⟨by decide, by decide⟩)
    (show (constant 5).Valid from ⟨by decide, by decide⟩)
    (show LimInt (-7) from ⟨by decide, by decide⟩) 2).1

/-- Two doubles that were rounded already are added, a long product is one of doubles, a long stays
a long, and the time of day is kept as the day becomes negative. -/
theorem integers_rounded_or_kept :
    vmPlus (.numInt true (2 ^ 62 + 512)) (.numInt true (2 ^ 62 + 513)) =
        .ok (.double (ofInt (2 ^ 63))) ∧
      (ofInt (2 ^ 63) : Double) ≠ ofInt (2 ^ 62 + 512 + (2 ^ 62 + 513)) ∧
      vmMult (.numInt true (2 ^ 53 + 1)) (.numInt false 1) = .ok (.numInt true (2 ^ 53)) ∧
      vmDec (stored 0 (.numInt true (2 ^ 31))) = .ok (stored 0 (.numInt true (2 ^ 31 - 1))) ∧
      minus 2 (stored 0 (.numInt true (2 ^ 31))) (constant 1) =
        .ok (stored 0 (.numInt false (2 ^ 31 - 1))) ∧
      vmDec (stored 0 (.timestamp 0 1)) = .ok (stored 0 (.timestamp (-1) 1)) ∧
      minus 2 (stored 0 (.timestamp 0 1)) (constant 1) =
        .ok (stored 0 (.timestamp 0 (1 - millisecsPerDay))) := by
  decide +kernel

end Results

end Harbour.Vm.Increments
