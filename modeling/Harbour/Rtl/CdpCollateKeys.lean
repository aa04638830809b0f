import Harbour.Rtl.CdpCollateOrder

/-!
The comparison of strings of one length with each other and with another string.
-/

namespace Harbour.Rtl.CdpCollate

open Library.TieBreak List

/-- `hb_cdpcmp`; a code page that sorts by the bytes has the bytes for weights. -/
def cdpcmp (cdp : CodePage) (szFirst szSecond : Bytes) (fExact : Bool) : Int :=
  if cdp.multi.isEmpty then cdpStd_cmp cdp fExact szFirst szSecond
  else cdpMulti_cmp cdp fExact szFirst szSecond

/-- A comparison that orders some strings and goes along this order with another one. -/
structure Collates (cmp : Bytes → Bytes → Int) (keys : Set Bytes) (val : Bytes) : Prop where
  mono : ∀ a ∈ keys, ∀ b ∈ keys, 0 ≤ cmp b a → cmp a val ≤ cmp b val
  tie : ∀ a ∈ keys, ∀ b ∈ keys, cmp a val = 0 → cmp b val = 0 → a.length = val.length →
    0 ≤ cmp b a → cmp b a = 0

section Std

variable (cdp : CodePage)

def weights (a : Bytes) : List Nat := a.map fun u => (cdp.sort u).toNat

/-- The places of the bytes where they break ties. -/
def accents (a : Bytes) : List Nat :=
  if cdp.acc.isSome then a.map fun u => (cdp.accent u).toNat else []

variable {cdp}

theorem sign_eq_threeWay {u v : UInt8} (hne : u ≠ v) : sign u v = threeWay u.toNat v.toNat := by
  have hnat : u.toNat ≠ v.toNat := fun h => hne (UInt8.toNat_inj.mp h)
  unfold sign threeWay
  simp only [UInt8.lt_iff_toNat_lt]
  split_ifs <;> first | rfl | omega

theorem stdLoop_ret (fSame : Bool) (iAcc : Int) (a b : Bytes) :
    (stdLoop cdp id false fSame iAcc a b).1 =
      firstDiff threeWay (weights cdp a) (weights cdp b) := by
  induction a generalizing b iAcc with
  | nil => simp [stdLoop, weights, firstDiff]
  | cons c1 a ih =>
    cases b with
    | nil => simp [stdLoop, weights, firstDiff]
    | cons c2 b =>
      rw [stdLoop, weights, weights, map_cons, map_cons, firstDiff]
      by_cases hsort : cdp.sort c1 = cdp.sort c2
      · have hzero : ¬ threeWay (cdp.sort c1).toNat (cdp.sort c2).toNat ≠ 0 :=
          not_not.mpr (threeWay_eq_zero.mpr (congrArg UInt8.toNat hsort))
        rw [if_neg hzero]
        simp only [id, hsort, ne_eq, not_true_eq_false, if_false]
        split_ifs
        · exact ih _ b
        · exact ih _ b
      · have hne : c1 ≠ c2 := fun h => hsort (congrArg cdp.sort h)
        rw [← sign_eq_threeWay hsort, if_pos sign_ne_zero]
        exact congrArg Prod.fst ((if_pos hne).trans (if_pos hsort))

theorem stdLoop_acc_same {fSame : Bool} (hacc : (fSame && cdp.acc.isSome) = false) (iAcc : Int)
    (a b : Bytes) : (stdLoop cdp id false fSame iAcc a b).2 = iAcc := by
  have htie : ∀ u1 u2, tieAcc cdp false fSame iAcc u1 u2 = iAcc := by
    intro u1 u2
    refine if_neg ?_
    rintro ⟨-, hexact | ⟨hsame, hsome⟩⟩
    · exact Bool.false_ne_true hexact
    · rw [hsame, hsome] at hacc
      exact Bool.false_ne_true hacc.symm
  induction a generalizing b with
  | nil => simp [stdLoop]
  | cons c1 a ih =>
    cases b with
    | nil => simp [stdLoop]
    | cons c2 b =>
      rw [stdLoop]
      simp only [id, htie]
      split_ifs
      · rfl
      · exact ih b
      · exact ih b

theorem stdLoop_acc (hsep : cdp.Separates) (hacc : cdp.acc.isSome) (iAcc : Int) (a b : Bytes)
    (hequal : firstDiff threeWay (weights cdp a) (weights cdp b) = 0) :
    (stdLoop cdp id false true iAcc a b).2 =
      if iAcc ≠ 0 then iAcc else firstDiff threeWay (accents cdp a) (accents cdp b) := by
  rw [accents, accents, if_pos hacc, if_pos hacc]
  induction a generalizing b iAcc with
  | nil =>
    simp only [stdLoop, map_nil]
    split_ifs with h
    · rfl
    · exact not_not.mp h
  | cons c1 a ih =>
    cases b with
    | nil =>
      simp only [stdLoop, map_nil]
      split_ifs with h
      · rfl
      · exact not_not.mp h
    | cons c2 b =>
      rw [weights, weights, map_cons, map_cons, firstDiff] at hequal
      by_cases hsort : cdp.sort c1 = cdp.sort c2
      · rw [if_neg (not_not.mpr (threeWay_eq_zero.mpr (congrArg UInt8.toNat hsort)))] at hequal
        rw [stdLoop, map_cons, map_cons, firstDiff]
        by_cases hu : c1 = c2
        · have hsame := threeWay_eq_zero.mpr (congrArg (fun u => (cdp.accent u).toNat) hu)
          rw [if_neg (not_not.mpr hsame)]
          exact (congrArg Prod.snd (if_neg (not_not.mpr hu))).trans (ih iAcc b hequal)
        · have hdiff := sign_eq_threeWay (hsep c1 c2 hu hsort)
          have htie : tieAcc cdp false true iAcc c1 c2 =
              if iAcc ≠ 0 then iAcc else sign (cdp.accent c1) (cdp.accent c2) := by
            unfold tieAcc
            simp only [hacc, and_self, or_true, and_true, ne_eq, ite_not]
          rw [← hdiff, if_pos sign_ne_zero]
          have hrest := ih (tieAcc cdp false true iAcc c1 c2) b hequal
          have hbroken : tieAcc cdp false true iAcc c1 c2 ≠ 0 := by
            rw [htie]
            split_ifs with h
            · exact h
            · exact sign_ne_zero
          rw [if_pos hbroken] at hrest
          rw [← htie, ← hrest]
          exact congrArg Prod.snd ((if_pos hu).trans (if_neg (not_not.mpr hsort)))
      · have hne : threeWay (cdp.sort c1).toNat (cdp.sort c2).toNat ≠ 0 :=
          fun h => hsort (UInt8.toNat_inj.mp (threeWay_eq_zero.mp h))
        rw [if_pos hne] at hequal
        exact absurd hequal hne

theorem weights_length (a : Bytes) : (weights cdp a).length = a.length := length_map _

theorem accents_length {a b : Bytes} (hlength : a.length = b.length) :
    (accents cdp a).length = (accents cdp b).length := by
  unfold accents
  split_ifs
  · rw [length_map, length_map, hlength]
  · rfl

variable (hsep : cdp.acc = none ∨ cdp.Separates)

include hsep

/-- Strings of one length compare by their weights and then by the places of the bytes. -/
theorem cdpStd_cmp_same {a b : Bytes} (hlength : a.length = b.length) :
    cdpStd_cmp cdp false a b =
      firstDiff threeWay (weights cdp a ++ accents cdp a) (weights cdp b ++ accents cdp b) := by
  have hlengths : (weights cdp a).length = (weights cdp b).length := by
    rw [weights_length, weights_length, hlength]
  rw [firstDiff_append hlengths, cdpStd_cmp, stdCompare, stdLoop_ret, finish]
  by_cases hweights : firstDiff threeWay (weights cdp a) (weights cdp b) = 0
  · rw [if_neg (not_not.mpr hweights), if_neg (not_not.mpr hweights)]
    simp only [hlength, Nat.lt_irrefl, and_false, if_false, decide_true]
    by_cases hacc : cdp.acc.isSome
    · have hnone : cdp.acc ≠ none := Option.isSome_iff_ne_none.mp hacc
      have htie := stdLoop_acc (hsep.resolve_left hnone) hacc 0 a b hweights
      rw [if_neg (not_not.mpr rfl)] at htie
      rw [htie]
      split_ifs with h
      · rfl
      · exact (not_not.mp h).symm
    · rw [stdLoop_acc_same (by simp [hacc]), accents, accents, if_neg hacc, if_neg hacc]
      rfl
  · rw [if_pos hweights, if_pos hweights]

omit hsep in
theorem cdpStd_cmp_other {a b : Bytes} (hlength : a.length ≠ b.length) :
    cdpStd_cmp cdp false a b =
      if firstDiff threeWay (weights cdp a) (weights cdp b) ≠ 0 then
        firstDiff threeWay (weights cdp a) (weights cdp b)
      else if a.length < b.length then -1 else 0 := by
  rw [cdpStd_cmp, stdCompare, stdLoop_ret, stdLoop_acc_same (by simp [hlength]), finish]
  simp only [ne_eq, not_true_eq_false, if_false, Bool.false_eq_true, false_and]

/-- A page without characters of two bytes orders all strings of one length. -/
theorem std_collates (hmulti : cdp.multi = []) {keys : Set Bytes} {n : Nat}
    (hkeys : ∀ a ∈ keys, a.length = n) (val : Bytes) :
    Collates (cdpcmp cdp · · false) keys val := by
  have hcmp : ∀ a b, cdpcmp cdp a b false = cdpStd_cmp cdp false a b := by
    intro a b
    exact if_pos (by rw [hmulti]; rfl)
  have hlengths : ∀ {a b : Bytes}, a.length = b.length →
      (weights cdp a ++ accents cdp a).length = (weights cdp b ++ accents cdp b).length := by
    intro a b hlength
    rw [length_append, length_append, weights_length, weights_length, hlength,
      accents_length hlength]
  refine ⟨fun a ha b hb hle => ?_, fun a ha b hb hza hzb hval hle => ?_⟩
  · have hab : a.length = b.length := (hkeys a ha).trans (hkeys b hb).symm
    simp only [hcmp] at hle ⊢
    rw [cdpStd_cmp_same hsep hab.symm] at hle
    by_cases hval : a.length = val.length
    · rw [cdpStd_cmp_same hsep hval, cdpStd_cmp_same hsep (hab ▸ hval)]
      exact firstDiff_threeWay_mono (hlengths hab) hle _
    · have hweights : (weights cdp a).length = (weights cdp b).length := by
        rw [weights_length, weights_length, hab]
      rw [firstDiff_append hweights.symm] at hle
      have hle' : 0 ≤ firstDiff threeWay (weights cdp b) (weights cdp a) := by
        split_ifs at hle <;> omega
      have hmono := firstDiff_threeWay_mono hweights hle' (weights cdp val)
      have ha' := firstDiff_unit threeWay_unit (weights cdp a) (weights cdp val)
      have hb' := firstDiff_unit threeWay_unit (weights cdp b) (weights cdp val)
      rw [cdpStd_cmp_other hval, cdpStd_cmp_other (hab ▸ hval), hab]
      split_ifs <;> omega
  · have hab : a.length = b.length := (hkeys a ha).trans (hkeys b hb).symm
    simp only [hcmp] at hza hzb ⊢
    rw [cdpStd_cmp_same hsep hval, firstDiff_threeWay_eq_zero (hlengths hval)] at hza
    have hbval : b.length = val.length := hab.symm.trans hval
    rw [cdpStd_cmp_same hsep hbval, firstDiff_threeWay_eq_zero (hlengths hbval)] at hzb
    rw [cdpStd_cmp_same hsep hab.symm, firstDiff_threeWay_eq_zero (hlengths hab.symm)]
    exact hzb.trans hza.symm

end Std

end Harbour.Rtl.CdpCollate
