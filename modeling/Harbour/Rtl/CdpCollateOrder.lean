import Harbour.Rtl.CdpCollate
import Mathlib.Tactic.SplitIfs

/-!
Which code pages order the strings, each byte of which is a character.
-/

namespace Harbour.Rtl.CdpCollate

open Library.TieBreak List

/-- Different bytes of one weight have different places among them. -/
def CodePage.Separates (cdp : CodePage) : Prop :=
  ∀ u v, u ≠ v → cdp.sort u = cdp.sort v → cdp.accent u ≠ cdp.accent v

variable {cdp : CodePage} {char : UInt8 → UInt8}

theorem sign_unit {α : Type*} [LT α] [DecidableLT α] (x y : α) : -1 ≤ sign x y ∧ sign x y ≤ 1 := by
  unfold sign
  split_ifs
  · decide
  · decide

theorem sign_ne_zero {α : Type*} [LT α] [DecidableLT α] {x y : α} : sign x y ≠ 0 := by
  unfold sign
  split_ifs
  · decide
  · decide

theorem sign_neg_iff {α : Type*} [LT α] [DecidableLT α] {x y : α} : sign x y < 0 ↔ x < y := by
  unfold sign
  split_ifs with h
  · simp [h]
  · simp [h]

theorem sign_swap {α : Type*} [LT α] [DecidableLT α] {x y : α} (hne : x < y ∨ y < x)
    (hasymm : x < y → ¬y < x) : sign x y = -sign y x := by
  unfold sign
  rcases hne with hlt | hgt
  · rw [if_pos hlt, if_neg (hasymm hlt)]
  · rw [if_neg fun hlt => hasymm hlt hgt, if_pos hgt]
    rfl

theorem sign_swap_byte {x y : UInt8} (hne : x ≠ y) : sign x y = -sign y x :=
  sign_swap (UInt8.lt_or_lt_of_ne hne) UInt8.lt_asymm

def stdFirst (cdp : CodePage) (u1 u2 : UInt8) : Int :=
  if cdp.sort u1 ≠ cdp.sort u2 then sign (cdp.sort u1) (cdp.sort u2) else 0

def stdSecond (cdp : CodePage) (u1 u2 : UInt8) : Int :=
  if u1 ≠ u2 then sign (cdp.accent u1) (cdp.accent u2) else 0

theorem tieAcc_exact (iAcc : Int) (fSame : Bool) (u1 u2 : UInt8) :
    tieAcc cdp true fSame iAcc u1 u2 =
      if iAcc = 0 then sign (cdp.accent u1) (cdp.accent u2) else iAcc := by
  unfold tieAcc
  simp

theorem finish_tie (iAcc : Int) (n m : Nat) :
    finish true 0 iAcc n m =
      if iAcc ≠ 0 then iAcc else if n < m then -1 else if m < n then 1 else 0 := by
  unfold finish
  simp

theorem finish_ret {iRet : Int} (h : iRet ≠ 0) (iAcc : Int) (n m : Nat) :
    finish true iRet iAcc n m = iRet := by
  unfold finish
  rw [if_pos h]

theorem stdLoop_eq_scan (cdp : CodePage) (char : UInt8 → UInt8) (fSame : Bool) (iAcc : Int)
    (n : Nat) (a b : Bytes) :
    finish true (stdLoop cdp char true fSame iAcc a b).1 (stdLoop cdp char true fSame iAcc a b).2
        (n + a.length) (n + b.length) =
      scan (stdFirst cdp) (stdSecond cdp) iAcc (a.map char) (b.map char) := by
  induction a generalizing b iAcc n with
  | nil =>
    cases b with
    | nil =>
      have hloop : stdLoop cdp char true fSame iAcc [] [] = (0, iAcc) := by simp [stdLoop]
      rw [hloop, finish_tie, if_neg (lt_irrefl _), if_neg (lt_irrefl _)]
      split_ifs with h
      · rfl
      · exact (not_not.mp h).symm
    | cons c2 b => simp [stdLoop, scan, finish_tie]
  | cons c1 a ih =>
    cases b with
    | nil => simp [stdLoop, scan, finish_tie]
    | cons c2 b =>
      have hlengths : n + (c1 :: a).length = n + 1 + a.length ∧
          n + (c2 :: b).length = n + 1 + b.length := by
        simp only [length_cons]
        omega
      rw [hlengths.1, hlengths.2, map_cons, map_cons, stdLoop, scan]
      by_cases hu : char c1 = char c2
      · have hfirst : stdFirst cdp (char c1) (char c2) = 0 := by simp [stdFirst, hu]
        have hsecond : stdSecond cdp (char c1) (char c2) = 0 := by simp [stdSecond, hu]
        have htie : (if iAcc = 0 then (0 : Int) else iAcc) = iAcc := by
          split_ifs with h
          · exact h.symm
          · rfl
        rw [if_neg (not_not.mpr hu), if_neg (not_not.mpr hfirst), hsecond, htie]
        exact ih iAcc (n + 1) b
      · rw [if_pos hu]
        by_cases hsort : cdp.sort (char c1) = cdp.sort (char c2)
        · have hfirst : stdFirst cdp (char c1) (char c2) = 0 := by simp [stdFirst, hsort]
          have hsecond : stdSecond cdp (char c1) (char c2) =
              sign (cdp.accent (char c1)) (cdp.accent (char c2)) := if_pos hu
          rw [if_neg (not_not.mpr hsort), if_neg (not_not.mpr hfirst), hsecond, tieAcc_exact]
          exact ih _ (n + 1) b
        · have hfirst : stdFirst cdp (char c1) (char c2) =
              sign (cdp.sort (char c1)) (cdp.sort (char c2)) := if_pos hsort
          rw [if_pos hsort, hfirst, if_pos sign_ne_zero, finish_ret sign_ne_zero]

theorem stdCompare_eq_scan (a b : Bytes) : stdCompare cdp char true a b =
    scan (stdFirst cdp) (stdSecond cdp) 0 (a.map char) (b.map char) := by
  have h := stdLoop_eq_scan cdp char (a.length = b.length) 0 0 a b
  rw [Nat.zero_add, Nat.zero_add] at h
  exact h

theorem stdLetters : Letters (stdFirst cdp) (stdSecond cdp) := by
  refine ⟨fun x y => ?_, fun x y => ?_, fun x y h => ?_, fun x y h => ?_⟩
  · unfold stdFirst
    split_ifs
    · exact sign_unit ..
    · decide
  · unfold stdSecond
    split_ifs
    · exact sign_unit ..
    · decide
  · unfold stdFirst at h ⊢
    split_ifs at h with hsort
    · exact absurd h sign_ne_zero
    · rw [if_neg (fun hne => hsort fun heq => hne heq.symm)]
  · by_contra hne
    by_cases hsort : cdp.sort x = cdp.sort y
    · have hfirst : stdFirst cdp x y = 0 := by simp [stdFirst, hsort]
      rw [both_eq_second hfirst] at h
      unfold stdSecond at h
      rw [if_pos hne] at h
      exact sign_ne_zero h
    · have hfirst : stdFirst cdp x y ≠ 0 := by
        unfold stdFirst
        rw [if_pos hsort]
        exact sign_ne_zero
      rw [both_eq_first hfirst] at h
      exact hfirst h

theorem stdBoth_orders (hsep : cdp.Separates) (s : Set UInt8) :
    Orders (both (stdFirst cdp) (stdSecond cdp)) s := by
  have hneg : ∀ x y, both (stdFirst cdp) (stdSecond cdp) x y < 0 ↔ cdp.sort x < cdp.sort y ∨
      cdp.sort x = cdp.sort y ∧ x ≠ y ∧ cdp.accent x < cdp.accent y := by
    intro x y
    by_cases hsort : cdp.sort x = cdp.sort y
    · have hfirst : stdFirst cdp x y = 0 := by simp [stdFirst, hsort]
      rw [both_eq_second hfirst]
      unfold stdSecond
      split_ifs with hne
      · simp [hsort, hne, sign_neg_iff]
      · simp [not_not.mp hne]
    · have hfirst : stdFirst cdp x y = sign (cdp.sort x) (cdp.sort y) := if_pos hsort
      rw [both_eq_first (hfirst ▸ sign_ne_zero), hfirst, sign_neg_iff]
      simp [hsort]
  refine ⟨fun x _ y _ => ?_, fun x _ y _ z _ hxy hyz => ?_⟩
  · unfold both stdFirst stdSecond
    rcases eq_or_ne x y with rfl | hne
    · simp
    · by_cases hsort : cdp.sort x = cdp.sort y
      · simp [hsort, hne, hne.symm, sign_swap_byte (hsep x y hne hsort)]
      · have hsort' : ¬cdp.sort y = cdp.sort x := fun h => hsort h.symm
        rw [if_pos hsort, if_pos hsort', if_pos sign_ne_zero, if_pos sign_ne_zero]
        exact sign_swap_byte hsort
  · rw [hneg] at hxy hyz ⊢
    rcases hxy with hxy | ⟨hxy, hxyne, hxyacc⟩
    · rcases hyz with hyz | ⟨hyz, -, -⟩
      · exact Or.inl (UInt8.lt_trans hxy hyz)
      · exact Or.inl (hyz ▸ hxy)
    · rcases hyz with hyz | ⟨hyz, -, hyzacc⟩
      · exact Or.inl (hxy ▸ hyz)
      · refine Or.inr ⟨hxy.trans hyz, ?_, UInt8.lt_trans hxyacc hyzacc⟩
        rintro rfl
        exact UInt8.lt_asymm hxyacc hyzacc

theorem mapClosed : Closed (Set.range (map char)) := by
  refine ⟨fun x xs h => ?_, fun x xs h => ?_⟩
  · obtain ⟨_ | ⟨c, a⟩, ha⟩ := h
    · exact nomatch ha
    · exact ⟨a, (List.cons.inj ha).2⟩
  · obtain ⟨_ | ⟨c, a⟩, ha⟩ := h
    · exact nomatch ha
    · exact ⟨[c], by rw [map_singleton, (List.cons.inj ha).1]⟩

/-- Only weights matter, or only the places of the bytes do. -/
def OneLevel (cdp : CodePage) (char : UInt8 → UInt8) : Prop :=
  (∀ b c, cdp.sort (char b) = cdp.sort (char c) → char b = char c) ∨
    ∀ b c, cdp.sort (char b) = cdp.sort (char c)

theorem std_noFork_iff (hsep : cdp.Separates) :
    NoFork (stdFirst cdp) (stdSecond cdp) (Set.range (map char)) ↔ OneLevel cdp char := by
  constructor
  · intro hfork
    by_contra hlevel
    unfold OneLevel at hlevel
    push Not at hlevel
    obtain ⟨⟨b, c, hsort, hne⟩, d, e, hweights⟩ := hlevel
    -- the tie in the order of its bytes, the difference of weights in the other one
    have hnone : ∀ x y v w : UInt8, cdp.sort (char x) = cdp.sort (char y) → char x ≠ char y →
        cdp.accent (char x) < cdp.accent (char y) → cdp.sort (char v) < cdp.sort (char w) →
        False := by
      intro x y v w hxy hxyne hacc hvw
      have hfirst : stdFirst cdp (char x) (char y) = 0 := by simp [stdFirst, hxy]
      have hsecond : stdSecond cdp (char x) (char y) < 0 := by
        unfold stdSecond
        rw [if_pos hxyne]
        exact sign_neg_iff.mpr hacc
      refine hfork (char x) [char w] (char y) [char v] ⟨[x, w], rfl⟩ ⟨[y, v], rfl⟩ hfirst
        hsecond ?_
      have hwv : stdFirst cdp (char w) (char v) = 1 := by
        unfold stdFirst sign
        rw [if_pos (UInt8.ne_of_lt hvw).symm, if_neg (UInt8.lt_asymm hvw)]
      simp [firstDiff, hwv]
    rcases UInt8.lt_or_lt_of_ne (hsep _ _ hne hsort) with hacc | hacc
    · rcases UInt8.lt_or_lt_of_ne hweights with hlt | hgt
      · exact hnone b c d e hsort hne hacc hlt
      · exact hnone b c e d hsort hne hacc hgt
    · rcases UInt8.lt_or_lt_of_ne hweights with hlt | hgt
      · exact hnone c b d e hsort.symm hne.symm hacc hlt
      · exact hnone c b e d hsort.symm hne.symm hacc hgt
  · rintro hlevel x xs y ys ⟨a, ha⟩ ⟨b, hb⟩ hxy hlt hpos
    obtain ⟨c, a, rfl⟩ : ∃ c a', a = c :: a' := exists_cons_of_ne_nil (by rintro rfl; cases ha)
    obtain ⟨d, b, rfl⟩ : ∃ d b', b = d :: b' := exists_cons_of_ne_nil (by rintro rfl; cases hb)
    obtain ⟨rfl, rfl⟩ := List.cons.inj ha
    obtain ⟨rfl, rfl⟩ := List.cons.inj hb
    rcases hlevel with hinj | hconst
    · have hsort : cdp.sort (char c) = cdp.sort (char d) := by
        by_contra hne
        unfold stdFirst at hxy
        rw [if_pos hne] at hxy
        exact sign_ne_zero hxy
      unfold stdSecond at hlt
      rw [if_neg (not_not.mpr (hinj c d hsort))] at hlt
      exact absurd hlt (by decide)
    · have hzero : ∀ a b : Bytes, firstDiff (stdFirst cdp) (a.map char) (b.map char) = 0 := by
        intro a b
        induction a generalizing b with
        | nil => cases b <;> rfl
        | cons v a ih =>
          cases b with
          | nil => rfl
          | cons w b => simp [firstDiff, stdFirst, hconst v w, ih b]
      rw [hzero] at hpos
      exact absurd hpos (by decide)

theorem std_orders_iff (hsep : cdp.Separates) :
    Orders (stdCompare cdp char true) Set.univ ↔ OneLevel cdp char := by
  rw [Orders.comap (map char) stdCompare_eq_scan, orders_scan_iff stdLetters mapClosed,
    std_noFork_iff hsep]
  exact and_iff_right (stdBoth_orders hsep _)

theorem std_preorders_iff (hsep : cdp.Separates) :
    Preorders (stdCompare cdp char true) Set.univ ↔ OneLevel cdp char := by
  rw [Preorders.comap (map char) stdCompare_eq_scan,
    preorders_scan_iff stdLetters mapClosed, std_noFork_iff hsep]
  exact and_iff_right (stdBoth_orders hsep _)

end Harbour.Rtl.CdpCollate
