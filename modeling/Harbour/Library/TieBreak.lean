import Mathlib.Data.List.Infix
import Mathlib.Data.Set.Image

/-!
Comparison of words by their letters where a second comparison of letters breaks ties of the first
one: the earliest difference of the first kind decides, then the earliest one of the second kind,
then the length.
-/

namespace Harbour.Library.TieBreak

open List

variable {α : Type*}

/-- A three-way comparison that is antisymmetric and transitive on a set. -/
@[mk_iff]
structure Orders (cmp : α → α → Int) (s : Set α) : Prop where
  antisymm : ∀ a ∈ s, ∀ b ∈ s, cmp a b = -cmp b a
  trans : ∀ a ∈ s, ∀ b ∈ s, ∀ c ∈ s, cmp a b < 0 → cmp b c < 0 → cmp a c < 0

/-- A three-way comparison that is a total preorder on a set. -/
@[mk_iff]
structure Preorders (cmp : α → α → Int) (s : Set α) : Prop where
  antisymm : ∀ a ∈ s, ∀ b ∈ s, cmp a b = -cmp b a
  trans : ∀ a ∈ s, ∀ b ∈ s, ∀ c ∈ s, cmp a b ≤ 0 → cmp b c ≤ 0 → cmp a c ≤ 0

theorem Preorders.orders {cmp : α → α → Int} {s : Set α} (h : Preorders cmp s) : Orders cmp s := by
  refine ⟨h.antisymm, fun a ha b hb c hc hab hbc => ?_⟩
  by_contra hne
  have hca : cmp c a ≤ 0 := by
    rw [h.antisymm c hc a ha]
    omega
  have hcb := h.trans c hc a ha b hb hca hab.le
  rw [h.antisymm c hc b hb] at hcb
  omega

section

variable {β : Type*} {cmp : α → α → Int} {cmp' : β → β → Int} (f : β → α)
  (hcmp : ∀ a b, cmp' a b = cmp (f a) (f b))

include f hcmp

theorem Preorders.comap : Preorders cmp' Set.univ ↔ Preorders cmp (Set.range f) := by
  obtain rfl : cmp' = fun a b => cmp (f a) (f b) := funext₂ hcmp
  simp only [preorders_iff, Set.forall_mem_range, Set.mem_univ, forall_true_left]

theorem Orders.comap : Orders cmp' Set.univ ↔ Orders cmp (Set.range f) := by
  obtain rfl : cmp' = fun a b => cmp (f a) (f b) := funext₂ hcmp
  simp only [orders_iff, Set.forall_mem_range, Set.mem_univ, forall_true_left]

end

section Scan

variable (first second : α → α → Int)

def both (x y : α) : Int := if first x y ≠ 0 then first x y else second x y

/-- The comparison of words, with the earliest tie broken so far. -/
def scan : Int → List α → List α → Int
  | tie, x :: xs, y :: ys =>
    if first x y ≠ 0 then first x y else scan (if tie = 0 then second x y else tie) xs ys
  | tie, [], _ :: _ => if tie ≠ 0 then tie else -1
  | tie, _ :: _, [] => if tie ≠ 0 then tie else 1
  | tie, [], [] => tie

def firstDiff : List α → List α → Int
  | x :: xs, y :: ys => if first x y ≠ 0 then first x y else firstDiff xs ys
  | _, _ => 0

def lex (cmp : α → α → Int) : List α → List α → Int
  | x :: xs, y :: ys => if cmp x y ≠ 0 then cmp x y else lex cmp xs ys
  | [], _ :: _ => -1
  | _ :: _, [] => 1
  | [], [] => 0

variable {first second} {x y : α} {xs ys : List α} {words : Set (List α)}

theorem both_eq_first (h : first x y ≠ 0) : both first second x y = first x y := if_pos h

theorem both_eq_second (h : first x y = 0) : both first second x y = second x y :=
  if_neg (not_not.mpr h)

theorem scan_of_tie {tie : Int} (htie : tie ≠ 0) (xs ys : List α) :
    scan first second tie xs ys =
      if firstDiff first xs ys ≠ 0 then firstDiff first xs ys else tie := by
  induction xs generalizing ys with
  | nil => cases ys <;> simp [scan, firstDiff, htie]
  | cons x xs ih =>
    cases ys with
    | nil => simp [scan, firstDiff, htie]
    | cons y ys =>
      rw [scan, firstDiff]
      by_cases hfirst : first x y = 0
      · rw [if_neg (not_not.mpr hfirst), if_neg (not_not.mpr hfirst), if_neg htie]
        exact ih ys
      · rw [if_pos hfirst, if_pos hfirst, if_pos hfirst]

/-- No word breaks a tie one way and continues with a difference the other way. -/
def NoFork (first second : α → α → Int) (words : Set (List α)) : Prop :=
  ∀ x xs y ys, x :: xs ∈ words → y :: ys ∈ words → first x y = 0 → second x y < 0 →
    ¬0 < firstDiff first xs ys

theorem lex_eq_zero {cmp : α → α → Int} (hzero : ∀ x y, cmp x y = 0 → x = y)
    (h : lex cmp xs ys = 0) : xs = ys := by
  induction xs generalizing ys with
  | nil =>
    cases ys with
    | nil => rfl
    | cons y ys => exact absurd h (by rw [lex]; decide)
  | cons x xs ih =>
    cases ys with
    | nil => exact absurd h (by rw [lex]; decide)
    | cons y ys =>
      rw [lex] at h
      by_cases hxy : cmp x y = 0
      · rw [if_neg (not_not.mpr hxy)] at h
        rw [hzero x y hxy, ih h]
      · rw [if_pos hxy] at h
        exact absurd h hxy

section

variable {cmp : α → α → Int} {s : Set α} (horders : Orders cmp s)

include horders

theorem lex_antisymm (hxs : ∀ x ∈ xs, x ∈ s) (hys : ∀ y ∈ ys, y ∈ s) :
    lex cmp xs ys = -lex cmp ys xs := by
  induction xs generalizing ys with
  | nil => cases ys <;> rfl
  | cons x xs ih =>
    cases ys with
    | nil => rfl
    | cons y ys =>
      have hswap := horders.antisymm x (hxs x mem_cons_self) y (hys y mem_cons_self)
      have hrest := ih (fun z hz => hxs z (mem_cons_of_mem x hz))
        (fun z hz => hys z (mem_cons_of_mem y hz))
      rw [lex, lex]
      split_ifs with hxy hyx
      · omega
      · omega
      · omega
      · exact hrest

theorem lex_trans {zs : List α} (hzero : ∀ x y, cmp x y = 0 → x = y) (hxs : ∀ x ∈ xs, x ∈ s)
    (hys : ∀ y ∈ ys, y ∈ s) (hzs : ∀ z ∈ zs, z ∈ s) (hxy : lex cmp xs ys < 0)
    (hyz : lex cmp ys zs < 0) : lex cmp xs zs < 0 := by
  induction xs generalizing ys zs with
  | nil =>
    cases zs with
    | nil =>
      cases ys with
      | nil => exact hyz
      | cons y ys => exact absurd hyz (by rw [lex]; decide)
    | cons z zs =>
      rw [lex]
      decide
  | cons x xs ih =>
    cases ys with
    | nil => exact absurd hxy (by rw [lex]; decide)
    | cons y ys =>
      cases zs with
      | nil => exact absurd hyz (by rw [lex]; decide)
      | cons z zs =>
        have hx := hxs x mem_cons_self
        have hy := hys y mem_cons_self
        have hz := hzs z mem_cons_self
        rw [lex] at hxy hyz ⊢
        by_cases hcxy : cmp x y = 0
        · obtain rfl := hzero x y hcxy
          rw [if_neg (not_not.mpr hcxy)] at hxy
          split_ifs at hyz ⊢
          · exact hyz
          · exact ih (fun v hv => hxs v (mem_cons_of_mem x hv))
              (fun v hv => hys v (mem_cons_of_mem x hv))
              (fun v hv => hzs v (mem_cons_of_mem z hv)) hxy hyz
        · rw [if_pos hcxy] at hxy
          have hcxz : cmp x z < 0 := by
            by_cases hcyz : cmp y z = 0
            · obtain rfl := hzero y z hcyz
              exact hxy
            · rw [if_pos hcyz] at hyz
              exact horders.trans x hx y hy z hz hxy hyz
          rw [if_pos hcxz.ne]
          exact hcxz

end

theorem firstDiff_antisymm {s : Set α} (horders : Orders (both first second) s)
    (hsymm : ∀ x y, first x y = 0 → first y x = 0) (hxs : ∀ x ∈ xs, x ∈ s)
    (hys : ∀ y ∈ ys, y ∈ s) : firstDiff first xs ys = -firstDiff first ys xs := by
  induction xs generalizing ys with
  | nil => cases ys <;> rfl
  | cons x xs ih =>
    cases ys with
    | nil => rfl
    | cons y ys =>
      have hswap := horders.antisymm x (hxs x mem_cons_self) y (hys y mem_cons_self)
      have hrest := ih (fun z hz => hxs z (mem_cons_of_mem x hz))
        (fun z hz => hys z (mem_cons_of_mem y hz))
      rw [firstDiff, firstDiff]
      by_cases hxy : first x y = 0
      · rw [if_neg (not_not.mpr hxy), if_neg (not_not.mpr (hsymm x y hxy))]
        exact hrest
      · have hyx : first y x ≠ 0 := fun h => hxy (hsymm y x h)
        rw [both_eq_first hxy, both_eq_first hyx] at hswap
        rw [if_pos hxy, if_pos hyx, hswap]

theorem firstDiff_unit (hunit : ∀ x y, -1 ≤ first x y ∧ first x y ≤ 1) (xs ys : List α) :
    -1 ≤ firstDiff first xs ys ∧ firstDiff first xs ys ≤ 1 := by
  induction xs generalizing ys with
  | nil => simp [firstDiff]
  | cons x xs ih =>
    cases ys with
    | nil => simp [firstDiff]
    | cons y ys =>
      rw [firstDiff]
      split_ifs
      · exact hunit x y
      · exact ih ys

theorem firstDiff_append (hlength : xs.length = ys.length) (xs' ys' : List α) :
    firstDiff first (xs ++ xs') (ys ++ ys') =
      if firstDiff first xs ys ≠ 0 then firstDiff first xs ys else firstDiff first xs' ys' := by
  induction xs generalizing ys with
  | nil =>
    obtain rfl := eq_nil_of_length_eq_zero hlength.symm
    rfl
  | cons x xs ih =>
    obtain ⟨y, ys, rfl⟩ := exists_cons_of_length_pos
      (show 0 < ys.length by rw [← hlength]; exact Nat.succ_pos _)
    rw [cons_append, cons_append, firstDiff, firstDiff]
    by_cases hxy : first x y = 0
    · rw [if_neg (not_not.mpr hxy), if_neg (not_not.mpr hxy)]
      exact ih (Nat.succ.inj hlength)
    · rw [if_pos hxy, if_pos hxy, if_pos hxy]

def threeWay (x y : Nat) : Int := if x < y then -1 else if y < x then 1 else 0

theorem threeWay_unit (x y : Nat) : -1 ≤ threeWay x y ∧ threeWay x y ≤ 1 := by
  unfold threeWay
  split_ifs <;> decide

theorem threeWay_eq_zero {x y : Nat} : threeWay x y = 0 ↔ x = y := by
  unfold threeWay
  split_ifs
  · exact iff_of_false (by decide) (by omega)
  · exact iff_of_false (by decide) (by omega)
  · exact iff_of_true rfl (by omega)

theorem firstDiff_threeWay_eq_zero {xs ys : List Nat} (hlength : xs.length = ys.length) :
    firstDiff threeWay xs ys = 0 ↔ xs = ys := by
  induction xs generalizing ys with
  | nil =>
    obtain rfl := eq_nil_of_length_eq_zero hlength.symm
    exact iff_of_true rfl rfl
  | cons x xs ih =>
    obtain ⟨y, ys, rfl⟩ := exists_cons_of_length_pos
      (show 0 < ys.length by rw [← hlength]; exact Nat.succ_pos _)
    rw [firstDiff, List.cons.injEq, ← ih (Nat.succ.inj hlength), ← threeWay_eq_zero]
    split_ifs with hxy
    · exact iff_of_false hxy fun h => hxy h.1
    · exact (and_iff_right (not_not.mp hxy)).symm

/-- Of words of one length a greater one compares greater with every word. -/
theorem firstDiff_threeWay_mono {xs ys : List Nat} (hlength : xs.length = ys.length)
    (hle : 0 ≤ firstDiff threeWay ys xs) (zs : List Nat) :
    firstDiff threeWay xs zs ≤ firstDiff threeWay ys zs := by
  induction xs generalizing ys zs with
  | nil =>
    obtain rfl := eq_nil_of_length_eq_zero hlength.symm
    exact le_rfl
  | cons x xs ih =>
    obtain ⟨y, ys, rfl⟩ := exists_cons_of_length_pos
      (show 0 < ys.length by rw [← hlength]; exact Nat.succ_pos _)
    rw [firstDiff] at hle
    cases zs with
    | nil => exact le_rfl
    | cons z zs =>
      rw [firstDiff, firstDiff]
      rcases Nat.lt_trichotomy y x with hlt | rfl | hgt
      · rw [if_pos (by simp [threeWay, hlt]), threeWay, if_pos hlt] at hle
        exact absurd hle (by decide)
      · rw [if_neg (by simp [threeWay])] at hle
        have hrest := ih (Nat.succ.inj hlength) hle zs
        split_ifs
        · exact le_rfl
        · exact hrest
      · -- the heads already differ against `z`, one way or the other
        have hxs := firstDiff_unit threeWay_unit xs zs
        have hys := firstDiff_unit threeWay_unit ys zs
        have hx := threeWay_unit x z
        have hy := threeWay_unit y z
        have hheads : threeWay x z = -1 ∨ threeWay y z = 1 := by
          unfold threeWay
          split_ifs <;> omega
        split_ifs <;> omega

/-- The letters of a comparison that only says which word is the smaller one. -/
structure Letters (first second : α → α → Int) : Prop where
  first_unit : ∀ x y, -1 ≤ first x y ∧ first x y ≤ 1
  second_unit : ∀ x y, -1 ≤ second x y ∧ second x y ≤ 1
  symm : ∀ x y, first x y = 0 → first y x = 0
  eq_of_both : ∀ x y, both first second x y = 0 → x = y

/-- The words that the letters are taken from, and the beginnings and ends of words are words. -/
structure Closed (words : Set (List α)) : Prop where
  tail : ∀ x xs, x :: xs ∈ words → xs ∈ words
  head : ∀ x xs, x :: xs ∈ words → [x] ∈ words

theorem Closed.letters (hclosed : Closed words) {w : List α} (hw : w ∈ words) :
    ∀ x ∈ w, x ∈ {x | [x] ∈ words} := by
  induction w with
  | nil => simp
  | cons y w ih =>
    intro x hx
    rcases mem_cons.mp hx with rfl | hx
    · exact hclosed.head x w hw
    · exact ih (hclosed.tail y w hw) x hx

section

variable (hletters : Letters first second) (hclosed : Closed words)

include hletters hclosed

theorem scan_eq_lex (horders : Orders (both first second) {x | [x] ∈ words})
    (hfork : NoFork first second words) (hxs : xs ∈ words) (hys : ys ∈ words) :
    scan first second 0 xs ys = lex (both first second) xs ys := by
  induction xs generalizing ys with
  | nil => cases ys <;> rfl
  | cons x xs ih =>
    cases ys with
    | nil => rfl
    | cons y ys =>
      have hxs' := hclosed.tail x xs hxs
      have hys' := hclosed.tail y ys hys
      rw [scan, lex]
      by_cases hxy : first x y = 0
      · have hyx := hletters.symm x y hxy
        have hswap := horders.antisymm x (hclosed.head x xs hxs) y (hclosed.head y ys hys)
        have hdiff := firstDiff_antisymm horders hletters.symm (hclosed.letters hxs')
          (hclosed.letters hys')
        have hunit := firstDiff_unit hletters.first_unit xs ys
        have hsecond := hletters.second_unit x y
        rw [both_eq_second hxy, both_eq_second hyx] at hswap
        rw [if_neg (not_not.mpr hxy), both_eq_second hxy, if_pos rfl]
        by_cases hzero : second x y = 0
        · rw [hzero, if_neg (not_not.mpr rfl)]
          exact ih hxs' hys'
        · have hxyfork := hfork x xs y ys hxs hys hxy
          have hyxfork := hfork y ys x xs hys hxs hyx
          rw [if_pos hzero, scan_of_tie hzero]
          split_ifs with hne
          · omega
          · rfl
      · rw [if_pos hxy, both_eq_first hxy, if_pos hxy]

theorem orders_scan_iff : Orders (scan first second 0) words ↔
      Orders (both first second) {x | [x] ∈ words} ∧ NoFork first second words := by
  have hsingle : ∀ x y, scan first second 0 [x] [y] = both first second x y := by
    simp [scan, both]
  constructor
  · intro h
    have horders : Orders (both first second) {x | [x] ∈ words} := by
      refine ⟨fun x hx y hy => ?_, fun x hx y hy z hz hxy hyz => ?_⟩
      · rw [← hsingle, ← hsingle]
        exact h.antisymm [x] hx [y] hy
      · rw [← hsingle] at hxy hyz ⊢
        exact h.trans [x] hx [y] hy [z] hz hxy hyz
    refine ⟨horders, fun x xs y ys hxs hys hxy hlt hpos => ?_⟩
    -- the second word cut behind the tie stands between the two
    have hy := hclosed.head y ys hys
    have hself : both first second y y = 0 := by
      have hswap := horders.antisymm y hy y hy
      omega
    have hless : scan first second 0 (x :: xs) [y] < 0 := by
      rw [scan, if_neg (not_not.mpr hxy), if_pos rfl]
      cases xs with
      | nil => exact hlt
      | cons z zs =>
        rw [scan, if_pos hlt.ne]
        exact hlt
    have hmore : scan first second 0 [y] (y :: ys) < 0 := by
      cases ys with
      | nil =>
        cases xs <;> exact absurd hpos (by simp [firstDiff])
      | cons z zs =>
        unfold both at hself
        split_ifs at hself with hyy
        · exact absurd hself hyy
        · rw [scan, if_neg hyy, if_pos rfl, hself, scan]
          decide
    have hless' := h.trans _ hxs _ hy _ hys hless hmore
    rw [scan, if_neg (not_not.mpr hxy), if_pos rfl, scan_of_tie hlt.ne, if_pos hpos.ne'] at hless'
    omega
  · rintro ⟨horders, hfork⟩
    refine ⟨fun a ha b hb => ?_, fun a ha b hb c hc hab hbc => ?_⟩
    · rw [scan_eq_lex hletters hclosed horders hfork ha hb,
        scan_eq_lex hletters hclosed horders hfork hb ha]
      exact lex_antisymm horders (hclosed.letters ha) (hclosed.letters hb)
    · rw [scan_eq_lex hletters hclosed horders hfork ha hb] at hab
      rw [scan_eq_lex hletters hclosed horders hfork hb hc] at hbc
      rw [scan_eq_lex hletters hclosed horders hfork ha hc]
      exact lex_trans horders hletters.eq_of_both (hclosed.letters ha) (hclosed.letters hb)
        (hclosed.letters hc) hab hbc

theorem preorders_scan_iff : Preorders (scan first second 0) words ↔
      Orders (both first second) {x | [x] ∈ words} ∧ NoFork first second words := by
  rw [← orders_scan_iff hletters hclosed]
  refine ⟨Preorders.orders, fun h => ⟨h.antisymm, fun a ha b hb c hc hab hbc => ?_⟩⟩
  obtain ⟨horders, hfork⟩ := (orders_scan_iff hletters hclosed).mp h
  have heq : ∀ a ∈ words, ∀ b ∈ words, scan first second 0 a b = 0 → a = b := by
    intro a ha b hb hzero
    rw [scan_eq_lex hletters hclosed horders hfork ha hb] at hzero
    exact lex_eq_zero hletters.eq_of_both hzero
  rcases hab.lt_or_eq with hab | hab
  · rcases hbc.lt_or_eq with hbc | hbc
    · exact (h.trans a ha b hb c hc hab hbc).le
    · obtain rfl := heq b hb c hc hbc
      exact hab.le
  · obtain rfl := heq a ha b hb hab
    exact hbc

end

end Scan

end Harbour.Library.TieBreak
