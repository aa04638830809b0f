import Mathlib.Data.Set.Basic
import Mathlib.Order.Basic
import Harbour.Library.BinarySearch

/-!
Three-way comparisons of keys, and lists of pairs that are ordered by them.
-/

namespace Harbour.Library.KeyOrder

open BinarySearch List

variable {K V : Type*}

/-- A three-way comparison that orders the keys of a set strictly, up to keys that
compare equal. -/
structure OrdersKeys (cmp : K → K → Int) (keys : Set K) : Prop where
  swap : ∀ a ∈ keys, ∀ b ∈ keys, 0 < cmp a b ↔ cmp b a < 0
  trans : ∀ a ∈ keys, ∀ b ∈ keys, ∀ c ∈ keys, cmp a b < 0 → cmp b c < 0 → cmp a c < 0

/-- A three-way comparison that is a total preorder on a set of keys. -/
structure PreordersKeys (cmp : K → K → Int) (keys : Set K) : Prop where
  swap : ∀ a ∈ keys, ∀ b ∈ keys, 0 < cmp a b ↔ cmp b a < 0
  trans : ∀ a ∈ keys, ∀ b ∈ keys, ∀ c ∈ keys, cmp a b ≤ 0 → cmp b c ≤ 0 → cmp a c ≤ 0

theorem PreordersKeys.orders {cmp : K → K → Int} {keys : Set K} (h : PreordersKeys cmp keys) :
    OrdersKeys cmp keys where
  swap := h.swap
  trans := by
    intro a ha b hb c hc hab hbc
    have hac := h.trans a ha b hb c hc hab.le hbc.le
    by_contra hne
    have hca : cmp c a ≤ 0 := not_lt.mp fun hpos => hne ((h.swap c hc a ha).mp hpos)
    have hba := h.trans b hb c hc a ha hbc.le hca
    exact absurd ((h.swap b hb a ha).mpr hab) (not_lt.mpr hba)

theorem OrdersKeys.of_rank {cmp : K → K → Int} {keys : Set K} (rank : K → Nat)
    (hlt : ∀ a ∈ keys, ∀ b ∈ keys, rank a < rank b → cmp a b < 0 ∧ 0 < cmp b a)
    (hsame : ∀ n, OrdersKeys cmp {a | a ∈ keys ∧ rank a = n}) : OrdersKeys cmp keys where
  swap := by
    intro a ha b hb
    rcases Nat.lt_trichotomy (rank a) (rank b) with hab | hab | hab
    · have h := hlt a ha b hb hab
      omega
    · exact (hsame (rank b)).swap a ⟨ha, hab⟩ b ⟨hb, rfl⟩
    · have h := hlt b hb a ha hab
      omega
  trans := by
    intro a ha b hb c hc hab hbc
    have hrank : ∀ x ∈ keys, ∀ y ∈ keys, cmp x y < 0 → rank x ≤ rank y := by
      intro x hx y hy hxy
      by_contra hyx
      have h := (hlt y hy x hx (Nat.not_le.mp hyx)).2
      omega
    have hab' := hrank a ha b hb hab
    have hbc' := hrank b hb c hc hbc
    rcases Nat.lt_or_ge (rank a) (rank c) with hac | hac
    · exact (hlt a ha c hc hac).1
    · exact (hsame (rank c)).trans a ⟨ha, by omega⟩ b ⟨hb, by omega⟩ c ⟨hc, rfl⟩ hab hbc

theorem OrdersKeys.comap {K' : Type*} {cmp : K → K → Int} {keys : Set K} {cmp' : K' → K' → Int}
    {keys' : Set K'} (h : OrdersKeys cmp keys) (f : K' → K) (hmem : ∀ a ∈ keys', f a ∈ keys)
    (hcmp : ∀ a ∈ keys', ∀ b ∈ keys', cmp' a b = cmp (f a) (f b)) : OrdersKeys cmp' keys' where
  swap := by
    intro a ha b hb
    rw [hcmp a ha b hb, hcmp b hb a ha]
    exact h.swap _ (hmem a ha) _ (hmem b hb)
  trans := by
    intro a ha b hb c hc
    rw [hcmp a ha b hb, hcmp b hb c hc, hcmp a ha c hc]
    exact h.trans _ (hmem a ha) _ (hmem b hb) _ (hmem c hc)

theorem OrdersKeys.mono {cmp : K → K → Int} {keys keys' : Set K} (h : OrdersKeys cmp keys)
    (hsub : ∀ a ∈ keys', a ∈ keys) : OrdersKeys cmp keys' :=
  h.comap id hsub fun _ _ _ _ => rfl

section Consistency

variable {cmp cmp' : K → K → Int} {a b c : K}

/-- A comparison of two keys that changes its sign when they are exchanged. -/
def Swaps (cmp : K → K → Int) (a b : K) : Prop := Int.sign (cmp a b) = -Int.sign (cmp b a)

/-- Three keys that a comparison treats as a total preorder does. -/
structure Consistent (cmp : K → K → Int) (a b c : K) : Prop where
  swap : Swaps cmp a b
  trans : cmp a b ≤ 0 → cmp b c ≤ 0 → cmp a c ≤ 0
  equal : cmp a b = 0 → cmp b c = 0 → cmp a c = 0

structure Compares {R : Type*} [LT R] (n : Int) (x y : R) : Prop where
  less : n < 0 ↔ x < y
  more : 0 < n ↔ y < x

variable {R : Type*} [LinearOrder R] {x y z : R} {n : Int}

theorem Compares.nonpos (h : Compares n x y) : n ≤ 0 ↔ x ≤ y := by
  rw [← not_lt, h.more, not_lt]

theorem Compares.zero (h : Compares n x y) : n = 0 ↔ x = y := by
  have hless := h.less
  have hmore := h.more
  constructor
  · intro hn
    refine le_antisymm (h.nonpos.mp hn.le) (not_lt.mp fun hlt => ?_)
    have := hless.mpr hlt
    omega
  · rintro rfl
    have hn : ¬ n < 0 := fun hn => lt_irrefl _ (hless.mp hn)
    have hp : ¬ 0 < n := fun hp => lt_irrefl _ (hmore.mp hp)
    omega

theorem Compares.swaps (hab : Compares (cmp a b) x y) (hba : Compares (cmp b a) y x) :
    Swaps cmp a b := by
  unfold Swaps
  rcases lt_trichotomy x y with hlt | heq | hlt
  · rw [Int.sign_eq_neg_one_of_neg (hab.less.mpr hlt), Int.sign_eq_one_of_pos (hba.more.mpr hlt)]
  · rw [hab.zero.mpr heq, hba.zero.mpr heq.symm]
    rfl
  · rw [Int.sign_eq_one_of_pos (hab.more.mpr hlt), Int.sign_eq_neg_one_of_neg (hba.less.mpr hlt)]
    rfl

theorem Consistent.of_compares (hab : Compares (cmp a b) x y) (hba : Compares (cmp b a) y x)
    (hbc : Compares (cmp b c) y z) (hac : Compares (cmp a c) x z) : Consistent cmp a b c where
  swap := hab.swaps hba
  trans := by
    rw [hab.nonpos, hbc.nonpos, hac.nonpos]
    exact le_trans
  equal := by
    rw [hab.zero, hbc.zero, hac.zero]
    exact Eq.trans

end Consistency

section Equality

variable {cmp : K → K → Int} {keys : Set K} {a b c : K}

theorem OrdersKeys.equal_symm (h : OrdersKeys cmp keys) (ha : a ∈ keys) (hb : b ∈ keys)
    (hab : cmp a b = 0) : cmp b a = 0 := by
  have hba := h.swap b hb a ha
  have hab' := h.swap a ha b hb
  omega

theorem OrdersKeys.equal_refl (h : OrdersKeys cmp keys) (ha : a ∈ keys) : cmp a a = 0 := by
  have haa := h.swap a ha a ha
  omega

theorem PreordersKeys.equal_trans (h : PreordersKeys cmp keys) (ha : a ∈ keys) (hb : b ∈ keys)
    (hc : c ∈ keys) (hab : cmp a b = 0) (hbc : cmp b c = 0) : cmp a c = 0 := by
  have hba := h.orders.equal_symm ha hb hab
  have hcb := h.orders.equal_symm hb hc hbc
  have hac := h.trans a ha b hb c hc hab.le hbc.le
  have hca := h.trans c hc b hb a ha hcb.le hba.le
  have hswap := h.swap c hc a ha
  omega

end Equality

variable {cmp : K → K → Int} {keys : Set K} {pairs pairs' : List (K × V)} {key : K}

def Increases (cmp : K → K → Int) (pairs : List (K × V)) : Prop :=
  pairs.Pairwise fun a b => cmp a.1 b.1 < 0

def Distinct (cmp : K → K → Int) (pairs : List (K × V)) : Prop :=
  pairs.Pairwise fun a b => cmp a.1 b.1 ≠ 0 ∧ cmp b.1 a.1 ≠ 0

def Keyed (keys : Set K) (pairs : List (K × V)) : Prop :=
  ∀ pair ∈ pairs, pair.1 ∈ keys

theorem increases_iff : Increases cmp pairs ↔
    (pairs.map Prod.fst).Pairwise fun a b => cmp a b < 0 := by
  rw [pairwise_map]
  exact Iff.rfl

theorem distinct_iff : Distinct cmp pairs ↔
    (pairs.map Prod.fst).Pairwise fun a b => cmp a b ≠ 0 ∧ cmp b a ≠ 0 := by
  rw [pairwise_map]
  exact Iff.rfl

theorem Keyed.perm (h : Keyed keys pairs) (hperm : pairs'.Perm pairs) : Keyed keys pairs' :=
  fun pair hmem => h pair (hperm.mem_iff.mp hmem)

theorem Distinct.perm (h : Distinct cmp pairs) (hperm : pairs'.Perm pairs) : Distinct cmp pairs' :=
  hperm.symm.pairwise h fun h => ⟨h.2, h.1⟩

theorem Increases.distinct (horder : OrdersKeys cmp keys) (hkeys : Keyed keys pairs)
    (h : Increases cmp pairs) : Distinct cmp pairs := by
  refine h.imp_of_mem fun {a b} ha hb hlt => ?_
  have hswap := (horder.swap b.1 (hkeys b hb) a.1 (hkeys a ha)).mpr hlt
  exact ⟨by omega, by omega⟩

def cmpAt (cmp : K → K → Int) (pairs : List (K × V)) (key : K) (n : Nat) : Int :=
  match pairs[n]? with
  | some pair => cmp pair.1 key
  | none => 1

theorem cmpAt_getElem {n : Nat} (h : n < pairs.length) :
    cmpAt cmp pairs key n = cmp pairs[n].1 key := by
  unfold cmpAt
  rw [getElem?_eq_getElem h]

theorem Increases.ascending (horder : OrdersKeys cmp keys) (hkeys : Keyed keys pairs)
    (hkey : key ∈ keys) (h : Increases cmp pairs) :
    Ascending (cmpAt cmp pairs key) pairs.length := by
  intro i j hij hj
  have hi := hij.trans hj
  have hlt := pairwise_iff_getElem.mp h i j hi hj hij
  have hikey := hkeys _ (getElem_mem hi)
  have hjkey := hkeys _ (getElem_mem hj)
  rw [cmpAt_getElem hi, cmpAt_getElem hj]
  constructor
  · exact horder.trans _ hikey _ hjkey _ hkey hlt
  · intro hpos
    rw [horder.swap _ hikey _ hkey] at hpos
    exact (horder.swap _ hjkey _ hkey).mpr (horder.trans _ hkey _ hikey _ hjkey hpos hlt)

theorem increases_of_search (horder : OrdersKeys cmp keys) (hkeys : Keyed keys pairs)
    (hself : ∀ (i : Nat) (hi : i < pairs.length),
      search (cmpAt cmp pairs pairs[i].1) 0 pairs.length = (true, i)) : Increases cmp pairs := by
  have hcmp : ∀ (i : Nat) (hi : i < pairs.length) (n : Nat),
      (pairs[i]?.elim 1 fun pair => cmpAt cmp pairs pair.1 n) = cmpAt cmp pairs pairs[i].1 n := by
    intro i hi n
    rw [getElem?_eq_getElem hi]
    rfl
  have hmem : ∀ (i : Nat) (hi : i < pairs.length), pairs[i].1 ∈ keys := fun i hi =>
    hkeys _ (getElem_mem hi)
  have hall := increasing_of_search
    (fun n i => pairs[i]?.elim 1 fun pair => cmpAt cmp pairs pair.1 n) 0 pairs.length ?_ ?_ ?_
  · refine pairwise_iff_getElem.mpr fun i j hi hj hij => ?_
    have hlt := hall i j (Nat.zero_le i) hij hj
    rwa [hcmp j hj, cmpAt_getElem hi] at hlt
  · intro i hi j hj
    rw [hcmp j hj, hcmp i hi, cmpAt_getElem hi, cmpAt_getElem hj]
    exact horder.swap _ (hmem i hi) _ (hmem j hj)
  · intro i hi j hj k hk
    rw [hcmp j hj, hcmp k hk, hcmp k hk, cmpAt_getElem hi, cmpAt_getElem hj, cmpAt_getElem hi]
    exact horder.trans _ (hmem i hi) _ (hmem j hj) _ (hmem k hk)
  · intro i _ hi
    rw [← hself i hi]
    congr 1
    funext n
    exact hcmp i hi n

theorem forall_take {P : K × V → Prop} {n : Nat} (hn : n ≤ pairs.length)
    (h : ∀ (i : Nat) (hi : i < pairs.length), i < n → P pairs[i]) :
    ∀ pair ∈ pairs.take n, P pair := by
  intro pair hmem
  obtain ⟨i, hi, rfl⟩ := mem_take_iff_getElem.mp hmem
  exact h i (by omega) (by omega)

theorem forall_drop {P : K × V → Prop} {n : Nat}
    (h : ∀ (i : Nat) (hi : i < pairs.length), n ≤ i → P pairs[i]) :
    ∀ pair ∈ pairs.drop n, P pair := by
  intro pair hmem
  obtain ⟨i, hi, rfl⟩ := mem_drop_iff_getElem.mp hmem
  exact h (n + i) (by omega) (by omega)

theorem Increases.insertIdx (horder : OrdersKeys cmp keys) (hkeys : Keyed keys pairs) {pair : K × V}
    (hkey : pair.1 ∈ keys) (h : Increases cmp pairs) {n : Nat} (hn : n ≤ pairs.length)
    (hbefore : ∀ a ∈ pairs.take n, cmp a.1 pair.1 < 0)
    (hafter : ∀ a ∈ pairs.drop n, 0 < cmp a.1 pair.1) : Increases cmp (pairs.insertIdx n pair) := by
  refine pairwise_insertIdx h hn hbefore fun a ha => ?_
  have hakey := hkeys a (mem_of_mem_drop ha)
  exact (horder.swap _ hakey _ hkey).mp (hafter a ha)

end Harbour.Library.KeyOrder
