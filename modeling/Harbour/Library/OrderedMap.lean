import Mathlib.Data.List.InsertIdx
import Harbour.Library.KeyOrder

/-!
Ordered maps: the value last stored under each key, and the list of the live keys.
-/

namespace Harbour.Library.OrderedMap

open KeyOrder List

variable {K V : Type*}

structure KeyMap (K V : Type*) where
  keys : List K
  value : K → Option V

def empty : KeyMap K V where
  keys := []
  value _ := none

section Operations

variable (cmp : K → K → Int)

def insertKey (key : K) : List K → List K
  | [] => [key]
  | first :: rest => if cmp first key < 0 then first :: insertKey key rest else key :: first :: rest

/-- A new key goes to the end, or where the sorting order wants it. -/
def place (keepOrder : Bool) (keys : List K) (key : K) : List K :=
  if keepOrder then keys ++ [key] else insertKey cmp key keys

def store (keepOrder : Bool) (key : K) (value : V) (m : KeyMap K V) : KeyMap K V where
  keys := if (m.value key).isSome then m.keys else place cmp keepOrder m.keys key
  value other := if cmp key other = 0 then some value else m.value other

def storeNew (keepOrder : Bool) (key : K) (value : V) (m : KeyMap K V) : KeyMap K V :=
  if (m.value key).isSome then m else store cmp keepOrder key value m

def erase (key : K) (m : KeyMap K V) : KeyMap K V where
  keys := m.keys.filter fun other => cmp other key ≠ 0
  value other := if cmp key other = 0 then none else m.value other

def eraseAt (position : Nat) (m : KeyMap K V) : KeyMap K V :=
  match m.keys[position]? with
  | some key => erase cmp key m
  | none => m

def sort (m : KeyMap K V) : KeyMap K V where
  keys := m.keys.foldr (insertKey cmp) []
  value := m.value

end Operations

section Keys

variable {cmp : K → K → Int} {S : Set K} {key : K} {keys : List K}

theorem insertKey_perm (key : K) (keys : List K) : (insertKey cmp key keys).Perm (key :: keys) := by
  induction keys with
  | nil => exact Perm.refl _
  | cons first rest ih =>
    unfold insertKey
    split
    · exact (ih.cons first).trans (Perm.swap _ _ _)
    · exact Perm.refl _

theorem insertKey_eq {n : Nat} (hn : n ≤ keys.length)
    (hbefore : ∀ other ∈ keys.take n, cmp other key < 0)
    (hafter : ∀ other ∈ keys.drop n, 0 < cmp other key) :
    insertKey cmp key keys = keys.insertIdx n key := by
  induction keys generalizing n with
  | nil =>
    obtain rfl := Nat.le_zero.mp hn
    rfl
  | cons first rest ih =>
    cases n with
    | zero =>
      have hfirst := hafter first mem_cons_self
      rw [insertKey, if_neg hfirst.not_gt, insertIdx_zero]
    | succ n =>
      have hfirst := hbefore first mem_cons_self
      rw [insertKey, if_pos hfirst, insertIdx_succ_cons,
        ih (Nat.le_of_succ_le_succ hn) (fun k hk => hbefore k (mem_cons_of_mem _ hk)) hafter]

theorem insertKey_sorted (horder : OrdersKeys cmp S) (hkey : key ∈ S) (hkeys : ∀ k ∈ keys, k ∈ S)
    (hsorted : keys.Pairwise fun a b => cmp a b < 0) (hne : ∀ k ∈ keys, cmp k key ≠ 0) :
    (insertKey cmp key keys).Pairwise fun a b => cmp a b < 0 := by
  induction keys with
  | nil => exact pairwise_singleton _ _
  | cons first rest ih =>
    obtain ⟨hfirst, hrest⟩ := pairwise_cons.mp hsorted
    have hfirstKey := hkeys first mem_cons_self
    have hrestKeys : ∀ k ∈ rest, k ∈ S := fun k hk => hkeys k (mem_cons_of_mem _ hk)
    unfold insertKey
    split
    · rename_i hlt
      refine pairwise_cons.mpr ⟨fun k hk => ?_, ih hrestKeys hrest fun k hk =>
        hne k (mem_cons_of_mem _ hk)⟩
      rcases mem_cons.mp ((insertKey_perm key rest).mem_iff.mp hk) with rfl | hk
      · exact hlt
      · exact hfirst k hk
    · rename_i hge
      have hgt : 0 < cmp first key := by
        have := hne first mem_cons_self
        omega
      have hlt := (horder.swap _ hfirstKey _ hkey).mp hgt
      refine pairwise_cons.mpr ⟨fun k hk => ?_, hsorted⟩
      rcases mem_cons.mp hk with rfl | hk
      · exact hlt
      · exact horder.trans _ hkey _ hfirstKey _ (hrestKeys k hk) hlt (hfirst k hk)

theorem sortKeys_perm (keys : List K) : (keys.foldr (insertKey cmp) []).Perm keys := by
  induction keys with
  | nil => exact Perm.refl _
  | cons key keys ih =>
    exact (insertKey_perm key _).trans (ih.cons key)

theorem sortKeys_sorted (horder : OrdersKeys cmp S) (hkeys : ∀ k ∈ keys, k ∈ S)
    (hdistinct : keys.Pairwise fun a b => cmp a b ≠ 0 ∧ cmp b a ≠ 0) :
    (keys.foldr (insertKey cmp) []).Pairwise fun a b => cmp a b < 0 := by
  induction keys with
  | nil => exact List.Pairwise.nil
  | cons key keys ih =>
    obtain ⟨hkey, hrest⟩ := pairwise_cons.mp hdistinct
    have hrestKeys : ∀ k ∈ keys, k ∈ S := fun k hk => hkeys k (mem_cons_of_mem _ hk)
    have hmem : ∀ k ∈ keys.foldr (insertKey cmp) [], k ∈ keys := fun k hk =>
      (sortKeys_perm keys).mem_iff.mp hk
    exact insertKey_sorted horder (hkeys key mem_cons_self) (fun k hk => hrestKeys k (hmem k hk))
      (ih hrestKeys hrest) fun k hk => (hkey k (hmem k hk)).2

theorem sorted_unique (horder : OrdersKeys cmp S) {keys' : List K} (hkeys : ∀ k ∈ keys, k ∈ S)
    (hsorted : keys.Pairwise fun a b => cmp a b < 0)
    (hsorted' : keys'.Pairwise fun a b => cmp a b < 0) (hperm : keys.Perm keys') :
    keys = keys' := by
  refine hperm.eq_of_pairwise (fun a b ha hb hab hba => ?_) hsorted hsorted'
  have hswap := (horder.swap _ (hkeys b (hperm.mem_iff.mpr hb)) _ (hkeys a ha)).mpr hab
  omega

end Keys

section Represents

variable {cmp : K → K → Int} {S : Set K} {pairs before after : List (K × V)} {pair : K × V}
  {m : KeyMap K V} {key : K} {value : V} {keepOrder : Bool}

/-- A list of pairs holds the map: its keys are the live ones, and a key has the
value of the pair whose key equals it. -/
structure Represents (cmp : K → K → Int) (S : Set K) (pairs : List (K × V))
    (m : KeyMap K V) : Prop where
  keys : pairs.map Prod.fst = m.keys
  value : ∀ key ∈ S, ∀ value, m.value key = some value ↔
    ∃ pair ∈ pairs, cmp pair.1 key = 0 ∧ pair.2 = value

theorem represents_empty : Represents cmp S ([] : List (K × V)) empty where
  keys := rfl
  value := by simp [empty]

theorem Represents.isSome_iff (h : Represents cmp S pairs m) (hkey : key ∈ S) :
    (m.value key).isSome ↔ ∃ pair ∈ pairs, cmp pair.1 key = 0 := by
  rw [Option.isSome_iff_exists]
  constructor
  · rintro ⟨value, hvalue⟩
    obtain ⟨pair, hmem, heq, -⟩ := (h.value key hkey value).mp hvalue
    exact ⟨pair, hmem, heq⟩
  · rintro ⟨pair, hmem, heq⟩
    exact ⟨pair.2, (h.value key hkey pair.2).mpr ⟨pair, hmem, heq, rfl⟩⟩

theorem Represents.absent (h : Represents cmp S pairs m) (hkey : key ∈ S)
    (hne : ∀ pair ∈ pairs, cmp pair.1 key ≠ 0) : ¬ (m.value key).isSome := by
  rw [h.isSome_iff hkey]
  rintro ⟨pair, hmem, heq⟩
  exact hne pair hmem heq

theorem others_ne (hpre : PreordersKeys cmp S) (hkeys : Keyed S (before ++ pair :: after))
    (hdistinct : Distinct cmp (before ++ pair :: after)) (hkey : key ∈ S)
    (heq : cmp pair.1 key = 0) : ∀ other ∈ before ++ after, cmp other.1 key ≠ 0 := by
  have hpair := hkeys pair (by simp)
  have hfirst := hdistinct.perm perm_middle.symm
  intro other hmem hother
  have hotherKey : other.1 ∈ S :=
    hkeys other (perm_middle.mem_iff.mpr (mem_cons_of_mem _ hmem))
  have hback := hpre.orders.equal_symm hpair hkey heq
  exact ((pairwise_cons.mp hfirst).1 other hmem).2
    (hpre.equal_trans hotherKey hkey hpair hother hback)

theorem exists_middle {P : K × V → Prop} :
    (∃ found ∈ before ++ pair :: after, P found) ↔ P pair ∨ ∃ found ∈ before ++ after, P found := by
  constructor
  · rintro ⟨found, hmem, hfound⟩
    rcases mem_cons.mp (perm_middle.mem_iff.mp hmem) with rfl | hmem
    · exact .inl hfound
    · exact .inr ⟨found, hmem, hfound⟩
  · rintro (hpair | ⟨found, hmem, hfound⟩)
    · exact ⟨pair, by simp, hpair⟩
    · exact ⟨found, perm_middle.mem_iff.mpr (mem_cons_of_mem _ hmem), hfound⟩

theorem Represents.store_found (hpre : PreordersKeys cmp S)
    (h : Represents cmp S (before ++ pair :: after) m) (hkeys : Keyed S (before ++ pair :: after))
    (hdistinct : Distinct cmp (before ++ pair :: after)) (hkey : key ∈ S)
    (heq : cmp pair.1 key = 0) :
    Represents cmp S (before ++ (pair.1, value) :: after) (store cmp keepOrder key value m) := by
  have hpair := hkeys pair (by simp)
  have hsome : (m.value key).isSome := (h.isSome_iff hkey).mpr ⟨pair, by simp, heq⟩
  refine ⟨?_, fun other hother v => ?_⟩
  · rw [store, if_pos hsome, ← h.keys]
    simp
  · rw [exists_middle]
    dsimp only [store]
    split
    · rename_i hequal
      have hpairOther := hpre.equal_trans hpair hkey hother heq hequal
      have hrest := others_ne hpre hkeys hdistinct hother hpairOther
      constructor
      · rintro ⟨⟩
        exact .inl ⟨hpairOther, rfl⟩
      · rintro (⟨-, rfl⟩ | ⟨found, hmem, hfound, -⟩)
        · rfl
        · exact absurd hfound (hrest found hmem)
    · rename_i hne
      have hpairOther : cmp pair.1 other ≠ 0 := fun hzero => hne (hpre.equal_trans hkey hpair hother
        (hpre.orders.equal_symm hpair hkey heq) hzero)
      rw [h.value other hother v, exists_middle, or_iff_right fun hzero => hpairOther hzero.1,
        or_iff_right fun hzero => hpairOther hzero.1]

theorem Represents.store_new (h : Represents cmp S (before ++ after) m)
    (hpre : PreordersKeys cmp S) (hkeys : Keyed S (before ++ after)) (hkey : key ∈ S)
    (hne : ∀ pair ∈ before ++ after, cmp pair.1 key ≠ 0)
    (hplace : place cmp keepOrder (before ++ after |>.map Prod.fst) key =
      (before ++ (key, value) :: after).map Prod.fst) :
    Represents cmp S (before ++ (key, value) :: after) (store cmp keepOrder key value m) := by
  refine ⟨?_, fun other hother v => ?_⟩
  · rw [store, if_neg (h.absent hkey hne), ← h.keys, hplace]
  · rw [exists_middle]
    dsimp only [store]
    split
    · rename_i hequal
      constructor
      · rintro ⟨⟩
        exact .inl ⟨hequal, rfl⟩
      · rintro (⟨-, rfl⟩ | ⟨found, hmem, hfound, -⟩)
        · rfl
        · have hback := hpre.orders.equal_symm hkey hother hequal
          exact absurd (hpre.equal_trans (hkeys found hmem) hother hkey hfound hback)
            (hne found hmem)
    · rename_i hunequal
      rw [h.value other hother v, or_iff_right fun hzero => hunequal hzero.1]

section

variable (hpre : PreordersKeys cmp S)

include hpre

theorem Represents.erase_found (h : Represents cmp S (before ++ pair :: after) m)
    (hkeys : Keyed S (before ++ pair :: after)) (hdistinct : Distinct cmp (before ++ pair :: after))
    (hkey : key ∈ S) (heq : cmp pair.1 key = 0) :
    Represents cmp S (before ++ after) (erase cmp key m) := by
  have hpair := hkeys pair (by simp)
  have hrest := others_ne hpre hkeys hdistinct hkey heq
  refine ⟨?_, fun other hother v => ?_⟩
  · have hkept : ∀ l ⊆ before ++ after,
        (l.map Prod.fst).filter (fun other => cmp other key ≠ 0) = l.map Prod.fst := by
      intro l hl
      refine filter_eq_self.mpr fun k hk => ?_
      obtain ⟨found, hmem, rfl⟩ := mem_map.mp hk
      simpa using hrest found (hl hmem)
    dsimp only [erase]
    rw [← h.keys, map_append, map_append, map_cons, filter_append,
      filter_cons_of_neg (by simpa using heq), hkept before (subset_append_left _ _),
      hkept after (subset_append_right _ _)]
  · dsimp only [erase]
    split
    · rename_i hequal
      constructor
      · rintro ⟨⟩
      · rintro ⟨found, hmem, hfound, -⟩
        have hpairOther := hpre.equal_trans hpair hkey hother heq hequal
        exact absurd hfound (others_ne hpre hkeys hdistinct hother hpairOther found hmem)
    · rename_i hne
      have hpairOther : cmp pair.1 other ≠ 0 := fun hzero => hne (hpre.equal_trans hkey hpair hother
        (hpre.orders.equal_symm hpair hkey heq) hzero)
      rw [h.value other hother v, exists_middle, or_iff_right fun hzero => hpairOther hzero.1]

theorem Represents.erase_absent (h : Represents cmp S pairs m) (hkeys : Keyed S pairs)
    (hkey : key ∈ S) (hne : ∀ pair ∈ pairs, cmp pair.1 key ≠ 0) :
    Represents cmp S pairs (erase cmp key m) := by
  refine ⟨?_, fun other hother v => ?_⟩
  · refine h.keys.trans (filter_eq_self.mpr fun k hk => ?_).symm
    obtain ⟨found, hmem, rfl⟩ := mem_map.mp (h.keys.symm ▸ hk)
    simpa using hne found hmem
  · dsimp only [erase]
    split
    · rename_i hequal
      constructor
      · rintro ⟨⟩
      · rintro ⟨found, hmem, hfound, -⟩
        have hback := hpre.orders.equal_symm hkey hother hequal
        exact absurd (hpre.equal_trans (hkeys found hmem) hother hkey hfound hback) (hne found hmem)
    · exact h.value other hother v

theorem Represents.eraseAt (h : Represents cmp S (before ++ pair :: after) m)
    (hkeys : Keyed S (before ++ pair :: after))
    (hdistinct : Distinct cmp (before ++ pair :: after)) :
    Represents cmp S (before ++ after) (eraseAt cmp before.length m) := by
  have hpair := hkeys pair (by simp)
  have hget : m.keys[before.length]? = some pair.1 := by
    rw [← h.keys, map_append, map_cons]
    simp
  unfold OrderedMap.eraseAt
  rw [hget]
  exact h.erase_found hpre hkeys hdistinct hpair (hpre.orders.equal_refl hpair)

end

theorem Represents.eraseAt_ge (h : Represents cmp S pairs m) {position : Nat}
    (hge : pairs.length ≤ position) :
    Represents cmp S pairs (OrderedMap.eraseAt cmp position m) := by
  have hget : m.keys[position]? = none := by
    rw [← h.keys]
    exact getElem?_eq_none (by simpa using hge)
  unfold OrderedMap.eraseAt
  rw [hget]
  exact h

theorem Represents.sort {pairs' : List (K × V)} (hpre : PreordersKeys cmp S)
    (h : Represents cmp S pairs m) (hkeys : Keyed S pairs) (hdistinct : Distinct cmp pairs)
    (hperm : pairs'.Perm pairs) (hsorted : Increases cmp pairs') :
    Represents cmp S pairs' (sort cmp m) := by
  refine ⟨?_, fun other hother v => ?_⟩
  · have hmem : ∀ k ∈ pairs.map Prod.fst, k ∈ S := by
      intro k hk
      obtain ⟨pair, hpair, rfl⟩ := mem_map.mp hk
      exact hkeys pair hpair
    have hkeysPerm := hperm.map Prod.fst
    refine sorted_unique hpre.orders (fun k hk => hmem k (hkeysPerm.mem_iff.mp hk))
      (increases_iff.mp hsorted) ?_ ?_
    · rw [OrderedMap.sort, ← h.keys]
      exact sortKeys_sorted hpre.orders hmem (distinct_iff.mp hdistinct)
    · rw [OrderedMap.sort, ← h.keys]
      exact hkeysPerm.trans (sortKeys_perm _).symm
  · refine (h.value other hother v).trans ?_
    constructor
    · rintro ⟨pair, hmem, hpair⟩
      exact ⟨pair, hperm.mem_iff.mpr hmem, hpair⟩
    · rintro ⟨pair, hmem, hpair⟩
      exact ⟨pair, hperm.mem_iff.mp hmem, hpair⟩

end Represents

end Harbour.Library.OrderedMap
