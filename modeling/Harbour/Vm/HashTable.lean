import Mathlib.Data.List.InsertIdx
import Mathlib.Data.List.Pairwise
import Harbour.Library.BinarySearch

/-!
The hash item of the virtual machine: an array of pairs that is kept sorted by
key, or, for hashes that keep their insertion order, an array of pairs together
with the sorted permutation `pnPos` of its positions.
-/

namespace Harbour.Vm.HashTable

open Library.BinarySearch List Option

/-- The bits of `iFlags` that the lookup and update functions consult. -/
structure HashFlags where
  autoAddAccess : Bool
  autoAddAssign : Bool
  resort : Bool
  ignoreCase : Bool
  binary : Bool
  keepOrder : Bool
deriving DecidableEq, Repr

def hashFlagDefault : HashFlags where
  autoAddAccess := false
  autoAddAssign := true
  resort := false
  ignoreCase := false
  binary := true
  keepOrder := true

def hashItemAlloc : Nat := 16

/-- `HB_BASEHASH`; `pPairs` and `pnPos` hold the first `nLen` slots of the
allocated arrays, whose size is `nSize`. -/
structure BaseHash (K V : Type) where
  pPairs : List (K × V)
  pDefault : Option V
  pnPos : Option (List Nat)
  nSize : Nat
  iFlags : HashFlags

variable {K V : Type}

def BaseHash.nLen (t : BaseHash K V) : Nat := t.pPairs.length

def hashNew : BaseHash K V where
  pPairs := []
  pDefault := none
  pnPos := none
  nSize := 0
  iFlags := hashFlagDefault

@[simp] theorem hashNew_pPairs : (hashNew : BaseHash K V).pPairs = [] := rfl

def BaseHash.keyOrder (t : BaseHash K V) : List Nat :=
  t.pnPos.getD (range t.nLen)

section Operations

variable (cmp : HashFlags → K → K → Int)

/-- `hb_hashItemCmp` of the key stored at a pair position and another key. -/
def keyCmpAt (t : BaseHash K V) (position : Nat) (key : K) : Int :=
  match t.pPairs[position]? with
  | some pair => cmp t.iFlags pair.1 key
  | none => 1

def sortPosition (t : BaseHash K V) (pnPos : List Nat) (nFrom : Nat) : List Nat :=
  match t.pPairs[nFrom]? with
  | some pair =>
    let nLeft := upperBound
      (fun n => keyCmpAt cmp t (pnPos.getD n 0) pair.1) 0 nFrom
    pnPos.insertIdx nLeft nFrom
  | none => pnPos

/-- One insertion step of `hb_hashSortDo` on the pair array itself: the pair
sinks below all greater ones. -/
def sinkPair (iFlags : HashFlags) (pair : K × V) : List (K × V) → List (K × V)
  | [] => [pair]
  | greatest :: smaller =>
    if cmp iFlags greatest.1 pair.1 > 0 then
      greatest :: sinkPair iFlags pair smaller
    else pair :: greatest :: smaller

def hashSortDo (t : BaseHash K V) : BaseHash K V :=
  let sorted := match t.pnPos with
    | some _ =>
      { t with pnPos := some ((range t.nLen).foldl (sortPosition cmp t) []) }
    | none =>
      { t with pPairs := (t.pPairs.foldl
          (fun done pair => sinkPair cmp t.iFlags pair done) []).reverse }
  { sorted with iFlags := { t.iFlags with resort := false } }

/-- `hb_hashFind`: the table (sorted first when that is pending), whether the
key was found, and the pair position of the key or else the place for it in the
lookup order. -/
def hashFind (t : BaseHash K V) (key : K) : BaseHash K V × Bool × Nat :=
  let t := if t.iFlags.resort then hashSortDo cmp t else t
  match search (fun n => keyCmpAt cmp t (t.keyOrder.getD n n) key) 0 t.nLen with
  | (true, nMiddle) => (t, true, t.keyOrder.getD nMiddle nMiddle)
  | (false, nLeft) => (t, false, nLeft)

def hashGrow (t : BaseHash K V) (nNewSize : Nat) : BaseHash K V :=
  if t.nSize < nNewSize then
    { t with
      nSize := nNewSize
      pnPos := if t.nSize = 0 ∧ t.iFlags.keepOrder then some [] else t.pnPos }
  else t

/-- The slot that `hb_hashValuePtr` makes sure of before it stores a new pair. -/
def hashReserve (t : BaseHash K V) : BaseHash K V :=
  if t.nSize = t.nLen then hashGrow t (t.nSize + hashItemAlloc) else t

/-- `hb_hashAdd`, that is `hb_hashValuePtr` with insertion allowed followed by
the assignment through the returned pointer. -/
def hashAdd (t : BaseHash K V) (key : K) (value : V) : BaseHash K V :=
  match hashFind cmp t key with
  | (t, true, nPos) => { t with pPairs := t.pPairs.modify nPos fun pair => (pair.1, value) }
  | (t, false, nPos) =>
    let t := hashReserve t
    match t.pnPos with
    | some pnPos =>
      { t with
        pnPos := some (pnPos.insertIdx nPos t.nLen)
        pPairs := t.pPairs ++ [(key, value)] }
    | none => { t with pPairs := t.pPairs.insertIdx nPos (key, value) }

end Operations

/-- A three-way comparison that orders the keys up to equivalence. -/
structure TotalPreorder (cmp : K → K → Int) : Prop where
  swap : ∀ a b, 0 < cmp a b ↔ cmp b a < 0
  trans : ∀ a b c, cmp a b ≤ 0 → cmp b c ≤ 0 → cmp a c ≤ 0
  lt_trans : ∀ a b c, cmp a b < 0 → cmp b c ≤ 0 → cmp a c < 0

/-- No sort is pending and the lookup order lists every pair once, in strictly
increasing order of the keys. -/
structure BaseHash.WellFormed (cmp : HashFlags → K → K → Int) (t : BaseHash K V) : Prop where
  sorted : t.iFlags.resort = false
  order : TotalPreorder (cmp t.iFlags)
  perm : t.keyOrder.Perm (range t.nLen)
  increasing : t.keyOrder.Pairwise fun i j =>
    ∃ a b, t.pPairs[i]? = some a ∧ t.pPairs[j]? = some b ∧ cmp t.iFlags a.1 b.1 < 0
  allocated : t.nLen ≤ t.nSize
  positions : t.pnPos = none → t.iFlags.keepOrder = true → t.nSize = 0

theorem keyOrder_length {cmp : HashFlags → K → K → Int} {t : BaseHash K V}
    (h : t.WellFormed cmp) : t.keyOrder.length = t.nLen := by
  simpa using h.perm.length_eq

theorem hashNew_wellFormed {cmp : HashFlags → K → K → Int}
    (horder : TotalPreorder (cmp hashFlagDefault)) :
    (hashNew : BaseHash K V).WellFormed cmp where
  sorted := rfl
  order := horder
  perm := by simp [hashNew, BaseHash.keyOrder, BaseHash.nLen]
  increasing := by simp [hashNew, BaseHash.keyOrder, BaseHash.nLen]
  allocated := by simp [hashNew, BaseHash.nLen]
  positions := fun _ _ => rfl

theorem modify_keys (pairs : List (K × V)) (nPos : Nat) (value : V) :
    (pairs.modify nPos fun pair => (pair.1, value)).map Prod.fst = pairs.map Prod.fst := by
  apply ext_getElem?
  intro n
  rw [getElem?_map, getElem?_map, getElem?_modify]
  cases pairs[n]? with
  | none => rfl
  | some pair =>
    split <;> rfl

theorem hashReserve_same (t : BaseHash K V) :
    (hashReserve t).pPairs = t.pPairs ∧ (hashReserve t).iFlags = t.iFlags := by
  unfold hashReserve hashGrow
  split
  · split <;> exact ⟨rfl, rfl⟩
  · exact ⟨rfl, rfl⟩

theorem hashAdd_keys (cmp : HashFlags → K → K → Int) {t : BaseHash K V}
    (hsorted : t.iFlags.resort = false) (key : K) (value : V) :
    (hashAdd cmp t key value).pPairs.map Prod.fst ⊆ key :: t.pPairs.map Prod.fst ∧
      (hashAdd cmp t key value).iFlags.resort = false := by
  obtain ⟨hpairs, hflags⟩ := hashReserve_same t
  have hfind : (hashFind cmp t key).1 = t := by
    simp only [hashFind, hsorted, Bool.false_eq_true, if_false]
    split <;> rfl
  unfold hashAdd
  split
  · rename_i found nPos hfound
    obtain rfl : found = t := by rw [← hfind, hfound]
    rw [modify_keys]
    exact ⟨subset_cons_self _ _, hsorted⟩
  · rename_i found nPos hfound
    obtain rfl : found = t := by rw [← hfind, hfound]
    dsimp only
    split
    · refine ⟨?_, hflags ▸ hsorted⟩
      simp [hpairs]
    · refine ⟨?_, hflags ▸ hsorted⟩
      rw [hpairs, map_insertIdx]
      exact insertIdx_subset_cons _ _ _

section

variable {cmp : HashFlags → K → K → Int} {t : BaseHash K V} (h : t.WellFormed cmp)

include h

theorem keyCmpAt_increasing (key : K) :
    Increasing (fun n => keyCmpAt cmp t (t.keyOrder.getD n n) key) t.nLen := by
  intro i j hij hj hle
  rw [← keyOrder_length h] at hj
  have hi : i < t.keyOrder.length := by omega
  obtain ⟨a, b, ha, hb, hab⟩ := (pairwise_iff_getElem.mp h.increasing) i j hi hj hij
  simp only [getD_eq_getElem?_getD, getElem?_eq_getElem hi,
    getElem?_eq_getElem hj, getD_some, keyCmpAt, ha, hb] at hle ⊢
  exact h.order.lt_trans _ _ _ hab hle

theorem hashFind_located (key : K) :
    Located (fun n => keyCmpAt cmp t (t.keyOrder.getD n n) key) t.nLen
      (search (fun n => keyCmpAt cmp t (t.keyOrder.getD n n) key) 0 t.nLen) :=
  search_zero_located _ (keyCmpAt_increasing h key).ascending

theorem hashFind_absent {key : K} (habsent : ∀ pair ∈ t.pPairs, cmp t.iFlags pair.1 key ≠ 0) :
    ∃ nLeft, hashFind cmp t key = (t, false, nLeft) ∧ nLeft ≤ t.nLen ∧
      (∀ i < nLeft, keyCmpAt cmp t (t.keyOrder.getD i i) key < 0) ∧
      ∀ i, nLeft ≤ i → i < t.nLen → 0 < keyCmpAt cmp t (t.keyOrder.getD i i) key := by
  have hlocated := hashFind_located h key
  cases hsearch : search (fun n => keyCmpAt cmp t (t.keyOrder.getD n n) key) 0 t.nLen with
  | mk found position =>
    rw [hsearch] at hlocated
    cases found with
    | true =>
      obtain ⟨-, hzero⟩ := hlocated
      simp only [keyCmpAt] at hzero
      split at hzero
      · rename_i pair hpair
        exact absurd hzero (habsent pair (mem_of_getElem? hpair))
      · simp at hzero
    | false =>
      refine ⟨position, ?_, hlocated⟩
      simp only [hashFind, h.sorted, Bool.false_eq_true, if_false, hsearch]

theorem hashReserve_spec (hkeep : t.iFlags.keepOrder = true) : hashReserve t =
      { t with pnPos := some t.keyOrder, nSize := (hashReserve t).nSize } ∧
    t.nLen < (hashReserve t).nSize := by
  have hallocated := h.allocated
  unfold hashReserve hashGrow
  cases hpos : t.pnPos with
  | some pnPos =>
    have horder : t.keyOrder = pnPos := by simp [BaseHash.keyOrder, hpos]
    rw [horder]
    split
    · rename_i hfull
      have hpositive : t.nSize < t.nSize + hashItemAlloc := by simp [hashItemAlloc]
      rw [if_pos hpositive]
      refine ⟨?_, by simp [hashItemAlloc]; omega⟩
      split
      · rename_i hempty
        have hperm := h.perm
        rw [horder, show t.nLen = 0 by omega] at hperm
        simpa using hperm
      · rfl
    · exact ⟨by rw [← hpos], by omega⟩
  | none =>
    have hempty := h.positions hpos hkeep
    have hlen : t.nLen = 0 := by omega
    have horder : t.keyOrder = [] := by simp [BaseHash.keyOrder, hpos, hlen]
    rw [if_pos (by omega), if_pos (by simp [hashItemAlloc]), horder]
    simp [hempty, hkeep, hlen, hashItemAlloc]

theorem hashAdd_absent (hkeep : t.iFlags.keepOrder = true) {key : K}
    (habsent : ∀ pair ∈ t.pPairs, cmp t.iFlags pair.1 key ≠ 0) (value : V) :
    (hashAdd cmp t key value).pPairs = t.pPairs ++ [(key, value)] ∧
      (hashAdd cmp t key value).iFlags = t.iFlags ∧
      (hashAdd cmp t key value).WellFormed cmp := by
  obtain ⟨nLeft, hfind, hle, hsmaller, hgreater⟩ := hashFind_absent h habsent
  obtain ⟨hreserve, hroom⟩ := hashReserve_spec h hkeep
  have hlength := keyOrder_length h
  have hadd : hashAdd cmp t key value =
      { t with
        pnPos := some (t.keyOrder.insertIdx nLeft t.nLen)
        nSize := (hashReserve t).nSize
        pPairs := t.pPairs ++ [(key, value)] } := by
    simp only [hashAdd, hfind]
    rw [hreserve]
    rfl
  refine ⟨by rw [hadd], by rw [hadd], ?_⟩
  rw [hadd]
  have hcount : (t.pPairs ++ [(key, value)]).length = t.nLen + 1 := by
    simp [BaseHash.nLen]
  have hstored : (t.pPairs ++ [(key, value)])[t.nLen]? = some (key, value) := by
    simp [BaseHash.nLen]
  have hold : ∀ i ∈ t.keyOrder, ∃ pair, t.pPairs[i]? = some pair ∧
      (t.pPairs ++ [(key, value)])[i]? = some pair := by
    intro i hi
    have hi : i < t.pPairs.length := by simpa [BaseHash.nLen] using h.perm.mem_iff.mp hi
    exact ⟨t.pPairs[i], getElem?_eq_getElem hi,
      by rw [getElem?_append_left hi, getElem?_eq_getElem hi]⟩
  refine ⟨h.sorted, h.order, ?_, ?_, ?_, by simp⟩
  · change (t.keyOrder.insertIdx nLeft t.nLen).Perm
      (range (t.pPairs ++ [(key, value)]).length)
    rw [hcount, range_succ]
    refine (perm_insertIdx _ _ (by omega)).trans ?_
    exact ((h.perm.cons t.nLen).trans (perm_append_singleton _ _).symm)
  · change (t.keyOrder.insertIdx nLeft t.nLen).Pairwise _
    apply pairwise_insertIdx
    · refine h.increasing.imp_of_mem ?_
      rintro i j hi hj ⟨a, b, ha, hb, hab⟩
      obtain ⟨a', ha', hanew⟩ := hold i hi
      obtain ⟨b', hb', hbnew⟩ := hold j hj
      rw [ha] at ha'
      rw [hb] at hb'
      cases ha'
      cases hb'
      exact ⟨a, b, hanew, hbnew, hab⟩
    · omega
    · intro i hi
      obtain ⟨n, hn, rfl⟩ := mem_take_iff_getElem.mp hi
      have hlt : n < t.keyOrder.length := by omega
      obtain ⟨pair, hpair, hnew⟩ := hold _ (getElem_mem hlt)
      have hcmp := hsmaller n (by omega)
      rw [getD_eq_getElem?_getD, getElem?_eq_getElem hlt] at hcmp
      simp only [getD_some, keyCmpAt, hpair] at hcmp
      exact ⟨pair, (key, value), hnew, hstored, hcmp⟩
    · intro i hi
      obtain ⟨n, hn, rfl⟩ := mem_drop_iff_getElem.mp hi
      have hlt : nLeft + n < t.keyOrder.length := by omega
      obtain ⟨pair, hpair, hnew⟩ := hold _ (getElem_mem hlt)
      have hcmp := hgreater (nLeft + n) (by omega) (by omega)
      rw [getD_eq_getElem?_getD, getElem?_eq_getElem hlt] at hcmp
      simp only [getD_some, keyCmpAt, hpair] at hcmp
      exact ⟨(key, value), pair, hstored, hnew, (h.order.swap _ _).mp hcmp⟩
  · simp only [BaseHash.nLen, hcount]
    exact hroom

end

end Harbour.Vm.HashTable
