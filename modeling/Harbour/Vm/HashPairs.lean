import Mathlib.Data.List.Induction
import Mathlib.Data.List.Nodup
import Harbour.Vm.HashUpdate

/-!
What the operations of a hash do to its pairs and its index, whatever the
comparison of the keys is.
-/

namespace Harbour.Vm.HashPairs

open Library.BinarySearch HashTable HashUpdate List Option

variable {n nPos position : Nat} {pnPos : List Nat}

section Index

variable {K V : Type} {t : BaseHash K V}

/-- The index is there exactly when the hash keeps its order and has storage, it
has a slot for each pair, and unless it waits for a sort it lists each pair once. -/
structure Coherent (t : BaseHash K V) : Prop where
  allocated : t.nLen ≤ t.nSize
  layout : t.pnPos = none ↔ t.iFlags.keepOrder = false ∨ t.nSize = 0
  slots : ∀ pnPos, t.pnPos = some pnPos → pnPos.length = t.nLen
  index : t.iFlags.resort = false → t.keyOrder.Perm (range t.nLen)

theorem keyOrder_none (h : t.pnPos = none) : t.keyOrder = range t.nLen := by
  rw [BaseHash.keyOrder, h, getD_none]

theorem keyOrder_some (h : t.pnPos = some pnPos) : t.keyOrder = pnPos := by
  rw [BaseHash.keyOrder, h, getD_some]

theorem Coherent.keyOrder_length (h : Coherent t) : t.keyOrder.length = t.nLen := by
  cases hpos : t.pnPos with
  | none => rw [keyOrder_none hpos, length_range]
  | some pnPos => rw [keyOrder_some hpos, h.slots pnPos hpos]

theorem hashNew_coherent (iFlags : HashFlags) :
    Coherent ({ (hashNew : BaseHash K V) with iFlags := iFlags }) where
  allocated := Nat.le_refl 0
  layout := ⟨fun _ => .inr rfl, fun _ => rfl⟩
  slots := by simp [hashNew]
  index := fun _ => Perm.refl _

section Sorting

variable (cmp : HashFlags → K → K → Int)

theorem sortPosition_eq (t : BaseHash K V) (pnPos : List Nat) {nFrom : Nat} {pair : K × V}
    (h : t.pPairs[nFrom]? = some pair) :
    sortPosition cmp t pnPos nFrom = pnPos.insertIdx
      (upperBound (fun n => keyCmpAt cmp t (pnPos.getD n 0) pair.1) 0 nFrom) nFrom := by
  unfold sortPosition
  rw [h]

theorem sortPositions_perm (t : BaseHash K V) (hn : n ≤ t.nLen) :
    ((range n).foldl (sortPosition cmp t) []).Perm (range n) := by
  induction n with
  | zero => exact Perm.refl _
  | succ n ih =>
    have hperm := ih (Nat.le_of_succ_le hn)
    rw [range_succ, foldl_append, foldl_cons, foldl_nil,
      sortPosition_eq cmp t _ (getElem?_eq_getElem hn)]
    generalize (range n).foldl (sortPosition cmp t) [] = done at hperm
    have hlength : done.length = n := by rw [hperm.length_eq, length_range]
    refine (perm_insertIdx _ _ ?_).trans ?_
    · rw [hlength]
      exact upperBound_le _ (Nat.zero_le n)
    · exact (hperm.cons n).trans (perm_append_singleton _ _).symm

theorem sinkPair_perm (iFlags : HashFlags) (pair : K × V) (done : List (K × V)) :
    (sinkPair cmp iFlags pair done).Perm (pair :: done) := by
  induction done with
  | nil => exact Perm.refl _
  | cons greatest smaller ih =>
    unfold sinkPair
    split
    · exact (ih.cons greatest).trans (Perm.swap _ _ _)
    · exact Perm.refl _

theorem sinkPairs_perm (iFlags : HashFlags) (pairs done : List (K × V)) :
    (pairs.foldl (fun done pair => sinkPair cmp iFlags pair done) done).Perm (pairs ++ done) := by
  induction pairs generalizing done with
  | nil => exact Perm.refl _
  | cons pair pairs ih =>
    refine (ih _).trans ?_
    refine ((sinkPair_perm cmp iFlags pair done).append_left pairs).trans ?_
    exact perm_middle

theorem hashSortDo_pPairs (t : BaseHash K V) : (hashSortDo cmp t).pPairs.Perm t.pPairs := by
  unfold hashSortDo
  cases t.pnPos with
  | some pnPos => exact Perm.refl _
  | none =>
    simpa using sinkPairs_perm cmp t.iFlags t.pPairs []

theorem hashSortDo_nLen (t : BaseHash K V) : (hashSortDo cmp t).nLen = t.nLen :=
  (hashSortDo_pPairs cmp t).length_eq

@[simp] theorem hashSortDo_nSize (t : BaseHash K V) : (hashSortDo cmp t).nSize = t.nSize := by
  unfold hashSortDo
  cases t.pnPos <;> rfl

theorem hashSortDo_pnPos (t : BaseHash K V) :
    (hashSortDo cmp t).pnPos =
      t.pnPos.map fun _ => (range t.nLen).foldl (sortPosition cmp t) [] := by
  unfold hashSortDo
  cases t.pnPos <;> rfl

theorem Coherent.sortDo (h : Coherent t) : Coherent (hashSortDo cmp t) where
  allocated := by
    rw [hashSortDo_nLen, hashSortDo_nSize]
    exact h.allocated
  layout := by
    rw [hashSortDo_pnPos, hashSortDo_nSize, map_eq_none_iff]
    exact h.layout
  slots := by
    intro pnPos hpos
    rw [hashSortDo_pnPos] at hpos
    obtain ⟨-, -, rfl⟩ := map_eq_some_iff.mp hpos
    rw [hashSortDo_nLen, (sortPositions_perm cmp t (Nat.le_refl _)).length_eq, length_range]
  index := by
    intro _
    cases hpos : (hashSortDo cmp t).pnPos with
    | none => rw [keyOrder_none hpos]
    | some pnPos =>
      rw [keyOrder_some hpos, hashSortDo_nLen]
      rw [hashSortDo_pnPos] at hpos
      obtain ⟨-, -, rfl⟩ := map_eq_some_iff.mp hpos
      exact sortPositions_perm cmp t (Nat.le_refl _)

def settled (t : BaseHash K V) : BaseHash K V :=
  if t.iFlags.resort then hashSortDo cmp t else t

theorem settled_pPairs (t : BaseHash K V) : (settled cmp t).pPairs.Perm t.pPairs := by
  unfold settled
  split
  · exact hashSortDo_pPairs cmp t
  · exact Perm.refl _

theorem settled_nLen (t : BaseHash K V) : (settled cmp t).nLen = t.nLen :=
  (settled_pPairs cmp t).length_eq

theorem settled_iFlags (t : BaseHash K V) :
    (settled cmp t).iFlags = { t.iFlags with resort := false } := by
  unfold settled
  split
  · rfl
  · rename_i hresort
    rw [← Bool.eq_false_iff.mpr hresort]

theorem Coherent.settled (h : Coherent t) : Coherent (settled cmp t) := by
  unfold HashPairs.settled
  split
  · exact h.sortDo cmp
  · exact h

theorem hashFind_cases (h : Coherent t) (key : K) :
    (∃ nPos pair, hashFind cmp t key = (settled cmp t, true, nPos) ∧
      (settled cmp t).pPairs[nPos]? = some pair ∧ cmp (settled cmp t).iFlags pair.1 key = 0) ∨
    ∃ nPos, hashFind cmp t key = (settled cmp t, false, nPos) ∧ nPos ≤ (settled cmp t).nLen := by
  have hindex := (h.settled cmp).index (by rw [settled_iFlags])
  have hlength := (h.settled cmp).keyOrder_length
  have hfind (found : Bool) (position : Nat) (h : search (fun n => keyCmpAt cmp (settled cmp t)
      ((settled cmp t).keyOrder.getD n n) key) 0 (settled cmp t).nLen = (found, position)) :
      hashFind cmp t key = (settled cmp t, found,
        if found then (settled cmp t).keyOrder.getD position position else position) := by
    unfold settled at h ⊢
    unfold hashFind
    simp only [h]
    cases found <;> rfl
  generalize settled cmp t = s at hfind hindex hlength ⊢
  obtain ⟨hbound, hhit⟩ :=
    search_bounds (fun n => keyCmpAt cmp s (s.keyOrder.getD n n) key) (Nat.zero_le s.nLen)
  cases hsearch : search (fun n => keyCmpAt cmp s (s.keyOrder.getD n n) key) 0 s.nLen with
  | mk found position =>
    rw [hfind _ _ hsearch]
    rw [hsearch] at hbound hhit
    cases found with
    | false => exact .inr ⟨position, rfl, hbound⟩
    | true =>
      obtain ⟨hlt, hzero⟩ := hhit rfl
      have hmem : s.keyOrder.getD position position ∈ range s.nLen := by
        rw [getD_eq_getElem?_getD, getElem?_eq_getElem (hlength ▸ hlt),
          getD_some]
        exact hindex.mem_iff.mp (getElem_mem _)
      have hget := getElem?_eq_getElem (mem_range.mp hmem)
      refine .inl ⟨_, _, rfl, hget, ?_⟩
      unfold keyCmpAt at hzero
      rw [hget] at hzero
      exact hzero

end Sorting

def inOrder (t : BaseHash K V) : List (K × V) :=
  t.keyOrder.filterMap fun position => t.pPairs[position]?

theorem filterMap_range (pairs : List (K × V)) :
    (range pairs.length).filterMap (fun position => pairs[position]?) = pairs := by
  induction pairs using reverseRecOn with
  | nil => rfl
  | append_singleton pairs pair ih =>
    rw [length_append, length_singleton, range_succ, filterMap_append]
    congr 1
    · refine Eq.trans (filterMap_congr ?_) ih
      intro position hmem
      rw [getElem?_append_left (mem_range.mp hmem)]
    · simp

theorem inOrder_none (h : t.pnPos = none) : inOrder t = t.pPairs := by
  unfold inOrder
  rw [keyOrder_none h]
  exact filterMap_range t.pPairs

theorem Coherent.inOrder_perm (h : Coherent t) (hresort : t.iFlags.resort = false) :
    (inOrder t).Perm t.pPairs := by
  refine ((h.index hresort).filterMap _).trans ?_
  rw [BaseHash.nLen, filterMap_range]

theorem Coherent.lt_of_mem (h : Coherent t) (hresort : t.iFlags.resort = false)
    (hmem : position ∈ t.keyOrder) : position < t.pPairs.length :=
  mem_range.mp ((h.index hresort).mem_iff.mp hmem)

theorem Coherent.pnPos_eq (h : Coherent t) (hsize : t.nSize ≠ 0) :
    t.pnPos = if t.iFlags.keepOrder then some t.keyOrder else none := by
  cases hpos : t.pnPos with
  | none =>
    have hkeep := (h.layout.mp hpos).resolve_right hsize
    rw [hkeep, if_neg Bool.false_ne_true]
  | some pnPos =>
    have hkeep : t.iFlags.keepOrder = true := by
      by_contra hkeep
      rw [h.layout.mpr (.inl (Bool.eq_false_iff.mpr hkeep))] at hpos
      cases hpos
    rw [hkeep, if_pos rfl, keyOrder_some hpos]

theorem Coherent.reserve (h : Coherent t) : ∃ nSize, t.nLen < nSize ∧
    hashReserve t =
      { t with nSize, pnPos := if t.iFlags.keepOrder then some t.keyOrder else none } := by
  have hallocated := h.allocated
  have hsize : t.nSize < t.nSize + hashItemAlloc := Nat.lt_add_of_pos_right (by decide)
  unfold hashReserve hashGrow
  split
  · rename_i hfull
    refine ⟨t.nSize + hashItemAlloc, by omega, ?_⟩
    congr 1
    rcases Decidable.em (t.nSize = 0) with hzero | hpos
    · have hnone := h.layout.mpr (.inr hzero)
      rw [keyOrder_none hnone, hnone, ← hfull, hzero]
      cases t.iFlags.keepOrder <;> rfl
    · rw [if_neg fun hzero => hpos hzero.1]
      exact h.pnPos_eq hpos
  · rename_i hfull
    refine ⟨t.nSize, by omega, ?_⟩
    rw [← h.pnPos_eq (by omega)]

theorem hashOpenPair_eq (h : Coherent t) (nPos : Nat) (pair : K × V) : ∃ nSize, t.nLen < nSize ∧
    hashOpenPair t nPos pair =
      if t.iFlags.keepOrder then
        { t with
          nSize, pnPos := some (t.keyOrder.insertIdx nPos t.nLen), pPairs := t.pPairs ++ [pair] }
      else { t with nSize, pnPos := none, pPairs := t.pPairs.insertIdx nPos pair } := by
  obtain ⟨nSize, hlt, hreserve⟩ := h.reserve
  refine ⟨nSize, hlt, ?_⟩
  unfold hashOpenPair
  rw [hreserve]
  cases t.iFlags.keepOrder <;> rfl

@[simp] theorem hashOpenPair_iFlags (h : Coherent t) (nPos : Nat) (pair : K × V) :
    (hashOpenPair t nPos pair).iFlags = t.iFlags := by
  obtain ⟨nSize, -, heq⟩ := hashOpenPair_eq h nPos pair
  rw [heq]
  split <;> rfl

theorem hashOpenPair_pPairs (h : Coherent t) (hle : nPos ≤ t.nLen) (pair : K × V) :
    (hashOpenPair t nPos pair).pPairs.Perm (pair :: t.pPairs) := by
  obtain ⟨nSize, -, heq⟩ := hashOpenPair_eq h nPos pair
  rw [heq]
  split
  · exact perm_append_singleton _ _
  · exact perm_insertIdx _ _ hle

theorem Coherent.openPair (h : Coherent t) (hle : nPos ≤ t.nLen) (hresort : t.iFlags.resort = false)
    (pair : K × V) : Coherent (hashOpenPair t nPos pair) := by
  have hperm := h.index hresort
  have hlength := h.keyOrder_length
  obtain ⟨nSize, hlt, heq⟩ := hashOpenPair_eq h nPos pair
  have hnLen : (hashOpenPair t nPos pair).nLen = t.nLen + 1 :=
    (hashOpenPair_pPairs h hle pair).length_eq
  have hnSize : (hashOpenPair t nPos pair).nSize = nSize := by
    rw [heq]
    split <;> rfl
  have hpnPos : (hashOpenPair t nPos pair).pnPos =
      if t.iFlags.keepOrder then some (t.keyOrder.insertIdx nPos t.nLen) else none := by
    rw [heq]
    split <;> rfl
  have hflags := hashOpenPair_iFlags h nPos pair
  have hinsert : (t.keyOrder.insertIdx nPos t.nLen).Perm (range (t.nLen + 1)) := by
    rw [range_succ]
    refine (perm_insertIdx _ _ (hlength ▸ hle)).trans ?_
    exact (hperm.cons t.nLen).trans (perm_append_singleton _ _).symm
  refine ⟨by omega, ?_, ?_, fun _ => ?_⟩
  · rw [hpnPos, hflags, hnSize]
    cases t.iFlags.keepOrder
    · simp
    · simp
      omega
  · intro pnPos hpos
    rw [hpnPos] at hpos
    split at hpos
    · obtain rfl := some.inj hpos
      rw [hinsert.length_eq, length_range, hnLen]
    · cases hpos
  · cases hkeep : t.iFlags.keepOrder with
    | true =>
      rw [hkeep, if_pos rfl] at hpnPos
      rw [keyOrder_some hpnPos, hnLen]
      exact hinsert
    | false =>
      rw [hkeep, if_neg Bool.false_ne_true] at hpnPos
      rw [keyOrder_none hpnPos]

theorem filterMap_insertIdx {α β : Type*} (f : α → Option β) (g : α → β) (l : List α) (n : Nat)
    (a : α) (h : ∀ x ∈ l, f x = some (g x)) {b : β} (hb : f a = some b) :
    (l.insertIdx n a).filterMap f = (l.filterMap f).insertIdx n b := by
  induction l generalizing n with
  | nil => cases n <;> simp [hb]
  | cons x l ih =>
    have hx := h x mem_cons_self
    have hl : ∀ y ∈ l, f y = some (g y) := fun y hy => h y (mem_cons_of_mem _ hy)
    cases n with
    | zero => simp [hb, hx]
    | succ n => simp [hx, ih n hl]

theorem inOrder_openPair (h : Coherent t) (nPos : Nat) (hresort : t.iFlags.resort = false)
    (pair : K × V) : inOrder (hashOpenPair t nPos pair) = (inOrder t).insertIdx nPos pair := by
  obtain ⟨nSize, -, heq⟩ := hashOpenPair_eq h nPos pair
  rw [heq]
  split
  · change (t.keyOrder.insertIdx nPos t.nLen).filterMap
        (fun position => (t.pPairs ++ [pair])[position]?) =
      (t.keyOrder.filterMap fun position => t.pPairs[position]?).insertIdx nPos pair
    have hold : ∀ position ∈ t.keyOrder,
        (t.pPairs ++ [pair])[position]? = t.pPairs[position]? := fun position hmem =>
      getElem?_append_left (h.lt_of_mem hresort hmem)
    rw [← filterMap_congr hold]
    refine filterMap_insertIdx _ (fun position => t.pPairs.getD position pair) _ _ _ ?_ ?_
    · intro position hmem
      have hlt := h.lt_of_mem hresort hmem
      rw [hold position hmem, getD_eq_getElem?_getD, getElem?_eq_getElem hlt,
        getD_some]
    · exact getElem?_concat_length
  · rename_i hkeep
    have hnone := h.layout.mpr (.inl (Bool.eq_false_iff.mpr hkeep))
    rw [inOrder_none rfl, inOrder_none hnone]

/-- Where the pairs behind a deleted one move to. -/
def closeUp (nPos position : Nat) : Nat :=
  if nPos < position then position - 1 else position

theorem delPosition_of_notMem (hmem : nPos ∉ pnPos) (hlength : pnPos.length ≤ n) :
    delPosition nPos n pnPos = pnPos.map (closeUp nPos) := by
  induction pnPos generalizing n with
  | nil => cases n <;> rfl
  | cons position rest ih =>
    obtain ⟨hne, hrest⟩ := ne_and_not_mem_of_not_mem_cons hmem
    cases n with
    | zero => exact absurd hlength (Nat.not_succ_le_zero _)
    | succ n =>
      rw [map_cons, delPosition, if_neg (Ne.symm hne), closeUp,
        ih hrest (Nat.le_of_succ_le_succ hlength)]
      split <;> rfl

theorem delPosition_eq (hmem : nPos ∈ pnPos) (hnodup : pnPos.Nodup)
    (hlength : pnPos.length = n + 1) :
    delPosition nPos n pnPos = (pnPos.erase nPos).map (closeUp nPos) := by
  induction pnPos generalizing n with
  | nil => cases hmem
  | cons position rest ih =>
    obtain ⟨hposition, hrest⟩ := nodup_cons.mp hnodup
    have hn : rest.length = n := Nat.succ.inj hlength
    rcases eq_or_ne position nPos with rfl | hne
    · rw [erase_cons_head, ← delPosition_of_notMem hposition (Nat.le_of_eq hn)]
      cases n with
      | zero =>
        obtain rfl := length_eq_zero_iff.mp hn
        rfl
      | succ n => rw [delPosition, if_neg (Nat.lt_irrefl _), if_pos rfl]
    · have hlater : nPos ∈ rest := (mem_cons.mp hmem).resolve_left hne.symm
      cases n with
      | zero => exact absurd (length_eq_zero_iff.mp hn ▸ hlater) not_mem_nil
      | succ n =>
        rw [erase_cons_tail (by simpa using hne), map_cons, closeUp, delPosition,
          if_neg hne, ih hlater hrest hn]
        split <;> rfl

theorem closeUp_perm (hlt : nPos < n + 1) :
    (((range (n + 1)).erase nPos).map (closeUp nPos)).Perm (range n) := by
  have hnodup : ((range (n + 1)).erase nPos).Nodup := nodup_range.erase nPos
  refine (perm_ext_iff_of_nodup (Nodup.map_on ?_ hnodup) nodup_range).mpr ?_
  · intro a ha b hb hab
    have ha' := (nodup_range.mem_erase_iff.mp ha).1
    have hb' := (nodup_range.mem_erase_iff.mp hb).1
    unfold closeUp at hab
    split at hab <;> split at hab <;> omega
  · intro a
    rw [List.mem_map, mem_range]
    constructor
    · rintro ⟨b, hb, rfl⟩
      obtain ⟨hne, hb⟩ := nodup_range.mem_erase_iff.mp hb
      have hb := mem_range.mp hb
      unfold closeUp
      split <;> omega
    · intro ha
      refine ⟨if a < nPos then a else a + 1, ?_, ?_⟩
      · refine nodup_range.mem_erase_iff.mpr ⟨?_, mem_range.mpr ?_⟩
        · split <;> omega
        · split <;> omega
      · unfold closeUp
        split <;> split <;> omega

theorem hashDelPair_pPairs (hlt : nPos < t.nLen) :
    (hashDelPair t nPos).pPairs = t.pPairs.eraseIdx nPos := by
  unfold hashDelPair
  dsimp only
  split
  · rename_i hlast
    have hlength : (t.pPairs.eraseIdx nPos).length = 0 := by
      rw [length_eraseIdx_of_lt hlt]
      exact hlast
    rw [length_eq_zero_iff.mp hlength]
  · rfl

@[simp] theorem hashDelPair_iFlags (t : BaseHash K V) (nPos : Nat) :
    (hashDelPair t nPos).iFlags = t.iFlags := by
  unfold hashDelPair
  dsimp only
  split <;> rfl

theorem hashDelPair_nLen (hlt : nPos < t.nLen) :
    (hashDelPair t nPos).nLen = t.nLen - 1 := by
  rw [BaseHash.nLen, hashDelPair_pPairs hlt, length_eraseIdx_of_lt hlt]
  rfl

theorem hashDelPair_last (hlast : t.nLen - 1 = 0) :
    hashDelPair t nPos = { t with pPairs := [], pnPos := none, nSize := 0 } :=
  if_pos hlast

theorem hashDelPair_pnPos (hmore : t.nLen - 1 ≠ 0) :
    (hashDelPair t nPos).pnPos = t.pnPos.map
      (if t.iFlags.resort then take (t.nLen - 1) else delPosition nPos (t.nLen - 1)) := by
  unfold hashDelPair
  rw [if_neg hmore]

theorem hashDelPair_nSize (nPos : Nat) (hallocated : t.nLen ≤ t.nSize) (hmore : t.nLen - 1 ≠ 0) :
    t.nLen - 1 ≤ (hashDelPair t nPos).nSize ∧ (hashDelPair t nPos).nSize ≠ 0 := by
  unfold hashDelPair
  rw [if_neg hmore]
  dsimp only
  split <;> omega

theorem Coherent.delPosition (h : Coherent t) (hlt : nPos < t.nLen)
    (hresort : t.iFlags.resort = false) :
    HashUpdate.delPosition nPos (t.nLen - 1) t.keyOrder =
        (t.keyOrder.erase nPos).map (closeUp nPos) ∧
      ((t.keyOrder.erase nPos).map (closeUp nPos)).Perm (range (t.nLen - 1)) := by
  have hperm := h.index hresort
  have hcount : t.nLen - 1 + 1 = t.nLen := Nat.succ_pred_eq_of_pos (Nat.zero_lt_of_lt hlt)
  constructor
  · refine delPosition_eq (hperm.mem_iff.mpr (mem_range.mpr hlt))
      (hperm.nodup_iff.mpr nodup_range) ?_
    rw [h.keyOrder_length, hcount]
  · refine ((hperm.erase nPos).map _).trans ?_
    rw [← hcount]
    exact closeUp_perm (hcount.symm ▸ hlt)

theorem Coherent.delPair (h : Coherent t) (hlt : nPos < t.nLen) :
    Coherent (hashDelPair t nPos) := by
  rcases Decidable.em (t.nLen - 1 = 0) with hlast | hmore
  · rw [hashDelPair_last hlast]
    exact ⟨Nat.le_refl 0, ⟨fun _ => .inr rfl, fun _ => rfl⟩, fun _ hpos => absurd hpos (by simp),
      fun _ => Perm.refl _⟩
  · obtain ⟨hallocated, hnonzero⟩ := hashDelPair_nSize nPos h.allocated hmore
    have hallocated' := h.allocated
    have hsize : t.nSize ≠ 0 := by omega
    refine ⟨(hashDelPair_nLen hlt).symm ▸ hallocated, ?_, ?_, ?_⟩
    · rw [hashDelPair_pnPos hmore, map_eq_none_iff, h.layout, hashDelPair_iFlags,
        or_iff_left hsize, or_iff_left hnonzero]
    · intro pnPos hpos
      rw [hashDelPair_pnPos hmore] at hpos
      obtain ⟨old, hold, rfl⟩ := map_eq_some_iff.mp hpos
      rw [hashDelPair_nLen hlt]
      split
      · rw [length_take, h.slots old hold]
        exact Nat.min_eq_left (Nat.sub_le _ _)
      · rename_i hresort
        obtain ⟨heq, hperm⟩ := h.delPosition hlt (Bool.eq_false_iff.mpr hresort)
        rw [← keyOrder_some hold, heq, hperm.length_eq, length_range]
    · intro hresort
      rw [hashDelPair_iFlags] at hresort
      obtain ⟨heq, hperm⟩ := h.delPosition hlt hresort
      rw [hashDelPair_nLen hlt]
      cases hold : t.pnPos with
      | none =>
        rw [keyOrder_none (by rw [hashDelPair_pnPos hmore, hold, map_none]),
          hashDelPair_nLen hlt]
      | some old =>
        have hnew : (hashDelPair t nPos).pnPos =
            some ((t.keyOrder.erase nPos).map (closeUp nPos)) := by
          rw [hashDelPair_pnPos hmore, hresort, if_neg Bool.false_ne_true, hold, map_some,
            ← heq, keyOrder_some hold]
        rw [keyOrder_some hnew]
        exact hperm

theorem getElem?_closeUp (pairs : List (K × V)) (hne : position ≠ nPos) :
    (pairs.eraseIdx nPos)[closeUp nPos position]? = pairs[position]? := by
  unfold closeUp
  split
  · rename_i hlt
    rw [getElem?_eraseIdx_of_ge (Nat.le_sub_one_of_lt hlt),
      Nat.sub_add_cancel (Nat.zero_lt_of_lt hlt)]
  · rename_i hge
    exact getElem?_eraseIdx_of_lt (by omega)

section

variable (h : Coherent t)

include h

theorem inOrder_delPair (hlt : nPos < t.nLen) (hresort : t.iFlags.resort = false) :
    (inOrder (hashDelPair t nPos)).Sublist (inOrder t) := by
  rcases Decidable.em (t.nLen - 1 = 0) with hlast | hmore
  · rw [hashDelPair_last hlast]
    exact nil_sublist _
  · cases hold : t.pnPos with
    | none =>
      rw [inOrder_none (by rw [hashDelPair_pnPos hmore, hold, map_none]),
        inOrder_none hold, hashDelPair_pPairs hlt]
      exact eraseIdx_sublist _ _
    | some old =>
      have hnodup := (h.index hresort).nodup_iff.mpr nodup_range
      have hnew : (hashDelPair t nPos).keyOrder = (t.keyOrder.erase nPos).map (closeUp nPos) := by
        rw [← (h.delPosition hlt hresort).1, keyOrder_some (by rw [hashDelPair_pnPos hmore, hold,
          map_some]), hresort, if_neg Bool.false_ne_true, keyOrder_some hold]
      unfold inOrder
      rw [hnew, hashDelPair_pPairs hlt, filterMap_map]
      have hsame : ∀ position ∈ t.keyOrder.erase nPos,
          ((fun position => (t.pPairs.eraseIdx nPos)[position]?) ∘ closeUp nPos) position =
            t.pPairs[position]? := fun position hmem =>
        getElem?_closeUp _ (hnodup.mem_erase_iff.mp hmem).1
      rw [filterMap_congr hsame]
      exact (erase_sublist ).filterMap _

theorem hashNewPair_eq (pair : K × V) : ∃ nSize, t.nLen < nSize ∧
    hashNewPair t pair =
      { t with
        nSize
        pnPos := if t.iFlags.keepOrder then some (t.keyOrder ++ [t.nLen]) else none
        pPairs := t.pPairs ++ [pair] } := by
  obtain ⟨nSize, hlt, hreserve⟩ := h.reserve
  refine ⟨nSize, hlt, ?_⟩
  unfold hashNewPair
  rw [hreserve]
  cases t.iFlags.keepOrder <;> rfl

theorem hashNewPair_index (pair : K × V) : (hashNewPair t pair).nLen = t.nLen + 1 ∧
    (hashNewPair t pair).pnPos =
      if t.iFlags.keepOrder then some (t.keyOrder ++ [t.nLen]) else none := by
  obtain ⟨nSize, -, heq⟩ := hashNewPair_eq h pair
  rw [heq]
  exact ⟨length_append, rfl⟩

theorem Coherent.setPairs {pairs : List (K × V)} (hlength : pairs.length = t.pPairs.length) :
    ({ t with pPairs := pairs } : BaseHash K V).keyOrder = t.keyOrder ∧
      Coherent { t with pPairs := pairs } := by
  have horder : ({ t with pPairs := pairs } : BaseHash K V).keyOrder = t.keyOrder := by
    simp only [BaseHash.keyOrder, BaseHash.nLen, hlength]
  refine ⟨horder, ?_, h.layout, ?_, ?_⟩
  · change pairs.length ≤ t.nSize
    rw [hlength]
    exact h.allocated
  · intro pnPos hpos
    change pnPos.length = pairs.length
    rw [hlength]
    exact h.slots pnPos hpos
  · intro hresort
    rw [horder]
    change t.keyOrder.Perm (range pairs.length)
    rw [hlength]
    exact h.index hresort

theorem Coherent.newPair (pair : K × V) : Coherent (hashNewPair t pair) := by
  obtain ⟨nSize, hlt, heq⟩ := hashNewPair_eq h pair
  have hlength := h.keyOrder_length
  obtain ⟨hnLen, hpnPos⟩ := hashNewPair_index h pair
  have hflags : (hashNewPair t pair).iFlags = t.iFlags := by rw [heq]
  have hnSize : (hashNewPair t pair).nSize = nSize := by rw [heq]
  refine ⟨by omega, ?_, ?_, fun hresort => ?_⟩
  · rw [hpnPos, hflags, hnSize]
    cases t.iFlags.keepOrder <;> simp
    omega
  · intro pnPos hpos
    rw [hpnPos] at hpos
    split at hpos
    · obtain rfl := some.inj hpos
      rw [length_append, hlength, hnLen, length_singleton]
    · cases hpos
  · rw [hflags] at hresort
    cases hkeep : t.iFlags.keepOrder with
    | false =>
      rw [hkeep, if_neg Bool.false_ne_true] at hpnPos
      rw [keyOrder_none hpnPos]
    | true =>
      rw [hkeep, if_pos rfl] at hpnPos
      rw [keyOrder_some hpnPos, hnLen, range_succ]
      exact (h.index hresort).append_right _

theorem Coherent.clear :
    Coherent (hashClear t) ∧ (hashClear t).pPairs = [] ∧ (hashClear t).iFlags = t.iFlags := by
  unfold hashClear
  split
  · exact ⟨⟨Nat.le_refl 0, ⟨fun _ => .inr rfl, fun _ => rfl⟩, fun _ hpos => absurd hpos (by simp),
      fun _ => Perm.refl _⟩, rfl, rfl⟩
  · rename_i hzero
    have hallocated := h.allocated
    exact ⟨h, length_eq_zero_iff.mp (by unfold BaseHash.nLen at hallocated; omega), rfl⟩

theorem hashResize_eq (nNewSize : Nat) : ∃ nSize pnPos,
    hashResize t nNewSize = { t with nSize, pnPos } ∧ t.nLen ≤ nSize ∧
      (pnPos = none ↔ t.iFlags.keepOrder = false ∨ nSize = 0) ∧
      pnPos.getD (range t.nLen) = t.keyOrder := by
  have hallocated := h.allocated
  unfold hashResize hashGrow
  split
  · rename_i hgrow
    rcases Decidable.em (t.nSize = 0) with hzero | hsize
    · have hnone := h.layout.mpr (.inr hzero)
      have hempty : t.nLen = 0 := by omega
      refine ⟨_, _, rfl, by omega, ?_, ?_⟩
      · rw [hnone]
        cases t.iFlags.keepOrder <;> simp [hzero]
        omega
      · rw [keyOrder_none hnone, hnone, hempty]
        split <;> rfl
    · refine ⟨_, _, rfl, by omega, ?_, ?_⟩
      · rw [if_neg fun hzero => hsize hzero.1, h.layout, or_iff_left hsize, or_iff_left (by omega)]
      · rw [if_neg fun hzero => hsize hzero.1]
        rfl
  · split
    · rename_i hshrink
      rcases Decidable.em (nNewSize = 0) with hzero | hsize
      · have hempty : t.nLen = 0 := by omega
        refine ⟨_, _, rfl, by omega, ?_, ?_⟩
        · simp [hzero]
        · have hlength := h.keyOrder_length
          rw [hempty] at hlength
          rw [if_pos hzero, getD_none, hempty, length_eq_zero_iff.mp hlength]
          rfl
      · refine ⟨_, _, rfl, by omega, ?_, ?_⟩
        · rw [if_neg hsize, h.layout, or_iff_left (by omega), or_iff_left hsize]
        · rw [if_neg hsize]
          rfl
    · exact ⟨t.nSize, t.pnPos, rfl, hallocated, h.layout, rfl⟩

theorem Coherent.resize (nNewSize : Nat) : Coherent (hashResize t nNewSize) := by
  obtain ⟨nSize, pnPos, heq, hallocated, hlayout, horder⟩ := hashResize_eq h nNewSize
  rw [heq]
  refine ⟨hallocated, hlayout, ?_, fun hresort => ?_⟩
  · rintro old rfl
    change old.length = t.nLen
    rw [← h.keyOrder_length, ← horder]
    rfl
  · change (pnPos.getD (range t.nLen)).Perm (range t.nLen)
    rw [horder]
    exact h.index hresort

end

theorem mapM_slotAt (nilPair : K × V) {order : List Nat}
    (h : ∀ position ∈ order, position < t.pPairs.length) :
    order.mapM (slotAt nilPair t) =
      .ok (order.filterMap fun position => t.pPairs[position]?) := by
  induction order with
  | nil => rfl
  | cons position order ih =>
    have hlt := h position mem_cons_self
    have hget := getElem?_eq_getElem hlt
    have hslot : slotAt nilPair t position = .ok t.pPairs[position] := by
      unfold slotAt
      rw [hget]
    rw [mapM_cons, hslot, ih fun p hmem => h p (mem_cons_of_mem _ hmem),
      filterMap_cons, hget]
    rfl

theorem hashResort_eq (nilPair : K × V) (hperm : pnPos.Perm (range t.nLen)) (hsome : t.nLen ≠ 0) :
    hashResort nilPair t pnPos =
      .ok { t with
        pPairs := pnPos.filterMap fun position => t.pPairs[position]?
        pnPos := some (range t.nLen)
        nSize := t.nLen } := by
  unfold hashResort
  rw [if_neg hsome, mapM_slotAt nilPair fun position hmem =>
    mem_range.mp (hperm.mem_iff.mp hmem)]
  rfl

theorem filterMap_perm (hperm : pnPos.Perm (range t.nLen)) :
    (pnPos.filterMap fun position => t.pPairs[position]?).Perm t.pPairs := by
  refine (hperm.filterMap _).trans ?_
  rw [BaseHash.nLen, filterMap_range]

theorem settled_isSome (cmp : HashFlags → K → K → Int) (t : BaseHash K V) :
    (settled cmp t).pnPos.isSome = t.pnPos.isSome := by
  unfold settled
  split
  · rw [hashSortDo_pnPos, isSome_map]
  · rfl

theorem settled_pDefault (cmp : HashFlags → K → K → Int) (t : BaseHash K V) :
    (settled cmp t).pDefault = t.pDefault := by
  unfold settled hashSortDo
  split
  · cases t.pnPos <;> rfl
  · rfl

theorem hashSort_settled (nilPair : K × V) (cmp : HashFlags → K → K → Int) (t : BaseHash K V) :
    hashSort nilPair cmp t =
      (settled cmp t).pnPos.elim (.ok (settled cmp t)) (hashResort nilPair (settled cmp t)) := by
  unfold hashSort settled
  dsimp only
  split <;> rename_i hpos <;> rw [hpos] <;> rfl

theorem hashSort_eq (nilPair : K × V) (cmp : HashFlags → K → K → Int) (h : Coherent t)
    (hsome : t.pnPos.isSome → t.nLen ≠ 0) : ∃ t', hashSort nilPair cmp t = .ok t' ∧
      Coherent t' ∧ t'.pPairs = inOrder (settled cmp t) ∧ inOrder t' = t'.pPairs ∧
      t'.iFlags = { t.iFlags with resort := false } ∧ t'.pDefault = t.pDefault := by
  have hs := h.settled cmp
  have hflags := settled_iFlags cmp t
  have hdefault := settled_pDefault cmp t
  have hsort := hashSort_settled nilPair cmp t
  rw [← settled_isSome cmp, ← settled_nLen cmp] at hsome
  generalize settled cmp t = s at hs hflags hdefault hsort hsome ⊢
  rw [hsort]
  have hresort : s.iFlags.resort = false := by rw [hflags]
  cases hpos : s.pnPos with
  | none => exact ⟨s, rfl, hs, (inOrder_none hpos).symm, inOrder_none hpos, hflags, hdefault⟩
  | some pnPos =>
    have horder := keyOrder_some hpos
    have hnonzero := hsome (by rw [hpos]; rfl)
    have hcount : (inOrder s).length = s.nLen := (hs.inOrder_perm hresort).length_eq
    have hlayout := mt hs.layout.mpr (by rw [hpos]; exact some_ne_none _)
    obtain ⟨hkeep, -⟩ := not_or.mp hlayout
    have hmoved : pnPos.filterMap (fun position => s.pPairs[position]?) = inOrder s := by
      rw [inOrder, horder]
    refine ⟨_, hashResort_eq nilPair (horder ▸ hs.index hresort) hnonzero, ?_, hmoved, ?_, hflags,
      hdefault⟩
    · rw [hmoved]
      refine ⟨Nat.le_of_eq hcount, ?_, ?_, fun _ => ?_⟩
      · simp [hkeep, hnonzero]
      · rintro _ ⟨⟩
        rw [length_range]
        exact hcount.symm
      · change (range s.nLen).Perm (range (inOrder s).length)
        rw [hcount]
    · rw [hmoved]
      rw [← hcount]
      exact filterMap_range _

end Index

end Harbour.Vm.HashPairs
