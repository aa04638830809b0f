import Harbour.Library.KeyOrder
import Harbour.Vm.HashPairs

/-!
Lookups and sorts under a comparison that orders the keys of the hash.
-/

namespace Harbour.Vm.HashOrder

open Library.BinarySearch Library.KeyOrder HashTable HashUpdate HashPairs List Option

variable {K V : Type}

variable {n nPos : Nat}

section Table

variable {cmp : HashFlags → K → K → Int} {keys : Set K} {t : BaseHash K V} {key : K}

theorem inOrder_getElem? (order : List Nat) (pairs : List (K × V))
    (h : ∀ position ∈ order, position < pairs.length) (n : Nat) :
    (order.filterMap fun position => pairs[position]?)[n]? =
      order[n]?.bind fun position => pairs[position]? := by
  induction order generalizing n with
  | nil => rfl
  | cons position order ih =>
    have hlt := h position mem_cons_self
    rw [filterMap_cons, getElem?_eq_getElem hlt]
    cases n with
    | zero => exact (getElem?_eq_getElem hlt).symm
    | succ n => exact ih (fun p hmem => h p (mem_cons_of_mem _ hmem)) n

theorem keyCmpAt_eq (order : List Nat) (h : ∀ position ∈ order, position < t.pPairs.length)
    (hn : n < order.length) (d : Nat) :
    keyCmpAt cmp t (order.getD n d) key =
      cmpAt (cmp t.iFlags) (order.filterMap fun position => t.pPairs[position]?) key n := by
  unfold keyCmpAt cmpAt
  rw [inOrder_getElem? order _ h, getD_eq_getElem?_getD, getElem?_eq_getElem hn]
  rfl

theorem keyCmpAt_inOrder (h : Coherent t) (hresort : t.iFlags.resort = false) (key : K) :
    (fun n => keyCmpAt cmp t (t.keyOrder.getD n n) key) =
      cmpAt (cmp t.iFlags) (inOrder t) key := by
  have hlength : t.keyOrder.length = t.pPairs.length := h.keyOrder_length
  funext n
  rcases Nat.lt_or_ge n t.keyOrder.length with hlt | hge
  · exact keyCmpAt_eq t.keyOrder (fun position hmem => h.lt_of_mem hresort hmem) hlt n
  · have hcount : (inOrder t).length = t.pPairs.length := (h.inOrder_perm hresort).length_eq
    unfold keyCmpAt cmpAt
    rw [getD_eq_getElem?_getD, getElem?_eq_none hge, getD_none,
      getElem?_eq_none (hlength ▸ hge), getElem?_eq_none (by omega)]

theorem hashFind_search (h : Coherent t) (hresort : t.iFlags.resort = false) (key : K) :
    hashFind cmp t key =
      match search (cmpAt (cmp t.iFlags) (inOrder t) key) 0 t.nLen with
      | (true, nMiddle) => (t, true, t.keyOrder.getD nMiddle nMiddle)
      | (false, nLeft) => (t, false, nLeft) := by
  rw [← keyCmpAt_inOrder h hresort key]
  rcases hsearch : search (fun n => keyCmpAt cmp t (t.keyOrder.getD n n) key) 0 t.nLen with
    ⟨_ | _, n⟩ <;>
    simp only [hashFind, hresort, Bool.false_eq_true, if_false, hsearch]

theorem getD_self {l : List Nat} (hn : n < l.length) : l.getD n n = l[n] := by
  rw [getD_eq_getElem?_getD, getElem?_eq_getElem hn, getD_some]

section

variable (h : Coherent t) (hresort : t.iFlags.resort = false)

include h hresort

theorem inOrder_position (hn : n < t.nLen) :
    t.pPairs[t.keyOrder.getD n n]? = (inOrder t)[n]? := by
  have hlt : n < t.keyOrder.length := h.keyOrder_length.symm ▸ hn
  have hget := inOrder_getElem? t.keyOrder t.pPairs (fun _ hmem => h.lt_of_mem hresort hmem) n
  rw [getElem?_eq_getElem hlt] at hget
  rw [getD_eq_getElem?_getD, getElem?_eq_getElem hlt]
  exact hget.symm

section

variable (horder : OrdersKeys (cmp t.iFlags) keys) (hkeys : Keyed keys t.pPairs)

include horder hkeys

theorem hashFind_ordered (hkey : key ∈ keys) (hsorted : Increases (cmp t.iFlags) (inOrder t)) :
    (∃ nPos pair, hashFind cmp t key = (t, true, nPos) ∧ t.pPairs[nPos]? = some pair ∧
      cmp t.iFlags pair.1 key = 0) ∨
    ∃ nPos, hashFind cmp t key = (t, false, nPos) ∧ nPos ≤ t.nLen ∧
      (∀ pair ∈ (inOrder t).take nPos, cmp t.iFlags pair.1 key < 0) ∧
      ∀ pair ∈ (inOrder t).drop nPos, 0 < cmp t.iFlags pair.1 key := by
  have hperm := h.inOrder_perm hresort
  have hcount : (inOrder t).length = t.nLen := hperm.length_eq
  have hascending := hsorted.ascending horder (hkeys.perm hperm) hkey
  rw [hcount] at hascending
  have hlocated := search_zero_located _ hascending
  rw [hashFind_search h hresort]
  generalize search (cmpAt (cmp t.iFlags) (inOrder t) key) 0 t.nLen = answer at hlocated ⊢
  match answer with
  | (true, position) =>
    obtain ⟨hlt, hzero⟩ := hlocated
    rw [cmpAt_getElem (hcount.symm ▸ hlt)] at hzero
    refine .inl ⟨_, (inOrder t)[position], rfl, ?_, hzero⟩
    rw [inOrder_position h hresort hlt, getElem?_eq_getElem]
  | (false, position) =>
    obtain ⟨hle, hsmaller, hgreater⟩ := hlocated
    refine .inr ⟨position, rfl, hle, forall_take (hcount.symm ▸ hle) ?_, forall_drop ?_⟩
    · intro i hi hlt
      have hless := hsmaller i hlt
      rwa [cmpAt_getElem hi] at hless
    · intro i hi hge
      have hmore := hgreater i hge (hcount ▸ hi)
      rwa [cmpAt_getElem hi] at hmore

theorem hashFind_own_iff :
    (∀ nPos pair, t.pPairs[nPos]? = some pair → hashFind cmp t pair.1 = (t, true, nPos)) ↔
      Increases (cmp t.iFlags) (inOrder t) := by
  have hperm := h.inOrder_perm hresort
  have hcount : (inOrder t).length = t.nLen := hperm.length_eq
  have hordered := hkeys.perm hperm
  constructor
  · intro hown
    refine increases_of_search horder hordered fun i hi => ?_
    have hlt : i < t.nLen := hcount ▸ hi
    have hget := inOrder_position h hresort hlt
    rw [getElem?_eq_getElem hi] at hget
    have hfound := hown _ _ hget
    obtain ⟨hbound, hhit⟩ :=
      search_bounds (cmpAt (cmp t.iFlags) (inOrder t) (inOrder t)[i].1) (Nat.zero_le t.nLen)
    rw [hashFind_search h hresort] at hfound
    rw [hcount]
    generalize search (cmpAt (cmp t.iFlags) (inOrder t) (inOrder t)[i].1) 0 t.nLen = answer
      at hfound hhit ⊢
    match answer with
    | (false, place) => cases hfound
    | (true, place) =>
      have hplace : place < t.nLen := (hhit rfl).1
      have hsame : t.keyOrder.getD place place = t.keyOrder.getD i i := by
        injection hfound with _ hfound
        injection hfound
      rw [getD_self (h.keyOrder_length.symm ▸ hplace), getD_self (h.keyOrder_length.symm ▸ hlt),
        Nodup.getElem_inj_iff ((h.index hresort).symm.nodup nodup_range)] at hsame
      rw [hsame]
  · intro hsorted nPos pair hget
    have hkey := hkeys pair (mem_of_getElem? hget)
    have hself := horder.equal_refl hkey
    rcases hashFind_ordered h hresort horder hkeys hkey hsorted with
      ⟨nPos', pair', hfind, hget', hzero⟩ | ⟨n, -, -, hbefore, hafter⟩
    · obtain ⟨hlt, rfl⟩ := List.getElem?_eq_some_iff.mp hget
      obtain ⟨hlt', rfl⟩ := List.getElem?_eq_some_iff.mp hget'
      have hdistinct := pairwise_iff_getElem.mp
        ((hsorted.distinct horder hordered).perm hperm.symm)
      rcases Nat.lt_trichotomy nPos' nPos with hless | rfl | hmore
      · exact absurd hzero (hdistinct nPos' nPos hlt' hlt hless).1
      · exact hfind
      · exact absurd hzero (hdistinct nPos nPos' hlt hlt' hmore).2
    · have hmem := hperm.mem_iff.mpr (mem_of_getElem? hget)
      rw [← take_append_drop n (inOrder t)] at hmem
      rcases mem_append.mp hmem with hmem | hmem
      · have hless := hbefore pair hmem
        omega
      · have hmore := hafter pair hmem
        omega

end

end

theorem take_filterMap (pairs : List (K × V)) (hn : n ≤ pairs.length) :
    (range n).filterMap (fun position => pairs[position]?) = pairs.take n := by
  have hlength : (pairs.take n).length = n := by rw [length_take, Nat.min_eq_left hn]
  rw [← filterMap_range (pairs.take n), hlength]
  refine filterMap_congr fun position hmem => ?_
  rw [getElem?_take_of_lt (mem_range.mp hmem)]

theorem sortPositions_increases (horder : OrdersKeys (cmp t.iFlags) keys)
    (hkeys : Keyed keys t.pPairs) (hdistinct : Distinct (cmp t.iFlags) t.pPairs)
    (hn : n ≤ t.pPairs.length) :
    Increases (cmp t.iFlags) (((range n).foldl (sortPosition cmp t) []).filterMap
      fun position => t.pPairs[position]?) := by
  induction n with
  | zero => exact List.Pairwise.nil
  | succ n ih =>
    have hsorted := ih (Nat.le_of_succ_le hn)
    have hperm := sortPositions_perm cmp t (Nat.le_of_succ_le hn)
    have hget : t.pPairs[n]? = some t.pPairs[n] := getElem?_eq_getElem hn
    rw [range_succ, foldl_append, foldl_cons, foldl_nil,
      sortPosition_eq cmp t _ hget]
    generalize (range n).foldl (sortPosition cmp t) [] = done at hsorted hperm ⊢
    have hlength : done.length = n := by rw [hperm.length_eq, length_range]
    have hvalid : ∀ position ∈ done, position < t.pPairs.length := fun position hmem =>
      (mem_range.mp (hperm.mem_iff.mp hmem)).trans hn
    have hgetD : ∀ position ∈ done, t.pPairs[position]? =
        some (t.pPairs.getD position t.pPairs[n]) := by
      intro position hmem
      rw [getD_eq_getElem?_getD, getElem?_eq_getElem (hvalid position hmem)]
      rfl
    have hpairs : (done.filterMap fun position => t.pPairs[position]?).Perm (t.pPairs.take n) := by
      rw [← take_filterMap t.pPairs (Nat.le_of_succ_le hn)]
      exact hperm.filterMap _
    have hcmp : ∀ i < n, keyCmpAt cmp t (done.getD i 0) t.pPairs[n].1 =
        cmpAt (cmp t.iFlags) (done.filterMap fun position => t.pPairs[position]?)
          t.pPairs[n].1 i := fun i hi => keyCmpAt_eq done hvalid (hlength.symm ▸ hi) 0
    rw [filterMap_insertIdx _ _ _ _ _ hgetD hget]
    generalize (done.filterMap fun position => t.pPairs[position]?) = placed at *
    have hcount : placed.length = n := by
      rw [hpairs.length_eq, length_take, Nat.min_eq_left (Nat.le_of_succ_le hn)]
    have hplaced : Keyed keys placed := fun pair hmem =>
      hkeys pair (mem_of_mem_take (hpairs.mem_iff.mp hmem))
    have hkey : t.pPairs[n].1 ∈ keys := hkeys _ (getElem_mem _)
    have hne : ∀ pair ∈ placed, cmp t.iFlags pair.1 t.pPairs[n].1 ≠ 0 := by
      intro pair hmem
      obtain ⟨i, hi, rfl⟩ := mem_take_iff_getElem.mp (hpairs.mem_iff.mp hmem)
      exact (pairwise_iff_getElem.mp hdistinct i n _ hn (by omega)).1
    have hascending : Ascending (fun i => keyCmpAt cmp t (done.getD i 0) t.pPairs[n].1) n := by
      intro i j hij hj
      dsimp only
      rw [hcmp i (hij.trans hj), hcmp j hj]
      exact hsorted.ascending horder hplaced hkey i j hij (hcount.symm ▸ hj)
    have hle := upperBound_le (fun i => keyCmpAt cmp t (done.getD i 0) t.pPairs[n].1)
      (Nat.zero_le n)
    obtain ⟨hsmaller, hgreater⟩ := upperBound_located _ hascending (Nat.zero_le n) (Nat.le_refl n)
      (fun i hi => absurd hi (Nat.not_lt_zero i)) fun i hge hlt => absurd hge (Nat.not_le.mpr hlt)
    refine hsorted.insertIdx horder hplaced hkey (hcount.symm ▸ hle)
      (forall_take (hcount.symm ▸ hle) ?_) (forall_drop ?_)
    · intro i hi hlt
      have hless := hsmaller i hlt
      rw [hcmp i (hcount ▸ hi), cmpAt_getElem hi] at hless
      exact lt_of_le_of_ne hless (hne _ (getElem_mem hi))
    · intro i hi hge
      have hmore := hgreater i hge (hcount ▸ hi)
      rwa [hcmp i (hcount ▸ hi), cmpAt_getElem hi] at hmore

/-- The pairs that have been sunk so far, the greatest first. -/
def Decreases (cmp : K → K → Int) (pairs : List (K × V)) : Prop :=
  pairs.Pairwise fun a b => cmp b.1 a.1 < 0

section

variable {iFlags : HashFlags} (horder : OrdersKeys (cmp iFlags) keys)

include horder

theorem sinkPair_decreases {pair : K × V} (hkey : pair.1 ∈ keys) {done : List (K × V)}
    (hkeys : Keyed keys done) (hdone : Decreases (cmp iFlags) done)
    (hne : ∀ a ∈ done, cmp iFlags a.1 pair.1 ≠ 0) :
    Decreases (cmp iFlags) (sinkPair cmp iFlags pair done) := by
  induction done with
  | nil => exact pairwise_singleton _ _
  | cons greatest smaller ih =>
    obtain ⟨hgreatest, hsmaller⟩ := pairwise_cons.mp hdone
    have hgreatestKey := hkeys greatest mem_cons_self
    have hsmallerKeys : Keyed keys smaller := fun a ha => hkeys a (mem_cons_of_mem _ ha)
    unfold sinkPair
    split
    · rename_i hgt
      refine pairwise_cons.mpr ⟨fun a ha => ?_, ih hsmallerKeys hsmaller fun a ha =>
        hne a (mem_cons_of_mem _ ha)⟩
      rcases mem_cons.mp ((sinkPair_perm cmp iFlags pair smaller).mem_iff.mp ha) with rfl | ha
      · exact (horder.swap _ hgreatestKey _ hkey).mp hgt
      · exact hgreatest a ha
    · rename_i hle
      have hlt : cmp iFlags greatest.1 pair.1 < 0 :=
        lt_of_le_of_ne (Int.not_lt.mp hle) (hne greatest mem_cons_self)
      refine pairwise_cons.mpr ⟨fun a ha => ?_, hdone⟩
      rcases mem_cons.mp ha with rfl | ha
      · exact hlt
      · exact horder.trans _ (hsmallerKeys a ha) _ hgreatestKey _ hkey (hgreatest a ha) hlt

theorem sinkPairs_decreases {pairs done : List (K × V)} (hkeys : Keyed keys (done ++ pairs))
    (hdone : Decreases (cmp iFlags) done) (hdistinct : Distinct (cmp iFlags) (done ++ pairs)) :
    Decreases (cmp iFlags) (pairs.foldl (fun done pair => sinkPair cmp iFlags pair done) done) := by
  induction pairs generalizing done with
  | nil => exact hdone
  | cons pair pairs ih =>
    have hperm : (sinkPair cmp iFlags pair done ++ pairs).Perm (done ++ pair :: pairs) :=
      ((sinkPair_perm cmp iFlags pair done).append_right pairs).trans perm_middle.symm
    refine ih (hkeys.perm hperm) ?_ (hdistinct.perm hperm)
    refine sinkPair_decreases horder (hkeys pair (by simp)) (fun a ha => hkeys a (by simp [ha]))
      hdone fun a ha => ?_
    exact ((pairwise_append.mp hdistinct).2.2 a ha pair mem_cons_self).1

end

theorem hashSortDo_increases (horder : OrdersKeys (cmp t.iFlags) keys)
    (hkeys : Keyed keys t.pPairs) (hdistinct : Distinct (cmp t.iFlags) t.pPairs) :
    Increases (cmp t.iFlags) (inOrder (hashSortDo cmp t)) := by
  cases hpos : t.pnPos with
  | some pnPos =>
    have hpairs : (hashSortDo cmp t).pPairs = t.pPairs := by
      unfold hashSortDo
      rw [hpos]
    rw [inOrder, keyOrder_some (by rw [hashSortDo_pnPos, hpos, map_some]), hpairs]
    exact sortPositions_increases horder hkeys hdistinct (Nat.le_refl _)
  | none =>
    have hpairs : (hashSortDo cmp t).pPairs =
        (t.pPairs.foldl (fun done pair => sinkPair cmp t.iFlags pair done) []).reverse := by
      unfold hashSortDo
      rw [hpos]
    rw [inOrder_none (by rw [hashSortDo_pnPos, hpos, map_none]), hpairs]
    exact pairwise_reverse.mpr
      (sinkPairs_decreases horder hkeys List.Pairwise.nil hdistinct)

end Table

end Harbour.Vm.HashOrder

/-!
The order of the keys is kept by every operation.
-/

namespace Harbour.Vm.HashSound

open Library.KeyOrder HashTable HashUpdate HashPairs HashOrder List

variable {K V : Type}

/-- The comparison does not depend on whether a sort is pending. -/
def Settles (cmp : HashFlags → K → K → Int) : Prop :=
  ∀ iFlags : HashFlags, cmp { iFlags with resort := false } = cmp iFlags

section Soundness

variable {cmp : HashFlags → K → K → Int} {keys : Set K} {t : BaseHash K V} {key : K}

/-- The pairs have pairwise different keys, and unless a sort is pending the lookup
order is the order of the keys. -/
structure Sound (cmp : HashFlags → K → K → Int) (keys : Set K) (t : BaseHash K V) : Prop where
  coherent : Coherent t
  keyed : Keyed keys t.pPairs
  distinct : Distinct (cmp t.iFlags) t.pPairs
  sorted : t.iFlags.resort = false → Increases (cmp t.iFlags) (inOrder t)

theorem sound_of_empty (h : Coherent t) (hnil : t.pPairs = []) : Sound cmp keys t where
  coherent := h
  keyed := by
    rw [hnil]
    exact fun _ hmem => absurd hmem not_mem_nil
  distinct := by
    rw [hnil]
    exact List.Pairwise.nil
  sorted := by
    intro hresort
    have hperm := h.inOrder_perm hresort
    rw [hnil] at hperm
    rw [hperm.eq_nil]
    exact List.Pairwise.nil

theorem Sound.setValues (h : Sound cmp keys t) {pairs : List (K × V)}
    (hkeys : pairs.map Prod.fst = t.pPairs.map Prod.fst) :
    Sound cmp keys { t with pPairs := pairs } := by
  have hlength : pairs.length = t.pPairs.length := by
    rw [← length_map Prod.fst, hkeys, length_map]
  obtain ⟨horder, hcoherent⟩ := h.coherent.setPairs hlength
  have hsame : (inOrder { t with pPairs := pairs }).map Prod.fst = (inOrder t).map Prod.fst := by
    unfold inOrder
    rw [horder, map_filterMap, map_filterMap]
    refine filterMap_congr fun position _ => ?_
    rw [← getElem?_map, ← getElem?_map, hkeys]
  refine ⟨hcoherent, ?_, ?_, ?_⟩
  · intro pair hmem
    have hmap : pair.1 ∈ t.pPairs.map Prod.fst := hkeys ▸ mem_map_of_mem hmem
    obtain ⟨old, hold, heq⟩ := mem_map.mp hmap
    exact heq ▸ h.keyed old hold
  · rw [distinct_iff, hkeys]
    exact distinct_iff.mp h.distinct
  · intro hresort
    rw [increases_iff, hsame]
    exact increases_iff.mp (h.sorted hresort)

theorem hashFind_settled (cmp : HashFlags → K → K → Int) (t : BaseHash K V) (key : K) :
    hashFind cmp t key = hashFind cmp (settled cmp t) key := by
  have hresort : (settled cmp t).iFlags.resort = false := by rw [settled_iFlags]
  unfold hashFind
  rw [hresort, if_neg Bool.false_ne_true]
  rfl

section Flags

variable (hbits : Settles cmp)

include hbits

theorem settled_cmp (t : BaseHash K V) : cmp (settled cmp t).iFlags = cmp t.iFlags := by
  rw [settled_iFlags, hbits]

theorem Sound.settled (horder : OrdersKeys (cmp t.iFlags) keys) (h : Sound cmp keys t) :
    Sound cmp keys (settled cmp t) where
  coherent := h.coherent.settled cmp
  keyed := h.keyed.perm (settled_pPairs cmp t)
  distinct := by
    rw [settled_cmp hbits]
    exact h.distinct.perm (settled_pPairs cmp t)
  sorted := by
    intro _
    rw [settled_cmp hbits]
    unfold HashPairs.settled
    split
    · exact hashSortDo_increases horder h.keyed h.distinct
    · rename_i hresort
      exact h.sorted (Bool.eq_false_iff.mpr hresort)

end Flags

theorem Sound.find (h : Sound cmp keys t) (horder : OrdersKeys (cmp t.iFlags) keys)
    (hresort : t.iFlags.resort = false) (hkey : key ∈ keys) :
    (∃ before pair after, hashFind cmp t key = (t, true, before.length) ∧
      t.pPairs = before ++ pair :: after ∧ cmp t.iFlags pair.1 key = 0) ∨
    ∃ nPos, hashFind cmp t key = (t, false, nPos) ∧ nPos ≤ t.nLen ∧
      (∀ pair ∈ (inOrder t).take nPos, cmp t.iFlags pair.1 key < 0) ∧
      ∀ pair ∈ (inOrder t).drop nPos, 0 < cmp t.iFlags pair.1 key := by
  refine (hashFind_ordered h.coherent hresort horder h.keyed hkey (h.sorted hresort)).imp_left ?_
  rintro ⟨nPos, pair, hfind, hget, hzero⟩
  obtain ⟨hlt, rfl⟩ := List.getElem?_eq_some_iff.mp hget
  refine ⟨t.pPairs.take nPos, t.pPairs[nPos], t.pPairs.drop (nPos + 1), ?_, ?_, hzero⟩
  · rw [hfind, length_take, Nat.min_eq_left hlt.le]
  · rw [← drop_eq_getElem_cons hlt, take_append_drop]

theorem absent_of_place {cmp : K → K → Int} {pairs : List (K × V)}
    (hbefore : ∀ pair ∈ pairs.take n, cmp pair.1 key < 0)
    (hafter : ∀ pair ∈ pairs.drop n, 0 < cmp pair.1 key) : ∀ pair ∈ pairs, cmp pair.1 key ≠ 0 := by
  intro pair hmem
  rw [← take_append_drop n pairs] at hmem
  rcases mem_append.mp hmem with hmem | hmem
  · exact (hbefore pair hmem).ne
  · exact (hafter pair hmem).ne'

/-- What a search leads to: a pair, of which `found` is known, or the place for a key that is not
there. -/
def Located (cmp : HashFlags → K → K → Int) (cmpKey : K → K → Int) (t t' : BaseHash K V) (key : K)
    (found : K × V → Prop) (absent : Prop) : Prop :=
  (∃ before pair after, hashFind cmp t key = (t', true, before.length) ∧
    t'.pPairs = before ++ pair :: after ∧ cmpKey pair.1 key = 0 ∧ found pair) ∨
  ∃ nPos, hashFind cmp t key = (t', false, nPos) ∧ nPos ≤ t'.nLen ∧
    (∀ pair ∈ (inOrder t').take nPos, cmp t'.iFlags pair.1 key < 0) ∧
    (∀ pair ∈ (inOrder t').drop nPos, 0 < cmp t'.iFlags pair.1 key) ∧
    (∀ pair ∈ t'.pPairs, cmpKey pair.1 key ≠ 0) ∧ absent

theorem Sound.located {cmpKey : K → K → Int} {found : K × V → Prop} {absent : Prop}
    (h : Sound cmp keys t) (hcmp : cmp t.iFlags = cmpKey) (horder : OrdersKeys cmpKey keys)
    (hresort : t.iFlags.resort = false) (hkey : key ∈ keys)
    (hfound : ∀ pair ∈ t.pPairs, cmpKey pair.1 key = 0 → found pair)
    (habsent : (∀ pair ∈ t.pPairs, cmpKey pair.1 key ≠ 0) → absent) :
    Located cmp cmpKey t t key found absent := by
  subst hcmp
  refine (h.find horder hresort hkey).imp ?_ ?_
  · rintro ⟨before, pair, after, hhit, hpairs, hzero⟩
    exact ⟨before, pair, after, hhit, hpairs, hzero, hfound pair (by simp [hpairs]) hzero⟩
  · rintro ⟨nPos, hmissing, hle, hbefore, hafter⟩
    have hnone := absent_of_place hbefore hafter
    replace hnone pair hmem := hnone pair ((h.coherent.inOrder_perm hresort).mem_iff.mpr hmem)
    exact ⟨nPos, hmissing, hle, hbefore, hafter, hnone, habsent hnone⟩

theorem Sound.openPair (h : Sound cmp keys t) (horder : OrdersKeys (cmp t.iFlags) keys)
    (hresort : t.iFlags.resort = false) {pair : K × V} (hkey : pair.1 ∈ keys) (hle : nPos ≤ t.nLen)
    (hbefore : ∀ a ∈ (inOrder t).take nPos, cmp t.iFlags a.1 pair.1 < 0)
    (hafter : ∀ a ∈ (inOrder t).drop nPos, 0 < cmp t.iFlags a.1 pair.1) :
    Sound cmp keys (hashOpenPair t nPos pair) := by
  have hperm := h.coherent.inOrder_perm hresort
  have hcount : (inOrder t).length = t.nLen := hperm.length_eq
  have hpairs := hashOpenPair_pPairs h.coherent hle pair
  have habsent := absent_of_place hbefore hafter
  have hcons : Keyed keys (pair :: t.pPairs) := forall_mem_cons.mpr ⟨hkey, h.keyed⟩
  refine ⟨h.coherent.openPair hle hresort pair, hcons.perm hpairs, ?_, fun _ => ?_⟩
  · rw [hashOpenPair_iFlags h.coherent]
    refine Distinct.perm (pairwise_cons.mpr ⟨fun a ha => ?_, h.distinct⟩) hpairs
    have hne := habsent a (hperm.mem_iff.mpr ha)
    exact ⟨fun heq => hne (horder.equal_symm hkey (h.keyed a ha) heq), hne⟩
  · rw [hashOpenPair_iFlags h.coherent, inOrder_openPair h.coherent nPos hresort]
    exact (h.sorted hresort).insertIdx horder (h.keyed.perm hperm) hkey (hcount.symm ▸ hle)
      hbefore hafter

theorem Sound.delPair (h : Sound cmp keys t) (hlt : nPos < t.nLen) :
    Sound cmp keys (hashDelPair t nPos) where
  coherent := h.coherent.delPair hlt
  keyed := by
    rw [hashDelPair_pPairs hlt]
    exact fun pair hmem => h.keyed pair (mem_of_mem_eraseIdx hmem)
  distinct := by
    rw [hashDelPair_pPairs hlt, hashDelPair_iFlags]
    exact h.distinct.sublist (eraseIdx_sublist _ _)
  sorted := by
    intro hresort
    rw [hashDelPair_iFlags] at hresort ⊢
    exact (h.sorted hresort).sublist (inOrder_delPair h.coherent hlt hresort)

theorem Sound.resize (h : Sound cmp keys t) (nNewSize : Nat) :
    Sound cmp keys (hashResize t nNewSize) := by
  have hcoherent := h.coherent.resize nNewSize
  obtain ⟨nSize, pnPos, heq, -, -, horder⟩ := hashResize_eq h.coherent nNewSize
  have hinOrder : inOrder (hashResize t nNewSize) = inOrder t := by
    rw [heq]
    change (pnPos.getD (range t.nLen)).filterMap _ = _
    rw [horder]
    rfl
  refine ⟨hcoherent, ?_, ?_, fun hresort => ?_⟩
  · rw [heq]
    exact h.keyed
  · rw [heq]
    exact h.distinct
  · rw [hinOrder]
    rw [heq] at hresort ⊢
    exact h.sorted hresort

end Soundness

end Harbour.Vm.HashSound
