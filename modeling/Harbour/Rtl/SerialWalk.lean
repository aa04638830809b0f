import Mathlib.Data.Finset.Card
import Mathlib.Data.Fintype.EquivFin
import Mathlib.Data.Fintype.Sets
import Mathlib.Order.WellFounded
import Harbour.Rtl.SerialSize

/-!
The passes over an item come to an end when every cycle meets a container whose
references are tracked.
-/

namespace Harbour.Rtl.SerialWalk

open CdpSizes SerialItems SerialRefs SerialEncode SerialSize List Option Finset

variable {address depth n : Nat} {base : ArrayBase} {items : List Item} {pDefVal : Option Item}

section Depth

variable {cdpIn cdpOut : Option Page} {flags : SerializeFlags} {heap : Heap} {refs : RefList}
  {nOffset : Nat} {out : Nat × RefList}
  {size size' : Item → RefList → Nat → Option (Nat × RefList)}

/-- What one pass counts the other counts too. -/
def Extends (size size' : Item → RefList → Nat → Option (Nat × RefList)) : Prop :=
  ∀ item refs nOffset out, size item refs nOffset = some out → size' item refs nOffset = some out

section

variable (h : Extends size size')

include h

theorem sizeItems_extends (hsize : sizeItems size items refs nOffset = some out) :
    sizeItems size' items refs nOffset = some out := by
  induction items generalizing refs nOffset out with
  | nil => exact hsize
  | cons item items ih =>
    obtain ⟨nSize, refs'⟩ := out
    obtain ⟨nFirst, nMore, more, hfirst, hmore, rfl⟩ := sizeItems_cons hsize
    rw [sizeItems, h item refs nOffset _ hfirst]
    simp only [bind_eq_bind, bind_some, ih hmore]
    rfl

theorem sizeArray_extends (hsize : sizeArray flags size address base refs nOffset = some out) :
    sizeArray flags size' address base refs nOffset = some out := by
  rw [sizeArray] at hsize ⊢
  rcases href : sizeRef flags base.nRefs address (nOffset + classSize base.uiClass) refs with
    ⟨_ | _, more⟩
  · rw [href] at hsize
    dsimp only at hsize ⊢
    obtain ⟨counted, hitems, hout⟩ := bind_eq_some_iff.mp hsize
    rw [sizeItems_extends h hitems]
    exact hout
  · rw [href] at hsize
    exact hsize

theorem sizeDefault_extends (hsize : sizeDefault size pDefVal refs nOffset = some out) :
    sizeDefault size' pDefVal refs nOffset = some out := by
  cases pDefVal with
  | none => exact hsize
  | some item =>
    rw [sizeDefault] at hsize ⊢
    obtain ⟨counted, hitem, hout⟩ := bind_eq_some_iff.mp hsize
    rw [h _ _ _ _ hitem]
    exact hout

theorem sizeHash_extends {base : HashBase}
    (hsize : sizeHash flags size address base refs nOffset = some out) :
    sizeHash flags size' address base refs nOffset = some out := by
  rw [sizeHash] at hsize ⊢
  rcases href : sizeRef flags base.nRefs address nOffset refs with ⟨_ | _, more⟩
  · rw [href] at hsize
    dsimp only at hsize ⊢
    obtain ⟨default, hdefault, hrest⟩ := Option.bind_eq_some_iff.mp hsize
    obtain ⟨counted, hitems, hout⟩ := Option.bind_eq_some_iff.mp hrest
    rw [sizeDefault_extends h hdefault]
    dsimp only [bind, Option.bind]
    rw [sizeItems_extends h hitems]
    exact hout
  · rw [href] at hsize
    exact hsize

end

theorem itemSerialSize_succ (depth : Nat) :
    Extends (itemSerialSize cdpIn cdpOut flags heap depth)
      (itemSerialSize cdpIn cdpOut flags heap (depth + 1)) := by
  induction depth with
  | zero =>
    intro item refs nOffset out hsize
    cases hsize
  | succ depth ih =>
    intro item refs nOffset out hsize
    rw [itemSerialSize] at hsize ⊢
    cases hitem : item.unRef with
    | container address =>
      rw [hitem] at hsize
      dsimp only at hsize ⊢
      cases hcontainer : heap address with
      | array base =>
        rw [hcontainer] at hsize
        exact sizeArray_extends ih hsize
      | hash base =>
        rw [hcontainer] at hsize
        exact sizeHash_extends ih hsize
    | _ =>
      rw [hitem] at hsize
      exact hsize

theorem itemSerialSize_le {depth' : Nat} (hle : depth ≤ depth') :
    Extends (itemSerialSize cdpIn cdpOut flags heap depth)
      (itemSerialSize cdpIn cdpOut flags heap depth') := by
  obtain ⟨more, rfl⟩ := Nat.exists_eq_add_of_le hle
  induction more with
  | zero => exact fun _ _ _ _ => id
  | succ more ih =>
    intro item refs nOffset out hsize
    exact itemSerialSize_succ _ _ _ _ _ (ih (Nat.le_add_right _ _) item refs nOffset out hsize)

end Depth

section Walk

def Tracked (flags : SerializeFlags) (container : Container) : Prop :=
  ¬ flags.ignoreRef ∧ container.nRefs > 1

/-- A container directly inside another one, when neither is tracked. -/
def Unfolds (flags : SerializeFlags) (heap : Heap) (child parent : Nat) : Prop :=
  (∃ item ∈ (heap parent).items, item.unRef = .container child) ∧
    ¬ Tracked flags (heap parent) ∧ ¬ Tracked flags (heap child)

/-- An item that reaches finitely many containers, and no container from itself unless a
tracked one lies between. -/
structure Walkable (flags : SerializeFlags) (heap : Heap) (item : Item)
    (addresses : Finset Nat) : Prop where
  root : ∀ address, item.unRef = .container address → address ∈ addresses
  closed : ∀ parent ∈ addresses, ∀ item ∈ (heap parent).items, ∀ child,
    item.unRef = .container child → child ∈ addresses
  cycles : ∀ address ∈ addresses, ¬ Relation.TransGen (Unfolds flags heap) address address

variable {cdpIn cdpOut : Option Page} {flags : SerializeFlags} {heap : Heap} {item : Item}
  {addresses : Finset Nat} {refs refs' : RefList} {nOffset : Nat}

theorem Walkable.wellFounded (h : Walkable flags heap item addresses) :
    WellFounded fun child parent : addresses => Unfolds flags heap child parent := by
  let inside := fun child parent : addresses => Unfolds flags heap child parent
  have hirrefl : Std.Irrefl (Relation.TransGen inside) := by
    refine ⟨fun address hcycle => h.cycles address address.2 ?_⟩
    exact hcycle.lift Subtype.val fun _ _ => id
  have hwellFounded : WellFounded (Relation.TransGen inside) :=
    Finite.wellFounded_of_trans_of_irrefl _
  have hsub : Subrelation inside (Relation.TransGen inside) := fun h => .single h
  exact hsub.wf hwellFounded

def unmet (addresses : Finset Nat) (refs : RefList) : Nat :=
  (addresses.filter fun address => ∀ ref ∈ refs, ref.value ≠ address).card

theorem unmet_subset (h : Grows refs refs') :
    (addresses.filter fun address => ∀ ref ∈ refs', ref.value ≠ address) ⊆
      addresses.filter fun address => ∀ ref ∈ refs, ref.value ≠ address := by
  intro address hmem
  obtain ⟨hmem, hunmet⟩ := mem_filter.mp hmem
  refine mem_filter.mpr ⟨hmem, fun ref href => ?_⟩
  obtain ⟨ref', href', hvalue, -⟩ := h ref href
  rw [← hvalue]
  exact hunmet ref' href'

theorem unmet_le (h : Grows refs refs') : unmet addresses refs' ≤ unmet addresses refs :=
  card_le_card (unmet_subset h)

theorem unmet_lt {nRefs nReg : Nat} (hmem : address ∈ addresses) (hsorted : Sorted refs)
    (htracked : ¬ flags.ignoreRef ∧ nRefs > 1)
    (h : sizeRef flags nRefs address nReg refs = (false, refs')) :
    unmet addresses refs' < unmet addresses refs := by
  rw [sizeRef, if_pos htracked] at h
  obtain ⟨-, hgrows, hentries⟩ := valueRef_false hsorted h
  have habsent : ∀ ref ∈ refs, ref.value ≠ address := by
    intro ref href hvalue
    obtain ⟨nPos, hfind, -⟩ := find_mem hsorted href hvalue
    rw [itemSerialValueRef, hfind] at h
    cases h
  apply card_lt_card
  refine Finset.ssubset_iff_subset_ne.mpr ⟨unmet_subset hgrows, fun heq => ?_⟩
  have hunmet : address ∈ addresses.filter fun address => ∀ ref ∈ refs, ref.value ≠ address :=
    mem_filter.mpr ⟨hmem, habsent⟩
  rw [← heq] at hunmet
  exact (mem_filter.mp hunmet).2 _ ((hentries _).mpr (.inl rfl)) rfl

variable (cdpIn cdpOut flags heap) in
/-- The first pass over the item comes to an end. -/
def Ends (refs : RefList) (nOffset : Nat) (item : Item) : Prop :=
  ∃ depth out, itemSerialSize cdpIn cdpOut flags heap depth item refs nOffset = some out

theorem items_end (hshort : ShortNames heap)
    (hnames : ∀ item ∈ items, ShortName item)
    (hitems : ∀ item ∈ items, ∀ refs nOffset, Sorted refs → Before refs nOffset →
      unmet addresses refs ≤ n → Ends cdpIn cdpOut flags heap refs nOffset item)
    (hsorted : Sorted refs) (hbefore : Before refs nOffset) (hunmet : unmet addresses refs ≤ n) :
    ∃ depth out, sizeItems (itemSerialSize cdpIn cdpOut flags heap depth) items refs nOffset =
      some out := by
  induction items generalizing refs nOffset with
  | nil => exact ⟨0, _, rfl⟩
  | cons item items ih =>
    obtain ⟨depth, ⟨nFirst, more⟩, hfirst⟩ :=
      hitems item mem_cons_self refs nOffset hsorted hbefore hunmet
    obtain ⟨hcounts, -⟩ := passes_agree hshort depth item refs nOffset nFirst more
      (hnames item mem_cons_self) hfirst hsorted hbefore
    obtain ⟨depth', ⟨nMore, refs'⟩, hmore⟩ := ih
      (fun item hmem => hnames item (mem_cons_of_mem _ hmem))
      (fun item hmem => hitems item (mem_cons_of_mem _ hmem)) hcounts.sorted hcounts.before
      ((unmet_le hcounts.grows).trans hunmet)
    refine ⟨max depth depth', (nFirst + nMore, refs'), ?_⟩
    rw [sizeItems, itemSerialSize_le (le_max_left _ _) _ _ _ _ hfirst]
    simp only [bind_eq_bind, bind_some,
      sizeItems_extends (itemSerialSize_le (le_max_right _ _)) hmore]
    rfl

def ItemsEnd (cdpIn cdpOut : Option Page) (flags : SerializeFlags) (heap : Heap)
    (addresses : Finset Nat) (refs : RefList) (items : List Item) : Prop :=
  ∀ item ∈ items, ∀ refs' nOffset, Sorted refs' → Before refs' nOffset →
    unmet addresses refs' ≤ unmet addresses refs → Ends cdpIn cdpOut flags heap refs' nOffset item

theorem array_ends (hshort : ShortNames heap)
    (hnames : ∀ item ∈ base.items, ShortName item)
    (hitems : ∀ nReg refs', sizeRef flags base.nRefs address nReg refs = (false, refs') →
      ItemsEnd cdpIn cdpOut flags heap addresses refs' base.items) (hsorted : Sorted refs)
    (hbefore : Before refs nOffset) :
    ∃ depth out, sizeArray flags (itemSerialSize cdpIn cdpOut flags heap depth) address base refs
      nOffset = some out := by
  unfold sizeArray
  rcases href : sizeRef flags base.nRefs address (nOffset + classSize base.uiClass) refs with
    ⟨_ | _, refs'⟩
  · obtain ⟨hcounts, -⟩ := sizeRef_false (Nat.le_add_right _ _) href hsorted hbefore
    have hlen := two_le_lenSize base.items.length
    have hbefore' : Before refs' (nOffset + (classSize base.uiClass + lenSize base.items.length)) :=
      hcounts.before.mono (by omega)
    obtain ⟨depth, ⟨nMore, refs''⟩, hmore⟩ := items_end hshort hnames (hitems _ _ href)
      hcounts.sorted hbefore' (Nat.le_refl _)
    refine ⟨depth, (classSize base.uiClass + lenSize base.items.length + nMore, refs''), ?_⟩
    dsimp only
    rw [href]
    dsimp only
    rw [hmore]
    rfl
  · refine ⟨0, (5, refs'), ?_⟩
    dsimp only
    rw [href]

theorem default_ends (hitems : ItemsEnd cdpIn cdpOut flags heap addresses refs pDefVal.toList)
    (hsorted : Sorted refs) (hbefore : Before refs (nOffset + 1)) :
    ∃ depth out, sizeDefault (itemSerialSize cdpIn cdpOut flags heap depth) pDefVal refs nOffset =
      some out := by
  cases pDefVal with
  | none => exact ⟨0, _, rfl⟩
  | some item =>
    obtain ⟨depth, out, hout⟩ :=
      hitems item mem_cons_self refs (nOffset + 1) hsorted hbefore (Nat.le_refl _)
    refine ⟨depth, (1 + out.1, out.2), ?_⟩
    rw [sizeDefault, hout]
    rfl

theorem hash_ends (hshort : ShortNames heap) {base : HashBase}
    (hnames : ∀ item ∈ (Container.hash base).items, ShortName item)
    (hitems : ∀ nReg refs', sizeRef flags base.nRefs address nReg refs = (false, refs') →
      ItemsEnd cdpIn cdpOut flags heap addresses refs' (Container.hash base).items)
    (hsorted : Sorted refs) (hbefore : Before refs nOffset) :
    ∃ depth out, sizeHash flags (itemSerialSize cdpIn cdpOut flags heap depth) address base refs
      nOffset = some out := by
  unfold sizeHash
  rcases href : sizeRef flags base.nRefs address nOffset refs with ⟨_ | _, refs'⟩
  · obtain ⟨hcounts, -⟩ := sizeRef_false (Nat.le_refl _) href hsorted hbefore
    generalize hnFlags : (if base.hasFlags then 3 else 0) = nFlags
    obtain ⟨depth, ⟨nDefault, more⟩, hdefault⟩ := default_ends
      (fun item hmem => hitems _ _ href item (List.mem_append_left _ hmem)) hcounts.sorted
      (hcounts.before.mono (show nOffset + 1 ≤ nOffset + nFlags + 1 by omega))
    obtain ⟨hcounts', -⟩ := default_agree (passes_agree hshort depth)
      (fun item hmem => hnames item (List.mem_append_left _ hmem)) hdefault hcounts.sorted
      (hcounts.before.mono (by omega))
    have hlen := two_le_lenSize base.pairs.length
    have hbefore' : Before more (nOffset + (nFlags + nDefault + lenSize base.pairs.length)) :=
      hcounts'.before.mono (by omega)
    obtain ⟨depth', ⟨nMore, refs''⟩, hmore⟩ := items_end hshort
      (fun item hmem => hnames item (List.mem_append_right _ hmem))
      (fun item hmem => hitems _ _ href item (List.mem_append_right _ hmem))
      hcounts'.sorted hbefore'
      (unmet_le hcounts'.grows)
    refine ⟨max depth depth', (nFlags + nDefault + lenSize base.pairs.length + nMore, refs''), ?_⟩
    dsimp only
    rw [sizeDefault_extends (itemSerialSize_le (le_max_left _ _)) hdefault]
    dsimp only [bind, Option.bind]
    rw [sizeItems_extends (itemSerialSize_le (le_max_right _ _)) hmore]
    rfl
  · exact ⟨0, (5, refs'), rfl⟩

variable (addresses) in
theorem container_ends (hshort : ShortNames heap)
    (hitem : item.unRef = .container address)
    (hitems : ∀ nReg refs', sizeRef flags (heap address).nRefs address nReg refs = (false, refs') →
      ItemsEnd cdpIn cdpOut flags heap addresses refs' (heap address).items) (hsorted : Sorted refs)
    (hbefore : Before refs nOffset) : Ends cdpIn cdpOut flags heap refs nOffset item := by
  have hnames := hshort address
  cases hheap : heap address with
  | array base =>
    rw [hheap] at hitems hnames
    obtain ⟨depth, out, hout⟩ := array_ends hshort hnames hitems hsorted hbefore
    refine ⟨depth + 1, out, ?_⟩
    rw [itemSerialSize, hitem]
    dsimp only
    rw [hheap]
    exact hout
  | hash base =>
    rw [hheap] at hitems hnames
    obtain ⟨depth, out, hout⟩ := hash_ends hshort hnames hitems hsorted hbefore
    refine ⟨depth + 1, out, ?_⟩
    rw [itemSerialSize, hitem]
    dsimp only
    rw [hheap]
    exact hout

theorem leaf_ends (hleaf : ∀ address, item.unRef ≠ .container address) :
    Ends cdpIn cdpOut flags heap refs nOffset item := by
  refine ⟨1, (leafSize cdpIn cdpOut flags item.unRef, refs), ?_⟩
  rw [itemSerialSize]
  cases hitem : item.unRef with
  | container address => exact absurd hitem (hleaf address)
  | _ => rfl

/-- The passes come to an end that start with fewer than `n` containers to meet. -/
def EndsBelow (cdpIn cdpOut : Option Page) (flags : SerializeFlags) (heap : Heap)
    (addresses : Finset Nat) (n : Nat) : Prop :=
  ∀ item refs nOffset, (∀ address, item.unRef = .container address → address ∈ addresses) →
    Sorted refs → Before refs nOffset → unmet addresses refs < n →
      Ends cdpIn cdpOut flags heap refs nOffset item

theorem tracked_ends (hshort : ShortNames heap)
    (hclosed : ∀ item ∈ (heap address).items, ∀ child, item.unRef = .container child →
      child ∈ addresses) (hbelow : EndsBelow cdpIn cdpOut flags heap addresses n)
    (hitem : item.unRef = .container address) (hmem : address ∈ addresses)
    (htracked : Tracked flags (heap address)) (hsorted : Sorted refs)
    (hbefore : Before refs nOffset) (hunmet : unmet addresses refs ≤ n) :
    Ends cdpIn cdpOut flags heap refs nOffset item := by
  refine container_ends addresses hshort hitem ?_ hsorted hbefore
  intro nReg refs' href item hinside refs'' nOffset' hsorted' hbefore' hunmet'
  have hlt := unmet_lt hmem hsorted htracked href
  exact hbelow item refs'' nOffset' (hclosed item hinside) hsorted' hbefore' (by omega)

section

variable (h : Walkable flags heap item addresses) (hshort : ShortNames heap)

include h hshort

theorem Walkable.endsBelow (n : Nat) : EndsBelow cdpIn cdpOut flags heap addresses n := by
  induction n with
  | zero =>
    intro item refs nOffset hroot hsorted hbefore hunmet
    exact absurd hunmet (Nat.not_lt_zero _)
  | succ n ih =>
    intro item refs nOffset hroot hsorted hbefore hunmet
    -- an untracked container leaves the list as it is, so only its items are smaller
    have huntracked : ∀ address : addresses, ¬ Tracked flags (heap address) → ∀ item refs nOffset,
        item.unRef = .container address → Sorted refs → Before refs nOffset →
        unmet addresses refs < n + 1 → Ends cdpIn cdpOut flags heap refs nOffset item := by
      intro address
      induction address using h.wellFounded.induction with
      | _ address ihInside =>
        intro hparent item refs nOffset hitem hsorted hbefore hunmet
        refine container_ends addresses hshort hitem ?_ hsorted hbefore
        intro nReg refs' href inner hinner refs'' nOffset' hsorted' hbefore' hunmet'
        have hignored : ¬ (¬ flags.ignoreRef ∧ (heap address).nRefs > 1) := hparent
        rw [sizeRef, if_neg hignored] at href
        cases href
        by_cases hleaf : ∀ child, inner.unRef ≠ .container child
        · exact leaf_ends hleaf
        push Not at hleaf
        obtain ⟨child, hchild⟩ := hleaf
        have hmem := h.closed address address.2 inner hinner child hchild
        by_cases htracked : Tracked flags (heap child)
        · exact tracked_ends hshort (h.closed child hmem) ih hchild hmem htracked hsorted'
            hbefore' (by omega)
        · exact ihInside ⟨child, hmem⟩ ⟨⟨inner, hinner, hchild⟩, hparent, htracked⟩ htracked inner
            refs'' nOffset' hchild hsorted' hbefore' (by omega)
    by_cases hleaf : ∀ address, item.unRef ≠ .container address
    · exact leaf_ends hleaf
    push Not at hleaf
    obtain ⟨address, hitem⟩ := hleaf
    have hmem := hroot address hitem
    by_cases htracked : Tracked flags (heap address)
    · exact tracked_ends hshort (h.closed address hmem) ih hitem hmem htracked hsorted hbefore
        (by omega)
    · exact huntracked ⟨address, hmem⟩ htracked item refs nOffset hitem hsorted hbefore hunmet

theorem Walkable.ends : Ends cdpIn cdpOut flags heap [] 0 item :=
  h.endsBelow hshort (unmet addresses [] + 1) item [] 0 h.root List.Pairwise.nil
    (fun _ hmem => absurd hmem not_mem_nil) (Nat.lt_succ_self _)

end

end Walk

section Ignored

variable {cdpIn cdpOut : Option Page} {flags : SerializeFlags} {heap : Heap} {refs : RefList}
  {nOffset nSize : Nat} {refs' : RefList} {size : Item → RefList → Nat → Option (Nat × RefList)}

def Keeps (size : Item → RefList → Nat → Option (Nat × RefList)) : Prop :=
  ∀ item refs nOffset nSize refs', size item refs nOffset = some (nSize, refs') → refs' = refs

theorem sizeItems_keeps (h : Keeps size)
    (hsize : sizeItems size items refs nOffset = some (nSize, refs')) : refs' = refs := by
  induction items generalizing refs nOffset nSize with
  | nil =>
    cases hsize
    rfl
  | cons item items ih =>
    obtain ⟨nFirst, nMore, more, hfirst, hmore, rfl⟩ := sizeItems_cons hsize
    exact (ih hmore).trans (h _ _ _ _ _ hfirst)

theorem sizeRef_ignored (hignored : flags.ignoreRef = true) (nRefs address nReg : Nat) :
    sizeRef flags nRefs address nReg refs = (false, refs) := by
  unfold sizeRef
  rw [if_neg fun htracked => htracked.1 hignored]

theorem sizeArray_keeps (hignored : flags.ignoreRef = true) (h : Keeps size)
    (hsize : sizeArray flags size address base refs nOffset = some (nSize, refs')) :
    refs' = refs := by
  rw [sizeArray, sizeRef_ignored hignored] at hsize
  obtain ⟨⟨nMore, more⟩, hitems, hout⟩ := bind_eq_some_iff.mp hsize
  cases hout
  exact sizeItems_keeps h hitems

theorem sizeDefault_keeps (h : Keeps size)
    (hsize : sizeDefault size pDefVal refs nOffset = some (nSize, refs')) : refs' = refs := by
  cases pDefVal with
  | none =>
    cases hsize
    rfl
  | some item =>
    obtain ⟨⟨nDefault, more⟩, hitem, hout⟩ := bind_eq_some_iff.mp hsize
    cases hout
    exact h _ _ _ _ _ hitem

theorem sizeHash_keeps (hignored : flags.ignoreRef = true) (h : Keeps size) {base : HashBase}
    (hsize : sizeHash flags size address base refs nOffset = some (nSize, refs')) :
    refs' = refs := by
  rw [sizeHash, sizeRef_ignored hignored] at hsize
  obtain ⟨⟨nDefault, more'⟩, hdefault, hrest⟩ := bind_eq_some_iff.mp hsize
  obtain ⟨⟨nMore, more⟩, hitems, hout⟩ := bind_eq_some_iff.mp hrest
  cases hout
  exact (sizeItems_keeps h hitems).trans (sizeDefault_keeps h hdefault)

theorem itemSerialSize_keeps (hignored : flags.ignoreRef = true) (depth : Nat) :
    Keeps (itemSerialSize cdpIn cdpOut flags heap depth) := by
  induction depth with
  | zero =>
    intro item refs nOffset nSize refs' hsize
    cases hsize
  | succ depth ih =>
    intro item refs nOffset nSize refs' hsize
    rw [itemSerialSize] at hsize
    cases hitem : item.unRef with
    | container address =>
      rw [hitem] at hsize
      dsimp only at hsize
      cases hcontainer : heap address with
      | array base =>
        rw [hcontainer] at hsize
        exact sizeArray_keeps hignored ih hsize
      | hash base =>
        rw [hcontainer] at hsize
        exact sizeHash_keeps hignored ih hsize
    | _ =>
      rw [hitem] at hsize
      cases hsize
      rfl

end Ignored

section Whole

variable {cdpIn cdpOut : Option Page} {flags : SerializeFlags} {heap : Heap} {item : Item}

theorem passes_fill (hshort : ShortNames heap) (hname : ShortName item) {nSize : Nat}
    {refs : RefList}
    (hsize : itemSerialSize cdpIn cdpOut flags heap depth item [] 0 = some (nSize, refs)) :
    ∃ cells, serializeItem cdpIn cdpOut flags heap (itemSerialUnusedFree refs) depth item 0 =
      some cells ∧ cells.length = nSize ∧
        (none ∉ cells ↔ ∀ szVal, Holds heap szVal item → Whole cdpIn cdpOut szVal) := by
  obtain ⟨hcounts, texts, hvisits, hstores⟩ := passes_agree hshort depth item [] 0 nSize refs hname
    hsize List.Pairwise.nil fun _ hmem => absurd hmem not_mem_nil
  obtain ⟨cells, hcells, hlength, hfilled⟩ :=
    hstores _ ⟨⟨refs, hcounts.sorted, grows_refl refs, rfl⟩, fun hignored => by
      obtain rfl : refs = [] := itemSerialSize_keeps hignored depth _ _ _ _ _ hsize
      rfl⟩
  refine ⟨cells, hcells, hlength, hfilled.trans ?_⟩
  simp only [hvisits.mem_iff]

variable (cdpIn cdpOut heap item) in
/-- No string has two characters for which two bytes are counted and one is stored. -/
def Single : Prop := ∀ szVal, Holds heap szVal item → doubles cdpIn cdpOut szVal ≤ 1

theorem whole_iff_single (hspaces : ∀ szVal, Holds heap szVal item →
    KeepsSpaces cdpIn cdpOut szVal) :
    (∀ szVal, Holds heap szVal item → Whole cdpIn cdpOut szVal) ↔ Single cdpIn cdpOut heap item :=
  forall₂_congr fun szVal hholds => string_filled_iff (hspaces szVal hholds)

/-- A page of single bytes, and one where the letter `A` has a byte and a pair. -/
def codes : List UInt16 := replicate 0x20 0 ++ 0x20 :: replicate 0x20 0 ++ [0x41]

def plainPage : Page := ⟨0, 0, .own (.table codes)⟩

def pairedPage : Page := ⟨1, 1, .own (.multi
  { uniCodes := codes
    multi := [⟨(0x43, 0x63), (0x48, 0x68), 0x41, 0x61⟩]
    fSigned := true })⟩

theorem paired_keepsSpaces (szVal : Bytes) :
    KeepsSpaces (some plainPage) (some pairedPage) szVal :=
  keepsSpaces_of_table rfl (by decide +kernel) szVal

def circle : Heap := fun _ => .array ⟨2, none, [.container 0, .string [0x41, 0x20, 0x20]]⟩

theorem holds_circle {szVal : Bytes} (h : Holds circle szVal item)
    (hitem : ∀ text, item.unRef = .string text → text = [0x41, 0x20, 0x20]) :
    szVal = [0x41, 0x20, 0x20] := by
  induction h with
  | string h => exact hitem _ h
  | inside h hmem hchild ih =>
    apply ih
    rcases mem_pair.mp hmem with rfl | rfl
    · exact nofun
    · exact fun text heq => (SerialItems.Item.string.inj heq).symm

end Whole

end Harbour.Rtl.SerialWalk
