import Harbour.Rdd.FptStore
import Harbour.Library.Extents

/-!
What the operations of the free list do to the blocks it holds.
-/

namespace Harbour.Rdd.FptFreeList

open Library.Memory Library.Bytes Library.Extents FptStore List Option

def extent (item : GCItem) : Extent := ⟨item.ulOffset, item.ulSize⟩

/-- How often the items hold a block. -/
def frees (items : List GCItem) (b : Nat) : Nat := cover (items.map extent) b

@[simp]
theorem frees_nil (b : Nat) : frees [] b = 0 := rfl

@[simp]
theorem frees_cons (item : GCItem) (items : List GCItem) (b : Nat) :
    frees (item :: items) b = (extent item).at b + frees items b :=
  cover_cons _ _ _

@[simp]
theorem frees_append (items items' : List GCItem) (b : Nat) :
    frees (items ++ items') b = frees items b + frees items' b := by
  simp [frees]

variable {items items' : List GCItem} {table table' : GCTable} {ulOffset : Nat}

theorem frees_perm (h : items.Perm items') (b : Nat) :
    frees items b = frees items' b :=
  cover_perm (h.map extent) b

theorem clear_at (item : GCItem) (b : Nat) : (extent item.clear).at b = 0 :=
  at_empty 0 b

/-- The table without its list and what changes along with the list. -/
def core (table : GCTable) : GCTable :=
  { table with pGCitems := [], ulNextBlock := 0, bChanged := 0 }

/-- The blocks `freed` are added and `taken` are given away; no other block becomes free. -/
structure Balanced (table table' : GCTable) (freed taken : List Extent) : Prop where
  core : core table' = core table
  next : table'.ulNextBlock ≤ table.ulNextBlock + total taken
  balance : ∀ b, frees table'.pGCitems b + under table.ulNextBlock b + cover taken b ≤
    frees table.pGCitems b + under table'.ulNextBlock b + cover freed b

/-- Moreover `bChanged` tells what has to be written. -/
structure Moves (table table' : GCTable) (freed taken : List Extent) : Prop
    extends Balanced table table' freed taken where
  changed : table.bChanged ≤ table'.bChanged
  quiet : table'.bChanged < 2 → frees table.pGCitems 0 = 0 →
    ∀ b, frees table'.pGCitems b = frees table.pGCitems b
  still : table'.bChanged = 0 → table'.ulNextBlock = table.ulNextBlock

variable {freed freed' taken taken' : List Extent} {table'' : GCTable} {ulSize : Nat} {e : Extent}
  {item : GCItem}

theorem Balanced.trans (h : Balanced table table' freed taken)
    (h' : Balanced table' table'' freed' taken') :
    Balanced table table'' (freed ++ freed') (taken ++ taken') where
  core := h'.core.trans h.core
  next := by
    have hnext := h.next
    have hnext' := h'.next
    rw [total_append]
    omega
  balance b := by
    have hb := h.balance b
    have hb' := h'.balance b
    rw [cover_append, cover_append]
    omega

theorem Balanced.moves (h : Balanced table table' freed taken)
    (hchanged : table.bChanged ≤ table'.bChanged) (htwo : 2 ≤ table'.bChanged) :
    Moves table table' freed taken where
  toBalanced := h
  changed := hchanged
  quiet hlt := absurd hlt (Nat.not_lt.mpr htwo)
  still hzero := absurd htwo (by rw [hzero]; decide)

theorem Moves.mono (h : Moves table table' freed taken)
    (hle : ∀ b, cover freed b ≤ cover freed' b) :
    Moves table table' freed' taken :=
  { h with balance := fun b => (h.balance b).trans (Nat.add_le_add_left (hle b) _) }

theorem moves_refl (table : GCTable) : Moves table table [] [] where
  core := rfl
  next := Nat.le_refl _
  balance _ := Nat.le_refl _
  changed := Nat.le_refl _
  quiet _ _ _ := rfl
  still _ := rfl

theorem Moves.trans (h : Moves table table' freed taken) (h' : Moves table' table'' freed' taken') :
    Moves table table'' (freed ++ freed') (taken ++ taken') where
  toBalanced := h.toBalanced.trans h'.toBalanced
  changed := h.changed.trans h'.changed
  quiet hlt hzero b := by
    have hquiet := h.quiet (h'.changed.trans_lt hlt) hzero
    exact (h'.quiet hlt ((hquiet 0).trans hzero) b).trans (hquiet b)
  still hzero := (h'.still hzero).trans (h.still (Nat.le_zero.mp (hzero ▸ h'.changed)))

theorem Moves.after (h : Moves table table' [] []) (h' : Moves table' table'' freed taken) :
    Moves table table'' freed taken :=
  h.trans h'

theorem Moves.before (h : Moves table table' freed taken) (h' : Moves table' table'' [] []) :
    Moves table table'' freed taken := by
  have htrans := h.trans h'
  rwa [append_nil, append_nil] at htrans

theorem sortPass_perm (n i : Nat) (items : List GCItem) : (sortPass n i items).1.Perm items := by
  fun_induction sortPass n i items with
  | case1 n i item next items hlt items' last heq ih =>
    rw [heq] at ih
    exact (ih.cons next).trans (.swap item next items)
  | case2 n i item next items hlt items' last heq ih =>
    rw [heq] at ih
    exact ih.cons item
  | case3 => exact .refl _

theorem sortPasses_moves (fuel l : Nat) (table : GCTable) :
    Moves table (sortPasses fuel l table) [] [] := by
  fun_induction sortPasses fuel l table with
  | case1 l table => exact moves_refl table
  | case2 fuel l table items heq => exact moves_refl table
  | case3 fuel l table items last heq ih =>
    have hperm := sortPass_perm l 0 table.pGCitems
    rw [heq] at hperm
    refine Moves.after ?_ ih
    exact Balanced.moves
      ⟨rfl, Nat.le_refl _, fun b => Nat.le_of_eq (by rw [frees_perm hperm])⟩
      Nat.left_le_or Nat.right_le_or

theorem fptSortGCitems_moves (table : GCTable) : Moves table (fptSortGCitems table) [] [] :=
  sortPasses_moves _ _ _

theorem joinAt_frees {ulEnd : Nat} (h : joinAt ulEnd items = some (ulSize, items')) (b : Nat) :
    frees items' b + (⟨ulEnd, ulSize⟩ : Extent).at b = frees items b := by
  induction items generalizing items' with
  | nil => cases h
  | cons item items ih =>
    rw [joinAt] at h
    split at h
    · rename_i heq
      cases h
      rw [frees_cons, frees_cons, clear_at, heq]
      exact Nat.zero_add _ ▸ Nat.add_comm _ _
    · rw [map_eq_some_iff] at h
      obtain ⟨⟨size, rest⟩, hrest, heq⟩ := h
      cases heq
      rw [frees_cons, frees_cons, ← ih hrest, Nat.add_assoc]

theorem packStep_spec {ulNextBlock ulNextBlock' : Nat}
    (h : packStep ulNextBlock items = some (ulNextBlock', items')) : ulNextBlock' ≤ ulNextBlock ∧
      ∀ b, frees items' b + under ulNextBlock b = frees items b + under ulNextBlock' b := by
  induction items generalizing items' with
  | nil => cases h
  | cons item items ih =>
    have hrest : ∀ {items'}, (packStep ulNextBlock items).map
          (fun step => (step.1, item :: step.2)) = some (ulNextBlock', items') →
        ulNextBlock' ≤ ulNextBlock ∧ ∀ b, frees items' b + under ulNextBlock b =
          frees (item :: items) b + under ulNextBlock' b := by
      intro items' h
      obtain ⟨⟨next, rest⟩, hrest, heq⟩ := map_eq_some_iff.mp h
      cases heq
      obtain ⟨hnext, hfrees⟩ := ih hrest
      refine ⟨hnext, fun b => ?_⟩
      rw [frees_cons, frees_cons, Nat.add_assoc, hfrees, Nat.add_assoc]
    rw [packStep] at h
    split at h
    · exact hrest h
    · split at h
      · rename_i hend
        cases h
        refine ⟨Nat.sub_le _ _, fun b => ?_⟩
        have hadd := under_add_at item.ulOffset item.ulSize b
        rw [frees_cons, frees_cons, clear_at, ← hend, Nat.add_sub_cancel, ← hadd]
        unfold extent
        omega
      · split at h
        · rename_i size rest hjoin
          cases h
          refine ⟨Nat.le_refl _, fun b => ?_⟩
          rw [frees_cons, frees_cons, ← joinAt_frees hjoin b]
          have hsplit := at_split item.ulOffset item.ulSize size b
          unfold extent
          dsimp only at hsplit ⊢
          omega
        · exact hrest h

theorem packSteps_moves (fuel : Nat) (table : GCTable) :
    Moves table (packSteps fuel table) [] [] := by
  fun_induction packSteps fuel table with
  | case1 table => exact moves_refl table
  | case2 fuel table heq => exact moves_refl table
  | case3 fuel table ulNextBlock items heq ih =>
    obtain ⟨hnext, hfrees⟩ := packStep_spec heq
    refine Moves.after ?_ ih
    exact Balanced.moves ⟨rfl, hnext, fun b => Nat.le_of_eq (by rw [hfrees b])⟩
      Nat.left_le_or Nat.right_le_or

theorem frees_filter_le (items : List GCItem) (b : Nat) :
    frees (items.filter fun item => !item.isEmpty) b ≤ frees items b :=
  cover_sublist (filter_sublist.map extent) b

theorem frees_filter (h : frees items 0 = 0) (b : Nat) :
    frees (items.filter fun item => !item.isEmpty) b = frees items b := by
  induction items with
  | nil => rfl
  | cons item items ih =>
    rw [frees_cons] at h
    obtain ⟨hitem, hitems⟩ := Nat.add_eq_zero_iff.mp h
    rw [filter_cons, frees_cons]
    split
    · rw [frees_cons, ih hitems]
    · rename_i hempty
      have hsize : item.ulSize = 0 := by
        simp only [GCItem.isEmpty, Bool.not_eq_true', Bool.not_eq_false, Bool.or_eq_true,
          beq_iff_eq] at hempty
        rcases hempty with hoff | hsize
        · rcases Nat.eq_zero_or_pos item.ulSize with hsize | hpos
          · exact hsize
          · have hone : (extent item).at 0 = 1 :=
              at_eq_one.mpr ⟨Nat.le_of_eq hoff, Nat.add_pos_right _ hpos⟩
            omega
        · exact hsize
      have hat : (extent item).at b = 0 := by
        unfold extent
        rw [hsize]
        exact at_empty _ b
      rw [ih hitems, hat, Nat.zero_add]

theorem fptPackGCitems_moves (table : GCTable) : Moves table (fptPackGCitems table) [] [] := by
  refine (packSteps_moves table.pGCitems.length table).after
    ⟨⟨rfl, Nat.le_refl _, fun b => ?_⟩, ?_, ?_, ?_⟩
  · have hle := frees_filter_le (packSteps table.pGCitems.length table).pGCitems b
    exact Nat.add_le_add_right (Nat.add_le_add_right hle _) _
  · exact Nat.le_refl _
  · exact fun _ hzero b => frees_filter hzero b
  · exact fun _ => rfl

def KeepsBlocks (area : FptArea) (file file' : File) (e : Extent) : Prop :=
  File.Keeps file file' (area.blockOffset e.off) (area.blockOffset (e.off + e.size))

theorem keepsBlocks_refl (area : FptArea) (file : File) (e : Extent) :
    KeepsBlocks area file file e :=
  File.keeps_refl file _ _

theorem keepsBlocks_writeAt {area : FptArea} (file : File) {e' : Extent} {pos : Nat} {bytes : Bytes}
    (hapart : ∀ b, e.at b + e'.at b ≤ 1) (hlo : area.blockOffset e'.off ≤ pos)
    (hhi : pos + bytes.length ≤ area.blockOffset (e'.off + e'.size)) :
    KeepsBlocks area file (file.writeAt pos bytes) e where
  same a hle hlt := by
    refine Mem.write_outside _ _ _ ?_
    by_contra hin
    have hone : e.at (a / area.ulMemoBlockSize) = 1 := at_eq_one.mpr
      ⟨(Nat.le_div_iff_mul_le area.blockSize_pos).mpr hle,
        (Nat.div_lt_iff_lt_mul area.blockSize_pos).mpr hlt⟩
    have hone' : e'.at (a / area.ulMemoBlockSize) = 1 := at_eq_one.mpr
      ⟨(Nat.le_div_iff_mul_le area.blockSize_pos).mpr (hlo.trans (by omega)),
        (Nat.div_lt_iff_lt_mul area.blockSize_pos).mpr (Nat.lt_of_lt_of_le (by omega) hhi)⟩
    have hsum := hapart (a / area.ulMemoBlockSize)
    omega
  size := (Nat.min_le_left _ _).trans (File.size_le_writeAt file pos bytes)

theorem fptBlock_length (type size : Nat) : (fptBlock type size).length = fptBlockSize := by
  simp [fptBlock, beBytes]

theorem writeGCitem_keeps (area : FptArea) (file : File)
    (hapart : ∀ b, e.at b + (extent item).at b ≤ 1) :
    KeepsBlocks area file (writeGCitem area file item) e := by
  unfold writeGCitem
  split
  · rename_i hwrite
    refine keepsBlocks_writeAt file hapart (Nat.le_refl _) ?_
    have hroom : fptBlockSize ≤ item.ulSize * area.ulMemoBlockSize := by
      simpa using (Bool.and_eq_true_iff.mp hwrite).2
    unfold FptArea.blockOffset extent
    rw [Nat.add_mul]
    exact Nat.add_le_add_left hroom _
  · exact keepsBlocks_refl area file e

theorem fptWriteGCitems_keeps (area : FptArea) (file : File) (table : GCTable)
    (hapart : ∀ b, e.at b + frees table.pGCitems b ≤ 1) :
    KeepsBlocks area file (fptWriteGCitems area file table).1 e := by
  unfold fptWriteGCitems
  revert hapart
  induction table.pGCitems generalizing file with
  | nil => exact fun _ => keepsBlocks_refl area file e
  | cons item items ih =>
    intro hapart
    refine File.Keeps.trans (writeGCitem_keeps area file fun b => ?_) (ih _ fun b => ?_)
    · exact Nat.le_trans (Nat.add_le_add_left (Nat.le_add_right _ _) _) (hapart b)
    · exact Nat.le_trans (Nat.add_le_add_left (Nat.le_add_left _ _) _) (hapart b)

theorem fptWriteGCitems_extents (area : FptArea) (file : File) (table : GCTable) :
    (fptWriteGCitems area file table).2.pGCitems.map extent = table.pGCitems.map extent := by
  simp [fptWriteGCitems, Function.comp_def, extent]

section Free

variable (area : FptArea) (file : File)

theorem joinBlock_frees (h : joinBlock ulOffset ulSize items = some items') (b : Nat) :
    frees items' b = frees items b + (⟨ulOffset, ulSize⟩ : Extent).at b := by
  induction items generalizing items' with
  | nil => cases h
  | cons item items ih =>
    rw [joinBlock] at h
    split at h
    · rename_i hfront
      cases h
      have hsplit := at_split item.ulOffset item.ulSize ulSize b
      rw [hfront] at hsplit
      rw [frees_cons, frees_cons]
      unfold extent
      dsimp only
      omega
    · split at h
      · rename_i hback
        cases h
        have hsplit := at_split ulOffset ulSize item.ulSize b
        rw [frees_cons, frees_cons]
        unfold extent
        rw [Nat.add_comm item.ulSize, hsplit, hback]
        omega
      · obtain ⟨rest, hrest, rfl⟩ := map_eq_some_iff.mp h
        rw [frees_cons, frees_cons, ih hrest, Nat.add_assoc]

theorem dropFirst_balanced (table : GCTable) (h : table.pGCitems = item :: items) :
    Balanced table
        { (dropFirst area file table item).2 with
          pGCitems := (dropFirst area file table item).2.pGCitems.tail } [] [] ∧
      (dropFirst area file table item).2.bChanged = table.bChanged ∧
      ∀ e : Extent, (∀ b, e.at b + frees table.pGCitems b ≤ 1) →
        KeepsBlocks area file (dropFirst area file table item).1 e := by
  have htail : ∀ b, frees table.pGCitems.tail b ≤ frees table.pGCitems b :=
    fun b => cover_sublist ((tail_sublist _).map extent) b
  unfold dropFirst
  split
  · rename_i hend
    refine ⟨⟨rfl, Nat.sub_le _ _, fun b => ?_⟩, rfl, fun e _ => keepsBlocks_refl area file e⟩
    have hadd := under_add_at item.ulOffset item.ulSize b
    simp only [h, hend, tail_cons, frees_cons, Nat.add_sub_cancel, extent]
    omega
  · split
    · refine ⟨⟨rfl, Nat.le_refl _, fun b => ?_⟩, rfl,
        fun e hapart => fptWriteGCitems_keeps area file table hapart⟩
      have hsame : frees (fptWriteGCitems area file table).2.pGCitems.tail b =
          frees table.pGCitems.tail b := by
        rw [frees, map_tail, fptWriteGCitems_extents, ← map_tail, frees]
      exact Nat.add_le_add_right (Nat.add_le_add_right (hsame ▸ htail b) _) _
    · refine ⟨⟨rfl, Nat.le_refl _, fun b => ?_⟩, rfl, fun e _ => keepsBlocks_refl area file e⟩
      exact Nat.add_le_add_right (Nat.add_le_add_right (htail b) _) _

theorem addBlock_balanced {file' : File}
    (h : addBlock area file table ulOffset ulSize = some (file', table')) :
    Balanced table table' [⟨ulOffset, ulSize⟩] [] ∧ table'.bChanged = table.bChanged ∧
      ∀ e : Extent, (∀ b, e.at b + frees table.pGCitems b ≤ 1) → KeepsBlocks area file file' e := by
  unfold addBlock at h
  split at h
  · cases h
    refine ⟨⟨rfl, Nat.le_refl _, fun b => ?_⟩, rfl, fun e _ => keepsBlocks_refl area file e⟩
    simp only [frees_append, frees_cons, frees_nil, cover_cons, cover_nil, extent]
    omega
  · split at h
    · cases h
    · rename_i item items heq
      split at h
      · simp only [Option.some.injEq, Prod.mk.injEq] at h
        obtain ⟨rfl, rfl⟩ := h
        obtain ⟨hdrop, hchanged, hkeeps⟩ := dropFirst_balanced area file table heq
        refine ⟨⟨hdrop.core, hdrop.next, fun b => ?_⟩, hchanged, hkeeps⟩
        have hb := hdrop.balance b
        simp only [frees_cons, cover_cons, cover_nil, extent] at hb ⊢
        omega
      · cases h

theorem freeBlocks_moves (table : GCTable) (ulOffset ulSize : Nat) :
    Moves table (freeBlocks area file table ulOffset ulSize).2 [⟨ulOffset, ulSize⟩] [] := by
  unfold freeBlocks
  split
  · rename_i hend
    refine Moves.before ?_ (fptPackGCitems_moves _)
    refine ⟨⟨rfl, Nat.sub_le _ _, fun b => ?_⟩, Nat.left_le_or, fun _ _ _ => rfl, fun hzero => ?_⟩
    · have hadd := under_add_at ulOffset ulSize b
      simp only [← hend, Nat.add_sub_cancel, cover_cons, cover_nil]
      omega
    · exact absurd (hzero ▸ Nat.right_le_or : 1 ≤ 0) (by decide)
  · dsimp only
    split
    · rename_i file' table' hjoined
      refine Moves.before (Moves.before ?_ (fptPackGCitems_moves _)) (fptSortGCitems_moves _)
      split at hjoined
      · rename_i items hitems
        cases hjoined
        refine Balanced.moves ⟨rfl, Nat.le_refl _, fun b => ?_⟩ Nat.left_le_or Nat.right_le_or
        rw [joinBlock_frees hitems]
        simp only [cover_cons, cover_nil]
        omega
      · obtain ⟨hadd, hchanged, -⟩ := addBlock_balanced area file hjoined
        exact Balanced.moves ⟨hadd.core, hadd.next, hadd.balance⟩ (hchanged ▸ Nat.left_le_or)
          Nat.right_le_or
    · exact (moves_refl table).mono fun b => Nat.zero_le _

theorem freeBlocks_keeps (table : GCTable) (ulOffset ulSize : Nat)
    (hapart : ∀ b, e.at b + frees table.pGCitems b ≤ 1) :
    KeepsBlocks area file (freeBlocks area file table ulOffset ulSize).1 e := by
  unfold freeBlocks
  split
  · exact keepsBlocks_refl area file e
  · dsimp only
    split
    · rename_i file' table' hjoined
      split at hjoined
      · cases hjoined
        exact keepsBlocks_refl area file e
      · exact (addBlock_balanced area file hjoined).2.2 e hapart
    · exact keepsBlocks_refl area file e

section

variable {file' : File} {ulByteSize : Nat} {fRaw : Bool}
  (h : fptGCfreeBlock area file table ulOffset ulByteSize fRaw = some (file', table'))

include h

theorem fptGCfreeBlock_moves : Moves table table'
      [⟨ulOffset, area.blocksFor (freedBytes area file ulOffset ulByteSize fRaw)⟩] [] := by
  unfold fptGCfreeBlock at h
  split at h
  · cases h
    exact (moves_refl table).mono fun b => Nat.zero_le _
  · dsimp only at h
    split at h
    · cases h
    · have hmoves := freeBlocks_moves area file table ulOffset
        (area.blocksFor (freedBytes area file ulOffset ulByteSize fRaw))
      rwa [Option.some.inj h] at hmoves

theorem fptGCfreeBlock_keeps (hapart : ∀ b, e.at b + frees table.pGCitems b ≤ 1) :
    KeepsBlocks area file file' e := by
  unfold fptGCfreeBlock at h
  split at h
  · cases h
    exact keepsBlocks_refl area file e
  · dsimp only at h
    split at h
    · cases h
    · have hkeeps := freeBlocks_keeps area file table ulOffset
        (area.blocksFor (freedBytes area file ulOffset ulByteSize fRaw)) hapart
      rwa [Option.some.inj h] at hkeeps

end

end Free

theorem shiftDown_frees (item : GCItem) (items : List GCItem) (b : Nat) :
    frees (shiftDown (item :: items)) b = frees items b := by
  induction items generalizing item with
  | nil => rfl
  | cons next items ih =>
    rw [shiftDown, frees_cons, frees_cons, ih]
    rfl

theorem takeBlock_frees {remains : Bool}
    (h : takeBlock ulSize items = some (ulOffset, items', remains)) (b : Nat) :
    frees items' b + (⟨ulOffset, ulSize⟩ : Extent).at b = frees items b := by
  induction items generalizing items' with
  | nil => cases h
  | cons item items ih =>
    rw [takeBlock] at h
    split at h
    · rename_i hle
      split at h
      · rename_i hsize
        cases h
        rw [shiftDown_frees, frees_cons, ← hsize, Nat.add_comm]
        rfl
      · cases h
        obtain ⟨rest, hrest⟩ := Nat.exists_eq_add_of_le hle
        have hsplit := at_split item.ulOffset ulSize rest b
        rw [frees_cons, frees_cons]
        simp only [extent, hrest, Nat.add_sub_cancel_left]
        omega
    · obtain ⟨⟨off, rest, r⟩, hrest, heq⟩ := map_eq_some_iff.mp h
      cases heq
      rw [frees_cons, frees_cons, ← ih hrest, Nat.add_assoc]

theorem fptGCgetFreeBlock_moves (area : FptArea) (table : GCTable) (ulByteSize : Nat)
    (fRaw : Bool) :
    Moves table (fptGCgetFreeBlock area table ulByteSize fRaw).2 []
      [⟨(fptGCgetFreeBlock area table ulByteSize fRaw).1, takenBlocks area ulByteSize fRaw⟩] := by
  unfold fptGCgetFreeBlock
  dsimp only
  split
  · rename_i ulOffset items remains htake
    have hsort : Moves { table with pGCitems := items }
        (if remains then fptSortGCitems { table with pGCitems := items }
          else { table with pGCitems := items }) [] [] := by
      split
      · exact fptSortGCitems_moves _
      · exact moves_refl _
    have htaken : Balanced table { table with pGCitems := items } []
        [⟨ulOffset, takenBlocks area ulByteSize fRaw⟩] := by
      refine ⟨rfl, Nat.le_add_right _ _, fun b => ?_⟩
      rw [← takeBlock_frees htake b]
      simp only [cover_cons, cover_nil]
      omega
    obtain ⟨hcore, hnext, hbalance⟩ := htaken.trans hsort.toBalanced
    exact Balanced.moves ⟨hcore, hnext, hbalance⟩ (hsort.changed.trans Nat.left_le_or)
      Nat.right_le_or
  · refine ⟨⟨rfl, Nat.le_refl _, fun b => ?_⟩, Nat.left_le_or, fun _ _ _ => rfl, fun hzero => ?_⟩
    · have hadd := under_add_at table.ulNextBlock (takenBlocks area ulByteSize fRaw) b
      simp only [cover_cons, cover_nil]
      omega
    · exact absurd (hzero ▸ Nat.right_le_or : 1 ≤ 0) (by decide)

end Harbour.Rdd.FptFreeList
