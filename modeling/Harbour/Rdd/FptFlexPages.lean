import Harbour.Rdd.FptGCdata

/-!
The directory pages of FLEX: they take their own blocks, and the list is read from one of them.
-/

namespace Harbour.Rdd.FptFlexPages

open Library.Memory Library.Bytes Library.Extents FptStore FptFreeList FptGCdata List Option

structure PagesOk (area : FptArea) (table : GCTable) : Prop where
  bType : table.bType = .flex
  usMaxItem : table.usMaxItem = maxFlexFreeBlocks
  dir : ∃ block, table.ulDirPage = area.blockOffset block
  rev : ∃ block, table.ulRevPage = area.blockOffset block
  both : table.ulDirPage = 0 ↔ table.ulRevPage = 0
  size : table.ulDirPage ≠ 0 → table.ulSize = flexGCPageSize

variable {table' : GCTable} {block ulSize : Nat} {e : Extent} {item : GCItem}

theorem PagesOk.of_core {area : FptArea} {table : GCTable} (h : PagesOk area table)
    (hcore : core table' = core table) : PagesOk area table' := by
  have htype : table'.bType = table.bType := congrArg (fun t => t.bType) hcore
  have hmax : table'.usMaxItem = table.usMaxItem := congrArg (fun t => t.usMaxItem) hcore
  have hsize : table'.ulSize = table.ulSize := congrArg (fun t => t.ulSize) hcore
  have hdir : table'.ulDirPage = table.ulDirPage := congrArg (fun t => t.ulDirPage) hcore
  have hrev : table'.ulRevPage = table.ulRevPage := congrArg (fun t => t.ulRevPage) hcore
  obtain ⟨bType, usMaxItem, dir, rev, both, size⟩ := h
  exact ⟨htype ▸ bType, hmax ▸ usMaxItem, hdir ▸ dir, hrev ▸ rev, hdir ▸ hrev ▸ both,
    hdir ▸ hsize ▸ size⟩

def pageBlocks (area : FptArea) : Nat := area.blocksFor (flexGCPageSize + fptBlockSize)

theorem pageBlocks_pos (area : FptArea) : 0 < pageBlocks area :=
  area.blocksFor_pos (by decide)

theorem blockOffset_eq_zero {area : FptArea} :
    area.blockOffset block = 0 ↔ block = 0 := by
  unfold FptArea.blockOffset
  rw [Nat.mul_eq_zero]
  exact or_iff_left area.blockSize_pos.ne'

theorem blockOffset_add (area : FptArea) (b b' : Nat) :
    area.blockOffset (b + b') = area.blockOffset b + area.blockOffset b' :=
  Nat.add_mul _ _ _

theorem pageExtent_blockOffset (area : FptArea) (h : block ≠ 0) :
    pageExtent area flexGCPageSize (area.blockOffset block) = ⟨block, pageBlocks area⟩ := by
  unfold pageExtent
  rw [if_neg (mt blockOffset_eq_zero.mp h)]
  unfold FptArea.blockOffset
  rw [Nat.mul_div_cancel _ area.blockSize_pos]
  rfl

theorem pageExtent_zero (area : FptArea) (ulSize b : Nat) : (pageExtent area ulSize 0).at b = 0 :=
  at_empty 0 b

theorem PagesOk.blocks {area : FptArea} {table : GCTable} (hok : PagesOk area table)
    (hdir : table.ulDirPage ≠ 0) :
    ∃ d r, table.ulDirPage = area.blockOffset d ∧ table.ulRevPage = area.blockOffset r ∧
      table.ulRevPage ≠ 0 ∧ table.ulSize = flexGCPageSize ∧
      pages area table = [⟨d, pageBlocks area⟩, ⟨r, pageBlocks area⟩] := by
  obtain ⟨d, hd⟩ := hok.dir
  obtain ⟨r, hr⟩ := hok.rev
  have hrev : table.ulRevPage ≠ 0 := mt hok.both.mpr hdir
  have hd0 : d ≠ 0 := fun h => hdir (hd.trans (blockOffset_eq_zero.mpr h))
  have hr0 : r ≠ 0 := fun h => hrev (hr.trans (blockOffset_eq_zero.mpr h))
  refine ⟨d, r, hd, hr, hrev, hok.size hdir, ?_⟩
  rw [pages, hok.size hdir, hd, hr, pageExtent_blockOffset area hd0,
    pageExtent_blockOffset area hr0]

theorem drop_last {used : Nat → Nat} {lo hi k k' n : Nat}
    (h : ∀ b, used b + ((⟨lo, k⟩ : Extent).at b + (⟨hi, k⟩ : Extent).at b) ≤ under n b)
    (hle : lo ≤ hi) (hend : lo + 2 * k' = n) (hk : k' ≤ k) (hpos : 0 < k) (b : Nat) :
    used b ≤ under (n - 2 * k') b := by
  have hapart : Apart ⟨lo, k⟩ ⟨hi, k⟩ := by
    rintro b ⟨hlo, hhi⟩
    have hb := h b
    have hone := under_le n b
    omega
  have hlast : hi + k ≤ n :=
    end_le_of_at_le (e := ⟨hi, k⟩) (fun b => by have := h b; omega) hpos
  have hnext : hi = lo + k := by
    have hordered := hapart.ordered hpos hpos
    dsimp only at hordered
    omega
  have hsplit := at_split lo k k b
  have hadd := under_add_at lo (k + k) b
  have hb := h b
  rw [show n - 2 * k' = lo by omega]
  rw [show n = lo + (k + k) by omega, hnext] at hb
  omega

theorem dropFlexPages_fits {area : FptArea} {others : List Extent} {table : GCTable}
    (hok : PagesOk area table) (hfits : Fits area others table) (hitems : table.pGCitems = [])
    (hdir : table.ulDirPage ≠ 0) :
    Fits area others (dropFlexPages area table) ∧ PagesOk area (dropFlexPages area table) := by
  obtain ⟨d, r, hd, hr, hrev, hsize, hpages⟩ := hok.blocks hdir
  obtain ⟨lo, hi, hlow, hle, hsame⟩ : ∃ lo hi,
      (if table.ulRevPage ≠ 0 ∧ table.ulRevPage < table.ulDirPage then table.ulRevPage
        else table.ulDirPage) = area.blockOffset lo ∧ lo ≤ hi ∧
      ∀ b, (⟨lo, pageBlocks area⟩ : Extent).at b + (⟨hi, pageBlocks area⟩ : Extent).at b =
        (⟨d, pageBlocks area⟩ : Extent).at b + (⟨r, pageBlocks area⟩ : Extent).at b := by
    rw [hd, hr]
    rcases Nat.lt_or_ge r d with hlt | hle
    · refine ⟨r, d, if_pos ⟨hr ▸ hrev, ?_⟩, hlt.le, fun b => Nat.add_comm _ _⟩
      exact Nat.mul_lt_mul_of_pos_right hlt area.blockSize_pos
    · refine ⟨d, r, if_neg fun h => ?_, hle, fun b => rfl⟩
      exact absurd h.2 (Nat.not_lt.mpr (area.blockOffset_mono hle))
  unfold dropFlexPages
  dsimp only
  rw [if_pos hrev, hlow, hsize, FptArea.blockOffset, Nat.mul_div_cancel _ area.blockSize_pos]
  split
  · rename_i hend
    refine ⟨fun b => ?_, hok.bType, hok.usMaxItem, ⟨0, (Nat.zero_mul _).symm⟩,
      ⟨0, (Nat.zero_mul _).symm⟩, Iff.rfl, fun h => absurd rfl h⟩
    have hblocks : area.blocksFor flexGCPageSize ≤ pageBlocks area :=
      area.blocksFor_mono (Nat.le_add_right _ _)
    have hfits' : ∀ b, (cover others b + under (headerBlocks area) b) +
        ((⟨lo, pageBlocks area⟩ : Extent).at b + (⟨hi, pageBlocks area⟩ : Extent).at b) ≤
          under table.ulNextBlock b := by
      intro b
      have hb := hfits b
      rw [hpages, hitems] at hb
      simp only [frees_nil, cover_cons, cover_nil] at hb
      have hsum := hsame b
      omega
    have hused := drop_last hfits' hle hend hblocks (pageBlocks_pos area) b
    simp only [hitems, pages, cover_cons, cover_nil, pageExtent_zero, frees_nil]
    omega
  · exact ⟨hfits, hok⟩

section

variable {area : FptArea} (hflex : IsFlex area)

include hflex

theorem takenBlocks_page : takenBlocks area flexGCPageSize false = pageBlocks area := by
  simp [takenBlocks, hflex.1, pageBlocks]

theorem addFlexPages_cases (table : GCTable) : ∃ d r table',
      addFlexPages area table =
        { table' with
          ulDirPage := area.blockOffset d
          ulRevPage := area.blockOffset r
          bChanged := table'.bChanged ||| 2 } ∧
      Moves { table with ulSize := flexGCPageSize } table' []
        [⟨d, pageBlocks area⟩, ⟨r, pageBlocks area⟩] := by
  have hmoves := fptGCgetFreeBlock_moves area { table with ulSize := flexGCPageSize }
    flexGCPageSize false
  unfold addFlexPages
  dsimp only
  generalize fptGCgetFreeBlock area { table with ulSize := flexGCPageSize }
    flexGCPageSize false = first at hmoves
  obtain ⟨d, table₁⟩ := first
  have hsize : table₁.ulSize = flexGCPageSize := congrArg (fun t => t.ulSize) hmoves.core
  have hmoves' := fptGCgetFreeBlock_moves area table₁ flexGCPageSize false
  rw [hsize]
  generalize fptGCgetFreeBlock area table₁ flexGCPageSize false = second at hmoves'
  obtain ⟨r, table₂⟩ := second
  rw [takenBlocks_page hflex] at hmoves hmoves'
  exact ⟨d, r, table₂, rfl, hmoves.trans hmoves'⟩

theorem addFlexPages_fits {others : List Extent} {table : GCTable} (hok : PagesOk area table)
    (hfits : Fits area others table) (hdir : table.ulDirPage = 0) :
    Fits area others (addFlexPages area table) ∧ PagesOk area (addFlexPages area table) := by
  obtain ⟨d, r, table', heq, hmoves⟩ := addFlexPages_cases hflex table
  have hrev : table.ulRevPage = 0 := hok.both.mp hdir
  have hsized : Fits area others { table with ulSize := flexGCPageSize } := by
    intro b
    have hb := hfits b
    simp only [pages, hdir, hrev, cover_cons, cover_nil, pageExtent_zero] at hb ⊢
    exact hb
  have htaken : Fits area (⟨d, pageBlocks area⟩ :: ⟨r, pageBlocks area⟩ :: others) table' := by
    refine hsized.moves hmoves fun b => ?_
    simp only [cover_cons, cover_nil]
    omega
  have hhdr := headerBlocks_pos area
  have hd : headerBlocks area ≤ d := htaken.header_le mem_cons_self (pageBlocks_pos area)
  have hr : headerBlocks area ≤ r :=
    htaken.header_le (mem_cons_of_mem _ mem_cons_self) (pageBlocks_pos area)
  have hd0 : d ≠ 0 := by omega
  have hr0 : r ≠ 0 := by omega
  have hsize : table'.ulSize = flexGCPageSize := congrArg (fun t => t.ulSize) hmoves.core
  rw [heq]
  refine ⟨fun b => ?_, (congrArg (fun t => t.bType) hmoves.core).trans hok.bType,
    (congrArg (fun t => t.usMaxItem) hmoves.core).trans hok.usMaxItem, ⟨d, rfl⟩, ⟨r, rfl⟩, ?_,
    fun _ => hsize⟩
  · have hb := htaken b
    simp only [pages, hsize, cover_cons, cover_nil, pageExtent_blockOffset area hd0,
      pageExtent_blockOffset area hr0] at hb ⊢
    omega
  · exact iff_of_false (mt blockOffset_eq_zero.mp hd0) (mt blockOffset_eq_zero.mp hr0)

end

section Page

variable {area : FptArea} {file file' : File}

structure PageHolds (area : FptArea) (file : File) (page : Nat) (items : List GCItem) : Prop where
  head : file.mem.read page fptBlockSize = fptBlock fptitFlexGC flexGCPageSize
  count : file.mem.read (page + fptBlockSize) 2 = leBytes 2 (items.length * 4 + 3)
  entries : file.mem.read (page + fptBlockSize + 2) (items.length * 8) =
    items.flatMap (flexEntry area)
  room : items.length ≤ maxFlexFreeBlocks
  size : page + fptBlockSize + flexGCPageSize ≤ file.size

def flexStored (area : FptArea) (item : GCItem) : GCItem :=
  ⟨item.ulOffset * area.ulMemoBlockSize % 2 ^ 32 / area.ulMemoBlockSize,
    item.ulSize * area.ulMemoBlockSize % 2 ^ 32 / area.ulMemoBlockSize, false⟩

theorem flexEntry_length (area : FptArea) (item : GCItem) : (flexEntry area item).length = 8 := by
  simp [flexEntry]

theorem flexRevEntry_length (area : FptArea) (item : GCItem) :
    (flexRevEntry area item).length = 8 := by
  simp [flexRevEntry]

theorem flexItem_of_read {mem : Mem} {page i : Nat}
    (h : mem.read (page + 2 + i * 8) 8 = flexEntry area item) :
    flexItem area mem page i = flexStored area item := by
  have hadd := Mem.read_add mem (page + 2 + i * 8) 4 4
  rw [h] at hadd
  obtain ⟨hoff, hsize⟩ := append_inj hadd (by simp)
  have hpos : page + i * 8 + 2 = page + 2 + i * 8 := by omega
  have hpos' : page + i * 8 + 6 = page + 2 + i * 8 + 4 := by omega
  unfold flexItem flexStored
  rw [hpos, hpos', getLE_of_read hoff.symm, getLE_of_read hsize.symm]
  rfl

theorem readFlexPage_eq_some {page : Nat} {items : List GCItem} :
    readFlexPage area file page = some (ulSize, items) ↔
      page + fptBlockSize + ulSize ≤ file.size ∧ getBE file.mem page 4 = fptitFlexGC ∧
        getBE file.mem (page + 4) 4 = ulSize ∧
        (range ((getLE file.mem (page + fptBlockSize) 2 + 2 ^ 18 - 3) / 4 % 2 ^ 16)).map
          (flexItem area file.mem (page + fptBlockSize)) = items := by
  constructor
  · intro h
    simp only [readFlexPage, File.readAt, bind_eq_bind, bind_eq_some_iff,
      ite_none_right_eq_some, guard_eq_some', Option.some.injEq, Prod.mk.injEq] at h
    obtain ⟨-, -, -, htype, -, ⟨hsize, -⟩, rfl, hitems⟩ := h
    exact ⟨hsize, htype, rfl, hitems⟩
  · rintro ⟨hsize, htype, rfl, rfl⟩
    have hfirst : page + fptBlockSize ≤ file.size := le_trans (Nat.le_add_right _ _) hsize
    simp [readFlexPage, File.readAt, hfirst, htype, hsize]

section

variable {page : Nat} {items : List GCItem} (h : PageHolds area file page items)

include h

theorem readFlexPage_of_holds :
    readFlexPage area file page = some (flexGCPageSize, items.map (flexStored area)) := by
  have hhead := Mem.read_add file.mem page 4 4
  obtain ⟨htype, hsize⟩ := append_inj (h.head.symm.trans hhead) (by simp [beBytes])
  have hroom : items.length ≤ 126 := h.room
  have hcount : (getLE file.mem (page + fptBlockSize) 2 + 2 ^ 18 - 3) / 4 % 2 ^ 16 =
      items.length := by
    rw [getLE_of_read h.count]
    omega
  refine readFlexPage_eq_some.mpr ⟨h.size, getBE_of_read htype.symm, getBE_of_read hsize.symm, ?_⟩
  rw [hcount]
  refine ext_getElem (by simp) fun i hi hi' => ?_
  rw [length_map] at hi'
  rw [getElem_map, getElem_map, getElem_range]
  exact flexItem_of_read (Mem.read_records (flexEntry_length area) h.entries hi')

theorem PageHolds.keep (hkeep : File.Keeps file file' page (page + fptBlockSize + flexGCPageSize)) :
    PageHolds area file' page items where
  head := by
    rw [hkeep.read (Nat.le_refl _) (Nat.le_add_right _ _), h.head]
  count := by
    rw [hkeep.read (Nat.le_add_right _ _) (Nat.add_le_add_left (show 2 ≤ 1010 by decide) _),
      h.count]
  entries := by
    have hroom : items.length ≤ 126 := h.room
    have hhi : page + fptBlockSize + 2 + items.length * 8 ≤
        page + fptBlockSize + flexGCPageSize := by
      rw [Nat.add_assoc]
      exact Nat.add_le_add_left (show 2 + _ ≤ 1010 by omega) _
    rw [hkeep.read (by omega) hhi, h.entries]
  room := h.room
  size := by
    have hsize := hkeep.size
    have hold := h.size
    omega

end

theorem readFlexPage_congr {page : Nat} {items : List GCItem}
    (hkeep : File.Keeps file file' page (page + fptBlockSize + flexGCPageSize))
    (h : readFlexPage area file page = some (flexGCPageSize, items))
    (hroom : items.length ≤ maxFlexFreeBlocks) :
    readFlexPage area file' page = some (flexGCPageSize, items) := by
  obtain ⟨hsize, htype, hulSize, hitems⟩ := readFlexPage_eq_some.mp h
  have hread : ∀ off n, off + n ≤ fptBlockSize + flexGCPageSize →
      file'.mem.read (page + off) n = file.mem.read (page + off) n := fun off n hle =>
    hkeep.read (Nat.le_add_right _ _) (by omega)
  have hcount : (getLE file.mem (page + fptBlockSize) 2 + 2 ^ 18 - 3) / 4 % 2 ^ 16 ≤ 126 := by
    have hlen := congrArg length hitems
    rw [length_map, length_range] at hlen
    exact hlen ▸ hroom
  refine readFlexPage_eq_some.mpr ⟨?_, ?_, ?_, ?_⟩
  · have hsize' := hkeep.size
    omega
  · rw [← htype]
    exact congrArg (fun bytes => leValue bytes.reverse) (hread 0 4 (by decide))
  · rw [← hulSize]
    exact congrArg (fun bytes => leValue bytes.reverse) (hread 4 4 (by decide))
  · have hsame : getLE file'.mem (page + fptBlockSize) 2 = getLE file.mem (page + fptBlockSize) 2 :=
      congrArg leValue (hread fptBlockSize 2 (by decide))
    rw [hsame, ← hitems]
    refine map_congr_left fun i hi => ?_
    have hlt := (mem_range.mp hi).trans_le hcount
    have hoff := hread (fptBlockSize + (i * 8 + 2)) 4 (show 8 + _ + 4 ≤ 1018 by omega)
    have hsz := hread (fptBlockSize + (i * 8 + 6)) 4 (show 8 + _ + 4 ≤ 1018 by omega)
    rw [← Nat.add_assoc, ← Nat.add_assoc] at hoff hsz
    unfold flexItem getLE
    rw [hoff, hsz]

theorem flexPage_length {usItems : Nat} {entries : Bytes} (h : 2 + entries.length ≤ ulSize) :
    (flexPage ulSize usItems entries).length = ulSize := by
  simp [flexPage]
  omega

theorem pageEnd_le (area : FptArea) (block : Nat) :
    area.blockOffset block + fptBlockSize + flexGCPageSize ≤
      area.blockOffset (block + pageBlocks area) := by
  have hle := area.le_blocksFor (flexGCPageSize + fptBlockSize)
  unfold pageBlocks
  rw [blockOffset_add]
  omega

theorem writeFlexPage_keeps {data : Bytes} (hdata : data.length = flexGCPageSize)
    (hapart : ∀ b, e.at b + (⟨block, pageBlocks area⟩ : Extent).at b ≤ 1) :
    KeepsBlocks area file (writeFlexPage file (area.blockOffset block) flexGCPageSize data) e := by
  have hend := pageEnd_le area block
  refine File.Keeps.trans (keepsBlocks_writeAt file hapart (Nat.le_refl _) ?_)
    (keepsBlocks_writeAt _ hapart (Nat.le_add_right _ _) ?_)
  · rw [fptBlock_length]
    exact le_trans (Nat.le_add_right _ _) hend
  · rw [hdata]
    exact hend

theorem writeFlexPage_holds (file : File) (page : Nat) {items : List GCItem}
    (hroom : items.length ≤ maxFlexFreeBlocks) :
    PageHolds area (writeFlexPage file page flexGCPageSize
      (flexPage flexGCPageSize items.length (items.flatMap (flexEntry area)))) page items := by
  have hroom' : items.length ≤ 126 := hroom
  have hentries := flatMap_length (flexEntry_length area) items
  have hdata : (flexPage flexGCPageSize items.length (items.flatMap (flexEntry area))).length =
      flexGCPageSize := by
    refine flexPage_length ?_
    exact (show _ ≤ 1010 by omega)
  have hpage : (writeFlexPage file page flexGCPageSize
      (flexPage flexGCPageSize items.length (items.flatMap (flexEntry area)))).mem.read
        (page + fptBlockSize) (2 + items.length * 8) =
      leBytes 2 (items.length * 4 + 3) ++ items.flatMap (flexEntry area) := by
    have hread := Mem.read_write_prefix
      (file.mem.write page (fptBlock fptitFlexGC flexGCPageSize)) (page + fptBlockSize)
      (leBytes 2 (items.length * 4 + 3) ++ items.flatMap (flexEntry area))
      (replicate (flexGCPageSize -
        (leBytes 2 (items.length * 4 + 3) ++ items.flatMap (flexEntry area)).length) 0xAD)
    simpa [writeFlexPage, File.writeAt, flexPage, hentries] using hread
  rw [Mem.read_add] at hpage
  obtain ⟨hcount, hitems⟩ := append_inj hpage (by simp)
  refine ⟨?_, hcount, hitems, hroom, ?_⟩
  · have hread := Mem.read_write file.mem page (fptBlock fptitFlexGC flexGCPageSize)
    refine Eq.trans (Mem.read_write_outside _ (.inl (Nat.le_refl _))) hread
  · have hfull : flexPage flexGCPageSize items.length (items.flatMap (flexEntry area)) ≠ [] :=
      fun hnil => absurd (hdata.symm.trans (congrArg length hnil)) (by decide)
    have hend := File.end_le_writeAt (file.writeAt page (fptBlock fptitFlexGC flexGCPageSize))
      (page + fptBlockSize) hfull
    rwa [hdata] at hend

end Page

section Put

variable {area : FptArea} {file : File} {others : List Extent} {table : GCTable}

section

variable (hok : PagesOk area table)

include hok

theorem stored_room : table.stored.length ≤ maxFlexFreeBlocks :=
  (stored_length table).trans (Nat.le_of_eq hok.usMaxItem)

theorem pageData_length {put : GCItem → Bytes} (hput : ∀ item, (put item).length = 8) :
    (flexPage flexGCPageSize table.stored.length (table.stored.flatMap put)).length =
      flexGCPageSize := by
  have hroom : table.stored.length ≤ 126 := stored_room hok
  refine flexPage_length ?_
  rw [flatMap_length hput]
  exact (show _ ≤ 1010 by omega)

theorem putFlexPages_keeps (hapart : ∀ b, e.at b + cover (pages area table) b ≤ 1) :
    KeepsBlocks area file (putFlexPages area file table) e := by
  unfold putFlexPages
  split
  · rename_i hwrite
    obtain ⟨d, r, hd, hr, hrev, hsize, hpages⟩ := hok.blocks hwrite.1
    rw [hpages] at hapart
    simp only [cover_cons, cover_nil] at hapart
    rw [if_pos hrev, hd, hr, hsize]
    refine File.Keeps.trans (writeFlexPage_keeps (pageData_length hok (flexEntry_length area))
      fun b => ?_) (writeFlexPage_keeps (pageData_length hok (flexRevEntry_length area))
        fun b => ?_)
    · have hb := hapart b
      omega
    · have hb := hapart b
      omega
  · exact keepsBlocks_refl area file e

end

theorem KeepsBlocks.page {file file' : File}
    (h : KeepsBlocks area file file' ⟨block, pageBlocks area⟩) :
    File.Keeps file file' (area.blockOffset block)
      (area.blockOffset block + fptBlockSize + flexGCPageSize) :=
  File.Keeps.mono h (Nat.le_refl _) (pageEnd_le area block)

theorem putFlexPages_holds (hok : PagesOk area table) (hfits : Fits area others table)
    (hdir : table.ulDirPage ≠ 0) (hchanged : 1 < table.bChanged) :
    PageHolds area (putFlexPages area file table) table.ulDirPage table.stored := by
  obtain ⟨d, r, hd, hr, hrev, hsize, hpages⟩ := hok.blocks hdir
  unfold putFlexPages
  rw [if_pos ⟨hdir, hchanged⟩, if_pos hrev, hd, hr, hsize]
  refine (writeFlexPage_holds file _ (stored_room hok)).keep (KeepsBlocks.page ?_)
  refine writeFlexPage_keeps (pageData_length hok (flexRevEntry_length area)) fun b => ?_
  have hb := hfits b
  have hone := under_le table.ulNextBlock b
  rw [hpages] at hb
  simp only [cover_cons, cover_nil] at hb
  omega

end Put

section Disk

variable {area : FptArea} {file : File} {others : List Extent} {table : GCTable}

/-- What `flexPages` leaves: nothing is lost, and a list that will not be written is the one
on the disk. -/
structure FlexPagesMove (area : FptArea) (others : List Extent) (table table' : GCTable) :
    Prop where
  fits : Fits area others table'
  ok : PagesOk area table'
  header : table'.fptHeader = table.fptHeader
  changed : table.bChanged ≤ table'.bChanged
  next : table'.ulNextBlock ≤ table.ulNextBlock + 2 * pageBlocks area
  quiet : table'.bChanged < 2 → table'.ulDirPage ≠ 0 →
    table'.ulDirPage = table.ulDirPage ∧ table'.pGCitems = table.pGCitems

theorem dropFlexPages_cases (area : FptArea) (table : GCTable) :
    dropFlexPages area table = table ∨
      ∃ n, dropFlexPages area table =
        { table with ulDirPage := 0, ulRevPage := 0, ulNextBlock := table.ulNextBlock - n } := by
  unfold dropFlexPages
  dsimp only
  generalize (if table.ulRevPage ≠ 0 then 2 * area.blocksFor table.ulSize
    else area.blocksFor table.ulSize) = n
  generalize (if table.ulRevPage ≠ 0 ∧ table.ulRevPage < table.ulDirPage then table.ulRevPage
    else table.ulDirPage) = page
  split
  · exact .inr ⟨n, rfl⟩
  · exact .inl rfl

theorem dropFlexPages_move (hok : PagesOk area table) (hfits : Fits area others table)
    (hitems : table.pGCitems = []) (hdir : table.ulDirPage ≠ 0) :
    FlexPagesMove area others table (dropFlexPages area table) := by
  obtain ⟨hfits', hok'⟩ := dropFlexPages_fits hok hfits hitems hdir
  rcases dropFlexPages_cases area table with heq | ⟨n, heq⟩
  · rw [heq]
    exact ⟨hfits, hok, rfl, Nat.le_refl _, Nat.le_add_right _ _, fun _ _ => ⟨rfl, rfl⟩⟩
  · rw [heq] at hfits' hok' ⊢
    exact ⟨hfits', hok', rfl, Nat.le_refl _, (Nat.sub_le _ _).trans (Nat.le_add_right _ _),
      fun _ h => absurd rfl h⟩

section

variable (hflex : IsFlex area) (hok : PagesOk area table) (hfits : Fits area others table)

include hflex hok hfits

theorem addFlexPages_move (hdir : table.ulDirPage = 0) :
    FlexPagesMove area others table (addFlexPages area table) := by
  obtain ⟨hfits', hok'⟩ := addFlexPages_fits hflex hok hfits hdir
  obtain ⟨d, r, table', heq, hmoves⟩ := addFlexPages_cases hflex table
  rw [heq] at hfits' hok' ⊢
  refine ⟨hfits', hok', congrArg (fun t => t.fptHeader) hmoves.core,
    hmoves.changed.trans Nat.left_le_or, ?_, fun hlt => ?_⟩
  · have hnext := hmoves.next
    simp only [total_cons, total_nil] at hnext
    dsimp only
    omega
  · exact absurd hlt (Nat.not_lt.mpr Nat.right_le_or)

theorem flexPages_move : FlexPagesMove area others table (flexPages area table) := by
  have hok' : PagesOk area { table with ulCounter := table.ulCounter + 1 } :=
    ⟨hok.bType, hok.usMaxItem, hok.dir, hok.rev, hok.both, hok.size⟩
  have hfits' : Fits area others { table with ulCounter := table.ulCounter + 1 } := hfits
  unfold flexPages
  dsimp only
  split
  · rename_i hdrop
    obtain ⟨fits, ok, header, changed, next, quiet⟩ :=
      dropFlexPages_move hok' hfits' hdrop.1 hdrop.2
    exact ⟨fits, ok, header, changed, next, quiet⟩
  · split
    · rename_i hadd
      obtain ⟨fits, ok, header, changed, next, quiet⟩ :=
        addFlexPages_move hflex hok' hfits' hadd.2
      exact ⟨fits, ok, header, changed, next, quiet⟩
    · exact ⟨hfits', hok', rfl, Nat.le_refl _, Nat.le_add_right _ _, fun _ _ => ⟨rfl, rfl⟩⟩

end

def flexTable (area : FptArea) (file : File) (items : List GCItem) : GCTable :=
  { freshTable area (readHeader file) with
    bType := .flex
    usMaxItem := maxFlexFreeBlocks
    ulRevPage := getLE file.mem 524 4
    ulDirPage := getLE file.mem 528 4
    ulCounter := getLE file.mem 532 4
    ulSize := if getLE file.mem 528 4 = 0 then 0 else flexGCPageSize
    pGCitems := items }

structure FlexDisk (area : FptArea) (file : File) (items : List GCItem) : Prop where
  size : 512 ≤ file.size
  pages : PagesOk area (flexTable area file items)
  page : getLE file.mem 528 4 ≠ 0 →
    readFlexPage area file (getLE file.mem 528 4) = some (flexGCPageSize, items)
  none : getLE file.mem 528 4 = 0 → items = []
  room : items.length ≤ maxFlexFreeBlocks

theorem FlexDisk.readTable (hflex : IsFlex area) {items : List GCItem}
    (h : FlexDisk area file items) : readTable area file = some (flexTable area file items) := by
  have hsix : ¬ (area.uiMemoVersion = .six ∨ area.bMemoType = .smt) := by
    simp [hflex.1, hflex.2]
  have hkind : area.bMemoType = .fpt ∧ area.isFlex := ⟨hflex.1, by simp [FptArea.isFlex, hflex.2]⟩
  have hget : ∀ pos, pos + 4 ≤ 1024 → getLE (readHeader file) pos 4 = getLE file.mem pos 4 :=
    fun pos hle => congrArg leValue (readHeader_read file hle)
  unfold FptStore.readTable readFlexGCdata
  dsimp only [freshTable]
  rw [if_neg (Nat.not_lt.mpr h.size), if_neg hsix, if_pos hkind, hget 524 (by decide),
    hget 528 (by decide), hget 532 (by decide)]
  split
  · rename_i hzero
    rw [h.none hzero]
    simp [flexTable, freshTable, hzero]
  · rename_i hdir
    rw [h.page hdir]
    simp [flexTable, freshTable, hdir]
    rfl

theorem headerSize_flex (hflex : IsFlex area) : headerSize area = fptHeaderSize := by
  simp [headerSize, FptArea.isFlex, hflex.2]

theorem putFlexHeader_read (table : GCTable) :
    (putFlexHeader table).fptHeader.read 524 (4 + (4 + 4)) =
      leBytes 4 table.ulRevPage ++ (leBytes 4 table.ulDirPage ++ leBytes 4 table.ulCounter) := by
  have hread := Mem.read_write table.fptHeader 524
    (leBytes 4 table.ulRevPage ++ leBytes 4 table.ulDirPage ++ leBytes 4 table.ulCounter)
  simpa [putFlexHeader] using hread

theorem fptWriteGCdata_flex (file : File) (htype : (flexPages area table).bType = .flex)
    (hkind : table.bType = .flex) (hchanged : table.bChanged ≠ 0) :
    ∃ file' table', fptWriteGCdata area file table = putHeader area file' table' ∧
      table'.bType = .flex ∧ table'.ulNextBlock = (flexPages area table).ulNextBlock ∧
      table'.fptHeader = (putFlexHeader (flexPages area table)).fptHeader ∧
      pages area table' = pages area (flexPages area table) ∧
      (∀ b, frees table'.pGCitems b = frees (flexPages area table).pGCitems b) ∧
      ∀ e : Extent, (∀ b, e.at b + frees (flexPages area table).pGCitems b ≤ 1) →
        KeepsBlocks area (putFlexPages area file (flexPages area table)) file' e := by
  unfold fptWriteGCdata putGCdata
  rw [if_neg hchanged, hkind]
  dsimp only
  split
  · refine ⟨_, _, rfl, htype, rfl, rfl, rfl, fun b => ?_, fun e hapart => ?_⟩
    · rw [frees, fptWriteGCitems_extents]
      rfl
    · exact fptWriteGCitems_keeps area _ _ hapart
  · exact ⟨_, _, rfl, htype, rfl, rfl, rfl, fun b => rfl, fun e _ => keepsBlocks_refl area _ e⟩

theorem flexStored_at_le (hfits : Fits area others table)
    (hlt : area.blockOffset table.ulNextBlock < 2 ^ 32) (hmem : item ∈ table.pGCitems) (b : Nat) :
    (extent (flexStored area item)).at b ≤ (extent item).at b := by
  unfold extent flexStored
  rcases Nat.eq_zero_or_pos item.ulSize with hzero | hpos
  · rw [hzero, Nat.zero_mul, Nat.zero_mod, Nat.zero_div, at_empty]
    exact Nat.zero_le _
  · have hend := area.blockOffset_mono (hfits.item_le hmem hpos)
    rw [blockOffset_add] at hend
    unfold FptArea.blockOffset at hend hlt
    rw [Nat.mod_eq_of_lt (by omega), Nat.mod_eq_of_lt (by omega),
      Nat.mul_div_cancel _ area.blockSize_pos, Nat.mul_div_cancel _ area.blockSize_pos]

theorem le_blockOffset (area : FptArea) (b : Nat) : b ≤ area.blockOffset b :=
  Nat.le_mul_of_pos_right b area.blockSize_pos

theorem pages_lt (hok : PagesOk area table) (hfits : Fits area others table)
    (hlt : area.blockOffset table.ulNextBlock < 2 ^ 32) :
    table.ulDirPage < 2 ^ 32 ∧ table.ulRevPage < 2 ^ 32 := by
  rcases eq_or_ne table.ulDirPage 0 with hzero | hdir
  · rw [hzero, hok.both.mp hzero]
    decide
  · obtain ⟨d, r, hd, hr, -, -, hpages⟩ := hok.blocks hdir
    have hend : ∀ block, (⟨block, pageBlocks area⟩ : Extent) ∈ pages area table →
        area.blockOffset block < 2 ^ 32 := by
      intro block hmem
      have hle : block + pageBlocks area ≤ table.ulNextBlock := by
        refine end_le_of_at_le (e := ⟨block, pageBlocks area⟩) (fun b => ?_) (pageBlocks_pos area)
        have hat := at_le_cover hmem b
        have hb := hfits b
        omega
      exact (area.blockOffset_mono (Nat.le_of_add_right_le hle)).trans_lt hlt
    rw [hd, hr]
    exact ⟨hend d (by rw [hpages]; simp), hend r (by rw [hpages]; simp)⟩

structure HeaderHolds (area : FptArea) (file : File) (table : GCTable) : Prop where
  size : 512 ≤ file.size
  next : nextBlockOf area file.mem = table.ulNextBlock
  dir : getLE file.mem 528 4 = table.ulDirPage
  rev : getLE file.mem 524 4 = table.ulRevPage

theorem HeaderHolds.disk {items : List GCItem} (h : HeaderHolds area file table)
    (hok : PagesOk area table) (hfits : Fits area others table) (hpage : table.ulDirPage ≠ 0 →
      readFlexPage area file table.ulDirPage = some (flexGCPageSize, items))
    (hnone : table.ulDirPage = 0 → items = []) (hroom : items.length ≤ maxFlexFreeBlocks)
    (hle : ∀ b, frees items b ≤ frees table.pGCitems b) :
    FlexDisk area file items ∧ Fits area others (flexTable area file items) := by
  have hnext : (flexTable area file items).ulNextBlock = table.ulNextBlock :=
    (nextBlockOf_readHeader area file).trans h.next
  have hdir : (flexTable area file items).ulDirPage = table.ulDirPage := h.dir
  have hrev : (flexTable area file items).ulRevPage = table.ulRevPage := h.rev
  have hpages : ∀ b, cover (pages area (flexTable area file items)) b =
      cover (pages area table) b := by
    intro b
    rcases eq_or_ne table.ulDirPage 0 with hzero | hne
    · simp only [pages, hdir, hrev, hzero, hok.both.mp hzero, cover_cons, pageExtent_zero]
    · have hsize : (flexTable area file items).ulSize = table.ulSize :=
        (if_neg (h.dir ▸ hne)).trans (hok.size hne).symm
      rw [pages, pages, hdir, hrev, hsize]
  refine ⟨⟨h.size, ⟨rfl, rfl, ?_, ?_, ?_, fun hne => if_neg hne⟩, ?_, ?_, hroom⟩, fun b => ?_⟩
  · rw [hdir]
    exact hok.dir
  · rw [hrev]
    exact hok.rev
  · rw [hdir, hrev]
    exact hok.both
  · rw [h.dir]
    exact hpage
  · rw [h.dir]
    exact hnone
  · have hb := hfits b
    have hitems := hle b
    rw [hnext, hpages]
    exact le_trans (by unfold flexTable; dsimp only; omega) hb

section

variable (hflex : IsFlex area) (hok : PagesOk area table) (hfits : Fits area others table)

include hflex hok hfits

theorem flex_header_read_back (hlt : area.blockOffset table.ulNextBlock < 2 ^ 32)
    (htype : table'.bType = .flex) (hnext : table'.ulNextBlock = table.ulNextBlock)
    (hheader : table'.fptHeader = (putFlexHeader table).fptHeader) :
    HeaderHolds area (putHeader area file table').1 table := by
  have hsize : (if table'.bType = .flex then fptHeaderSize else 512) = headerSize area := by
    rw [htype, headerSize_flex hflex]
    rfl
  have hroom : headerBlocks area ≤ table'.ulNextBlock := hnext ▸ hfits.headerBlocks_le
  obtain ⟨hdirLt, hrevLt⟩ := pages_lt hok hfits hlt
  have hfields : (putHeader area file table').1.mem.read 524 (4 + (4 + 4)) =
      leBytes 4 table.ulRevPage ++ (leBytes 4 table.ulDirPage ++ leBytes 4 table.ulCounter) := by
    rw [putHeader_read hsize hroom (by rw [headerSize_flex hflex]; decide), hheader,
      Mem.read_write_outside _ (.inr (by rw [nextBlockBytes_length]; decide)), putFlexHeader_read]
  rw [Mem.read_add] at hfields
  obtain ⟨hrev, hrest⟩ := append_inj hfields (by simp)
  rw [Mem.read_add] at hrest
  obtain ⟨hdir, -⟩ := append_inj hrest (by simp)
  refine ⟨?_, ?_, ?_, ?_⟩
  · have hle : headerSize area ≤ (putHeader area file table').1.size := putHeader_size hsize hroom
    rw [headerSize_flex hflex] at hle
    exact le_trans (by decide) hle
  · rw [putHeader_nextBlock hsize hroom, hnext]
    rw [hnext]
    exact (le_blockOffset area _).trans_lt hlt
  · exact (getLE_of_read hdir).trans (Nat.mod_eq_of_lt hdirLt)
  · exact (getLE_of_read hrev).trans (Nat.mod_eq_of_lt hrevLt)

theorem flex_read_back (hchanged : table.bChanged ≠ 0)
    (hlt : area.blockOffset (table.ulNextBlock + 2 * pageBlocks area) < 2 ^ 32)
    (hold : table.bChanged < 2 → table.ulDirPage ≠ 0 → ∃ items,
      readFlexPage area file table.ulDirPage = some (flexGCPageSize, items) ∧
      items.length ≤ maxFlexFreeBlocks ∧ ∀ b, frees items b ≤ frees table.pGCitems b) :
    Fits area others (fptWriteGCdata area file table).2 ∧
      (∀ e ∈ others, 0 < e.size → KeepsBlocks area file (fptWriteGCdata area file table).1 e) ∧
      ∃ items, FlexDisk area (fptWriteGCdata area file table).1 items ∧
        Fits area others (flexTable area (fptWriteGCdata area file table).1 items) := by
  obtain ⟨hfits₁, hok₁, -, hchanged₁, hnext₁, hquiet₁⟩ := flexPages_move hflex hok hfits
  obtain ⟨file', table', hwrite, htype, hnext, hheader, hpages, hfrees, hkeeps⟩ :=
    fptWriteGCdata_flex file hok₁.bType hok.bType hchanged
  have hlt₁ : area.blockOffset (flexPages area table).ulNextBlock < 2 ^ 32 :=
    (area.blockOffset_mono hnext₁).trans_lt hlt
  rw [hwrite]
  -- what is neither free nor header stays once the pages are written
  have hlate : ∀ {e : Extent}, 0 < e.size →
      (∀ b, e.at b + frees (flexPages area table).pGCitems b + under (headerBlocks area) b ≤
        under (flexPages area table).ulNextBlock b) →
      KeepsBlocks area (putFlexPages area file (flexPages area table))
        (putHeader area file' table').1 e := by
    intro e hpos hused
    refine File.Keeps.trans (hkeeps e fun b => ?_) (putHeader_keeps_used ?_ hpos fun b => ?_)
    · have hb := hused b
      have hone := under_le (flexPages area table).ulNextBlock b
      omega
    · rw [htype, headerSize_flex hflex]
      rfl
    · have hb := hused b
      rw [hnext]
      omega
  refine ⟨fun b => ?_, fun e hmem hpos => ?_, ?_⟩
  · have hb := hfits₁ b
    change _ + frees table'.pGCitems b + cover (pages area table') b + _ ≤
      under table'.ulNextBlock b
    rw [hfrees, hpages, hnext]
    exact hb
  · refine File.Keeps.trans (putFlexPages_keeps hok₁ fun b => ?_) (hlate hpos fun b => ?_)
    · have hb := hfits₁.apart hmem b
      have hone := under_le (flexPages area table).ulNextBlock b
      omega
    · have hb := hfits₁.apart hmem b
      omega
  · have hholds : HeaderHolds area (putHeader area file' table').1 (flexPages area table) :=
      flex_header_read_back hflex hok₁ hfits₁ hlt₁ htype hnext hheader
    rcases eq_or_ne (flexPages area table).ulDirPage 0 with hzero | hdir
    · exact ⟨[], hholds.disk hok₁ hfits₁ (fun h => absurd hzero h) (fun _ => rfl) (by simp)
        fun b => Nat.zero_le _⟩
    · obtain ⟨d, r, hd, -, -, -, hblocks⟩ := hok₁.blocks hdir
      have hkeepDir : File.Keeps (putFlexPages area file (flexPages area table))
          (putHeader area file' table').1 (flexPages area table).ulDirPage
          ((flexPages area table).ulDirPage + fptBlockSize + flexGCPageSize) := by
        rw [hd]
        refine KeepsBlocks.page (hlate (pageBlocks_pos area) fun b => ?_)
        have hb := hfits₁ b
        rw [hblocks] at hb
        simp only [cover_cons] at hb
        omega
      rcases Nat.lt_or_ge 1 (flexPages area table).bChanged with hwritten | hquiet
      · have hpage := (@putFlexPages_holds area file _ _ hok₁ hfits₁ hdir hwritten).keep hkeepDir
        refine ⟨_, hholds.disk hok₁ hfits₁ (fun _ => readFlexPage_of_holds hpage)
          (fun hzero => absurd hzero hdir) ?_ fun b => ?_⟩
        · rw [length_map]
          exact hpage.room
        · exact frees_stored_le fun item hmem => flexStored_at_le hfits₁ hlt₁ hmem b
      · obtain ⟨hsame, hitems⟩ := hquiet₁ (by omega) hdir
        obtain ⟨items, hread, hroom, hle⟩ := hold (by omega) (hsame ▸ hdir)
        have hfile : putFlexPages area file (flexPages area table) = file := by
          exact if_neg fun h => absurd h.2 (Nat.not_lt.mpr hquiet)
        rw [hfile] at hkeepDir
        refine ⟨items, hholds.disk hok₁ hfits₁ (fun _ => ?_) (fun hzero => absurd hzero hdir) hroom
          fun b => hitems ▸ hle b⟩
        exact readFlexPage_congr hkeepDir (hsame ▸ hread) hroom

end

end Disk

end Harbour.Rdd.FptFlexPages
