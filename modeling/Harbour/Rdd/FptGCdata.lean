import Harbour.Rdd.FptFreeList

/-!
The free list on the disk: what is read back is part of what was written.
-/

namespace Harbour.Rdd.FptGCdata

open Library.Memory Library.Bytes Library.Extents FptStore FptFreeList List

/-- `SMT`, or `FPT` with the list in its header. -/
def IsSix (area : FptArea) : Prop := area.bMemoType ≠ .dbt ∧ area.uiMemoVersion = .six

def IsFlex (area : FptArea) : Prop := area.bMemoType = .fpt ∧ area.uiMemoVersion = .flex

def headerBlocks (area : FptArea) : Nat := area.blocksFor (headerSize area)

def pageExtent (area : FptArea) (ulSize page : Nat) : Extent :=
  if page = 0 then ⟨0, 0⟩
  else ⟨page / area.ulMemoBlockSize, area.blocksFor (ulSize + fptBlockSize)⟩

def pages (area : FptArea) (table : GCTable) : List Extent :=
  [pageExtent area table.ulSize table.ulDirPage, pageExtent area table.ulSize table.ulRevPage]

/-- The header, the directory pages, the free blocks and `others` share no block, and they lie
below the next block. -/
def Fits (area : FptArea) (others : List Extent) (table : GCTable) : Prop :=
  ∀ b, cover others b + frees table.pGCitems b + cover (pages area table) b +
    under (headerBlocks area) b ≤ under table.ulNextBlock b

variable {e : Extent} {item : GCItem} {b i n pos : Nat} {table' : GCTable} {mem : Mem}
  {change : GCItem → GCItem}

section Fits

variable {area : FptArea} {others : List Extent} {table : GCTable}

theorem headerSize_pos (area : FptArea) : 0 < headerSize area := by
  unfold headerSize
  split
  · decide
  · decide

theorem headerBlocks_pos (area : FptArea) : 0 < headerBlocks area :=
  area.blocksFor_pos (headerSize_pos area)

theorem pages_core {table : GCTable} (h : core table' = core table) :
    pages area table' = pages area table := by
  have hsize : table'.ulSize = table.ulSize := congrArg (fun t => t.ulSize) h
  have hdir : table'.ulDirPage = table.ulDirPage := congrArg (fun t => t.ulDirPage) h
  have hrev : table'.ulRevPage = table.ulRevPage := congrArg (fun t => t.ulRevPage) h
  rw [pages, pages, hsize, hdir, hrev]

section

variable (h : Fits area others table)

include h

theorem Fits.moves {freed taken others' : List Extent} (hmoves : Moves table table' freed taken)
    (hothers : ∀ b, cover others' b + cover freed b ≤ cover others b + cover taken b) :
    Fits area others' table' := by
  intro b
  have hb := h b
  have hbalance := hmoves.balance b
  have hle := hothers b
  rw [pages_core hmoves.core]
  omega

theorem Fits.apart (hmem : e ∈ others) (b : Nat) :
    e.at b + frees table.pGCitems b + cover (pages area table) b +
      under (headerBlocks area) b ≤ under table.ulNextBlock b := by
  have hb := h b
  have hle := at_le_cover hmem b
  omega

theorem Fits.headerBlocks_le : headerBlocks area ≤ table.ulNextBlock := by
  have hpos := headerBlocks_pos area
  have hunder : under (headerBlocks area) (headerBlocks area - 1) = 1 :=
    under_eq_one.mpr (by omega)
  have hb := h (headerBlocks area - 1)
  have hle := under_le table.ulNextBlock (headerBlocks area - 1)
  have hlt := under_eq_one.mp (show under table.ulNextBlock (headerBlocks area - 1) = 1 by omega)
  omega

theorem Fits.frees_zero : frees table.pGCitems 0 = 0 := by
  have hunder : under (headerBlocks area) 0 = 1 := under_eq_one.mpr (headerBlocks_pos area)
  have hb := h 0
  have hle := under_le table.ulNextBlock 0
  omega

end

theorem end_le_of_at_le (h : ∀ b, e.at b ≤ under n b) (hpos : 0 < e.size) :
    e.off + e.size ≤ n := by
  have hone : e.at (e.off + e.size - 1) = 1 := at_eq_one.mpr ⟨by omega, by omega⟩
  have hle := h (e.off + e.size - 1)
  have hle' := under_le n (e.off + e.size - 1)
  have hlt := under_eq_one.mp (show under n (e.off + e.size - 1) = 1 by omega)
  omega

theorem Fits.item_le (h : Fits area others table) (hmem : item ∈ table.pGCitems)
    (hpos : 0 < item.ulSize) : item.ulOffset + item.ulSize ≤ table.ulNextBlock := by
  refine end_le_of_at_le (e := extent item) (fun b => ?_) hpos
  have hle := at_le_cover (mem_map_of_mem (f := extent) hmem) b
  have hb := h b
  unfold frees at hb
  omega

theorem start_le_of_at_le (h : ∀ b, e.at b + under n b ≤ 1) (hpos : 0 < e.size) : n ≤ e.off := by
  refine Nat.le_of_not_lt fun hlt => ?_
  have hone : e.at e.off = 1 := at_eq_one.mpr ⟨Nat.le_refl _, by omega⟩
  have hunder : under n e.off = 1 := under_eq_one.mpr hlt
  have hb := h e.off
  omega

theorem Fits.header_le (h : Fits area others table) (hmem : e ∈ others) (hpos : 0 < e.size) :
    headerBlocks area ≤ e.off := by
  refine start_le_of_at_le (fun b => ?_) hpos
  have hb := h.apart hmem b
  have hle := under_le table.ulNextBlock b
  omega

end Fits

section Header

variable {area : FptArea} {file : File} {table : GCTable}

theorem readHeader_read (file : File) (h : pos + n ≤ fptHeaderSize) :
    (readHeader file).read pos n = file.mem.read pos n :=
  Mem.read_congr fun a _ hlt => if_pos (by omega)

section

variable (hsize : (if table.bType = .flex then fptHeaderSize else 512) = headerSize area)

include hsize

section

variable (hroom : headerBlocks area ≤ table.ulNextBlock)

include hroom

theorem putHeader_mem {a : Nat} (ha : a < headerSize area) : (putHeader area file table).1.mem a =
      table.fptHeader.write 0 (nextBlockBytes area table.ulNextBlock) a := by
  have hwrite : (file.writeAt 0 ((table.fptHeader.write 0
      (nextBlockBytes area table.ulNextBlock)).read 0 (headerSize area))).mem a =
      table.fptHeader.write 0 (nextBlockBytes area table.ulNextBlock) a := by
    have hin : a < ((table.fptHeader.write 0 (nextBlockBytes area table.ulNextBlock)).read 0
        (headerSize area)).length := by
      rwa [Mem.read_length]
    have hinside := Mem.write_inside file.mem 0 hin
    rw [Nat.zero_add, Mem.read_getElem, Nat.zero_add] at hinside
    exact hinside
  have hlt : a < area.blockOffset table.ulNextBlock :=
    ha.trans_le ((area.le_blocksFor _).trans (area.blockOffset_mono hroom))
  unfold putHeader
  rw [hsize]
  split
  · exact (if_pos hlt).trans hwrite
  · exact hwrite

theorem putHeader_read (h : pos + n ≤ headerSize area) :
    (putHeader area file table).1.mem.read pos n =
      (table.fptHeader.write 0 (nextBlockBytes area table.ulNextBlock)).read pos n :=
  Mem.read_congr fun a _ hlt => putHeader_mem hsize hroom (by omega)

theorem putHeader_size : headerSize area ≤ (putHeader area file table).1.size := by
  have hle : headerSize area ≤ area.blockOffset table.ulNextBlock :=
    (area.le_blocksFor _).trans (area.blockOffset_mono hroom)
  unfold putHeader
  rw [hsize]
  split
  · exact hle
  · have hfull : (table.fptHeader.write 0 (nextBlockBytes area table.ulNextBlock)).read 0
        (headerSize area) ≠ [] := fun hnil => by
      have hlen := congrArg length hnil
      rw [Mem.read_length] at hlen
      exact absurd hlen (headerSize_pos area).ne'
    have hend := File.end_le_writeAt file 0 hfull
    rwa [Mem.read_length, Nat.zero_add] at hend

end

theorem putHeader_keeps (hlo : headerBlocks area ≤ e.off)
    (hhi : e.off + e.size ≤ table.ulNextBlock) :
    KeepsBlocks area file (putHeader area file table).1 e := by
  have hkeep : KeepsBlocks area file (file.writeAt 0 ((table.fptHeader.write 0
      (nextBlockBytes area table.ulNextBlock)).read 0 (headerSize area))) e := by
    refine File.keeps_writeAt file (.inr ?_)
    rw [Mem.read_length, Nat.zero_add]
    exact (area.le_blocksFor _).trans (area.blockOffset_mono hlo)
  unfold putHeader
  rw [hsize]
  split
  · exact File.Keeps.trans hkeep (File.keeps_truncAt _ (area.blockOffset_mono hhi))
  · exact hkeep

theorem putHeader_keeps_used (hpos : 0 < e.size)
    (hused : ∀ b, e.at b + under (headerBlocks area) b ≤ under table.ulNextBlock b) :
    KeepsBlocks area file (putHeader area file table).1 e := by
  refine putHeader_keeps hsize (start_le_of_at_le (fun b => ?_) hpos)
    (end_le_of_at_le (fun b => ?_) hpos)
  · exact (hused b).trans (under_le _ _)
  · exact (Nat.le_add_right _ _).trans (hused b)

end

theorem nextBlockBytes_length (area : FptArea) (n : Nat) : (nextBlockBytes area n).length = 4 := by
  unfold nextBlockBytes
  split
  · simp [beBytes]
  · simp

theorem nextBlockOf_of_read (h : mem.read 0 4 = nextBlockBytes area n) (hlt : n < 2 ^ 32) :
    nextBlockOf area mem = n := by
  unfold nextBlockBytes at h
  unfold nextBlockOf
  split
  · rename_i htype
    rw [if_pos htype] at h
    rw [getBE_of_read h]
    exact Nat.mod_eq_of_lt hlt
  · rename_i htype
    rw [if_neg htype] at h
    rw [getLE_of_read h]
    exact Nat.mod_eq_of_lt hlt

theorem putHeader_nextBlock
    (hsize : (if table.bType = .flex then fptHeaderSize else 512) = headerSize area)
    (hroom : headerBlocks area ≤ table.ulNextBlock) (hlt : table.ulNextBlock < 2 ^ 32) :
    nextBlockOf area (putHeader area file table).1.mem = table.ulNextBlock := by
  refine nextBlockOf_of_read ?_ hlt
  have hfour : 0 + 4 ≤ headerSize area := by
    unfold headerSize
    split
    · decide
    · decide
  rw [putHeader_read hsize hroom hfour]
  have hread := Mem.read_write table.fptHeader 0 (nextBlockBytes area table.ulNextBlock)
  rwa [nextBlockBytes_length] at hread

end Header

theorem frees_map_le {items : List GCItem}
    (h : ∀ item ∈ items, (extent (change item)).at b ≤ (extent item).at b) :
    frees (items.map change) b ≤ frees items b := by
  induction items with
  | nil => exact Nat.le_refl _
  | cons item items ih =>
    exact Nat.add_le_add (h item mem_cons_self)
      (ih fun item hmem => h item (mem_cons_of_mem _ hmem))

theorem stored_sublist (table : GCTable) : table.stored.Sublist table.pGCitems :=
  drop_sublist _ _

theorem stored_length (table : GCTable) : table.stored.length ≤ table.usMaxItem := by
  unfold GCTable.stored
  rw [length_drop]
  omega

theorem frees_stored_le {table : GCTable}
    (h : ∀ item ∈ table.pGCitems, (extent (change item)).at b ≤ (extent item).at b) :
    frees (table.stored.map change) b ≤ frees table.pGCitems b :=
  (frees_map_le fun item hmem => h item ((stored_sublist table).subset hmem)).trans
    (cover_sublist ((stored_sublist table).map extent) b)

section Six

variable {area : FptArea} {file : File} {table : GCTable}

def sixTable (area : FptArea) (file : File) : GCTable :=
  { freshTable area (readHeader file) with
    bType := .six
    usMaxItem := maxSixFreeBlocks
    pGCitems := (range (getLE file.mem 18 2)).map (sixItem file.mem) }

theorem nextBlockOf_readHeader (area : FptArea) (file : File) :
    nextBlockOf area (readHeader file) = nextBlockOf area file.mem := by
  have hread : (readHeader file).read 0 4 = file.mem.read 0 4 := readHeader_read file (by decide)
  unfold nextBlockOf getBE getLE
  rw [hread]

theorem sixItem_readHeader (file : File) (h : i < maxSixFreeBlocks) :
    sixItem (readHeader file) i = sixItem file.mem i := by
  change i < 82 at h
  have hsize : (readHeader file).read (20 + i * 6) 2 = file.mem.read (20 + i * 6) 2 :=
    readHeader_read file (show _ ≤ 1024 by omega)
  have hoff : (readHeader file).read (20 + i * 6 + 2) 4 = file.mem.read (20 + i * 6 + 2) 4 :=
    readHeader_read file (show _ ≤ 1024 by omega)
  unfold sixItem getLE
  rw [hsize, hoff]

structure SixDisk (file : File) : Prop where
  size : 512 ≤ file.size
  count : getLE file.mem 18 2 ≤ maxSixFreeBlocks

theorem SixDisk.readTable (hsix : IsSix area) (h : SixDisk file) :
    readTable area file = some (sixTable area file) := by
  have hkind : area.uiMemoVersion = .six ∨ area.bMemoType = .smt := .inl hsix.2
  have hcount : getLE (readHeader file) 18 2 = getLE file.mem 18 2 :=
    congrArg leValue (readHeader_read file (by decide))
  have hitems : (range (getLE file.mem 18 2)).map (sixItem (readHeader file)) =
      (range (getLE file.mem 18 2)).map (sixItem file.mem) := by
    refine map_congr_left fun i hi => sixItem_readHeader file ?_
    exact (mem_range.mp hi).trans_le h.count
  unfold FptStore.readTable readSixGCdata
  rw [if_neg (Nat.not_lt.mpr h.size), if_pos hkind]
  dsimp only [freshTable]
  rw [hcount, hitems]
  simp [h.count, sixTable, freshTable]

theorem pages_six (hdir : table.ulDirPage = 0) (hrev : table.ulRevPage = 0) :
    pages area table = [⟨0, 0⟩, ⟨0, 0⟩] := by
  rw [pages, hdir, hrev]
  rfl

theorem fptWriteGCitems_six (hsix : IsSix area) (file : File) (table : GCTable) :
    (fptWriteGCitems area file table).1 = file := by
  have hflex : area.isFlex = false := by simp [FptArea.isFlex, hsix.2]
  unfold fptWriteGCitems
  induction table.pGCitems generalizing file with
  | nil => rfl
  | cons item items ih =>
    have hitem : writeGCitem area file item = file := by simp [writeGCitem, hflex]
    rw [foldl_cons, hitem, ih]

theorem fptWriteGCdata_six (hsix : IsSix area) (file : File) (htype : table.bType = .six)
    (hchanged : table.bChanged ≠ 0) :
    ∃ table' : GCTable, fptWriteGCdata area file table = putHeader area file table' ∧
      table'.bType = .six ∧ table'.ulNextBlock = table.ulNextBlock ∧
      table'.fptHeader = (putSixItems table).fptHeader ∧
      pages area table' = pages area table ∧
      ∀ b, frees table'.pGCitems b = frees table.pGCitems b := by
  unfold fptWriteGCdata putGCdata
  rw [if_neg hchanged, htype]
  dsimp only
  split
  · refine ⟨(fptWriteGCitems area file (putSixItems table)).2, ?_, htype, rfl,
      rfl, rfl, fun b => ?_⟩
    · rw [fptWriteGCitems_six hsix]
    · rw [frees, fptWriteGCitems_extents]
      rfl
  · exact ⟨putSixItems table, rfl, htype, rfl, rfl, rfl, fun b => rfl⟩

theorem headerSize_six (hsix : IsSix area) : headerSize area = 512 := by
  simp [headerSize, FptArea.isFlex, hsix.2]

theorem sixEntry_length (item : GCItem) : (sixEntry item).length = 6 := by
  simp [sixEntry]

def sixStored (item : GCItem) : GCItem := ⟨item.ulOffset % 2 ^ 32, item.ulSize % 2 ^ 16, false⟩

theorem sixItem_of_read (h : mem.read (20 + i * 6) 6 = sixEntry item) :
    sixItem mem i = sixStored item := by
  have hadd := Mem.read_add mem (20 + i * 6) 2 4
  rw [h] at hadd
  obtain ⟨hsize, hoff⟩ := append_inj hadd (by simp)
  unfold sixItem sixStored
  rw [getLE_of_read hsize.symm, getLE_of_read hoff.symm]
  rfl

theorem flatMap_length {put : GCItem → Bytes} {width : Nat} (h : ∀ item, (put item).length = width)
    (items : List GCItem) : (items.flatMap put).length = items.length * width := by
  induction items with
  | nil => simp
  | cons item items ih =>
    rw [flatMap_cons, length_append, h, ih, length_cons, Nat.succ_mul,
      Nat.add_comm]

theorem putSixItems_count (table : GCTable) :
    (putSixItems table).fptHeader.read 18 2 = leBytes 2 table.stored.length := by
  have hread := Mem.read_write table.fptHeader 18 (leBytes 2 table.stored.length)
  rwa [leBytes_length] at hread

theorem putSixItems_entries (table : GCTable) :
    (putSixItems table).fptHeader.read 20 (table.stored.length * 6) =
      table.stored.flatMap sixEntry := by
  rw [← flatMap_length sixEntry_length]
  exact Mem.read_write_prefix _ _ _ _

theorem sixStored_at_le {others : List Extent} (hfits : Fits area others table)
    (hlt : table.ulNextBlock < 2 ^ 32) (hmem : item ∈ table.pGCitems) (b : Nat) :
    (extent (sixStored item)).at b ≤ (extent item).at b := by
  unfold extent sixStored
  rcases Nat.eq_zero_or_pos item.ulSize with hzero | hpos
  · rw [hzero, Nat.zero_mod, at_empty]
    exact Nat.zero_le _
  · have hend := hfits.item_le hmem hpos
    rw [Nat.mod_eq_of_lt (show item.ulOffset < 2 ^ 32 by omega)]
    exact at_mono _ b (Nat.mod_le _ _)

theorem six_read_back {others : List Extent} (hsix : IsSix area) (htype : table.bType = .six)
    (hmax : table.usMaxItem = maxSixFreeBlocks) (hdir : table.ulDirPage = 0)
    (hrev : table.ulRevPage = 0) (hfits : Fits area others table)
    (hlt : table.ulNextBlock < 2 ^ 32) (hchanged : table.bChanged ≠ 0) :
    Fits area others (fptWriteGCdata area file table).2 ∧
      (∀ e ∈ others, 0 < e.size → KeepsBlocks area file (fptWriteGCdata area file table).1 e) ∧
      SixDisk (fptWriteGCdata area file table).1 ∧
      Fits area others (sixTable area (fptWriteGCdata area file table).1) := by
  obtain ⟨table', hwrite, htype', hnext, hheader, hpages, hfrees⟩ :=
    fptWriteGCdata_six hsix file htype hchanged
  have hstored : table.stored.length ≤ 82 := (stored_length table).trans (Nat.le_of_eq hmax)
  have hsize : (if table'.bType = .flex then fptHeaderSize else 512) = headerSize area := by
    rw [htype', headerSize_six hsix]
    rfl
  have hroom : headerBlocks area ≤ table'.ulNextBlock := hnext ▸ hfits.headerBlocks_le
  rw [hwrite]
  have hread : ∀ {pos n}, 4 ≤ pos → pos + n ≤ 512 →
      (putHeader area file table').1.mem.read pos n = (putSixItems table).fptHeader.read pos n := by
    intro pos n hlo hhi
    rw [putHeader_read hsize hroom (by rwa [headerSize_six hsix]), hheader,
      Mem.read_write_outside _ (.inr (by rwa [nextBlockBytes_length]))]
  have hcount : getLE (putHeader area file table').1.mem 18 2 = table.stored.length := by
    have h : (putHeader area file table').1.mem.read 18 2 = leBytes 2 table.stored.length := by
      rw [hread (by decide) (by decide), putSixItems_count]
    rw [getLE_of_read h]
    exact Nat.mod_eq_of_lt (by omega)
  refine ⟨fun b => ?_, fun e hmem hpos => ?_, ⟨?_, hcount ▸ hstored⟩, fun b => ?_⟩
  · have hb := hfits b
    change _ + frees table'.pGCitems b + cover (pages area table') b + _ ≤
      under table'.ulNextBlock b
    rw [hfrees, hpages, hnext]
    exact hb
  · refine putHeader_keeps_used hsize hpos fun b => ?_
    have hb := hfits.apart hmem b
    rw [hnext]
    omega
  · have hle : headerSize area ≤ (putHeader area file table').1.size := putHeader_size hsize hroom
    rwa [headerSize_six hsix] at hle
  · have hentries : (putHeader area file table').1.mem.read 20 (table.stored.length * 6) =
        table.stored.flatMap sixEntry := by
      rw [hread (by decide) (by omega), putSixItems_entries]
    have hitems : (sixTable area (putHeader area file table').1).pGCitems =
        table.stored.map sixStored := by
      unfold sixTable
      rw [hcount]
      refine ext_getElem (by simp) fun i hi hi' => ?_
      rw [length_map] at hi'
      rw [getElem_map, getElem_map, getElem_range]
      exact sixItem_of_read (Mem.read_records sixEntry_length hentries hi')
    have hnextRead : (sixTable area (putHeader area file table').1).ulNextBlock =
        table.ulNextBlock := by
      change nextBlockOf area (readHeader _) = _
      rw [nextBlockOf_readHeader, putHeader_nextBlock hsize hroom (hnext ▸ hlt), hnext]
    have hle : frees (table.stored.map sixStored) b ≤ frees table.pGCitems b :=
      frees_stored_le fun item hmem => sixStored_at_le hfits hlt hmem b
    have hb := hfits b
    rw [hitems, hnextRead, pages_six rfl rfl]
    rw [pages_six hdir hrev] at hb
    omega

end Six

end Harbour.Rdd.FptGCdata
