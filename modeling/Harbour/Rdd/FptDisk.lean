import Harbour.Rdd.FptFlexPages

/-!
The list on the disk over one call, for both kinds of memo file.
-/

namespace Harbour.Rdd.FptDisk

open Library.Memory Library.Bytes Library.Extents FptStore FptFreeList FptGCdata FptFlexPages

variable {freed others₀ taken : List Extent} {hi n : Nat} {items : List GCItem}

section Disk

variable {area : FptArea} {file file' : File} {table table₀ : GCTable} {others : List Extent}

/-- The table that the file holds, not yet sorted. -/
def OnDisk (area : FptArea) (file : File) (table : GCTable) : Prop :=
  (IsSix area ∧ SixDisk file ∧ table = sixTable area file) ∨
    (IsFlex area ∧ ∃ items, FlexDisk area file items ∧ table = flexTable area file items)

theorem OnDisk.readTable (h : OnDisk area file table) : readTable area file = some table := by
  rcases h with ⟨hsix, hdisk, rfl⟩ | ⟨hflex, items, hdisk, rfl⟩
  · exact hdisk.readTable hsix
  · exact hdisk.readTable hflex

theorem OnDisk.next (h : OnDisk area file table) :
    table.ulNextBlock = nextBlockOf area file.mem := by
  rcases h with ⟨-, -, rfl⟩ | ⟨-, items, -, rfl⟩
  · exact nextBlockOf_readHeader area file
  · exact nextBlockOf_readHeader area file

/-- The numbers of the blocks fit their fields, with room for two directory pages. -/
def Room (area : FptArea) (ulNextBlock : Nat) : Prop :=
  if area.uiMemoVersion = .flex then
    area.blockOffset (ulNextBlock + 2 * pageBlocks area) < 2 ^ 32
  else ulNextBlock < 2 ^ 32

theorem Room.mono {n' : Nat} (h : Room area n) (hle : n' ≤ n) : Room area n' := by
  unfold Room at h ⊢
  split
  · rename_i hflex
    rw [if_pos hflex] at h
    exact (area.blockOffset_mono (Nat.add_le_add_right hle _)).trans_lt h
  · rename_i hflex
    rw [if_neg hflex] at h
    exact hle.trans_lt h

theorem getLE_congr {lo pos : Nat} (h : File.Keeps file file' lo hi) (hlo : lo ≤ pos)
    (hhi : pos + n ≤ hi) : getLE file'.mem pos n = getLE file.mem pos n :=
  congrArg leValue (h.read hlo hhi)

theorem nextBlockOf_congr (h : File.Keeps file file' 0 hi) (hhi : 4 ≤ hi) :
    nextBlockOf area file'.mem = nextBlockOf area file.mem := by
  unfold nextBlockOf getBE getLE
  rw [h.read (Nat.le_refl _) (by omega)]

theorem six_still (hsix : IsSix area) (hdisk : SixDisk file)
    (hkeep : File.Keeps file file' 0 (headerSize area)) :
    SixDisk file' ∧ (sixTable area file').ulNextBlock = (sixTable area file).ulNextBlock ∧
      (sixTable area file').pGCitems = (sixTable area file).pGCitems := by
  rw [headerSize_six hsix] at hkeep
  have hcount : getLE file'.mem 18 2 = getLE file.mem 18 2 :=
    getLE_congr hkeep (Nat.zero_le _) (by decide)
  refine ⟨⟨?_, hcount ▸ hdisk.count⟩, ?_, ?_⟩
  · have hsize := hkeep.size
    have hold := hdisk.size
    omega
  · change nextBlockOf area (readHeader _) = nextBlockOf area (readHeader _)
    rw [nextBlockOf_readHeader, nextBlockOf_readHeader, nextBlockOf_congr hkeep (by decide)]
  · unfold sixTable
    rw [hcount]
    refine List.map_congr_left fun i hi => ?_
    have hlt : i < 82 := (List.mem_range.mp hi).trans_le hdisk.count
    unfold sixItem
    rw [getLE_congr hkeep (Nat.zero_le _) (by omega), getLE_congr hkeep (Nat.zero_le _) (by omega)]

def Stored (area : FptArea) (file : File) (others : List Extent) (table : GCTable) : Prop :=
  Fits area others (fptWriteGCdata area file table).2 ∧
    (∀ e ∈ others, 0 < e.size → KeepsBlocks area file (fptWriteGCdata area file table).1 e) ∧
    ∃ table', OnDisk area (fptWriteGCdata area file table).1 table' ∧ Fits area others table'

theorem six_write (hsix : IsSix area) (hdisk : SixDisk file)
    (hmoves : Moves (sixTable area file) table freed taken)
    (hfits₀ : Fits area others₀ (sixTable area file)) (hfits : Fits area others table)
    (hkeep : File.Keeps file file' 0 (headerSize area)) (hroom : table.ulNextBlock < 2 ^ 32) :
    Stored area file' others table := by
  have hdir : table.ulDirPage = 0 := congrArg (fun t => t.ulDirPage) hmoves.core
  have hrev : table.ulRevPage = 0 := congrArg (fun t => t.ulRevPage) hmoves.core
  rcases eq_or_ne table.bChanged 0 with hzero | hchanged
  · obtain ⟨hdisk', hnext, hitems⟩ := six_still hsix hdisk hkeep
    have hwrite : fptWriteGCdata area file' table = (file', table) := if_pos hzero
    rw [Stored, hwrite]
    refine ⟨hfits, fun e _ _ => keepsBlocks_refl area file' e, _, .inl ⟨hsix, hdisk', rfl⟩,
      fun b => ?_⟩
    have hb := hfits b
    have hquiet := hmoves.quiet (by omega) hfits₀.frees_zero b
    rw [hitems, hnext, ← hquiet, ← hmoves.still hzero, pages_six rfl rfl]
    rwa [pages_six hdir hrev] at hb
  · obtain ⟨hfits', hkeeps, hdisk', hread⟩ := @six_read_back area file' _ _ hsix
      (congrArg (fun t => t.bType) hmoves.core) (congrArg (fun t => t.usMaxItem) hmoves.core)
      hdir hrev hfits hroom hchanged
    exact ⟨hfits', hkeeps, _, .inl ⟨hsix, hdisk', rfl⟩, hread⟩

theorem flex_still (hdisk : FlexDisk area file items)
    (hmoves : Moves (flexTable area file items) table freed taken)
    (hfits₀ : Fits area others₀ (flexTable area file items))
    (hpages : ∀ e ∈ pages area (flexTable area file items), KeepsBlocks area file file' e)
    (hlt : table.bChanged < 2) :
    (table.ulDirPage ≠ 0 →
      readFlexPage area file' table.ulDirPage = some (flexGCPageSize, items)) ∧
      ∀ b, frees items b ≤ frees table.pGCitems b := by
  have hdir : table.ulDirPage = (flexTable area file items).ulDirPage :=
    congrArg (fun t => t.ulDirPage) hmoves.core
  refine ⟨fun hne => ?_, fun b => Nat.le_of_eq (hmoves.quiet hlt hfits₀.frees_zero b).symm⟩
  rw [hdir] at hne ⊢
  obtain ⟨d, r, hd, -, -, -, hblocks⟩ := hdisk.pages.blocks hne
  rw [hblocks] at hpages
  refine readFlexPage_congr ?_ (hdisk.page hne) hdisk.room
  rw [hd]
  exact KeepsBlocks.page (hpages _ List.mem_cons_self)

theorem flex_write (hflex : IsFlex area) (hdisk : FlexDisk area file items)
    (hmoves : Moves (flexTable area file items) table freed taken)
    (hfits₀ : Fits area others₀ (flexTable area file items)) (hfits : Fits area others table)
    (hkeep : File.Keeps file file' 0 (headerSize area))
    (hpages : ∀ e ∈ pages area (flexTable area file items), KeepsBlocks area file file' e)
    (hroom : area.blockOffset (table.ulNextBlock + 2 * pageBlocks area) < 2 ^ 32) :
    Stored area file' others table := by
  have hok : PagesOk area table := hdisk.pages.of_core hmoves.core
  rcases eq_or_ne table.bChanged 0 with hzero | hchanged
  · obtain ⟨hpage, hle⟩ := flex_still hdisk hmoves hfits₀ hpages (by omega)
    have hwrite : fptWriteGCdata area file' table = (file', table) := if_pos hzero
    rw [headerSize_flex hflex] at hkeep
    have hdir : table.ulDirPage = getLE file.mem 528 4 :=
      congrArg (fun t => t.ulDirPage) hmoves.core
    have hrev : table.ulRevPage = getLE file.mem 524 4 :=
      congrArg (fun t => t.ulRevPage) hmoves.core
    have hholds : HeaderHolds area file' table := by
      refine ⟨?_, ?_, ?_, ?_⟩
      · have hsize := hkeep.size
        have hold := hdisk.size
        change min file.size 1024 ≤ _ at hsize
        omega
      · rw [hmoves.still hzero, nextBlockOf_congr hkeep (by decide)]
        exact (nextBlockOf_readHeader area file).symm
      · rw [hdir, getLE_congr hkeep (Nat.zero_le _) (by decide)]
      · rw [hrev, getLE_congr hkeep (Nat.zero_le _) (by decide)]
    obtain ⟨hdisk', hfits'⟩ := hholds.disk hok hfits hpage
      (fun hnone => hdisk.none (hdir ▸ hnone)) hdisk.room hle
    rw [Stored, hwrite]
    exact ⟨hfits, fun e _ _ => keepsBlocks_refl area file' e, _,
      .inr ⟨hflex, items, hdisk', rfl⟩, hfits'⟩
  · obtain ⟨hfits', hkeeps, items', hdisk', hread⟩ := @flex_read_back area file' _ _ hflex hok hfits
      hchanged hroom fun hlt hne => by
        obtain ⟨hpage, hle⟩ := flex_still hdisk hmoves hfits₀ hpages hlt
        exact ⟨items, hpage hne, hdisk.room, hle⟩
    exact ⟨hfits', hkeeps, _, .inr ⟨hflex, items', hdisk', rfl⟩, hread⟩

theorem fptWriteGCdata_read_back (hdisk : OnDisk area file table₀)
    (hmoves : Moves table₀ table freed taken) (hfits₀ : Fits area others₀ table₀)
    (hfits : Fits area others table) (hkeep : File.Keeps file file' 0 (headerSize area))
    (hpages : ∀ e ∈ pages area table₀, KeepsBlocks area file file' e)
    (hroom : Room area table.ulNextBlock) : Stored area file' others table := by
  rcases hdisk with ⟨hsix, hdisk, rfl⟩ | ⟨hflex, items, hdisk, rfl⟩
  · rw [Room, if_neg (by rw [hsix.2]; decide)] at hroom
    exact six_write hsix hdisk hmoves hfits₀ hfits hkeep hroom
  · rw [Room, if_pos hflex.2] at hroom
    exact flex_write hflex hdisk hmoves hfits₀ hfits hkeep hpages hroom

end Disk

end Harbour.Rdd.FptDisk
