import Harbour.Rdd.FptDisk

/-!
Memos keep to their own blocks, over every run of writes, rewrites and deletions.
-/

namespace Harbour.Rdd.FptIsolation

open Library.Memory Library.Bytes Library.Extents FptStore FptFreeList FptGCdata
  FptFlexPages List Option
  FptDisk

structure Memo where
  ulBlock : Nat
  ulType : Nat
  data : Bytes

namespace Memo

def fRaw (memo : Memo) : Bool := memo.ulType == fptitDummy

def headed (area : FptArea) (memo : Memo) : Bool := area.bMemoType == .fpt && !memo.fRaw

def extent (area : FptArea) (memo : Memo) : Extent :=
  ⟨memo.ulBlock, takenBlocks area memo.data.length memo.fRaw⟩

def image (area : FptArea) (memo : Memo) : Bytes :=
  (if memo.headed area then fptBlock memo.ulType memo.data.length else []) ++ memo.data

structure Held (area : FptArea) (file : File) (memo : Memo) : Prop where
  same : file.mem.read (area.blockOffset memo.ulBlock) (memo.image area).length = memo.image area
  size : area.blockOffset memo.ulBlock + (memo.image area).length ≤ file.size
  full : memo.image area ≠ []

end Memo

structure Store where
  file : File
  live : List Memo

def extents (area : FptArea) (live : List Memo) : List Extent := live.map (Memo.extent area)

def rest (live : List Memo) (call : MemoCall) : List Memo :=
  live.filter fun memo => memo.ulBlock != call.ulBlock

def newMemo (call : MemoCall) (ulStored : Nat) : Memo := ⟨ulStored, call.ulType, call.data⟩

def newMemos (area : FptArea) (call : MemoCall) (ulStored : Nat) : List Memo :=
  if call.bWrite area then [newMemo call ulStored] else []

/-- What the drivers pass as the old block: nothing, or the block of a memo of the same kind with
its size, which may be left to the header of the block. -/
def Legal (area : FptArea) (live : List Memo) (call : MemoCall) : Prop :=
  call.ulBlock = 0 ∨ ∃ memo ∈ live, memo.ulBlock = call.ulBlock ∧
    memo.headed area = call.headed area ∧
    (call.ulSize = memo.data.length ∨ call.ulSize = 0 ∧ memo.headed area)

/-- The states that are reached by successful calls that `ok` admits. -/
inductive Run (area : FptArea) (blob : Bool) (ok : Store → MemoCall → Prop) : Store → Prop
  | create : Run area blob ok ⟨fptCreateMemFile area blob, []⟩
  | write {store : Store} {call : MemoCall} {file : File} {ulStored : Nat} :
      Run area blob ok store → Legal area store.live call → ok store call →
      fptWriteMemo area store.file call = some (file, ulStored) →
      Run area blob ok ⟨file, newMemos area call ulStored ++ rest store.live call⟩

/-- The blocks that are in use or free, and what they are counted in. -/
def ranges (area : FptArea) (live : List Memo) (table : GCTable) : List Extent :=
  extents area live ++ table.pGCitems.map FptFreeList.extent ++ pages area table

structure Isolated (area : FptArea) (live : List Memo) (table : GCTable) : Prop where
  apart : (ranges area live table).Pairwise Apart
  below : ∀ e ∈ ranges area live table, ∀ b, e.at b = 1 → b < table.ulNextBlock

/-- The list at each point of a call: after the old block is freed, after the new one is taken,
and after the list is written. -/
def CallIsolated (area : FptArea) (store : Store) (call : MemoCall) : Prop :=
  ∀ table file₁ table₁, fptReadGCdata area store.file = some table →
    freeOld area store.file table call = some (file₁, table₁) →
    Isolated area store.live table ∧ Isolated area (rest store.live call) table₁ ∧
      Isolated area (newMemos area call (takeNew area table₁ call).1 ++ rest store.live call)
        (takeNew area table₁ call).2 ∧
      Isolated area (newMemos area call (takeNew area table₁ call).1 ++ rest store.live call)
        (fptWriteGCdata area (writeNew area file₁ (takeNew area table₁ call).1 call)
          (takeNew area table₁ call).2).2

/-- In a state that is reached, the list that is read back is isolated and every memo is in the
file; and a call that follows touches no other memo. -/
structure StoreIsolated (area : FptArea) (ok : Store → MemoCall → Prop) (store : Store) :
    Prop where
  read : ∃ table, fptReadGCdata area store.file = some table ∧ Isolated area store.live table
  held : ∀ memo ∈ store.live, memo.Held area store.file
  call : ∀ call file ulStored, Legal area store.live call → ok store call →
    fptWriteMemo area store.file call = some (file, ulStored) →
    CallIsolated area store call ∧
      ∀ memo ∈ rest store.live call, KeepsBlocks area store.file file (memo.extent area)

/-- The filler byte is put where a memo with a header would end; when one without a header is
written, this must be in a block of its own. -/
def FillerFits (area : FptArea) (call : MemoCall) : Prop :=
  area.uiMemoVersion = .flex → call.fRaw → call.data ≠ [] →
    (call.data.length + fptBlockSize) % area.ulMemoBlockSize ≠ 0 →
    area.blocksFor (call.data.length + fptBlockSize) ≤ area.blocksFor call.data.length

def Safe (area : FptArea) (store : Store) (call : MemoCall) : Prop :=
  FillerFits area call ∧
    Room area (nextBlockOf area store.file.mem + takenBlocks area call.data.length call.fRaw)

variable {e : Extent} {table table' table₁ : GCTable} {memo : Memo} {file₁ : File}

section Memos

variable {area : FptArea} {file file' : File} {live : List Memo} {call : MemoCall}

section

variable (hdbt : area.bMemoType ≠ .dbt)

include hdbt

theorem takenBlocks_eq (memo : Memo) :
    (memo.extent area).size = area.blocksFor (memo.image area).length := by
  unfold Memo.extent Memo.image Memo.headed takenBlocks
  rcases h : area.bMemoType with _ | _ | _
  · exact absurd h hdbt
  · rcases hraw : memo.fRaw with _ | _
    · simp [fptBlock_length, Nat.add_comm]
    · simp
  · simp

theorem Memo.Held.size_pos (h : memo.Held area file) :
    0 < (memo.extent area).size := by
  rw [takenBlocks_eq hdbt]
  exact area.blocksFor_pos (length_pos_iff.mpr h.full)

theorem image_end_le (memo : Memo) : area.blockOffset memo.ulBlock + (memo.image area).length ≤
      area.blockOffset (memo.ulBlock + (memo.extent area).size) := by
  rw [blockOffset_add, takenBlocks_eq hdbt]
  exact Nat.add_le_add_left (area.le_blocksFor _) _

theorem Memo.Held.keep (h : memo.Held area file)
    (hkeep : KeepsBlocks area file file' (memo.extent area)) : memo.Held area file' where
  same := (File.Keeps.read hkeep (Nat.le_refl _) (image_end_le hdbt memo)).trans h.same
  size := by
    have hsize := hkeep.size
    have hold := h.size
    have hend := image_end_le hdbt memo
    change min file.size (area.blockOffset (memo.ulBlock + (memo.extent area).size)) ≤ _ at hsize
    omega
  full := h.full

end

theorem freedBytes_le (hheld : memo.Held area file) (hblock : memo.ulBlock = call.ulBlock)
    (hheaded : memo.headed area = call.headed area)
    (hsize : call.ulSize = memo.data.length ∨ call.ulSize = 0 ∧ memo.headed area) :
    freedBytes area file call.ulBlock call.ulSize call.fRaw ≤ (memo.image area).length := by
  unfold freedBytes Memo.image
  split
  · rename_i hkind
    have hcall : call.headed area = true := by simp [MemoCall.headed, hkind.1, hkind.2]
    have hmemo : memo.headed area = true := hheaded.trans hcall
    rw [hmemo, if_pos rfl, length_append, fptBlock_length]
    split
    · have hsame := hheld.same
      rw [Memo.image, hmemo, if_pos rfl, hblock, length_append, fptBlock_length,
        Mem.read_add] at hsame
      obtain ⟨hhead, -⟩ := append_inj hsame (by rw [Mem.read_length, fptBlock_length])
      have hadd := Mem.read_add file.mem (area.blockOffset call.ulBlock) 4 4
      obtain ⟨-, hlen⟩ := append_inj (hadd.symm.trans hhead) (by simp [beBytes])
      split
      · rw [getBE_of_read hlen, Nat.add_comm]
        exact Nat.add_le_add_left (Nat.mod_le _ _) _
      · exact Nat.zero_le _
    · rename_i hne
      rcases hsize with hsize | ⟨hsize, -⟩
      · rw [hsize, Nat.add_comm]
      · exact absurd hsize hne
  · rename_i hkind
    have hmemo : memo.headed area = false := by
      rw [hheaded]
      simpa [MemoCall.headed] using hkind
    rcases hsize with hsize | ⟨-, htrue⟩
    · rw [hmemo, hsize]
      exact Nat.le_refl _
    · rw [hmemo] at htrue
      cases htrue

theorem rest_sublist (live : List Memo) (call : MemoCall) : (rest live call).Sublist live :=
  filter_sublist

theorem cover_rest (hmem : memo ∈ live) (hblock : memo.ulBlock = call.ulBlock) (b : Nat) :
    cover (extents area (rest live call)) b + (memo.extent area).at b ≤
      cover (extents area live) b := by
  induction live with
  | nil => cases hmem
  | cons first live ih =>
    unfold extents rest at ih ⊢
    rw [filter_cons, map_cons, cover_cons]
    rcases mem_cons.mp hmem with rfl | hmem
    · have hsub := cover_sublist ((rest_sublist live call).map (Memo.extent area)) b
      rw [if_neg (by simp [hblock])]
      unfold rest at hsub
      omega
    · have hrest := ih hmem
      split
      · rw [map_cons, cover_cons]
        omega
      · omega

theorem freeOld_moves (hdbt : area.bMemoType ≠ .dbt) (hlegal : Legal area live call)
    (hheld : ∀ memo ∈ live, memo.Held area file)
    (h : freeOld area file table call = some (file', table')) :
    ∃ freed, Moves table table' freed [] ∧
      ∀ b, cover (extents area (rest live call)) b + cover freed b ≤
        cover (extents area live) b := by
  unfold freeOld at h
  split at h
  · rename_i hpos
    refine ⟨_, fptGCfreeBlock_moves area file h, fun b => ?_⟩
    rcases hlegal with hzero | ⟨memo, hmem, hblock, hheaded, hsize⟩
    · omega
    · have hbytes := freedBytes_le (hheld memo hmem) hblock hheaded hsize
      have hblocks := area.blocksFor_mono hbytes
      rw [← takenBlocks_eq hdbt, ← hblock] at hblocks
      have hat := at_mono memo.ulBlock b hblocks
      have hcover : cover (extents area (rest live call)) b + (memo.extent area).at b ≤
          cover (extents area live) b := cover_rest hmem hblock b
      rw [← hblock]
      simp only [cover_cons, cover_nil]
      change _ ≤ (memo.extent area).at b at hat
      omega
  · cases h
    refine ⟨[], moves_refl table, fun b => ?_⟩
    exact cover_sublist ((rest_sublist live call).map (Memo.extent area)) b

theorem freeOld_keeps (h : freeOld area file table call = some (file', table'))
    (hapart : ∀ b, e.at b + frees table.pGCitems b ≤ 1) : KeepsBlocks area file file' e := by
  unfold freeOld at h
  split at h
  · exact fptGCfreeBlock_keeps area file h hapart
  · cases h
    exact keepsBlocks_refl area file e

theorem takeNew_moves (area : FptArea) (table : GCTable) (call : MemoCall) :
    Moves table (takeNew area table call).2 []
      (extents area (newMemos area call (takeNew area table call).1)) := by
  unfold takeNew newMemos
  split
  · exact fptGCgetFreeBlock_moves area table call.data.length call.fRaw
  · exact moves_refl table

end Memos

section Write

variable {area : FptArea} {file : File} {ulStored : Nat} {call : MemoCall}

theorem image_ne_nil (hwrite : call.bWrite area = true) :
    (newMemo call ulStored).image area ≠ [] := by
  unfold Memo.image Memo.headed Memo.fRaw newMemo
  intro hnil
  obtain ⟨hhead, hdata⟩ := append_eq_nil_iff.mp hnil
  dsimp only at hhead hdata
  split at hhead
  · have hlen := congrArg length hhead
    rw [fptBlock_length] at hlen
    exact absurd hlen (by decide)
  · rename_i hnone
    refine hnone ?_
    simp only [MemoCall.bWrite, hdata, length_nil, ne_eq, not_true_eq_false, decide_false,
      Bool.false_or, Bool.and_eq_true, beq_iff_eq, decide_eq_true_eq] at hwrite
    simp [hwrite.1.1.1, hwrite.2]

def writeImage (area : FptArea) (file : File) (memo : Memo) : File :=
  if memo.headed area then
    (file.writeAt (area.blockOffset memo.ulBlock)
      (fptBlock memo.ulType memo.data.length)).writeAt
        (area.blockOffset memo.ulBlock + fptBlockSize) memo.data
  else file.writeAt (area.blockOffset memo.ulBlock) memo.data

theorem writeImage_mem (area : FptArea) (file : File) (memo : Memo) :
    (writeImage area file memo).mem =
      file.mem.write (area.blockOffset memo.ulBlock) (memo.image area) := by
  unfold writeImage Memo.image
  split
  · have happend := Mem.write_append file.mem (area.blockOffset memo.ulBlock)
      (fptBlock memo.ulType memo.data.length) memo.data
    rwa [fptBlock_length] at happend
  · rfl

theorem writeImage_size (area : FptArea) (file : File) (h : memo.image area ≠ []) :
    file.size ≤ (writeImage area file memo).size ∧
      area.blockOffset memo.ulBlock + (memo.image area).length ≤
        (writeImage area file memo).size := by
  unfold writeImage Memo.image at *
  split
  · rw [length_append, fptBlock_length]
    have hle := File.size_le_writeAt file (area.blockOffset memo.ulBlock)
      (fptBlock memo.ulType memo.data.length)
    have hle' := File.size_le_writeAt (file.writeAt (area.blockOffset memo.ulBlock)
      (fptBlock memo.ulType memo.data.length)) (area.blockOffset memo.ulBlock + fptBlockSize)
      memo.data
    refine ⟨hle.trans hle', ?_⟩
    rcases eq_or_ne memo.data [] with hnil | hne
    · have hfull : fptBlock memo.ulType memo.data.length ≠ [] := fun hnil =>
        absurd ((fptBlock_length _ _).symm.trans (congrArg length hnil)) (by decide)
      have hend := File.end_le_writeAt file (area.blockOffset memo.ulBlock) hfull
      refine le_trans ?_ (hend.trans hle')
      rw [hnil]
      exact Nat.le_refl _
    · have hend := File.end_le_writeAt (file.writeAt (area.blockOffset memo.ulBlock)
        (fptBlock memo.ulType memo.data.length)) (area.blockOffset memo.ulBlock + fptBlockSize) hne
      rwa [Nat.add_assoc] at hend
  · rename_i hheaded
    rw [if_neg hheaded, nil_append] at h
    exact ⟨File.size_le_writeAt _ _ _, File.end_le_writeAt _ _ h⟩

theorem writeFiller_congr (hdbt : area.bMemoType ≠ .dbt) (file : File) (ulStored : Nat)
    (call : MemoCall) (fOffset fOffset' : Nat) :
    writeFiller area file ulStored call fOffset = writeFiller area file ulStored call fOffset' := by
  unfold writeFiller
  rw [if_neg hdbt, if_neg hdbt]

theorem writeBlock_eq (hdbt : area.bMemoType ≠ .dbt) (file : File) (ulStored : Nat)
    (call : MemoCall) (fOffset : Nat) :
    writeBlock area file ulStored call =
      writeFiller area (writeImage area file (newMemo call ulStored)) ulStored call fOffset := by
  have hheaded : (newMemo call ulStored).headed area = call.headed area := rfl
  unfold writeBlock writeImage
  rw [hheaded]
  split
  · exact writeFiller_congr hdbt _ _ _ _ _
  · exact writeFiller_congr hdbt _ _ _ _ _

theorem image_le_filler (hrest : (call.data.length + fptBlockSize) % area.ulMemoBlockSize ≠ 0) :
    area.blockOffset ulStored + ((newMemo call ulStored).image area).length ≤
      area.blockOffset (ulStored + area.blocksFor (call.data.length + fptBlockSize)) - 1 := by
  have hlen : ((newMemo call ulStored).image area).length ≤ call.data.length + fptBlockSize := by
    unfold Memo.image newMemo
    rw [length_append]
    split
    · rw [fptBlock_length, Nat.add_comm]
    · exact Nat.add_comm _ _ ▸ Nat.add_le_add_left (Nat.zero_le _) _
  have hblocks := area.le_blocksFor (call.data.length + fptBlockSize)
  have hne : call.data.length + fptBlockSize ≠
      area.blockOffset (area.blocksFor (call.data.length + fptBlockSize)) := by
    intro heq
    rw [heq] at hrest
    exact hrest (Nat.mul_mod_left _ _)
  rw [blockOffset_add]
  omega

theorem writeNew_held (hdbt : area.bMemoType ≠ .dbt) (file : File) (ulStored : Nat)
    (hmem : memo ∈ newMemos area call ulStored) :
    memo.Held area (writeNew area file ulStored call) := by
  unfold newMemos at hmem
  split at hmem
  · rename_i hwrite
    obtain rfl := mem_singleton.mp hmem
    have hfull : (newMemo call ulStored).image area ≠ [] := image_ne_nil hwrite
    have hsize := (writeImage_size area file hfull).2
    have hsame : (writeImage area file (newMemo call ulStored)).mem.read
        (area.blockOffset ulStored) ((newMemo call ulStored).image area).length =
          (newMemo call ulStored).image area := by
      rw [writeImage_mem]
      exact Mem.read_write _ _ _
    unfold writeNew
    rw [if_pos hwrite, writeBlock_eq hdbt file ulStored call 0]
    unfold writeFiller
    rw [if_neg hdbt]
    split
    · rename_i hfill
      refine ⟨?_, hsize.trans (File.size_le_writeAt _ _ _), hfull⟩
      exact (Mem.read_write_outside _ (.inl (image_le_filler hfill.2))).trans hsame
    · exact ⟨hsame, hsize, hfull⟩
  · cases hmem

theorem filler_fits (hkind : IsSix area ∨ IsFlex area) (hfiller : FillerFits area call)
    (hwrite : call.bWrite area = true) (hflex : area.uiMemoVersion = .flex)
    (hrest : (call.data.length + fptBlockSize) % area.ulMemoBlockSize ≠ 0) :
    area.blocksFor (call.data.length + fptBlockSize) ≤
      takenBlocks area call.data.length call.fRaw := by
  have hfpt : area.bMemoType = .fpt := by
    rcases hkind with hsix | hkind
    · exact absurd (hsix.2.symm.trans hflex) (by decide)
    · exact hkind.1
  rcases hraw : call.fRaw with _ | _
  · simp [takenBlocks, hfpt]
  · have hdata : call.data ≠ [] := by
      intro hnil
      have htype : call.ulType = fptitDummy := by simpa [MemoCall.fRaw] using hraw
      simp [MemoCall.bWrite, hnil, htype] at hwrite
    have hle := hfiller hflex hraw hdata hrest
    simpa [takenBlocks] using hle

theorem writeNew_keeps (hkind : IsSix area ∨ IsFlex area) (hdbt : area.bMemoType ≠ .dbt)
    (file : File) (ulStored : Nat) (hfiller : FillerFits area call)
    (hapart : ∀ b, e.at b + cover (extents area (newMemos area call ulStored)) b ≤ 1) :
    KeepsBlocks area file (writeNew area file ulStored call) e := by
  unfold writeNew
  split
  · rename_i hwrite
    have hapart' : ∀ b, e.at b + ((newMemo call ulStored).extent area).at b ≤ 1 := by
      intro b
      have hb := hapart b
      simpa [newMemos, hwrite, extents] using hb
    have himage : KeepsBlocks area file (writeImage area file (newMemo call ulStored)) e := by
      have hin : KeepsBlocks area file (file.writeAt (area.blockOffset ulStored)
          ((newMemo call ulStored).image area)) e :=
        keepsBlocks_writeAt file hapart' (Nat.le_refl _) (image_end_le hdbt (newMemo call ulStored))
      refine ⟨fun a hle hlt => ?_, ?_⟩
      · rw [writeImage_mem]
        exact hin.same a hle hlt
      · exact (Nat.min_le_left _ _).trans (writeImage_size area file (image_ne_nil hwrite)).1
    rw [writeBlock_eq hdbt file ulStored call 0]
    unfold writeFiller
    rw [if_neg hdbt]
    split
    · rename_i hfill
      refine File.Keeps.trans himage (keepsBlocks_writeAt _ hapart' ?_ ?_)
      · exact (Nat.le_add_right _ _).trans (image_le_filler hfill.2)
      · have hfits := filler_fits hkind hfiller hwrite hfill.1 hfill.2
        have hend := area.blockOffset_mono (Nat.add_le_add_left hfits ulStored)
        have hbehind :
            area.blockOffset ulStored + ((newMemo call ulStored).image area).length ≤ _ :=
          image_le_filler hfill.2
        have hpos : 0 < ((newMemo call ulStored).image area).length :=
          length_pos_iff.mpr (image_ne_nil hwrite)
        change _ ≤ area.blockOffset (ulStored + takenBlocks area call.data.length call.fRaw)
        rw [length_singleton]
        omega
    · exact himage
  · exact keepsBlocks_refl area file e

end Write

variable {ulStored : Nat} {call : MemoCall} {file file' : File} {store : Store}

section Step

variable {area : FptArea}

structure Inv (area : FptArea) (store : Store) : Prop where
  disk : ∃ table, OnDisk area store.file table ∧ Fits area (extents area store.live) table
  held : ∀ memo ∈ store.live, memo.Held area store.file

theorem extents_append (area : FptArea) (live live' : List Memo) :
    extents area (live ++ live') = extents area live ++ extents area live' :=
  map_append

theorem isolated_of_fits {live : List Memo} (h : Fits area (extents area live) table) :
    Isolated area live table := by
  have hcover : ∀ b, cover (ranges area live table) b ≤ under table.ulNextBlock b := by
    intro b
    have hb := h b
    rw [ranges, cover_append, cover_append]
    unfold frees at hb
    omega
  refine ⟨pairwise_apart fun b => (hcover b).trans (under_le _ _), fun e hmem b hone => ?_⟩
  have hat := at_le_cover hmem b
  have hle := under_le table.ulNextBlock b
  exact under_eq_one.mp (by have := hcover b; omega)

theorem total_newMemos_le (area : FptArea) (call : MemoCall) (ulStored : Nat) :
    total (extents area (newMemos area call ulStored)) ≤
      takenBlocks area call.data.length call.fRaw := by
  unfold newMemos extents
  split
  · exact Nat.le_refl _
  · exact Nat.zero_le _

theorem call_fits (hdbt : area.bMemoType ≠ .dbt) (hinv : Inv area store)
    (hlegal : Legal area store.live call) (hread : fptReadGCdata area store.file = some table)
    (hfree : freeOld area store.file table call = some (file₁, table₁)) :
    Fits area (extents area store.live) table ∧
      Fits area (extents area (rest store.live call)) table₁ ∧
      Fits area (extents area (newMemos area call (takeNew area table₁ call).1 ++
        rest store.live call)) (takeNew area table₁ call).2 := by
  obtain ⟨table₀, hdisk, hfits₀⟩ := hinv.disk
  obtain rfl : fptSortGCitems table₀ = table := by
    rw [fptReadGCdata, hdisk.readTable] at hread
    exact Option.some.inj hread
  have hfits := hfits₀.moves (fptSortGCitems_moves table₀) fun b => Nat.le_refl _
  obtain ⟨freed, hmoves, hfreed⟩ := freeOld_moves hdbt hlegal hinv.held hfree
  have hfits₁ := hfits.moves hmoves hfreed
  refine ⟨hfits, hfits₁, hfits₁.moves (takeNew_moves area table₁ call) fun b => ?_⟩
  rw [extents_append, cover_append, Nat.add_comm (cover _ b) (cover _ b)]
  exact Nat.le_refl _

theorem call_step (hkind : IsSix area ∨ IsFlex area) (hinv : Inv area store)
    (hlegal : Legal area store.live call) (hsafe : Safe area store call)
    (hread : fptReadGCdata area store.file = some table)
    (hfree : freeOld area store.file table call = some (file₁, table₁)) {table₂ table₃ : GCTable}
    {file₃ : File} (htake : takeNew area table₁ call = (ulStored, table₂))
    (hwrite : fptWriteGCdata area (writeNew area file₁ ulStored call) table₂ = (file₃, table₃)) :
    Fits area (extents area (newMemos area call ulStored ++ rest store.live call)) table₃ ∧
      Inv area ⟨file₃, newMemos area call ulStored ++ rest store.live call⟩ ∧
      ∀ memo ∈ rest store.live call, KeepsBlocks area store.file file₃ (memo.extent area) := by
  have hdbt : area.bMemoType ≠ .dbt := by
    rcases hkind with hsix | hflex
    · exact hsix.1
    · rw [hflex.1]
      decide
  obtain ⟨hfits, -, hfits₂⟩ := call_fits hdbt hinv hlegal hread hfree
  obtain ⟨table₀, hdisk, hfits₀⟩ := hinv.disk
  obtain rfl : fptSortGCitems table₀ = table := by
    rw [fptReadGCdata, hdisk.readTable] at hread
    exact Option.some.inj hread
  obtain ⟨freed, hmovesFree, -⟩ := freeOld_moves hdbt hlegal hinv.held hfree
  have hmovesTake := takeNew_moves area table₁ call
  rw [htake] at hfits₂ hmovesTake
  dsimp only at hfits₂ hmovesTake
  have hmoves := (fptSortGCitems_moves table₀).after (hmovesFree.trans hmovesTake)
  have hkeeps : ∀ e : Extent, (∀ b, e.at b + frees (fptSortGCitems table₀).pGCitems b ≤ 1) →
      (∀ b, e.at b + cover (extents area (newMemos area call ulStored)) b ≤ 1) →
      KeepsBlocks area store.file (writeNew area file₁ ulStored call) e := fun e hold hnew =>
    File.Keeps.trans (freeOld_keeps hfree hold) (writeNew_keeps hkind hdbt _ _ hsafe.1 hnew)
  have hone := under_le table₂.ulNextBlock
  have hone₀ := under_le (fptSortGCitems table₀).ulNextBlock
  have hheader : File.Keeps store.file (writeNew area file₁ ulStored call) 0 (headerSize area) := by
    have hat : ∀ b, (⟨0, headerBlocks area⟩ : Extent).at b = under (headerBlocks area) b := by
      intro b
      have hadd := under_add_at 0 (headerBlocks area) b
      rwa [under_zero, Nat.zero_add, Nat.zero_add] at hadd
    refine File.Keeps.mono (hkeeps ⟨0, headerBlocks area⟩ (fun b => ?_) fun b => ?_)
      (Nat.le_of_eq (Nat.zero_mul _)) ?_
    · have hb := hfits b
      have h1 := hone₀ b
      rw [hat]
      omega
    · have hb := hfits₂ b
      have h1 := hone b
      rw [extents_append, cover_append] at hb
      rw [hat]
      omega
    · rw [Nat.zero_add]
      exact area.le_blocksFor _
  have hpages : ∀ e ∈ pages area table₀,
      KeepsBlocks area store.file (writeNew area file₁ ulStored call) e := by
    intro e hmem
    refine hkeeps e (fun b => ?_) fun b => ?_
    · have hb := hfits b
      have h1 := hone₀ b
      have hat := at_le_cover hmem b
      rw [pages_core (fptSortGCitems_moves table₀).core] at hb
      omega
    · have hb := hfits₂ b
      have h1 := hone b
      have hat := at_le_cover hmem b
      rw [pages_core hmoves.core, extents_append, cover_append] at hb
      omega
  have hroom : Room area table₂.ulNextBlock := by
    refine hsafe.2.mono ?_
    have hnext := hmoves.next
    have htotal := total_newMemos_le area call ulStored
    rw [nil_append] at hnext
    rw [← hdisk.next]
    omega
  obtain ⟨hfits₃, hkeeps₃, table', hdisk', hfits'⟩ :=
    fptWriteGCdata_read_back hdisk hmoves hfits₀ hfits₂ hheader hpages hroom
  rw [hwrite] at hfits₃ hkeeps₃ hdisk'
  have hrest : ∀ memo ∈ rest store.live call,
      KeepsBlocks area store.file file₃ (memo.extent area) := by
    intro memo hmem
    have hlive := (rest_sublist store.live call).subset hmem
    refine File.Keeps.trans (hkeeps _ (fun b => ?_) fun b => ?_) (hkeeps₃ _ ?_ ?_)
    · have hb := hfits.apart (mem_map_of_mem hlive) b
      have h1 := hone₀ b
      omega
    · have hb := hfits₂ b
      have h1 := hone b
      have hat := at_le_cover (mem_map_of_mem (f := Memo.extent area) hmem) b
      rw [extents_append, cover_append] at hb
      change _ ≤ cover (extents area (rest store.live call)) b at hat
      omega
    · exact mem_map_of_mem (mem_append_right _ hmem)
    · exact (hinv.held memo hlive).size_pos hdbt
  refine ⟨hfits₃, ⟨⟨table', hdisk', hfits'⟩, fun memo hmem => ?_⟩, hrest⟩
  rcases mem_append.mp hmem with hnew | hold
  · have hheld := writeNew_held hdbt file₁ ulStored hnew
    exact hheld.keep hdbt (hkeeps₃ _ (mem_map_of_mem hmem) (hheld.size_pos hdbt))
  · have hheld := hinv.held memo ((rest_sublist store.live call).subset hold)
    exact hheld.keep hdbt (hrest memo hold)

end Step

section

variable (area : FptArea) (blob : Bool)

include area blob

theorem create_zero {pos n : Nat} (hlo : 16 ≤ pos)
    (hhi : pos + n ≤ 512 ∨ 524 ≤ pos ∧ pos + n ≤ 540) :
    (fptCreateMemFile area blob).mem.read pos n = Mem.read (fun _ => 0) pos n := by
  have hsig1 : (signature1 area).length = 8 := by
    unfold signature1
    split
    · rfl
    · rfl
  have hsig2 : (signature2 area).length ≤ 12 := by
    unfold signature2
    split
    · decide
    · decide
  have hblank : ∀ size : Nat, (File.truncAt ⟨fun _ => 0, 0, fun _ _ => rfl⟩ size).mem.read pos n =
      Mem.read (fun _ => 0) pos n := fun size => Mem.read_congr fun a _ _ => ite_self 0
  have hsize : (if area.bMemoType = .fpt then beBytes 4 area.ulMemoBlockSize
      else leBytes 4 area.ulMemoBlockSize).length = 4 := by
    split
    · simp [beBytes]
    · simp
  have hhead : (nextBlockBytes area (area.blocksFor (headerSize area)) ++
      (if area.bMemoType = .fpt then beBytes 4 area.ulMemoBlockSize
        else leBytes 4 area.ulMemoBlockSize) ++ signature1 area).length = 16 := by
    rw [length_append, length_append, nextBlockBytes_length, hsize, hsig1]
  unfold fptCreateMemFile
  dsimp only
  split
  · rw [File.writeAt_mem, Mem.read_write_outside _ (.inl (by omega)), File.writeAt_mem,
      Mem.read_write_outside _ (by omega), File.writeAt_mem,
      Mem.read_write_outside _ (.inr (by omega)),
      hblank]
  · rw [File.writeAt_mem, Mem.read_write_outside _ (by omega), File.writeAt_mem,
      Mem.read_write_outside _ (.inr (by omega)), hblank]

theorem create_nextBlock :
    nextBlockOf area (fptCreateMemFile area blob).mem = headerBlocks area := by
  have hlt : headerBlocks area < 2 ^ 32 := by
    have hpos := area.blockSize_pos
    have hsize : headerSize area ≤ 1024 := by
      unfold headerSize
      split
      · decide
      · decide
    have hle : headerBlocks area ≤ headerSize area := by
      refine Nat.div_le_of_le_mul ?_
      have hmul := Nat.le_mul_of_pos_left (headerSize area - 1) hpos
      have hsplit : area.ulMemoBlockSize * headerSize area =
          area.ulMemoBlockSize * (headerSize area - 1) + area.ulMemoBlockSize := by
        rw [← Nat.mul_succ, Nat.succ_eq_add_one, Nat.sub_add_cancel (headerSize_pos area)]
      omega
    omega
  refine nextBlockOf_of_read ?_ hlt
  have hread : ∀ (mem : Mem) (tail : Bytes),
      (mem.write 0 (nextBlockBytes area (headerBlocks area) ++ tail)).read 0 4 =
        nextBlockBytes area (headerBlocks area) := by
    intro mem tail
    have hstarts := Mem.read_write_prefix mem 0 (nextBlockBytes area (headerBlocks area)) tail
    rwa [nextBlockBytes_length] at hstarts
  unfold fptCreateMemFile
  dsimp only
  split
  · refine Eq.trans (Mem.read_write_outside _ (.inl (by omega))) ?_
    refine Eq.trans (Mem.read_write_outside _ (.inl (by omega))) ?_
    rw [append_assoc]
    exact hread _ _
  · refine Eq.trans (Mem.read_write_outside _ (.inl (by omega))) ?_
    rw [append_assoc]
    exact hread _ _

theorem create_size : headerSize area ≤ (fptCreateMemFile area blob).size := by
  have hcreated : headerSize area ≤ createdSize area := Nat.le_max_left _ _
  unfold fptCreateMemFile
  dsimp only
  split
  · refine le_trans ?_ (File.size_le_writeAt _ _ _)
    refine le_trans ?_ (File.size_le_writeAt _ _ _)
    refine le_trans ?_ (File.size_le_writeAt _ _ _)
    exact hcreated
  · refine le_trans ?_ (File.size_le_writeAt _ _ _)
    refine le_trans ?_ (File.size_le_writeAt _ _ _)
    exact hcreated

end

theorem create_inv {area : FptArea} (hkind : IsSix area ∨ IsFlex area) (blob : Bool) :
    Inv area ⟨fptCreateMemFile area blob, []⟩ := by
  have hsize := create_size area blob
  refine ⟨?_, fun memo hmem => absurd hmem not_mem_nil⟩
  rcases hkind with hsix | hflex
  · have hcount : getLE (fptCreateMemFile area blob).mem 18 2 = 0 :=
      congrArg leValue (create_zero area blob (by decide) (by decide))
    rw [headerSize_six hsix] at hsize
    refine ⟨_, .inl ⟨hsix, ⟨hsize, hcount ▸ Nat.zero_le _⟩, rfl⟩, fun b => ?_⟩
    have hnext : (sixTable area (fptCreateMemFile area blob)).ulNextBlock = headerBlocks area :=
      (nextBlockOf_readHeader area _).trans (create_nextBlock area blob)
    have hitems : (sixTable area (fptCreateMemFile area blob)).pGCitems = [] := by
      simp [sixTable, hcount]
    rw [hnext, hitems, pages_six rfl rfl]
    simp [extents, at_empty]
  · have hdir : getLE (fptCreateMemFile area blob).mem 528 4 = 0 :=
      congrArg leValue (create_zero area blob (by decide) (by decide))
    have hrev : getLE (fptCreateMemFile area blob).mem 524 4 = 0 :=
      congrArg leValue (create_zero area blob (by decide) (by decide))
    rw [headerSize_flex hflex] at hsize
    refine ⟨_, .inr ⟨hflex, [], ?_, rfl⟩, fun b => ?_⟩
    · refine ⟨le_trans (by decide) hsize, ⟨rfl, rfl, ⟨0, ?_⟩, ⟨0, ?_⟩, ?_, ?_⟩, ?_, fun _ => rfl,
        Nat.zero_le _⟩
      · exact hdir.trans (Nat.zero_mul _).symm
      · exact hrev.trans (Nat.zero_mul _).symm
      · exact iff_of_true hdir hrev
      · exact fun h => absurd hdir h
      · exact fun h => absurd hdir h
    · have hnext : (flexTable area (fptCreateMemFile area blob) []).ulNextBlock =
          headerBlocks area :=
        (nextBlockOf_readHeader area _).trans (create_nextBlock area blob)
      have hpages : pages area (flexTable area (fptCreateMemFile area blob) []) =
          [⟨0, 0⟩, ⟨0, 0⟩] := pages_six hdir hrev
      rw [hnext, hpages]
      simp [flexTable, extents, at_empty]

section Runs

variable {area : FptArea}

theorem fptWriteMemo_cases (h : fptWriteMemo area file call = some (file', ulStored)) :
    (call.bWrite area = false ∧ file' = file) ∨
      ∃ table file₁ table₁, fptReadGCdata area file = some table ∧
        freeOld area file table call = some (file₁, table₁) ∧
        ulStored = (takeNew area table₁ call).1 ∧
        file' = (fptWriteGCdata area (writeNew area file₁ (takeNew area table₁ call).1 call)
          (takeNew area table₁ call).2).1 := by
  unfold fptWriteMemo at h
  split at h
  · rename_i hnothing
    cases h
    exact .inl ⟨hnothing.2, rfl⟩
  · simp only [bind_eq_bind, bind_eq_some_iff, Option.some.injEq,
      Prod.mk.injEq, Prod.exists] at h
    obtain ⟨table, hread, file₁, table₁, hfree, hfile, hstored⟩ := h
    exact .inr ⟨table, file₁, table₁, hread, hfree, hstored.symm, hfile.symm⟩

theorem step_inv (hkind : IsSix area ∨ IsFlex area) (hinv : Inv area store)
    (hlegal : Legal area store.live call) (hsafe : Safe area store call)
    (h : fptWriteMemo area store.file call = some (file, ulStored)) :
    Inv area ⟨file, newMemos area call ulStored ++ rest store.live call⟩ ∧
      ∀ memo ∈ rest store.live call, KeepsBlocks area store.file file (memo.extent area) := by
  rcases fptWriteMemo_cases h with ⟨hnone, rfl⟩ | ⟨table, file₁, table₁, hread, hfree, rfl, rfl⟩
  · obtain ⟨table, hdisk, hfits⟩ := hinv.disk
    have hnew : newMemos area call ulStored = [] := by simp [newMemos, hnone]
    rw [hnew, nil_append]
    refine ⟨⟨⟨table, hdisk, fun b => ?_⟩, fun memo hmem => ?_⟩,
      fun memo _ => keepsBlocks_refl area store.file _⟩
    · have hb := hfits b
      have hsub := cover_sublist ((rest_sublist store.live call).map (Memo.extent area)) b
      unfold extents at hb ⊢
      dsimp only
      omega
    · exact hinv.held memo ((rest_sublist store.live call).subset hmem)
  · exact (call_step hkind hinv hlegal hsafe hread hfree rfl rfl).2

theorem run_inv (hkind : IsSix area ∨ IsFlex area) {blob : Bool}
    (hrun : Run area blob (Safe area) store) : Inv area store := by
  induction hrun with
  | create => exact create_inv hkind blob
  | write _ hlegal hsafe hwrite ih => exact (step_inv hkind ih hlegal hsafe hwrite).1

/-- In every run of safe calls the memos, the free blocks and the directory pages stay apart. -/
theorem fptWriteMemo_isolated (hkind : IsSix area ∨ IsFlex area) (blob : Bool) {store : Store}
    (hrun : Run area blob (Safe area) store) : StoreIsolated area (Safe area) store := by
  have hinv := run_inv hkind hrun
  have hdbt : area.bMemoType ≠ .dbt := by
    rcases hkind with hsix | hflex
    · exact hsix.1
    · rw [hflex.1]
      decide
  refine ⟨?_, hinv.held, fun call file ulStored hlegal hsafe hwrite => ⟨?_, ?_⟩⟩
  · obtain ⟨table, hdisk, hfits⟩ := hinv.disk
    refine ⟨fptSortGCitems table, ?_, isolated_of_fits ?_⟩
    · rw [fptReadGCdata, hdisk.readTable, map_some]
    · exact hfits.moves (fptSortGCitems_moves table) fun b => Nat.le_refl _
  · intro table file₁ table₁ hread hfree
    obtain ⟨hfits, hfits₁, hfits₂⟩ := call_fits hdbt hinv hlegal hread hfree
    have hfits₃ := (call_step hkind hinv hlegal hsafe hread hfree rfl rfl).1
    exact ⟨isolated_of_fits hfits, isolated_of_fits hfits₁, isolated_of_fits hfits₂,
      isolated_of_fits hfits₃⟩
  · exact (step_inv hkind hinv hlegal hsafe hwrite).2

def flex64 : FptArea := ⟨.fpt, .flex, 64, by decide⟩

instance (area : FptArea) (live : List Memo) (call : MemoCall) :
    Decidable (Legal area live call) :=
  inferInstanceAs (Decidable (_ ∨ _))

instance (area : FptArea) (n : Nat) : Decidable (Room area n) :=
  inferInstanceAs (Decidable (if area.uiMemoVersion = .flex then
    area.blockOffset (n + 2 * pageBlocks area) < 2 ^ 32 else n < 2 ^ 32))

instance (area : FptArea) (call : MemoCall) : Decidable (FillerFits area call) :=
  inferInstanceAs (Decidable (area.uiMemoVersion = .flex → call.fRaw → call.data ≠ [] →
    (call.data.length + fptBlockSize) % area.ulMemoBlockSize ≠ 0 → _ ≤ _))

instance (area : FptArea) (store : Store) (call : MemoCall) :
    Decidable (Safe area store call) :=
  inferInstanceAs (Decidable (FillerFits area call ∧ Room area _))

/-- The state after the calls, where each is legal, admitted and successful. -/
def runCalls (area : FptArea) (ok : Store → MemoCall → Prop)
    [∀ store call, Decidable (ok store call)] : Store → List MemoCall → Option Store
  | store, [] => some store
  | store, call :: calls =>
    if Legal area store.live call ∧ ok store call then
      match fptWriteMemo area store.file call with
      | none => none
      | some (file, ulStored) =>
        runCalls area ok ⟨file, newMemos area call ulStored ++ rest store.live call⟩ calls
    else none

theorem Run.calls {blob : Bool} {ok : Store → MemoCall → Prop}
    [∀ store call, Decidable (ok store call)] {store store' : Store} {calls : List MemoCall}
    (hrun : Run area blob ok store) (h : runCalls area ok store calls = some store') :
    Run area blob ok store' := by
  induction calls generalizing store with
  | nil =>
    cases h
    exact hrun
  | cons call calls ih =>
    rw [runCalls] at h
    split at h
    · rename_i hcall
      split at h
      · cases h
      · rename_i file ulStored hwrite
        exact ih (hrun.write hcall.1 hcall.2 hwrite) h
    · cases h

/-- A block without a header and a text behind it; the block is deleted, and the text grows and
moves into its place. -/
def editCalls : List MemoCall :=
  [⟨0, 0, fptitDummy, replicate 100 1⟩, ⟨0, 0, fptitText, replicate 50 2⟩,
    ⟨16, 100, fptitDummy, []⟩, ⟨18, 0, fptitText, replicate 100 3⟩]

theorem flex64_isolated :
    ∃ store, runCalls flex64 (Safe flex64) ⟨fptCreateMemFile flex64 false, []⟩ editCalls =
        some store ∧
      store.live.map (fun memo => (memo.ulBlock, memo.data.length)) = [(16, 100)] ∧
      nextBlockOf flex64 store.file.mem = 51 ∧ StoreIsolated flex64 (Safe flex64) store := by
  have hcalls : (runCalls flex64 (Safe flex64) ⟨fptCreateMemFile flex64 false, []⟩
      editCalls).map (fun store => (store.live.map (fun memo => (memo.ulBlock, memo.data.length)),
        nextBlockOf flex64 store.file.mem)) = some ([(16, 100)], 51) := by
    decide +kernel
  obtain ⟨store, hstore, hpair⟩ := map_eq_some_iff.mp hcalls
  simp only [Prod.mk.injEq] at hpair
  exact ⟨store, hstore, hpair.1, hpair.2,
    fptWriteMemo_isolated (.inr ⟨rfl, rfl⟩) false (Run.create.calls hstore)⟩

/-- A block without a header in the first block, a text in the two behind it, and the first one
written again. -/
def rewriteCalls : List MemoCall :=
  [⟨0, 0, fptitDummy, replicate 60 0⟩, ⟨0, 0, fptitText, replicate 100 0⟩,
    ⟨16, 60, fptitDummy, replicate 60 0⟩]

/-- The filler of the third call falls into the text of the second. -/
theorem filler_overwrites :
    ¬ ∀ store, Run flex64 false (fun _ _ => True) store →
      StoreIsolated flex64 (fun _ _ => True) store := by
  intro hall
  have hcalls : (runCalls flex64 (fun _ _ => True) ⟨fptCreateMemFile flex64 false, []⟩
      rewriteCalls).map (fun store =>
        (store.live.map (fun memo => (memo.ulBlock, memo.ulType, memo.data)),
          store.file.mem (17 * 64 + 63))) =
      some ([(16, fptitDummy, replicate 60 0), (17, fptitText, replicate 100 0)], 0xAF) := by
    decide +kernel
  obtain ⟨⟨file, live⟩, hstore, hpair⟩ := map_eq_some_iff.mp hcalls
  simp only [Prod.mk.injEq] at hpair
  obtain ⟨hlive, hbyte⟩ := hpair
  have hmem : (⟨17, fptitText, replicate 100 0⟩ : Memo) ∈ live := by
    have hpair : (17, fptitText, replicate 100 0) ∈
        live.map (fun memo => (memo.ulBlock, memo.ulType, memo.data)) := by
      rw [hlive]
      decide
    obtain ⟨⟨ulBlock, ulType, data⟩, hmem, heq⟩ := mem_map.mp hpair
    cases heq
    exact hmem
  have hheld := (hall _ (Run.create.calls hstore)).held _ hmem
  have hread := congrArg (fun bytes => bytes[63]?) hheld.same
  have himage : ((⟨17, fptitText, replicate 100 0⟩ : Memo).image flex64)[63]? = some 0 := by
    decide
  have hget : (file.mem.read (flex64.blockOffset 17)
      ((⟨17, fptitText, replicate 100 0⟩ : Memo).image flex64).length)[63]? =
        some (file.mem (17 * 64 + 63)) := by
    simp [Mem.read, flex64, FptArea.blockOffset, Memo.image, Memo.headed, Memo.fRaw]
  rw [hget, himage, hbyte] at hread
  exact absurd hread (by decide)

end Runs

end Harbour.Rdd.FptIsolation
