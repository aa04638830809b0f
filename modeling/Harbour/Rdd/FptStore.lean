import Harbour.Library.Memory

/-!
The memo file: blocks of a fixed size, a list of free blocks and, for FLEX, two directory
pages in which the list is kept. Every write succeeds; `none` stands for an error code.
-/

namespace Harbour.Rdd.FptStore

open Library.Memory Library.Bytes List

inductive MemoType where
  | dbt
  | fpt
  | smt
  deriving DecidableEq

inductive MemoVersion where
  | std
  | six
  | flex
  | clip
  deriving DecidableEq

structure FptArea where
  bMemoType : MemoType
  uiMemoVersion : MemoVersion
  ulMemoBlockSize : Nat
  blockSize_pos : 0 < ulMemoBlockSize

structure GCItem where
  ulOffset : Nat
  ulSize : Nat
  fChanged : Bool
  deriving DecidableEq

/-- `MEMOGCTABLE`; `usItems` is the length of the list. -/
structure GCTable where
  bType : MemoVersion
  bChanged : Nat
  ulNextBlock : Nat
  ulPrevBlock : Nat
  ulRevPage : Nat
  ulDirPage : Nat
  ulCounter : Nat
  ulSize : Nat
  usMaxItem : Nat
  pGCitems : List GCItem
  fptHeader : Mem

abbrev fptHeaderSize : Nat := 1024

abbrev fptBlockSize : Nat := 8

abbrev maxSixFreeBlocks : Nat := 82

abbrev maxFlexFreeBlocks : Nat := 126

abbrev flexGCPageSize : Nat := 1010

abbrev fptitDummy : Nat := 0xDEADBEAF

abbrev fptitBinary : Nat := 0

abbrev fptitText : Nat := 1

abbrev fptitFlexGC : Nat := 1000

abbrev fptitFlexUnused : Nat := 1001

namespace FptArea

def isFlex (area : FptArea) : Bool :=
  area.uiMemoVersion == .flex || area.uiMemoVersion == .clip

def blockOffset (area : FptArea) (b : Nat) : Nat := b * area.ulMemoBlockSize

def blocksFor (area : FptArea) (ulByteSize : Nat) : Nat :=
  (ulByteSize + area.ulMemoBlockSize - 1) / area.ulMemoBlockSize

theorem le_blocksFor (area : FptArea) (n : Nat) : n ≤ area.blockOffset (area.blocksFor n) := by
  have hpos := area.blockSize_pos
  have hdiv := Nat.div_add_mod (n + area.ulMemoBlockSize - 1) area.ulMemoBlockSize
  have hmod := Nat.mod_lt (n + area.ulMemoBlockSize - 1) hpos
  unfold blockOffset blocksFor
  rw [Nat.mul_comm]
  omega

theorem blocksFor_mono (area : FptArea) {n m : Nat} (h : n ≤ m) :
    area.blocksFor n ≤ area.blocksFor m :=
  Nat.div_le_div_right (by omega)

theorem blocksFor_pos (area : FptArea) {n : Nat} (h : 0 < n) : 0 < area.blocksFor n := by
  have hpos := area.blockSize_pos
  exact Nat.div_pos (by omega) hpos

theorem blockOffset_mono (area : FptArea) {b b' : Nat} (h : b ≤ b') :
    area.blockOffset b ≤ area.blockOffset b' :=
  Nat.mul_le_mul_right _ h

end FptArea

def fptBlock (type size : Nat) : Bytes := beBytes 4 type ++ beBytes 4 size

/-- One pass of `hb_fptSortGCitems` over the first `n + 1` items, and where it swapped last. -/
def sortPass : (n i : Nat) → List GCItem → List GCItem × Option Nat
  | n + 1, i, item :: next :: items =>
    if next.ulSize < item.ulSize then
      let (items, last) := sortPass n (i + 1) (item :: items)
      (next :: items, last.orElse fun _ => some i)
    else
      let (items, last) := sortPass n (i + 1) (next :: items)
      (item :: items, last)
  | _, _, items => (items, none)

/-- Each pass ends before the last swap of the one before, so there are no more passes than
items. -/
def sortPasses : (fuel l : Nat) → GCTable → GCTable
  | 0, _, table => table
  | fuel + 1, l, table =>
    match sortPass l 0 table.pGCitems with
    | (_, none) => table
    | (items, some l) =>
      sortPasses fuel l { table with pGCitems := items, bChanged := table.bChanged ||| 2 }

def fptSortGCitems (table : GCTable) : GCTable :=
  sortPasses table.pGCitems.length (table.pGCitems.length - 1) table

def GCItem.isEmpty (item : GCItem) : Bool := item.ulOffset == 0 || item.ulSize == 0

def GCItem.clear (item : GCItem) : GCItem := { item with ulOffset := 0, ulSize := 0 }

/-- The inner loop of `hb_fptPackGCitems`: the first item at `ulEnd` is emptied. -/
def joinAt (ulEnd : Nat) : List GCItem → Option (Nat × List GCItem)
  | [] => none
  | item :: items =>
    if ulEnd = item.ulOffset then some (item.ulSize, item.clear :: items)
    else (joinAt ulEnd items).map fun (ulSize, items) => (ulSize, item :: items)

/-- The outer loop of `hb_fptPackGCitems` up to its first change, which starts it again. -/
def packStep (ulNextBlock : Nat) : List GCItem → Option (Nat × List GCItem)
  | [] => none
  | item :: items =>
    let rest := (packStep ulNextBlock items).map fun (next, items) => (next, item :: items)
    if item.isEmpty then rest
    else if item.ulOffset + item.ulSize = ulNextBlock then
      some (ulNextBlock - item.ulSize, item.clear :: items)
    else
      match joinAt (item.ulOffset + item.ulSize) items with
      | some (ulSize, items) =>
        some (ulNextBlock,
          { item with ulSize := item.ulSize + ulSize, fChanged := true } :: items)
      | none => rest

def packSteps : (fuel : Nat) → GCTable → GCTable
  | 0, table => table
  | fuel + 1, table =>
    match packStep table.ulNextBlock table.pGCitems with
    | none => table
    | some (ulNextBlock, items) =>
      packSteps fuel
        { table with
          ulNextBlock := ulNextBlock
          pGCitems := items
          bChanged := table.bChanged ||| 2 }

def fptPackGCitems (table : GCTable) : GCTable :=
  let table := packSteps table.pGCitems.length table
  { table with pGCitems := table.pGCitems.filter fun item => !item.isEmpty }

def writeGCitem (area : FptArea) (file : File) (item : GCItem) : File :=
  if item.fChanged && area.isFlex && fptBlockSize ≤ item.ulSize * area.ulMemoBlockSize then
    file.writeAt (area.blockOffset item.ulOffset)
      (fptBlock fptitFlexUnused (area.ulMemoBlockSize * item.ulSize - fptBlockSize))
  else file

def fptWriteGCitems (area : FptArea) (file : File) (table : GCTable) : File × GCTable :=
  (table.pGCitems.foldl (writeGCitem area) file,
    { table with pGCitems := table.pGCitems.map fun item => { item with fChanged := false } })

def joinBlock (ulOffset ulSize : Nat) : List GCItem → Option (List GCItem)
  | [] => none
  | item :: items =>
    if item.ulOffset + item.ulSize = ulOffset then
      some ({ item with ulSize := item.ulSize + ulSize, fChanged := true } :: items)
    else if item.ulOffset = ulOffset + ulSize then
      some (⟨ulOffset, item.ulSize + ulSize, true⟩ :: items)
    else (joinBlock ulOffset ulSize items).map fun items => item :: items

/-- Before the first item is given up: it may be the end of the file, and a changed one is
marked on the disk. -/
def dropFirst (area : FptArea) (file : File) (table : GCTable) (item : GCItem) : File × GCTable :=
  if table.ulNextBlock = item.ulOffset + item.ulSize then
    (file, { table with ulNextBlock := table.ulNextBlock - item.ulSize })
  else if item.fChanged then fptWriteGCitems area file table
  else (file, table)

/-- A block that touches no item: it is added, or it takes the place of the first item, which
is then lost unless it is the end of the file. -/
def addBlock (area : FptArea) (file : File) (table : GCTable) (ulOffset ulSize : Nat) :
    Option (File × GCTable) :=
  if table.pGCitems.length ≤ table.usMaxItem then
    some (file, { table with pGCitems := table.pGCitems ++ [⟨ulOffset, ulSize, true⟩] })
  else
    match table.pGCitems with
    | [] => none
    | item :: _ =>
      if item.ulSize < ulSize then
        let (file, table) := dropFirst area file table item
        some (file, { table with pGCitems := ⟨ulOffset, ulSize, true⟩ :: table.pGCitems.tail })
      else none

def freedBytes (area : FptArea) (file : File) (ulOffset ulByteSize : Nat) (fRaw : Bool) : Nat :=
  if area.bMemoType = .fpt ∧ fRaw = false then
    if ulByteSize = 0 then
      match file.readAt (area.blockOffset ulOffset) fptBlockSize with
      | some _ => getBE file.mem (area.blockOffset ulOffset + 4) 4 + fptBlockSize
      | none => 0
    else ulByteSize + fptBlockSize
  else ulByteSize

def freeBlocks (area : FptArea) (file : File) (table : GCTable) (ulOffset ulSize : Nat) :
    File × GCTable :=
  if ulOffset + ulSize = table.ulNextBlock then
    (file, fptPackGCitems
      { table with ulNextBlock := table.ulNextBlock - ulSize, bChanged := table.bChanged ||| 1 })
  else
    let joined :=
      match joinBlock ulOffset ulSize table.pGCitems with
      | some items => some (file, { table with pGCitems := items })
      | none => addBlock area file table ulOffset ulSize
    match joined with
    | some (file, table) =>
      (file, fptSortGCitems (fptPackGCitems { table with bChanged := table.bChanged ||| 2 }))
    | none => (file, table)

def fptGCfreeBlock (area : FptArea) (file : File) (table : GCTable) (ulOffset ulByteSize : Nat)
    (fRaw : Bool) : Option (File × GCTable) :=
  if area.bMemoType = .dbt then some (file, table)
  else
    let ulSize := area.blocksFor (freedBytes area file ulOffset ulByteSize fRaw)
    if ulSize = 0 then none else some (freeBlocks area file table ulOffset ulSize)

def shiftDown : List GCItem → List GCItem
  | item :: next :: items => { next with fChanged := item.fChanged } :: shiftDown (next :: items)
  | _ => []

/-- The first item that is large enough gives its front; the rest says whether it remains. -/
def takeBlock (ulSize : Nat) : List GCItem → Option (Nat × List GCItem × Bool)
  | [] => none
  | item :: items =>
    if ulSize ≤ item.ulSize then
      if item.ulSize = ulSize then some (item.ulOffset, shiftDown (item :: items), false)
      else
        some (item.ulOffset, ⟨item.ulOffset + ulSize, item.ulSize - ulSize, true⟩ :: items, true)
    else (takeBlock ulSize items).map fun (ulOffset, items, remains) =>
      (ulOffset, item :: items, remains)

def takenBlocks (area : FptArea) (ulByteSize : Nat) (fRaw : Bool) : Nat :=
  if area.bMemoType = .smt ∨ fRaw then area.blocksFor ulByteSize
  else
    match area.bMemoType with
    | .fpt => area.blocksFor (ulByteSize + fptBlockSize)
    | .dbt => (ulByteSize + area.ulMemoBlockSize) / area.ulMemoBlockSize
    | .smt => area.blocksFor ulByteSize

def fptGCgetFreeBlock (area : FptArea) (table : GCTable) (ulByteSize : Nat) (fRaw : Bool) :
    Nat × GCTable :=
  let ulSize := takenBlocks area ulByteSize fRaw
  match takeBlock ulSize table.pGCitems with
  | some (ulOffset, items, remains) =>
    let table := { table with pGCitems := items }
    let table := if remains then fptSortGCitems table else table
    (ulOffset, { table with bChanged := table.bChanged ||| 2 })
  | none =>
    (table.ulNextBlock,
      { table with
        ulNextBlock := table.ulNextBlock + ulSize
        bChanged := table.bChanged ||| 1 })

def nextBlockBytes (area : FptArea) (ulNextBlock : Nat) : Bytes :=
  if area.bMemoType = .fpt then beBytes 4 ulNextBlock else leBytes 4 ulNextBlock

def nextBlockOf (area : FptArea) (header : Mem) : Nat :=
  if area.bMemoType = .fpt then getBE header 0 4 else getLE header 0 4

def sixItem (header : Mem) (i : Nat) : GCItem :=
  ⟨getLE header (20 + i * 6 + 2) 4, getLE header (20 + i * 6) 2, false⟩

def flexItem (area : FptArea) (mem : Mem) (page i : Nat) : GCItem :=
  ⟨getLE mem (page + i * 8 + 2) 4 / area.ulMemoBlockSize,
    getLE mem (page + i * 8 + 6) 4 / area.ulMemoBlockSize, false⟩

def readFlexPage (area : FptArea) (file : File) (page : Nat) : Option (Nat × List GCItem) := do
  let _ ← file.readAt page fptBlockSize
  guard (getBE file.mem page 4 = fptitFlexGC)
  let ulSize := getBE file.mem (page + 4) 4
  let _ ← file.readAt (page + fptBlockSize) ulSize
  let usItems := (getLE file.mem (page + fptBlockSize) 2 + 2 ^ 18 - 3) / 4 % 2 ^ 16
  some (ulSize, (range usItems).map (flexItem area file.mem (page + fptBlockSize)))

def readFlexGCdata (area : FptArea) (file : File) (table : GCTable) : Option GCTable :=
  let table := { table with
    bType := .flex
    usMaxItem := maxFlexFreeBlocks
    ulRevPage := getLE table.fptHeader 524 4
    ulDirPage := getLE table.fptHeader 528 4
    ulCounter := getLE table.fptHeader 532 4 }
  if table.ulDirPage = 0 then some table
  else (readFlexPage area file table.ulDirPage).map fun (ulSize, items) =>
    { table with
      ulSize := ulSize
      usMaxItem := (ulSize + 2 ^ 19 - 2) / 8 % 2 ^ 16
      pGCitems := items }

def readHeader (file : File) : Mem := fun a => if a < fptHeaderSize then file.mem a else 0

def freshTable (area : FptArea) (fptHeader : Mem) : GCTable where
  bType := .std
  bChanged := 0
  ulNextBlock := nextBlockOf area fptHeader
  ulPrevBlock := nextBlockOf area fptHeader
  ulRevPage := 0
  ulDirPage := 0
  ulCounter := 0
  ulSize := 0
  usMaxItem := 0
  pGCitems := []
  fptHeader := fptHeader

def readSixGCdata (table : GCTable) : Option GCTable := do
  let usItems := getLE table.fptHeader 18 2
  guard (usItems ≤ maxSixFreeBlocks)
  some { table with
    bType := .six
    usMaxItem := maxSixFreeBlocks
    pGCitems := (range usItems).map (sixItem table.fptHeader) }

/-- `hb_fptReadGCdata` up to the sorting of the list. -/
def readTable (area : FptArea) (file : File) : Option GCTable :=
  if file.size < 512 then none
  else
    let table := freshTable area (readHeader file)
    if area.uiMemoVersion = .six ∨ area.bMemoType = .smt then readSixGCdata table
    else if area.bMemoType = .fpt ∧ area.isFlex then readFlexGCdata area file table
    else some table

def fptReadGCdata (area : FptArea) (file : File) : Option GCTable :=
  (readTable area file).map fptSortGCitems

/-- The items that are written: the last ones, when there are too many. -/
def GCTable.stored (table : GCTable) : List GCItem :=
  table.pGCitems.drop (table.pGCitems.length - min table.pGCitems.length table.usMaxItem)

def sixEntry (item : GCItem) : Bytes := leBytes 2 item.ulSize ++ leBytes 4 item.ulOffset

def putSixItems (table : GCTable) : GCTable :=
  let entries := table.stored.flatMap sixEntry
  { table with
    fptHeader := (table.fptHeader.write 18 (leBytes 2 table.stored.length)).write 20
      (entries ++ replicate (492 - entries.length) 0) }

def flexEntry (area : FptArea) (item : GCItem) : Bytes :=
  leBytes 4 (item.ulOffset * area.ulMemoBlockSize) ++ leBytes 4 (item.ulSize * area.ulMemoBlockSize)

def flexRevEntry (area : FptArea) (item : GCItem) : Bytes :=
  leBytes 4 (item.ulSize % 2 ^ 16 * area.ulMemoBlockSize) ++
    leBytes 4 (item.ulOffset * area.ulMemoBlockSize)

def flexPage (ulSize usItems : Nat) (entries : Bytes) : Bytes :=
  let used := leBytes 2 (usItems * 4 + 3) ++ entries
  used ++ replicate (ulSize - used.length) 0xAD

def writeFlexPage (file : File) (page ulSize : Nat) (data : Bytes) : File :=
  (file.writeAt page (fptBlock fptitFlexGC ulSize)).writeAt (page + fptBlockSize) data

def dropFlexPages (area : FptArea) (table : GCTable) : GCTable :=
  let ulSize := area.blocksFor table.ulSize
  let ulSize := if table.ulRevPage ≠ 0 then 2 * ulSize else ulSize
  let ulOffset :=
    if table.ulRevPage ≠ 0 ∧ table.ulRevPage < table.ulDirPage then table.ulRevPage
    else table.ulDirPage
  if ulOffset / area.ulMemoBlockSize + ulSize = table.ulNextBlock then
    { table with ulDirPage := 0, ulRevPage := 0, ulNextBlock := table.ulNextBlock - ulSize }
  else table

def addFlexPages (area : FptArea) (table : GCTable) : GCTable :=
  let table := { table with ulSize := flexGCPageSize }
  let (ulDirPage, table) := fptGCgetFreeBlock area table table.ulSize false
  let (ulRevPage, table) := fptGCgetFreeBlock area table table.ulSize false
  { table with
    ulDirPage := ulDirPage * area.ulMemoBlockSize
    ulRevPage := ulRevPage * area.ulMemoBlockSize
    bChanged := table.bChanged ||| 2 }

def flexPages (area : FptArea) (table : GCTable) : GCTable :=
  let table := { table with ulCounter := table.ulCounter + 1 }
  if table.pGCitems = [] ∧ table.ulDirPage ≠ 0 then dropFlexPages area table
  else if table.pGCitems ≠ [] ∧ table.ulDirPage = 0 then addFlexPages area table
  else table

def putFlexPages (area : FptArea) (file : File) (table : GCTable) : File :=
  if table.ulDirPage ≠ 0 ∧ 1 < table.bChanged then
    let items := table.stored
    let file := writeFlexPage file table.ulDirPage table.ulSize
      (flexPage table.ulSize items.length (items.flatMap (flexEntry area)))
    if table.ulRevPage ≠ 0 then
      writeFlexPage file table.ulRevPage table.ulSize
        (flexPage table.ulSize items.length (items.flatMap (flexRevEntry area)))
    else file
  else file

def putFlexHeader (table : GCTable) : GCTable :=
  { table with
    fptHeader := table.fptHeader.write 524
      (leBytes 4 table.ulRevPage ++ leBytes 4 table.ulDirPage ++ leBytes 4 table.ulCounter) }

def putGCdata (area : FptArea) (file : File) (table : GCTable) : File × GCTable :=
  match table.bType with
  | .six => (file, putSixItems table)
  | .flex =>
    let table := flexPages area table
    (putFlexPages area file table, putFlexHeader table)
  | _ => (file, table)

def putHeader (area : FptArea) (file : File) (table : GCTable) : File × GCTable :=
  let ulHdrSize := if table.bType = .flex then fptHeaderSize else 512
  let fptHeader := table.fptHeader.write 0 (nextBlockBytes area table.ulNextBlock)
  let file := file.writeAt 0 (fptHeader.read 0 ulHdrSize)
  let file :=
    if table.ulNextBlock < table.ulPrevBlock then
      file.truncAt (area.blockOffset table.ulNextBlock)
    else file
  (file, { table with fptHeader := fptHeader, bChanged := 0 })

def fptWriteGCdata (area : FptArea) (file : File) (table : GCTable) : File × GCTable :=
  if table.bChanged = 0 then (file, table)
  else
    let (file, table) := putGCdata area file table
    let (file, table) :=
      if 1 < table.bChanged then fptWriteGCitems area file table else (file, table)
    putHeader area file table

structure MemoCall where
  ulBlock : Nat
  ulSize : Nat
  ulType : Nat
  data : Bytes

namespace MemoCall

def fRaw (call : MemoCall) : Bool := call.ulType == fptitDummy

def bWrite (area : FptArea) (call : MemoCall) : Bool :=
  call.data.length ≠ 0 ||
    (area.bMemoType == .fpt && call.ulType ≠ fptitText && call.ulType ≠ fptitBinary &&
      call.ulType ≠ fptitDummy)

def headed (area : FptArea) (call : MemoCall) : Bool := area.bMemoType == .fpt && !call.fRaw

end MemoCall

def writeFiller (area : FptArea) (file : File) (ulStored : Nat) (call : MemoCall) (fOffset : Nat) :
    File :=
  if area.bMemoType = .dbt then file.writeAt fOffset [0x1A, 0x1A]
  else if area.uiMemoVersion = .flex ∧
      (call.data.length + fptBlockSize) % area.ulMemoBlockSize ≠ 0 then
    let ulBlocks := area.blocksFor (call.data.length + fptBlockSize)
    file.writeAt (area.blockOffset (ulStored + ulBlocks) - 1) [0xAF]
  else file

def writeBlock (area : FptArea) (file : File) (ulStored : Nat) (call : MemoCall) : File :=
  let fOffset := area.blockOffset ulStored
  let (file, fOffset) :=
    if call.headed area then
      (file.writeAt fOffset (fptBlock call.ulType call.data.length), fOffset + fptBlockSize)
    else (file, fOffset)
  let file := file.writeAt fOffset call.data
  writeFiller area file ulStored call (fOffset + call.data.length)

def freeOld (area : FptArea) (file : File) (table : GCTable) (call : MemoCall) :
    Option (File × GCTable) :=
  if 0 < call.ulBlock then
    fptGCfreeBlock area file table call.ulBlock call.ulSize call.fRaw
  else some (file, table)

def takeNew (area : FptArea) (table : GCTable) (call : MemoCall) : Nat × GCTable :=
  if call.bWrite area then fptGCgetFreeBlock area table call.data.length call.fRaw
  else (0, table)

def writeNew (area : FptArea) (file : File) (ulStored : Nat) (call : MemoCall) : File :=
  if call.bWrite area then writeBlock area file ulStored call else file

/-- The file after the call and the block that was stored. -/
def fptWriteMemo (area : FptArea) (file : File) (call : MemoCall) : Option (File × Nat) :=
  if call.ulBlock = 0 ∧ call.bWrite area = false then some (file, 0)
  else do
    let table ← fptReadGCdata area file
    let (file, table) ← freeOld area file table call
    let (ulStored, table) := takeNew area table call
    let file := writeNew area file ulStored call
    some ((fptWriteGCdata area file table).1, ulStored)

def headerSize (area : FptArea) : Nat := if area.isFlex then fptHeaderSize else 512

def signature1 (area : FptArea) : Bytes :=
  if area.uiMemoVersion = .six then [0x53, 0x49, 0x78, 0x4D, 0x65, 0x6D, 0x6F, 0]
  else [0x48, 0x61, 0x72, 0x62, 0x6F, 0x75, 0x72, 0]

def signature2 (area : FptArea) : Bytes :=
  if area.isFlex then [0x46, 0x6C, 0x65, 0x78, 0x46, 0x69, 0x6C, 0x65, 0x33, 0x03, 0] else []

/-- The number of bytes of the file that `hb_fptCreateMemFile` makes: its loop pads with zeros
up to the rest of the last header block. -/
def createdSize (area : FptArea) : Nat :=
  let ulSize := headerSize area
  max ulSize (area.blocksFor ulSize * area.ulMemoBlockSize - ulSize)

/-- `hb_fptCreateMemFile`; `flexSize` is put into the header by the BLOB driver. -/
def fptCreateMemFile (area : FptArea) (blob : Bool) : File :=
  let blockSize := if area.bMemoType = .fpt then beBytes 4 area.ulMemoBlockSize
    else leBytes 4 area.ulMemoBlockSize
  let blank : File := ⟨fun _ => 0, 0, fun _ _ => rfl⟩
  let file := (blank.truncAt (createdSize area)).writeAt 0
    (nextBlockBytes area (area.blocksFor (headerSize area)) ++ blockSize ++ signature1 area)
  let file := file.writeAt 512 (signature2 area)
  if blob && area.isFlex then file.writeAt 540 (leBytes 2 area.ulMemoBlockSize) else file

end Harbour.Rdd.FptStore
