import Harbour.Library.Memory

/-!
The pages of a CDX index and the codec of its leaf pages.

The node of a page is a memory that starts with the page's bytes; behind them lies the
buffer of one key that `hb_cdxPageNew` allocates with the page. An internal error is `none`.
-/

namespace Harbour.Rdd.CdxLeaf

open Library.Memory Library.Bytes

abbrev intHeadSize : Nat := 12

abbrev extHeadSize : Nat := 24

def pageBits : (fuel uiPageSize uiPageBits : Nat) → Nat
  | 0, _, uiPageBits => uiPageBits
  | fuel + 1, uiPageSize, uiPageBits =>
    if 1 <<< uiPageBits < uiPageSize then pageBits fuel uiPageSize (uiPageBits + 1)
    else uiPageBits

/-- The page bits and the maximum key length for a page size that is accepted. -/
def cdxSetPageSize (uiPageSize uiHeaderSize : Nat) : Option (Nat × Nat) :=
  if 512 ≤ uiPageSize ∧ uiPageSize ≤ 0x2000 ∧ (uiPageSize - 1) &&& uiPageSize = 0 ∧
      uiHeaderSize = 1024 then
    if 512 < uiPageSize then
      some (pageBits uiPageSize uiPageSize 9, (uiPageSize - intHeadSize) / 2 - 8)
    else some (9, 240)
  else none

structure CdxIndex where
  fLargeFile : Bool
  uiHeaderLen : Nat
  uiPageLen : Nat
  uiPageBits : Nat
  uiMaxKeyLen : Nat
  sized : cdxSetPageSize uiPageLen uiHeaderLen = some (uiPageBits, uiMaxKeyLen)

structure CdxTag where
  pIndex : CdxIndex
  uiLen : Nat
  bTrail : UInt8
  uiLen_pos : 0 < uiLen
  uiLen_le : uiLen ≤ pIndex.uiMaxKeyLen

structure LeafKey where
  val : Bytes
  recNo : UInt32
  dup : UInt16
  trl : UInt16
  deriving DecidableEq, Repr

structure Page where
  page : UInt32
  left : UInt32
  right : UInt32
  iKeys : Nat
  rnMask : Nat
  dcMask : Nat
  tcMask : Nat
  rnBits : Nat
  dcBits : Nat
  tcBits : Nat
  reqByte : Nat
  pageType : UInt8
  fChanged : Bool
  fBufChanged : Bool
  bufKeyNum : Nat
  bufKeyPos : Nat
  bufKeyLen : Nat
  iFree : Int
  pKeyBuf : Option (List LeafKey)
  node : Mem

def bitMask (bits : Nat) : Nat := 2 ^ bits - 1

def Page.isLeaf (page : Page) : Bool := page.pageType &&& 2 != 0

def lenBits (iLen : Nat) : Nat :=
  if iLen = 0 then 0 else lenBits (iLen / 2) + 1

def cdxPageLeafInitSpace (tag : CdxTag) (page : Page) : Page :=
  let bBits := lenBits tag.uiLen
  let reqByte := if bBits > 12 then 5 else if bBits > 8 then 4 else 3
  let rnBits := 8 * reqByte - 2 * bBits
  { page with
    reqByte := reqByte
    rnBits := rnBits
    dcBits := bBits
    tcBits := bBits
    dcMask := bitMask bBits
    tcMask := bitMask bBits
    rnMask := bitMask rnBits
    iFree := (tag.pIndex.uiPageLen : Int) - extHeadSize }

/-- The record number mask, the bytes of a record and the size of `iKeys` records and a key. -/
structure Width where
  rnMask : Nat
  rnBits : Nat
  reqByte : Nat
  iSize : Int

theorem widened_mask (rnMask : Nat) : rnMask <<< 8 ||| 0xFF = rnMask * 256 + 255 := by
  rw [← Nat.shiftLeft_add_eq_or_of_lt (show 0xFF < 2 ^ 8 by decide), Nat.shiftLeft_eq]

def widen (ulRec iKey : Nat) (w : Width) : Width :=
  if w.rnMask < ulRec then
    widen ulRec iKey
      { rnMask := w.rnMask <<< 8 ||| 0xFF
        rnBits := w.rnBits + 8
        reqByte := w.reqByte + 1
        iSize := w.iSize + (iKey + 1) }
  else w
termination_by ulRec - w.rnMask
decreasing_by
  rw [widened_mask]
  omega

/-- The loop of `hb_cdxPageCalcLeafSpace`; the local mask and byte count are those of the
page whenever the loop goes on. -/
def calcLeafSpace (tag : CdxTag) : List LeafKey → Page → Page
  | [], page => page
  | key :: keys, page =>
    let iSize : Int := page.reqByte + tag.uiLen - key.dup.toNat - key.trl.toNat
    let w := widen key.recNo.toNat page.iKeys ⟨page.rnMask, page.rnBits, page.reqByte, iSize⟩
    if w.iSize > page.iFree then page
    else
      calcLeafSpace tag keys
        { page with
          rnMask := w.rnMask
          rnBits := w.rnBits
          reqByte := w.reqByte
          iFree := page.iFree - w.iSize
          iKeys := page.iKeys + 1 }

def clearFirstDup : List LeafKey → List LeafKey
  | [] => []
  | key :: keys => { key with dup := 0 } :: keys

def cdxPageCalcLeafSpace (tag : CdxTag) (page : Page) (pKeyBuf : List LeafKey) :
    Page × List LeafKey :=
  let pKeyBuf := clearFirstDup pKeyBuf
  (calcLeafSpace tag pKeyBuf { cdxPageLeafInitSpace tag page with iKeys := 0 }, pKeyBuf)

def leafRecordBytes (iFrom : Nat) : (n i ulRec iBits : Nat) → Bytes
  | 0, _, _, _ => []
  | n + 1, i, ulRec, iBits =>
    if iFrom ≤ i then
      (UInt8.ofNat ulRec ||| UInt8.ofNat iBits) ::
        leafRecordBytes iFrom n (i + 1) (ulRec >>> 8) (iBits >>> 8)
    else UInt8.ofNat ulRec :: leafRecordBytes iFrom n (i + 1) (ulRec >>> 8) iBits

def cdxSetLeafRecord (ulRec iDup iTrl iReq iDCbits iTCbits : Nat) : Bytes :=
  let iFrom := (iTCbits + iDCbits + 7) / 8
  let iBits := (iTrl <<< iDCbits ||| iDup) <<< (8 * iFrom - iTCbits - iDCbits)
  leafRecordBytes (iReq - iFrom) iReq 0 ulRec iBits

/-- The loop of `hb_cdxPageLeafEncode`: the ends of the record and key areas and the node. -/
def leafEncode (tag : CdxTag) (page : Page) :
    List LeafKey → (pRecPos pKeyPos : Nat) → Mem → Option (Nat × Nat × Mem)
  | [], pRecPos, pKeyPos, node => some (pRecPos, pKeyPos, node)
  | key :: keys, pRecPos, pKeyPos, node =>
    if tag.uiLen < key.trl.toNat + key.dup.toNat then none
    else
      let iTmp := tag.uiLen - key.trl.toNat - key.dup.toNat
      let node := node.write pRecPos
        (cdxSetLeafRecord key.recNo.toNat key.dup.toNat key.trl.toNat page.reqByte page.dcBits
          page.tcBits)
      let node := node.write (pKeyPos - iTmp) ((key.val.drop key.dup.toNat).take iTmp)
      leafEncode tag page keys (pRecPos + page.reqByte) (pKeyPos - iTmp) node

def cdxPageLeafEncode (tag : CdxTag) (page : Page) (pKeyBuf : List LeafKey) (iKeys : Nat) :
    Option Page := do
  guard page.isLeaf
  let (pRecPos, pKeyPos, node) ←
    leafEncode tag page (pKeyBuf.take iKeys) extHeadSize tag.pIndex.uiPageLen page.node
  guard ((pKeyPos : Int) - pRecPos = page.iFree ∧ 0 ≤ page.iFree)
  some
    { page with
      node := node.write pRecPos (List.replicate (pKeyPos - pRecPos) 0)
      iKeys := iKeys
      fChanged := true
      bufKeyNum := 0 }

def recordBits (page : Page) (pRec : Nat) : Nat :=
  getLE page.node (pRec + page.reqByte - 4) 4 >>> (32 - page.tcBits - page.dcBits)

def leafDecode (tag : CdxTag) (page : Page) :
    (n iKey pRec pSrc : Nat) → (prev : Bytes) → Option (List LeafKey)
  | 0, _, _, _, _ => some []
  | n + 1, iKey, pRec, pSrc, prev => do
    let iTmp := recordBits page pRec
    let iDup := if iKey = 0 then 0 else iTmp &&& page.dcMask
    let iTrl := (iTmp >>> page.dcBits) &&& page.tcMask
    guard (iDup + iTrl ≤ tag.uiLen)
    let iNew := tag.uiLen - iDup - iTrl
    let val := prev.take iDup ++ page.node.read (pSrc - iNew) iNew ++
      List.replicate iTrl tag.bTrail
    let ulRec := getLE page.node pRec 4 &&& page.rnMask
    let keys ← leafDecode tag page n (iKey + 1) (pRec + page.reqByte) (pSrc - iNew) val
    some (⟨val, UInt32.ofNat ulRec, UInt16.ofNat iDup, UInt16.ofNat iTrl⟩ :: keys)

def cdxPageLeafDecode (tag : CdxTag) (page : Page) : Option (List LeafKey) := do
  guard page.isLeaf
  leafDecode tag page page.iKeys 0 extHeadSize tag.pIndex.uiPageLen []

def cacheNextKey (tag : CdxTag) (page : Page) : Option Page := do
  let iTmp := recordBits page (extHeadSize + page.bufKeyNum * page.reqByte)
  let iDup := if page.bufKeyNum = 0 then 0 else iTmp &&& page.dcMask
  let iTrl := (iTmp >>> page.dcBits) &&& page.tcMask
  guard (iDup + iTrl ≤ tag.uiLen)
  let iTmp := tag.uiLen - iDup - iTrl
  let bufKeyPos := page.bufKeyPos - iTmp
  let pKeyVal := tag.pIndex.uiPageLen
  let node := page.node.write (pKeyVal + iDup) (page.node.read (extHeadSize + bufKeyPos) iTmp)
  let node := node.write (pKeyVal + (tag.uiLen - iTrl))
    (List.replicate (page.bufKeyLen - (tag.uiLen - iTrl)) tag.bTrail)
  some
    { page with
      node := node
      bufKeyPos := bufKeyPos
      bufKeyLen := tag.uiLen - iTrl
      bufKeyNum := page.bufKeyNum + 1 }

def cacheKeys (tag : CdxTag) : (n : Nat) → Page → Option Page
  | 0, page => some page
  | n + 1, page => (cacheNextKey tag page).bind (cacheKeys tag n)

def rewindCache (tag : CdxTag) (page : Page) (iKey : Nat) : Page :=
  let page := if iKey + 1 < page.bufKeyNum then { page with bufKeyNum := 0 } else page
  if page.bufKeyNum = 0 then
    { page with
      bufKeyPos := tag.pIndex.uiPageLen - extHeadSize
      bufKeyLen := tag.uiLen }
  else page

/-- The page and the key that the returned pointer shows. -/
def cdxPageGetKeyVal (tag : CdxTag) (page : Page) (iKey : Nat) : Option (Page × Bytes) := do
  guard (iKey < page.iKeys)
  match page.pKeyBuf with
  | some pKeyBuf => (pKeyBuf[iKey]?).map fun key => (page, key.val)
  | none =>
    if page.isLeaf then
      let page := rewindCache tag page iKey
      let page ← cacheKeys tag (iKey + 1 - page.bufKeyNum) page
      some (page, page.node.read tag.pIndex.uiPageLen tag.uiLen)
    else some (page, page.node.read (intHeadSize + iKey * (tag.uiLen + 8)) tag.uiLen)

def cdxPageGetKeyRec (tag : CdxTag) (page : Page) (iKey : Nat) : Option Nat := do
  guard (iKey < page.iKeys)
  match page.pKeyBuf with
  | some pKeyBuf => (pKeyBuf[iKey]?).map fun key => key.recNo.toNat
  | none =>
    if page.isLeaf then
      some (getLE page.node (extHeadSize + iKey * page.reqByte) 4 &&& page.rnMask)
    else some (getBE page.node (intHeadSize + (iKey + 1) * (tag.uiLen + 8) - 8) 4)

def cdxPageGetKeyTrl (page : Page) (iKey : Nat) : Option Nat :=
  match page.pKeyBuf with
  | some pKeyBuf => (pKeyBuf[iKey]?).map fun key => key.trl.toNat
  | none =>
    some ((getLE page.node (extHeadSize + (iKey + 1) * page.reqByte - 4) 4 >>>
      (32 - page.tcBits)) &&& page.tcMask)

def cdxFilePageOffset (index : CdxIndex) (ulPage : UInt32) : Nat :=
  ulPage.toNat <<< (if index.fLargeFile then index.uiPageBits else 0)

def cdxIndexPageWrite (index : CdxIndex) (file : Mem) (ulPage : UInt32) (buffer : Bytes) : Mem :=
  file.write (cdxFilePageOffset index ulPage) buffer

def cdxIndexPageRead (index : CdxIndex) (file : Mem) (ulPage : UInt32) : Bytes :=
  file.read (cdxFilePageOffset index ulPage) index.uiPageLen

def intHeader (page : Page) : Bytes :=
  leBytes 2 page.pageType.toNat ++ leBytes 2 page.iKeys ++ leBytes 4 page.left.toNat ++
    leBytes 4 page.right.toNat

def extHeader (page : Page) : Bytes :=
  leBytes 2 (unsigned 16 page.iFree) ++ leBytes 4 page.rnMask ++
    (if page.dcBits ≤ 8 then [UInt8.ofNat page.dcMask, UInt8.ofNat page.tcMask]
    else leBytes 2 page.dcMask) ++
    [UInt8.ofNat page.rnBits, UInt8.ofNat page.dcBits, UInt8.ofNat page.tcBits,
      UInt8.ofNat page.reqByte]

/-- The part of `hb_cdxPageStore` for leaf pages: the header, and the keys that wait in the
buffer. -/
def storeLeaf (tag : CdxTag) (page : Page) : Option Page :=
  let page := { page with node := page.node.write intHeadSize (extHeader page) }
  match page.pKeyBuf with
  | some pKeyBuf =>
    if page.fBufChanged then
      (cdxPageLeafEncode tag page pKeyBuf page.iKeys).map
        fun page => { page with fBufChanged := false }
    else some page
  | none => some page

def cdxPageStore (tag : CdxTag) (page : Page) (file : Mem) : Option (Page × Mem) := do
  guard (page.page ≠ 0 ∧ page.page ≠ 0xFFFFFFFF)
  guard (if page.isLeaf then 0 ≤ page.iFree
    else page.iKeys ≤ (tag.pIndex.uiPageLen - intHeadSize) / (tag.uiLen + 8))
  let page := { page with node := page.node.write 0 (intHeader page) }
  let page ← if page.isLeaf then storeLeaf tag page else some page
  some ({ page with fChanged := false },
    cdxIndexPageWrite tag.pIndex file page.page (page.node.read 0 tag.pIndex.uiPageLen))

def cdxPageLoad (tag : CdxTag) (page : Page) (file : Mem) : Page :=
  let node := page.node.write 0 (cdxIndexPageRead tag.pIndex file page.page)
  let page :=
    { page with
      pKeyBuf := none
      fBufChanged := if page.pKeyBuf.isSome then false else page.fBufChanged
      node := node
      pageType := UInt8.ofNat (getLE node 0 2)
      left := UInt32.ofNat (getLE node 4 4)
      right := UInt32.ofNat (getLE node 8 4)
      iKeys := getLE node 2 2
      fChanged := false }
  if page.isLeaf then
    let dcBits := getLE node 21 1
    let tcBits := getLE node 22 1
    { page with
      rnBits := getLE node 20 1
      dcBits := dcBits
      tcBits := tcBits
      dcMask := if dcBits ≤ 8 then getLE node 18 1 else bitMask dcBits
      tcMask := if dcBits ≤ 8 then getLE node 19 1 else bitMask tcBits
      rnMask := getLE node 14 4
      reqByte := getLE node 23 1
      iFree := signed 16 (getLE node 12 2)
      bufKeyNum := 0 }
  else page

end Harbour.Rdd.CdxLeaf
