import Harbour.Rdd.NsxLeafCodec

/-!
A key is inserted into an NSX leaf page, which is split where it does not fit.

The branch pages above are not part of it: the key that a split moves up is returned.
-/

namespace Harbour.Rdd.NsxLeafInsert

open Library.Memory Library.Bytes NsxLeaf NsxLeafCodec List

abbrev NSX_LEAFSPLITOFFSET : Nat := 592

abbrev NSX_ROOTPAGE : UInt8 := 1

abbrev NSX_LEAFPAGE : UInt8 := 2

structure KeyInfo where
  val : Bytes
  recNo : Nat

structure PageInfo where
  buffer : Mem
  uiKeys : Nat
  uiOffset : Nat

def hb_nsxGetRecSize (r : Nat) : Nat := if r < 0x10000 then 2 else if r < 0x1000000 then 3 else 4

def hb_nsxSetKeyRecSize (page : Mem) (n : UInt8) : Mem := page.write 1 [n]

def hb_nsxSetPageType (page : Mem) (t : UInt8) : Mem := page.write 0 [t]

inductive Failure where
  | bounds
  | corrupt
  | internal (text : String)

structure Collected where
  pKeyBuff : List KeyInfo := []
  uiKeyOffset : Nat := 0
  uiHalfOffset : Nat := 0
  uiHalfKeys : Nat := 0

/-- The split is to be before the first key that starts behind `NSX_LEAFSPLITOFFSET`. -/
def halfAt (uiOffset uiKey : Nat) (half : Nat × Nat) : Nat × Nat :=
  if half.1 = 0 ∧ NSX_LEAFSPLITOFFSET ≤ uiOffset then (uiOffset, uiKey) else half

section

variable (tag : Tag)

def collectKeys (page : PageInfo) (uiKey : Nat) (pKey : KeyInfo) :
    (n u uiOffset : Nat) → (pKeyVal : Mem) → Collected → Except Failure Collected
  | 0, _, _, _, found => .ok found
  | n + 1, u, uiOffset, pKeyVal, found =>
    if u = uiKey then
      collectKeys page uiKey pKey n (u + 1) uiOffset pKeyVal
        { found with uiKeyOffset := uiOffset, pKeyBuff := found.pKeyBuff ++ [pKey] }
    else
      let half := if u < uiKey then halfAt uiOffset u (found.uiHalfOffset, found.uiHalfKeys)
        else (found.uiHalfOffset, found.uiHalfKeys)
      match hb_nsxLeafGetKey page.buffer page.uiOffset tag uiOffset pKeyVal 0 with
      | none => .error .bounds
      | some (0, _, _) => .error .corrupt
      | some (uiOffset, pKeyVal, ulRecNo) =>
        collectKeys page uiKey pKey n (u + 1) uiOffset pKeyVal
          { found with
            pKeyBuff := found.pKeyBuff ++ [⟨pKeyVal.read 0 tag.KeyLength, ulRecNo⟩]
            uiHalfOffset := half.1
            uiHalfKeys := half.2 }

def putKey (page : PageInfo) (pKeyPrev : Option Bytes) (key : KeyInfo) : PageInfo :=
  let (buffer, uiOffset) :=
    hb_nsxLeafPutKey tag page.buffer page.uiOffset pKeyPrev key.val key.recNo
  { page with buffer := buffer, uiOffset := uiOffset }

def putNew (page : PageInfo) (pKeyPrev : Option Bytes) :
    (keys : List KeyInfo) → Except Failure PageInfo
  | [] => .ok page
  | key :: keys =>
    let page := putKey tag page pKeyPrev key
    if page.uiOffset = 0 then
      .error (.internal "hb_nsxTagInsertKey: multiple leaf page split")
    else putNew page (some key.val) keys

inductive Inserted where
  | kept (pPage : PageInfo)
  | split (pPage pNewPage : PageInfo) (pNewKey : KeyInfo)

def newLeaf (newBuffer : Mem) (ucRecSize : UInt8) (uiKeys : Nat) : PageInfo where
  buffer := hb_nsxSetKeyRecSize (hb_nsxSetPageType newBuffer NSX_LEAFPAGE) ucRecSize
  uiKeys := uiKeys
  uiOffset := NSX_LEAFKEYOFFSET

def cutPage (page : PageInfo) (half : Nat × Nat) : PageInfo where
  buffer := hb_nsxSetPageType page.buffer (page.buffer 0 &&& ~~~NSX_ROOTPAGE)
  uiKeys := half.2
  uiOffset := half.1

def splitPage (newBuffer : Mem) (pKeyBuff : List KeyInfo) (page : PageInfo) (half : Nat × Nat) :
    Except Failure Inserted :=
  match pKeyBuff.drop half.2 with
  | [] => .error .bounds
  | pNewKey :: keys => do
    let pNewPage ← putNew tag (newLeaf newBuffer (hb_nsxGetKeyRecSize page.buffer)
      (pKeyBuff.length - 1 - half.2)) (some pNewKey.val) keys
    .ok (.split (cutPage page half) pNewPage pNewKey)

def putKeys (newBuffer : Mem) (pKeyBuff : List KeyInfo) :
    (page : PageInfo) → (uiKey : Nat) → (half : Nat × Nat) → (pKeyPrev : Option Bytes) →
      (keys : List KeyInfo) → Except Failure Inserted
  | page, _, _, _, [] => .ok (.kept page)
  | page, uiKey, half, pKeyPrev, key :: keys =>
    let half := halfAt page.uiOffset uiKey half
    let page := putKey tag page pKeyPrev key
    if page.uiOffset = 0 then
      if half.1 = 0 then .error (.internal "hb_nsxTagInsertKey: split offset not set")
      else splitPage tag newBuffer pKeyBuff page half
    else putKeys newBuffer pKeyBuff page (uiKey + 1) half (some key.val) keys

/--
`prevKey` is what `hb_nsxTagGetPrevKey` finds on the stack, `newBuffer` a page from `hb_nsxPageNew`
and `pKeyVal` the buffer on the C stack.
-/
def hb_nsxTagInsertKey (prevKey : Option Bytes) (newBuffer pKeyVal : Mem) (page : PageInfo)
    (uiKey : Nat) (pKey : KeyInfo) (pKeyPrev : Option Bytes) : Except Failure Inserted := do
  let pKeyVal := (pKeyPrev.or prevKey).elim pKeyVal (pKeyVal.write 0)
  let found ← collectKeys tag page uiKey pKey (page.uiKeys + 1) 0 NSX_LEAFKEYOFFSET pKeyVal {}
  let page := { page with uiKeys := page.uiKeys + 1 }
  if (hb_nsxGetKeyRecSize page.buffer).toNat < hb_nsxGetRecSize pKey.recNo then
    putKeys tag newBuffer found.pKeyBuff
      { page with
        buffer := hb_nsxSetKeyRecSize page.buffer (UInt8.ofNat (hb_nsxGetRecSize pKey.recNo))
        uiOffset := NSX_LEAFKEYOFFSET }
      0 (0, 0) prevKey found.pKeyBuff
  else
    putKeys tag newBuffer found.pKeyBuff { page with uiOffset := found.uiKeyOffset } uiKey
      (found.uiHalfOffset, found.uiHalfKeys)
      (if uiKey = 0 then prevKey else (found.pKeyBuff[uiKey - 1]?).map (·.val))
      (found.pKeyBuff.drop uiKey)

end

variable {a hi lo n ucDupCount ucSize uiOffset' : Nat} {buf buf' : Mem} {half : Nat × Nat}

variable {recLen uiOffset : Nat}

section Frame

variable {page page' : Mem} {used used' : Nat} {tag : Tag}

structure Same (page page' : Mem) (used used' lo hi : Nat) : Prop where
  bytes : ∀ a, lo ≤ a → a < hi → page' a = page a
  used : hi ≤ used
  used' : hi ≤ used'

theorem Same.mono {lo' hi' : Nat} (h : Same page page' used used' lo hi) (hlo : lo ≤ lo')
    (hhi : hi' ≤ hi) : Same page page' used used' lo' hi' :=
  ⟨fun a ha ha' => h.bytes a (hlo.trans ha) (ha'.trans_le hhi), hhi.trans h.used,
    hhi.trans h.used'⟩

theorem Same.getByte (h : Same page page' used used' lo hi) (hlo : lo ≤ a) (hhi : a < hi) :
    getByte page' used' a = getByte page used a := by
  rw [getByte_eq (hhi.trans_le h.used'), getByte_eq (hhi.trans_le h.used), h.bytes a hlo hhi]

theorem Same.getBytes (h : Same page page' used used' lo hi) (hlo : lo ≤ a) (hhi : a + n ≤ hi) :
    getBytes page' used' a n = getBytes page used a n := by
  rw [getBytes_eq (hhi.trans h.used'), getBytes_eq (hhi.trans h.used)]
  exact congrArg some (Mem.read_congr fun k hk hk' => h.bytes k (hlo.trans hk) (by omega))

theorem unpackLoop_same (len ucSize uiOffset ucDupCount : Nat) (buf : Mem)
    (h : Same page page' used used' uiOffset (uiOffset + ucSize)) :
    unpackLoop page' used' len ucSize uiOffset ucDupCount buf =
      unpackLoop page used len ucSize uiOffset ucDupCount buf := by
  induction ucSize using Nat.strong_induction_on generalizing uiOffset ucDupCount buf with
  | _ ucSize ih =>
    cases ucSize with
    | zero => rw [unpackLoop, unpackLoop]
    | succ n =>
      rw [unpackLoop, unpackLoop, h.getByte (by omega) (by omega)]
      refine bind_congr fun uc => ?_
      split
      · cases n with
        | zero => rfl
        | succ n =>
          rw [h.getByte (by omega) (by omega)]
          refine bind_congr fun ucRepl => ?_
          split
          · cases n with
            | zero => rfl
            | succ n =>
              dsimp only
              split
              · rfl
              · rw [h.getByte (by omega) (by omega)]
                refine bind_congr fun uc => bind_congr fun buf' => ?_
                exact ih n (by omega) _ _ _ (h.mono (by omega) (by omega))
          · split
            · rfl
            · exact bind_congr fun buf' => ih n (by omega) _ _ _ (h.mono (by omega) (by omega))
      · split
        · rfl
        · exact bind_congr fun buf' => ih n (by omega) _ _ _ (h.mono (by omega) (by omega))

theorem unpackLoop_offset {len ucDupCount' : Nat}
    (h : unpackLoop page used len ucSize uiOffset ucDupCount buf =
      some (some (uiOffset', ucDupCount'), buf')) : uiOffset' = uiOffset + ucSize := by
  induction ucSize using Nat.strong_induction_on generalizing uiOffset ucDupCount buf with
  | _ ucSize ih =>
    cases ucSize with
    | zero =>
      cases h
      rfl
    | succ n =>
      rw [unpackLoop] at h
      obtain ⟨uc, -, h⟩ := Option.bind_eq_some_iff.mp h
      split at h
      · cases n with
        | zero => cases h
        | succ n =>
          obtain ⟨ucRepl, -, h⟩ := Option.bind_eq_some_iff.mp h
          split at h
          · cases n with
            | zero => cases h
            | succ n =>
              dsimp only at h
              split at h
              · cases h
              · obtain ⟨uc, -, h⟩ := Option.bind_eq_some_iff.mp h
                obtain ⟨buf', -, h⟩ := Option.bind_eq_some_iff.mp h
                have := ih n (by omega) h
                omega
          · split at h
            · cases h
            · obtain ⟨buf', -, h⟩ := Option.bind_eq_some_iff.mp h
              have := ih (n + 1 - 1) (by omega) h
              omega
      · split at h
        · cases h
        · obtain ⟨buf', -, h⟩ := Option.bind_eq_some_iff.mp h
          have := ih n (by omega) h
          omega

theorem getChars_same (h : Same page page' used used' uiOffset (uiOffset + ucSize)) :
    getChars page' used' tag ucSize uiOffset ucDupCount buf =
      getChars page used tag ucSize uiOffset ucDupCount buf := by
  unfold getChars
  dsimp only
  rw [h.getBytes le_rfl le_rfl, unpackLoop_same _ _ _ _ _ h]

theorem getChars_offset
    (h : getChars page used tag ucSize uiOffset ucDupCount buf = some (uiOffset', buf'))
    (hne : uiOffset' ≠ 0) : uiOffset' = uiOffset + ucSize := by
  unfold getChars at h
  dsimp only at h
  split at h
  · obtain ⟨bytes, -, h⟩ := Option.bind_eq_some_iff.mp h
    obtain ⟨buf'', -, h⟩ := Option.bind_eq_some_iff.mp h
    cases h
    rfl
  · split at h
    · cases h
      exact absurd rfl hne
    · obtain ⟨⟨found, buf''⟩, hloop, h⟩ := Option.bind_eq_some_iff.mp h
      cases found with
      | none =>
        cases h
        exact absurd rfl hne
      | some found =>
        obtain ⟨out, -, h⟩ := Option.bind_eq_some_iff.mp h
        cases h
        exact unpackLoop_offset hloop

theorem hb_nsxLeafGetKey_same {ulRecNo ulRecNo' : Nat}
    (h : hb_nsxLeafGetKey page used tag uiOffset buf ulRecNo = some (uiOffset', buf', ulRecNo'))
    (hne : uiOffset' ≠ 0) (hrec : hb_nsxGetKeyRecSize page' = hb_nsxGetKeyRecSize page)
    (hbytes : ∀ a, uiOffset ≤ a → a < uiOffset' → page' a = page a) (hused : uiOffset' ≤ used') :
    hb_nsxLeafGetKey page' used' tag uiOffset buf ulRecNo = some (uiOffset', buf', ulRecNo') := by
  unfold hb_nsxLeafGetKey at h ⊢
  dsimp only at h ⊢
  rw [hrec]
  generalize hb_nsxGetKeyRecSize page = ucRecLen at *
  split at h
  · cases h
    exact absurd rfl hne
  · next hhead =>
    split at h
    · cases h
      exact absurd rfl hne
    · next hsize =>
      rw [if_neg hsize]
      obtain ⟨recBytes, hrecBytes, h⟩ := Option.bind_eq_some_iff.mp h
      obtain ⟨ucSize, hucSize, h⟩ := Option.bind_eq_some_iff.mp h
      split at h
      · next hother =>
        split at h
        · cases h
          exact absurd rfl hne
        · next hlong =>
          obtain ⟨ucDupCount, hdup, h⟩ := Option.bind_eq_some_iff.mp h
          obtain ⟨chars, hchars, h⟩ := Option.bind_eq_some_iff.mp h
          cases h
          have hend := getChars_offset hchars hne
          have hsame : Same page page' used used' uiOffset chars.1 :=
            ⟨hbytes, by omega, hused⟩
          rw [if_neg (by omega), hsame.getBytes le_rfl (by omega), hrecBytes, Option.bind_eq_bind,
            Option.bind_some, hsame.getByte (by omega) (by omega), hucSize, Option.bind_eq_bind,
            Option.bind_some, if_pos hother, if_neg (by omega),
            hsame.getByte (by omega) (by omega), hdup, Option.bind_eq_bind, Option.bind_some,
            getChars_same (hsame.mono (by omega) (by omega)), hchars]
          rfl
      · next hdup =>
        cases h
        have hsame : Same page page' used used' uiOffset (uiOffset + ucRecLen.toNat + 1) :=
          ⟨hbytes, by omega, hused⟩
        rw [if_neg (by omega), hsame.getBytes le_rfl (by omega), hrecBytes, Option.bind_eq_bind,
          Option.bind_some, hsame.getByte (by omega) (by omega), hucSize, Option.bind_eq_bind,
          Option.bind_some, if_neg hdup]

end Frame

section Slots

variable {tag : Tag} {page page' : Mem} {used used' : Nat} {prev : Option Bytes}

structure Slot where
  size : Nat
  key : KeyInfo

def keysOf (slots : List Slot) : List KeyInfo := slots.map (·.key)

def totalSize (slots : List Slot) : Nat := (slots.map (·.size)).sum

def lastKey (prev : Option Bytes) (slots : List Slot) : Option Bytes :=
  slots.foldl (fun _ slot => some slot.key.val) prev

def splitIndex : (uiOffset : Nat) → List Slot → Nat
  | _, [] => 0
  | uiOffset, slot :: slots =>
    if NSX_LEAFSPLITOFFSET ≤ uiOffset then 0 else splitIndex (uiOffset + slot.size) slots + 1

@[simp] theorem keysOf_length (slots : List Slot) : (keysOf slots).length = slots.length :=
  length_map ..

@[simp] theorem keysOf_append (slots slots' : List Slot) :
    keysOf (slots ++ slots') = keysOf slots ++ keysOf slots' :=
  map_append ..

@[simp] theorem totalSize_nil : totalSize [] = 0 := rfl

@[simp] theorem totalSize_cons (slot : Slot) (slots : List Slot) :
    totalSize (slot :: slots) = slot.size + totalSize slots :=
  sum_cons ..

@[simp] theorem totalSize_append (slots slots' : List Slot) :
    totalSize (slots ++ slots') = totalSize slots + totalSize slots' := by
  unfold totalSize
  rw [map_append, sum_append]

@[simp] theorem lastKey_nil : lastKey prev [] = prev := rfl

@[simp] theorem lastKey_append (slots : List Slot) (slot : Slot) :
    lastKey prev (slots ++ [slot]) = some slot.key.val :=
  foldl_concat ..

theorem splitIndex_append (uiOffset : Nat) (slots slots' : List Slot) :
    splitIndex uiOffset (slots ++ slots') =
      if splitIndex uiOffset slots < slots.length then splitIndex uiOffset slots
      else slots.length + splitIndex (uiOffset + totalSize slots) slots' := by
  induction slots generalizing uiOffset with
  | nil => simp [splitIndex]
  | cons slot slots ih =>
    rw [cons_append, splitIndex, splitIndex, ih, totalSize_cons, length_cons]
    split
    · rw [if_pos (Nat.succ_pos _)]
    · simp only [Nat.add_lt_add_iff_right]
      split
      · rfl
      · rw [Nat.add_assoc uiOffset]
        omega

def putSize (tag : Tag) (recLen : Nat) (prev : Option Bytes) (key : Bytes) : Nat :=
  min (packedSize tag prev key recLen) (rawSize tag prev key recLen)

def putSlots (tag : Tag) (recLen : Nat) : (prev : Option Bytes) → List KeyInfo → List Slot
  | _, [] => []
  | prev, key :: keys =>
    ⟨putSize tag recLen prev key.val, key⟩ :: putSlots tag recLen (some key.val) keys

@[simp] theorem keysOf_putSlots (prev : Option Bytes) (keys : List KeyInfo) :
    keysOf (putSlots tag recLen prev keys) = keys := by
  induction keys generalizing prev with
  | nil => rfl
  | cons key keys ih => exact congrArg (key :: ·) (ih _)

/-- A key that a record number of some size can be stored with. -/
structure ValidKey (tag : Tag) (recLen : Nat) (key : KeyInfo) : Prop where
  length : key.val.length = tag.KeyLength
  recNo : key.recNo < 256 ^ recLen

structure Reads (tag : Tag) (page : Mem) (used uiOffset : Nat) (prev : Option Bytes)
    (slot : Slot) : Prop where
  valid : ValidKey tag (hb_nsxGetKeyRecSize page).toNat slot.key
  fits : uiOffset + slot.size ≤ used
  get : ∀ buf ulRecNo, (∀ p ∈ prev, buf.read 0 tag.KeyLength = p) →
    ∃ buf', hb_nsxLeafGetKey page used tag uiOffset buf ulRecNo =
      some (uiOffset + slot.size, buf', slot.key.recNo) ∧
      buf'.read 0 tag.KeyLength = slot.key.val

def Holds (tag : Tag) (page : Mem) (used : Nat) :
    (uiOffset : Nat) → (prev : Option Bytes) → List Slot → Prop
  | _, _, [] => True
  | uiOffset, prev, slot :: slots => Reads tag page used uiOffset prev slot ∧
    Holds tag page used (uiOffset + slot.size) (some slot.key.val) slots

theorem Reads.frame {slot : Slot} (h : Reads tag page used uiOffset prev slot)
    (hpos : 0 < uiOffset) (hrec : hb_nsxGetKeyRecSize page' = hb_nsxGetKeyRecSize page)
    (hbytes : ∀ a, uiOffset ≤ a → a < uiOffset + slot.size → page' a = page a)
    (hused : uiOffset + slot.size ≤ used') : Reads tag page' used' uiOffset prev slot := by
  refine ⟨hrec ▸ h.valid, hused, fun buf ulRecNo hbuf => ?_⟩
  obtain ⟨buf', hget, hval⟩ := h.get buf ulRecNo hbuf
  exact ⟨buf', hb_nsxLeafGetKey_same hget (by omega) hrec hbytes hused, hval⟩

theorem Holds.frame {slots : List Slot} (h : Holds tag page used uiOffset prev slots)
    (hpos : 0 < uiOffset) (hrec : hb_nsxGetKeyRecSize page' = hb_nsxGetKeyRecSize page)
    (hbytes : ∀ a, uiOffset ≤ a → a < uiOffset + totalSize slots → page' a = page a)
    (hused : uiOffset + totalSize slots ≤ used') : Holds tag page' used' uiOffset prev slots := by
  induction slots generalizing uiOffset prev with
  | nil => trivial
  | cons slot slots ih =>
    rw [totalSize_cons] at hbytes hused
    exact ⟨h.1.frame hpos hrec (fun a ha ha' => hbytes a ha (by omega)) (by omega),
      ih h.2 (by omega) (fun a ha ha' => hbytes a (by omega) (by omega)) (by omega)⟩

theorem holds_append (slots slots' : List Slot) :
    Holds tag page used uiOffset prev (slots ++ slots') ↔
      Holds tag page used uiOffset prev slots ∧
      Holds tag page used (uiOffset + totalSize slots) (lastKey prev slots) slots' := by
  induction slots generalizing uiOffset prev with
  | nil => exact ⟨fun h => ⟨trivial, h⟩, fun h => h.2⟩
  | cons slot slots ih =>
    rw [cons_append, Holds, Holds, ih, totalSize_cons, and_assoc, Nat.add_assoc]
    rfl

theorem Holds.valid {slots : List Slot} (h : Holds tag page used uiOffset prev slots) :
    ∀ key ∈ keysOf slots, ValidKey tag (hb_nsxGetKeyRecSize page).toNat key := by
  induction slots generalizing uiOffset prev with
  | nil => exact nofun
  | cons slot slots ih => exact forall_mem_cons.mpr ⟨h.1.valid, ih h.2⟩

structure LeafPage (tag : Tag) (prev : Option Bytes) (page : PageInfo) (slots : List Slot) :
    Prop where
  leaf : page.buffer 0 &&& NSX_LEAFPAGE ≠ 0
  low : 1 ≤ (hb_nsxGetKeyRecSize page.buffer).toNat
  high : (hb_nsxGetKeyRecSize page.buffer).toNat ≤ 4
  keys : page.uiKeys = slots.length
  offset : page.uiOffset = NSX_LEAFKEYOFFSET + totalSize slots
  fits : page.uiOffset ≤ NSX_PAGELEN
  holds : Holds tag page.buffer page.uiOffset NSX_LEAFKEYOFFSET prev slots

variable {slots : List Slot}

theorem LeafPage.frame {page : PageInfo} (h : LeafPage tag prev page slots) (page' : PageInfo)
    (n : Nat) (hleaf : page'.buffer 0 &&& NSX_LEAFPAGE = page.buffer 0 &&& NSX_LEAFPAGE)
    (hrec : hb_nsxGetKeyRecSize page'.buffer = hb_nsxGetKeyRecSize page.buffer)
    (hbytes : ∀ a, NSX_LEAFKEYOFFSET ≤ a → a < page.uiOffset → page'.buffer a = page.buffer a)
    (hkeys : page'.uiKeys = (slots.take n).length)
    (hoffset : page'.uiOffset = NSX_LEAFKEYOFFSET + totalSize (slots.take n)) :
    LeafPage tag prev page' (slots.take n) := by
  have hsplit := totalSize_append (slots.take n) (slots.drop n)
  rw [take_append_drop] at hsplit
  have hle := h.offset
  have hholds := h.holds
  rw [← take_append_drop n slots, holds_append] at hholds
  refine ⟨hleaf ▸ h.leaf, hrec ▸ h.low, hrec ▸ h.high, hkeys, hoffset, ?_,
    hholds.1.frame (by decide) hrec (fun a ha ha' => hbytes a ha (by omega)) hoffset.ge⟩
  have := h.fits
  omega

end Slots

section Puts

variable {tag : Tag} {page : Mem} {ulRecNo : Nat} {prev : Option Bytes} {key : Bytes}

theorem putSize_le (hhigh : recLen ≤ 4) : putSize tag recLen prev key ≤ 256 := by
  have := tag.le
  simp only [NSX_MAXKEYLEN] at this
  unfold putSize packedSize rawSize
  split
  all_goals omega

theorem hb_nsxLeafPutKey_size (uiOffset ulRecNo : Nat) (prev : Option Bytes)
    (hlow : 1 ≤ (hb_nsxGetKeyRecSize page).toNat)
    (hhigh : (hb_nsxGetKeyRecSize page).toNat ≤ 4) (hkey : key.length = tag.KeyLength) :
    (hb_nsxLeafPutKey tag page uiOffset prev key ulRecNo).2 =
      if uiOffset + putSize tag (hb_nsxGetKeyRecSize page).toNat prev key ≤ NSX_PAGELEN then
        uiOffset + putSize tag (hb_nsxGetKeyRecSize page).toNat prev key
      else 0 := by
  unfold putSize packedSize rawSize
  by_cases hall : dupCount prev key = tag.KeyLength
  · rw [if_pos hall, if_pos hall, min_self, hb_nsxLeafPutKey_dup uiOffset ulRecNo hlow hhigh hall,
      dupEntry_length, ← Nat.add_assoc]
    split
    · rfl
    · rfl
  · have hless := Nat.lt_of_le_of_ne (dupCount_le hkey) hall
    have heq := hb_nsxLeafPutKey_entry uiOffset ulRecNo hlow hhigh hkey hless
    have hrest : (key.drop (dupCount prev key)).length = tag.KeyLength - dupCount prev key := by
      rw [length_drop, hkey]
    dsimp only at heq
    rw [if_neg hall, if_neg hall]
    unfold stored at heq
    rw [entry_length] at heq
    generalize (hb_nsxGetKeyRecSize page).toNat = c at *
    split at heq
    · next hpacked =>
      rw [min_eq_left (by omega), if_pos (by omega)]
      rw [if_pos (by omega)] at heq
      rw [heq]
    · next hraw =>
      by_cases hfits : uiOffset + c + 2 + (key.drop (dupCount prev key)).length ≤ NSX_PAGELEN
      · rw [if_pos hfits] at heq
        rw [heq, min_eq_right (by omega), if_pos (by omega), hrest]
      · rw [if_neg hfits] at heq
        rw [heq, if_neg (by omega)]

theorem hb_nsxLeafPutKey_before (ha : a < uiOffset) :
    (hb_nsxLeafPutKey tag page uiOffset prev key ulRecNo).1 a = page a := by
  unfold hb_nsxLeafPutKey
  dsimp only
  generalize (if hb_nsxGetKeyRecSize page = 1 then 1 else _) = recLen
  have hwrite : ∀ {mem : Mem} (pos : Nat) (bytes : Bytes), uiOffset ≤ pos → mem a = page a →
      mem.write pos bytes a = page a := fun pos bytes hpos hmem =>
    (Mem.write_outside _ _ _ (.inl (ha.trans_le hpos))).trans hmem
  have hrec := hwrite uiOffset (leBytes recLen ulRecNo) le_rfl rfl
  split
  · rfl
  · split
    · exact hwrite _ _ (by omega) hrec
    · split
      · exact hrec
      · have hdup := hwrite (uiOffset + recLen + 1) [UInt8.ofNat (dupCount prev key)] (by omega)
          hrec
        split
        · exact hwrite _ _ (by omega) hdup
        · generalize hresult : (if (0 : Int) < _ then packLoop _ _ _ _ else _) = result
          have hsame : result.1 a = page a := by
            rw [← hresult]
            split
            · next hmax =>
              rcases packLoop_packs _ _ _ _ hmax with ⟨-, hpacked⟩ | ⟨-, -, hkept⟩
              · rw [hpacked]
                exact hwrite _ _ (by omega) hdup
              · rw [hkept a (.inl (by omega)), hdup]
            · exact hdup
          split
          · exact hwrite _ _ (by omega) hsame
          · split
            · exact hsame
            · exact hwrite _ _ (by omega) (hwrite _ _ (by omega) hsame)

theorem recSize_put (hoff : NSX_LEAFKEYOFFSET ≤ uiOffset) :
    hb_nsxGetKeyRecSize (hb_nsxLeafPutKey tag page uiOffset prev key ulRecNo).1 =
      hb_nsxGetKeyRecSize page :=
  hb_nsxLeafPutKey_before (hoff.trans_lt' (by decide))

theorem reads_put {key : KeyInfo} (prev : Option Bytes)
    (hlow : 1 ≤ (hb_nsxGetKeyRecSize page).toNat) (hhigh : (hb_nsxGetKeyRecSize page).toNat ≤ 4)
    (hoff : NSX_LEAFKEYOFFSET ≤ uiOffset) (hkey : ValidKey tag (hb_nsxGetKeyRecSize page).toNat key)
    (hfits : uiOffset + putSize tag (hb_nsxGetKeyRecSize page).toNat prev key.val ≤ NSX_PAGELEN) :
    Reads tag (hb_nsxLeafPutKey tag page uiOffset prev key.val key.recNo).1
      (hb_nsxLeafPutKey tag page uiOffset prev key.val key.recNo).2 uiOffset prev
      ⟨putSize tag (hb_nsxGetKeyRecSize page).toNat prev key.val, key⟩ := by
  have hsize := hb_nsxLeafPutKey_size uiOffset key.recNo prev hlow hhigh hkey.length
  rw [if_pos hfits] at hsize
  have hplaced : Placed tag page uiOffset prev key.val key.recNo _ :=
    hb_nsxLeafPutKey_placed hlow hhigh hoff hkey.length hkey.recNo
      (by simp only [NSX_LEAFKEYOFFSET] at hoff; omega)
  refine ⟨by rw [recSize_put hoff]; exact hkey, hsize.ge, fun buf ulRecNo hbuf => ?_⟩
  have hget := hplaced.get _ buf ulRecNo le_rfl hbuf
  rwa [hsize] at hget ⊢

end Puts

/-- The keys fit in the page; or there is a key behind the one moved up, and those fit in one. -/
def OneSplitSuffices (tag : Tag) (recLen : Nat) (prev : Option Bytes) (slots : List Slot) : Prop :=
  let uiHalfKeys := splitIndex NSX_LEAFKEYOFFSET slots
  NSX_LEAFKEYOFFSET + totalSize slots ≤ NSX_PAGELEN ∨
    (uiHalfKeys + 1 < slots.length ∧
      NSX_LEAFKEYOFFSET + totalSize (putSlots tag recLen
        (lastKey prev (slots.take (uiHalfKeys + 1))) (keysOf (slots.drop (uiHalfKeys + 1)))) ≤
          NSX_PAGELEN)

/-- The keys are on the page, or on two with one between them, none of the two being empty. -/
def Inserts (tag : Tag) (prev : Option Bytes) (keys : List KeyInfo) :
    Except Failure Inserted → Prop
  | .ok (.kept pPage) => ∃ slots, LeafPage tag prev pPage slots ∧ keysOf slots = keys
  | .ok (.split pPage pNewPage pNewKey) => ∃ left right, left ≠ [] ∧ right ≠ [] ∧
      LeafPage tag prev pPage left ∧ LeafPage tag (some pNewKey.val) pNewPage right ∧
      keysOf left ++ pNewKey :: keysOf right = keys
  | .error _ => False

section Loops

variable {tag : Tag} {page : PageInfo} {prev prevKey : Option Bytes} {key : KeyInfo}
  {keys pKeyBuff : List KeyInfo} {slots done : List Slot}

abbrev Filled (tag : Tag) (prev : Option Bytes) (page : PageInfo) (done : List Slot) : Prop :=
  LeafPage tag prev { page with uiKeys := done.length } done

theorem putKey_before (hoff : NSX_LEAFKEYOFFSET ≤ page.uiOffset) (ha : a < NSX_LEAFKEYOFFSET) :
    (putKey tag page prev key).buffer a = page.buffer a :=
  hb_nsxLeafPutKey_before (ha.trans_le hoff)

section

variable (h : Filled tag prev page done)

include h

theorem Filled.putKey (prevKey : Option Bytes) (key : KeyInfo) :
    Filled tag prev { putKey tag page prevKey key with uiOffset := page.uiOffset } done := by
  have hoffset : page.uiOffset = NSX_LEAFKEYOFFSET + totalSize done := h.offset
  have hoff : NSX_LEAFKEYOFFSET ≤ page.uiOffset := by omega
  have hsame := h.frame
    { NsxLeafInsert.putKey tag page prevKey key with
      uiKeys := done.length, uiOffset := page.uiOffset } done.length
    (congrArg (· &&& NSX_LEAFPAGE) (putKey_before hoff (by decide)))
    (putKey_before hoff (by decide)) (fun a _ ha => hb_nsxLeafPutKey_before ha)
    (by rw [take_length]) (by rw [take_length]; exact hoffset)
  rwa [take_length] at hsame

theorem Filled.append (hkey : ValidKey tag (hb_nsxGetKeyRecSize page.buffer).toNat key)
    (hfits : page.uiOffset + putSize tag (hb_nsxGetKeyRecSize page.buffer).toNat (lastKey prev done)
      key.val ≤ NSX_PAGELEN) :
    Filled tag prev (NsxLeafInsert.putKey tag page (lastKey prev done) key)
      (done ++ [⟨putSize tag (hb_nsxGetKeyRecSize page.buffer).toNat (lastKey prev done) key.val,
        key⟩]) := by
  have hoffset : page.uiOffset = NSX_LEAFKEYOFFSET + totalSize done := h.offset
  have hoff : NSX_LEAFKEYOFFSET ≤ page.uiOffset := by omega
  have hsize : (NsxLeafInsert.putKey tag page (lastKey prev done) key).uiOffset = _ :=
    (hb_nsxLeafPutKey_size _ _ _ h.low h.high hkey.length).trans (if_pos hfits)
  have hreads := reads_put (lastKey prev done) h.low h.high hoff hkey hfits
  have hsame := h.putKey (lastKey prev done) key
  refine ⟨hsame.leaf, hsame.low, hsame.high, rfl, ?_, hsize.trans_le hfits, ?_⟩
  · rw [totalSize_append, totalSize_cons, totalSize_nil]
    exact hsize.trans (by dsimp only; omega)
  · rw [holds_append]
    refine ⟨hsame.holds.frame (by decide) rfl (fun _ _ _ => rfl) ?_, ?_, trivial⟩
    · exact (Nat.le_add_right _ _).trans (hoffset ▸ hsize.ge)
    · rw [← hoffset]
      exact hreads

theorem putKey_uiOffset (hrec : (hb_nsxGetKeyRecSize page.buffer).toNat = recLen)
    (hkey : ValidKey tag recLen key) (prevKey : Option Bytes) :
    (putKey tag page prevKey key).uiOffset =
      if page.uiOffset + putSize tag recLen prevKey key.val ≤ NSX_PAGELEN then
        page.uiOffset + putSize tag recLen prevKey key.val
      else 0 := by
  subst hrec
  exact hb_nsxLeafPutKey_size _ _ _ h.low h.high hkey.length

theorem Filled.recSize (prevKey : Option Bytes) (key : KeyInfo) :
    hb_nsxGetKeyRecSize (NsxLeafInsert.putKey tag page prevKey key).buffer =
      hb_nsxGetKeyRecSize page.buffer :=
  putKey_before (h.offset.ge.trans' (Nat.le_add_right _ _)) (by decide)

end

theorem putNew_cases (page : PageInfo) (done : List Slot) (keys : List KeyInfo)
    (hpage : Filled tag prev page done) (hrec : (hb_nsxGetKeyRecSize page.buffer).toNat = recLen)
    (hkeys : ∀ key ∈ keys, ValidKey tag recLen key)
    (hall : page.uiKeys = done.length + keys.length) :
    (NSX_LEAFKEYOFFSET + totalSize (done ++ putSlots tag recLen (lastKey prev done) keys) ≤
      NSX_PAGELEN → ∃ page', putNew tag page (lastKey prev done) keys = .ok page' ∧
        hb_nsxGetKeyRecSize page'.buffer = hb_nsxGetKeyRecSize page.buffer ∧
        LeafPage tag prev page' (done ++ putSlots tag recLen (lastKey prev done) keys)) ∧
    (NSX_PAGELEN <
      NSX_LEAFKEYOFFSET + totalSize (done ++ putSlots tag recLen (lastKey prev done) keys) →
      putNew tag page (lastKey prev done) keys =
        .error (.internal "hb_nsxTagInsertKey: multiple leaf page split")) := by
  induction keys generalizing page done with
  | nil =>
    have hoffset : page.uiOffset = NSX_LEAFKEYOFFSET + totalSize done := hpage.offset
    have hfits : page.uiOffset ≤ NSX_PAGELEN := hpage.fits
    rw [putSlots, append_nil]
    refine ⟨fun _ => ⟨page, rfl, rfl, ?_⟩, fun hlong => by omega⟩
    obtain ⟨buffer, uiKeys, uiOffset⟩ := page
    obtain rfl : uiKeys = done.length := hall
    exact hpage
  | cons key keys ih =>
    have hoffset : page.uiOffset = NSX_LEAFKEYOFFSET + totalSize done := hpage.offset
    have hkey := hkeys key mem_cons_self
    have hsize := putKey_uiOffset hpage hrec hkey (lastKey prev done)
    rw [putSlots, putNew]
    split at hsize
    · next hfits =>
      subst hrec
      have hrest := ih _ _ (hpage.append hkey hfits) (congrArg UInt8.toNat (hpage.recSize _ key))
        (fun key' hmem => hkeys key' (mem_cons_of_mem _ hmem))
        (by rw [length_append]; simp only [length_cons, length_nil] at hall ⊢
            exact hall.trans (by omega))
      rw [lastKey_append, append_assoc, hpage.recSize] at hrest
      rw [if_neg (by simp only [NSX_LEAFKEYOFFSET] at hoffset; omega)]
      exact hrest
    · next hfull =>
      rw [if_pos hsize, totalSize_append, totalSize_cons]
      exact ⟨fun hfits => absurd hfits (by dsimp only; omega), fun _ => rfl⟩

def Half (done : List Slot) (half : Nat × Nat) : Prop :=
  (splitIndex NSX_LEAFKEYOFFSET done = done.length ∧ half = (0, 0)) ∨
  (splitIndex NSX_LEAFKEYOFFSET done < done.length ∧
    half = (NSX_LEAFKEYOFFSET + totalSize (done.take (splitIndex NSX_LEAFKEYOFFSET done)),
      splitIndex NSX_LEAFKEYOFFSET done))

theorem Half.next (h : Half done half) (slot : Slot) :
    Half (done ++ [slot])
      (halfAt (NSX_LEAFKEYOFFSET + totalSize done) done.length half) := by
  have hindex := splitIndex_append NSX_LEAFKEYOFFSET done [slot]
  have hlength : (done ++ [slot]).length = done.length + 1 := length_append
  rcases h with ⟨hnone, rfl⟩ | ⟨hfound, rfl⟩
  · rw [if_neg (by omega), splitIndex, splitIndex] at hindex
    unfold halfAt
    by_cases hbehind : NSX_LEAFSPLITOFFSET ≤ NSX_LEAFKEYOFFSET + totalSize done
    · rw [if_pos hbehind, Nat.add_zero] at hindex
      rw [if_pos ⟨rfl, hbehind⟩]
      exact .inr ⟨by omega, by rw [hindex, take_left]⟩
    · rw [if_neg hbehind] at hindex
      rw [if_neg (fun hc => hbehind hc.2)]
      exact .inl ⟨by omega, rfl⟩
  · rw [if_pos hfound] at hindex
    unfold halfAt
    rw [if_neg (fun hc => by simp only [NSX_LEAFKEYOFFSET] at hc; omega)]
    refine .inr ⟨by omega, ?_⟩
    rw [hindex, take_append_of_le_length hfound.le]

theorem leaf_clearRoot (c : UInt8) :
    (c &&& ~~~NSX_ROOTPAGE) &&& NSX_LEAFPAGE = c &&& NSX_LEAFPAGE := by
  rw [UInt8.and_assoc]
  rfl

theorem splitPage_inserts {newBuffer : Mem} {h used : Nat} (slots : List Slot)
    (hpage : Filled tag prevKey { page with uiOffset := used } done)
    (hrec : (hb_nsxGetKeyRecSize page.buffer).toNat = recLen)
    (hkeys : ∀ key ∈ pKeyBuff, ValidKey tag recLen key) (hbuff : keysOf slots = pKeyBuff)
    (hdone : slots.take h = done.take h) (hle : h ≤ done.length)
    (hless : done.length < slots.length) (hpos : 0 < h) :
    Inserts tag prevKey pKeyBuff (splitPage tag newBuffer pKeyBuff page
        (NSX_LEAFKEYOFFSET + totalSize (done.take h), h)) ↔
      h + 1 < slots.length ∧
      NSX_LEAFKEYOFFSET + totalSize (putSlots tag recLen
        (lastKey prevKey (slots.take (h + 1))) (keysOf (slots.drop (h + 1)))) ≤ NSX_PAGELEN := by
  obtain ⟨slot, hslot⟩ : ∃ slot, slots.drop h = slot :: slots.drop (h + 1) :=
    ⟨slots[h], drop_eq_getElem_cons (by omega)⟩
  have htake : slots.take (h + 1) = done.take h ++ [slot] := by
    rw [take_add, hslot, hdone]
    rfl
  have hdrop : pKeyBuff.drop h = slot.key :: keysOf (slots.drop (h + 1)) := by
    rw [← hbuff, keysOf, ← map_drop, hslot]
    rfl
  have hwhole : keysOf (done.take h) ++ slot.key :: keysOf (slots.drop (h + 1)) = pKeyBuff := by
    rw [← hdrop, ← hdone, ← hbuff, keysOf, keysOf, map_take, take_append_drop]
  have hlength : h + (slots.length - (h + 1) + 1) = pKeyBuff.length := by
    rw [← hbuff, keysOf_length]
    omega
  generalize hrest : keysOf (slots.drop (h + 1)) = rest at *
  have hrestLength : rest.length = slots.length - (h + 1) := by
    rw [← hrest, keysOf_length, length_drop]
  have hright : ∀ right, keysOf right = rest → right.length = slots.length - (h + 1) :=
    fun right heq => by rw [← keysOf_length, heq, hrestLength]
  rw [htake, lastKey_append]
  unfold splitPage
  rw [hdrop]
  dsimp only
  have hnew : Filled tag (some slot.key.val) (newLeaf newBuffer (hb_nsxGetKeyRecSize page.buffer)
      (pKeyBuff.length - 1 - h)) [] :=
    ⟨show NSX_LEAFPAGE &&& NSX_LEAFPAGE ≠ 0 by decide, hpage.low, hpage.high, rfl, rfl,
      show NSX_LEAFKEYOFFSET ≤ NSX_PAGELEN by decide, trivial⟩
  have hcases := putNew_cases _ _ rest hnew hrec
    (fun key hmem => hkeys key (hwhole ▸ mem_append_right _ (mem_cons_of_mem _ hmem)))
    (by change pKeyBuff.length - 1 - h = 0 + rest.length; omega)
  simp only [lastKey_nil, nil_append] at hcases
  rcases le_or_gt (NSX_LEAFKEYOFFSET + totalSize (putSlots tag recLen (some slot.key.val) rest))
    NSX_PAGELEN with hfits | hlong
  · obtain ⟨pNewPage, hput, -, hnewPage⟩ := hcases.1 hfits
    rw [hput]
    have hleft := hpage.frame (cutPage page (NSX_LEAFKEYOFFSET + totalSize (done.take h), h)) h
      (leaf_clearRoot _) rfl
      (fun a ha _ => Mem.write_outside _ 0 [_] (.inr (show 1 ≤ a from ha.trans' (by decide))))
      (by rw [length_take, Nat.min_eq_left hle]; rfl) rfl
    have hlen := hright (putSlots tag recLen (some slot.key.val) rest) (keysOf_putSlots _ _)
    constructor
    · rintro ⟨left, right, -, hne, -, hpage', -⟩
      have hkeys' := hpage'.keys.symm.trans hnewPage.keys
      have := length_pos_iff.mpr hne
      exact ⟨by omega, hfits⟩
    · rintro ⟨hmore, -⟩
      refine ⟨done.take h, _, ?_, ?_, hleft, hnewPage, ?_⟩
      · exact ne_nil_of_length_pos (by rw [length_take]; omega)
      · exact ne_nil_of_length_pos (by rw [hlen]; omega)
      · rw [keysOf_putSlots, hwhole]
  · have hput := hcases.2 hlong
    rw [hput]
    exact ⟨False.elim, fun hc => absurd hc.2 (not_le.mpr hlong)⟩

theorem putKeys_inserts (newBuffer : Mem) (page : PageInfo) (done : List Slot)
    (hpage : Filled tag prevKey page done) (hrec : (hb_nsxGetKeyRecSize page.buffer).toNat = recLen)
    (hhalf : Half done half) (hkeys : ∀ key ∈ pKeyBuff, ValidKey tag recLen key)
    (hbuff : keysOf done ++ keys = pKeyBuff) (hall : page.uiKeys = pKeyBuff.length) :
    Inserts tag prevKey pKeyBuff
        (putKeys tag newBuffer pKeyBuff page done.length half (lastKey prevKey done) keys) ↔
      OneSplitSuffices tag recLen prevKey
        (done ++ putSlots tag recLen (lastKey prevKey done) keys) := by
  induction keys generalizing page done half with
  | nil =>
    have hoffset : page.uiOffset = NSX_LEAFKEYOFFSET + totalSize done := hpage.offset
    have hfits : page.uiOffset ≤ NSX_PAGELEN := hpage.fits
    rw [append_nil] at hbuff
    rw [putSlots, append_nil, putKeys]
    refine ⟨fun _ => .inl (by omega), fun _ => ⟨done, ?_, hbuff⟩⟩
    obtain ⟨buffer, uiKeys, uiOffset⟩ := page
    obtain rfl : uiKeys = done.length := by
      rw [← hbuff, keysOf_length] at hall
      exact hall
    exact hpage
  | cons key keys ih =>
    have hoffset : page.uiOffset = NSX_LEAFKEYOFFSET + totalSize done := hpage.offset
    have hkey := hkeys key (hbuff ▸ mem_append_right _ mem_cons_self)
    have hsize := putKey_uiOffset hpage hrec hkey (lastKey prevKey done)
    have hnext := hhalf.next ⟨putSize tag recLen (lastKey prevKey done) key.val, key⟩
    rw [← hoffset] at hnext
    rw [putSlots, putKeys]
    split at hsize
    · next hfits =>
      subst hrec
      have hrest := ih _ _ (hpage.append hkey hfits)
        (congrArg UInt8.toNat (hpage.recSize (lastKey prevKey done) key)) hnext
        (by rw [keysOf_append, append_assoc]; exact hbuff) hall
      rw [lastKey_append, append_assoc, length_append] at hrest
      rw [if_neg (by simp only [NSX_LEAFKEYOFFSET] at hoffset; omega)]
      exact hrest
    · next hfull =>
      have hle : putSize tag recLen (lastKey prevKey done) key.val ≤ 256 :=
        putSize_le (hrec ▸ hpage.high)
      -- the page is nearly full, so the place of the split is known
      have hbehind : NSX_LEAFSPLITOFFSET ≤ NSX_LEAFKEYOFFSET + totalSize done := by
        simp only [NSX_LEAFSPLITOFFSET, NSX_PAGELEN] at hfull ⊢
        omega
      have hindex := splitIndex_append NSX_LEAFKEYOFFSET done
        [⟨putSize tag recLen (lastKey prevKey done) key.val, key⟩]
      have hlength : (done ++ [(⟨putSize tag recLen (lastKey prevKey done) key.val, key⟩ :
        Slot)]).length = done.length + 1 := length_append
      rw [splitIndex, if_pos hbehind] at hindex
      have hwithin : splitIndex NSX_LEAFKEYOFFSET
          (done ++ [⟨putSize tag recLen (lastKey prevKey done) key.val, key⟩]) ≤ done.length := by
        rw [hindex]
        split
        · omega
        · omega
      obtain ⟨hnone, -⟩ | ⟨hfound, hhalf'⟩ := hnext
      · omega
      rw [if_pos hsize, hhalf', if_neg (by simp only [NSX_LEAFKEYOFFSET]; omega),
        take_append_of_le_length hwithin]
      have hslots := splitIndex_append NSX_LEAFKEYOFFSET
        (done ++ [⟨putSize tag recLen (lastKey prevKey done) key.val, key⟩])
        (putSlots tag recLen (some key.val) keys)
      rw [if_pos hfound, append_assoc] at hslots
      rw [← hslots] at hwithin ⊢
      rw [splitPage_inserts (done ++ _ :: _) (hpage.putKey (lastKey prevKey done) key)
        ((congrArg UInt8.toNat (hpage.recSize (lastKey prevKey done) key)).trans hrec) hkeys
        ?_ (take_append_of_le_length hwithin) hwithin ?_ ?_]
      · refine ⟨.inr, fun hc => hc.resolve_left ?_⟩
        rw [totalSize_append, totalSize_cons]
        dsimp only
        omega
      · rw [keysOf_append, ← hbuff]
        exact congrArg (fun keys => keysOf done ++ key :: keys) (keysOf_putSlots _ _)
      · rw [length_append, length_cons]
        omega
      · cases done with
        | nil => exact absurd hbehind (by decide)
        | cons slot done => exact Nat.succ_pos _

end Loops

section Insert

variable {tag : Tag} {page : PageInfo} {prev prevKey pKeyPrev : Option Bytes} {uiKey : Nat}
  {pKey : KeyInfo} {slots done : List Slot} {newBuffer pKeyVal : Mem}

theorem collectKeys_behind {u : Nat} {found : Collected} (hu : uiKey < u) (hoff : 0 < uiOffset)
    (hholds : Holds tag page.buffer page.uiOffset uiOffset prev slots)
    (hbuf : ∀ p ∈ prev, pKeyVal.read 0 tag.KeyLength = p) :
    collectKeys tag page uiKey pKey slots.length u uiOffset pKeyVal found =
      .ok { found with pKeyBuff := found.pKeyBuff ++ keysOf slots } := by
  induction slots generalizing u uiOffset prev pKeyVal found with
  | nil =>
    rw [keysOf, map_nil, append_nil]
    rfl
  | cons slot slots ih =>
    obtain ⟨buf', hget, hval⟩ := hholds.1.get pKeyVal 0 hbuf
    have hrest : collectKeys tag page uiKey pKey slots.length (u + 1) (uiOffset + slot.size) buf'
        { found with
          pKeyBuff := found.pKeyBuff ++ [⟨buf'.read 0 tag.KeyLength, slot.key.recNo⟩] } = _ :=
      ih (by omega) (by omega) hholds.2 (fun p hp => hval.trans (Option.some.inj hp))
    rw [length_cons, collectKeys, if_neg (by omega), if_neg (by omega), hget]
    obtain ⟨off, hoff'⟩ : ∃ off, uiOffset + slot.size = off + 1 :=
      ⟨uiOffset + slot.size - 1, by omega⟩
    rw [hoff'] at hrest ⊢
    refine hrest.trans ?_
    rw [hval, append_assoc]
    rfl

theorem collectKeys_before {slots' : List Slot} (done : List Slot) (found : Collected)
    (pKey : KeyInfo) (hu : done.length + slots.length = uiKey)
    (hholds : Holds tag page.buffer page.uiOffset (NSX_LEAFKEYOFFSET + totalSize done) prev
      (slots ++ slots')) (hbuf : ∀ p ∈ prev, pKeyVal.read 0 tag.KeyLength = p)
    (hhalf : Half done (found.uiHalfOffset, found.uiHalfKeys)) :
    ∃ half, Half (done ++ slots) half ∧
      collectKeys tag page uiKey pKey ((slots ++ slots').length + 1) done.length
        (NSX_LEAFKEYOFFSET + totalSize done) pKeyVal found =
      .ok ⟨found.pKeyBuff ++ (keysOf slots ++ pKey :: keysOf slots'),
        NSX_LEAFKEYOFFSET + totalSize (done ++ slots), half.1, half.2⟩ := by
  have hpos : 0 < NSX_LEAFKEYOFFSET + totalSize done := by
    simp only [NSX_LEAFKEYOFFSET]
    omega
  induction slots generalizing done prev pKeyVal found with
  | nil =>
    rw [append_nil]
    refine ⟨_, hhalf, ?_⟩
    obtain rfl : done.length = uiKey := hu
    rw [collectKeys, if_pos rfl, collectKeys_behind (Nat.lt_succ_self _) hpos hholds hbuf]
    rw [append_assoc]
    rfl
  | cons slot slots ih =>
    rw [length_cons] at hu
    obtain ⟨buf', hget, hval⟩ := hholds.1.get pKeyVal 0 hbuf
    have hsize : NSX_LEAFKEYOFFSET + totalSize (done ++ [slot]) =
        NSX_LEAFKEYOFFSET + totalSize done + slot.size := by
      rw [totalSize_append, totalSize_cons, totalSize_nil]
      omega
    have hlength : (done ++ [slot]).length = done.length + 1 := length_append
    obtain ⟨half, hhalf', hrest⟩ := ih (done ++ [slot])
      ⟨found.pKeyBuff ++ [⟨buf'.read 0 tag.KeyLength, slot.key.recNo⟩], found.uiKeyOffset, _, _⟩
      (by omega) (hsize ▸ hholds.2) (fun p hp => hval.trans (Option.some.inj hp))
      (hhalf.next slot) (by omega)
    rw [hlength, hsize, append_assoc] at hrest
    rw [append_assoc] at hhalf'
    refine ⟨half, hhalf', ?_⟩
    rw [cons_append, length_cons, collectKeys, if_neg (by omega), if_pos (by omega), hget]
    obtain ⟨off, hoff⟩ : ∃ off, NSX_LEAFKEYOFFSET + totalSize done + slot.size = off + 1 :=
      ⟨NSX_LEAFKEYOFFSET + totalSize done + slot.size - 1, by omega⟩
    rw [hoff] at hrest ⊢
    refine hrest.trans ?_
    rw [hval, append_assoc]
    rfl

def insertedKeys (slots : List Slot) (uiKey : Nat) (pKey : KeyInfo) : List KeyInfo :=
  keysOf (slots.take uiKey) ++ pKey :: keysOf (slots.drop uiKey)

/-- Their entries: those before the new key stay, if its record number fits in theirs. -/
def insertedSlots (tag : Tag) (recLen : Nat) (prev : Option Bytes) (slots : List Slot)
    (uiKey : Nat) (pKey : KeyInfo) : List Slot :=
  if recLen < hb_nsxGetRecSize pKey.recNo then
    putSlots tag (hb_nsxGetRecSize pKey.recNo) prev (insertedKeys slots uiKey pKey)
  else slots.take uiKey ++ putSlots tag recLen (lastKey prev (slots.take uiKey))
    (pKey :: keysOf (slots.drop uiKey))

theorem recNo_lt {r : Nat} (h : r < 2 ^ 32) (hn : hb_nsxGetRecSize r ≤ n) : r < 256 ^ n := by
  refine lt_of_lt_of_le ?_ (Nat.pow_le_pow_right (by decide) hn)
  unfold hb_nsxGetRecSize
  split
  · omega
  · split
    · omega
    · omega

theorem getRecSize_le (r : Nat) : 1 ≤ hb_nsxGetRecSize r ∧ hb_nsxGetRecSize r ≤ 4 := by
  unfold hb_nsxGetRecSize
  split
  · decide
  · split
    · decide
    · decide

theorem ValidKey.mono {recLen' : Nat} {key : KeyInfo} (h : ValidKey tag recLen key)
    (hle : recLen ≤ recLen') : ValidKey tag recLen' key :=
  ⟨h.length, h.recNo.trans_le (Nat.pow_le_pow_right (by decide) hle)⟩

theorem lastKey_eq (prev : Option Bytes) (done : List Slot) (keys : List KeyInfo) :
    (if done.length = 0 then prev else
      ((keysOf done ++ keys)[done.length - 1]?).map (·.val)) = lastKey prev done := by
  cases done using reverseRecOn with
  | nil => rfl
  | append_singleton done slot =>
    rw [if_neg (by simp), lastKey_append, length_append, length_singleton,
      Nat.add_sub_cancel, getElem?_append_left (by simp), keysOf,
      getElem?_map, getElem?_concat_length]
    rfl

structure Call (tag : Tag) (prevKey : Option Bytes) (page : PageInfo) (slots : List Slot)
    (uiKey : Nat) (pKey : KeyInfo) (pKeyPrev : Option Bytes) : Prop where
  page : LeafPage tag (pKeyPrev.or prevKey) page slots
  prev : ∀ p ∈ pKeyPrev.or prevKey, p.length = tag.KeyLength
  place : uiKey ≤ slots.length
  /-- A key is given only for a page whose first key comes behind the new one. -/
  first : pKeyPrev = none ∨ uiKey = 0
  val : pKey.val.length = tag.KeyLength
  recNo : pKey.recNo < 2 ^ 32

section

variable (h : Call tag prevKey page slots uiKey pKey pKeyPrev) (newBuffer pKeyVal : Mem)

include h

/-- The keys are put again from the new one on, or all of them where the record numbers get
wider. -/
theorem Call.runs :
    ∃ half, Half (slots.take uiKey) half ∧
      hb_nsxTagInsertKey tag prevKey newBuffer pKeyVal page uiKey pKey pKeyPrev =
        if (hb_nsxGetKeyRecSize page.buffer).toNat < hb_nsxGetRecSize pKey.recNo then
          putKeys tag newBuffer (insertedKeys slots uiKey pKey)
            ⟨hb_nsxSetKeyRecSize page.buffer (UInt8.ofNat (hb_nsxGetRecSize pKey.recNo)),
              page.uiKeys + 1, NSX_LEAFKEYOFFSET⟩
            0 (0, 0) prevKey (insertedKeys slots uiKey pKey)
        else
          putKeys tag newBuffer (insertedKeys slots uiKey pKey)
            ⟨page.buffer, page.uiKeys + 1, NSX_LEAFKEYOFFSET + totalSize (slots.take uiKey)⟩
            uiKey half (lastKey prevKey (slots.take uiKey)) (pKey :: keysOf (slots.drop uiKey)) := by
  have htake : (slots.take uiKey).length = uiKey := by
    rw [length_take, Nat.min_eq_left h.place]
  have hbuf : ∀ p ∈ pKeyPrev.or prevKey,
      ((pKeyPrev.or prevKey).elim pKeyVal (pKeyVal.write 0)).read 0 tag.KeyLength = p := by
    intro p hp
    rw [Option.mem_def.mp hp, ← h.prev p hp]
    exact Mem.read_write ..
  have hholds := h.page.holds
  rw [← take_append_drop uiKey slots] at hholds
  obtain ⟨half, hhalf, hfound⟩ := collectKeys_before [] {} pKey
    ((Nat.zero_add _).trans htake) hholds hbuf (.inl ⟨rfl, rfl⟩)
  rw [take_append_drop, ← h.page.keys, nil_append] at hfound
  change collectKeys tag page uiKey pKey (page.uiKeys + 1) 0 NSX_LEAFKEYOFFSET _ {} =
    .ok ⟨insertedKeys slots uiKey pKey, _, _, _⟩ at hfound
  have hprev := lastKey_eq prevKey (slots.take uiKey) (pKey :: keysOf (slots.drop uiKey))
  have hdrop : (insertedKeys slots uiKey pKey).drop uiKey = pKey :: keysOf (slots.drop uiKey) :=
    drop_left' ((keysOf_length _).trans htake)
  rw [htake] at hprev
  refine ⟨half, hhalf, ?_⟩
  unfold hb_nsxTagInsertKey
  dsimp only
  rw [hfound, ← hdrop, ← hprev]
  rfl

theorem Call.inserts :
    Inserts tag prevKey (insertedKeys slots uiKey pKey)
        (hb_nsxTagInsertKey tag prevKey newBuffer pKeyVal page uiKey pKey pKeyPrev) ↔
      OneSplitSuffices tag
        (max (hb_nsxGetKeyRecSize page.buffer).toNat (hb_nsxGetRecSize pKey.recNo)) prevKey
        (insertedSlots tag (hb_nsxGetKeyRecSize page.buffer).toNat prevKey slots uiKey pKey) := by
  have hpage := h.page
  have htake : (slots.take uiKey).length = uiKey := by
    rw [length_take, Nat.min_eq_left h.place]
  obtain ⟨half, hhalf, hrun⟩ := h.runs newBuffer pKeyVal
  have hlength : page.uiKeys + 1 = (insertedKeys slots uiKey pKey).length := by
    rw [insertedKeys, length_append, length_cons, keysOf_length, keysOf_length, htake,
      length_drop, hpage.keys]
    have := h.place
    omega
  have hvalid : ∀ recLen, (hb_nsxGetKeyRecSize page.buffer).toNat ≤ recLen →
      hb_nsxGetRecSize pKey.recNo ≤ recLen →
      ∀ key ∈ insertedKeys slots uiKey pKey, ValidKey tag recLen key := by
    intro recLen hold hnew key hkey
    have hmem : key = pKey ∨ key ∈ keysOf slots := by
      rw [← take_append_drop uiKey slots, keysOf_append, mem_append]
      rcases mem_append.mp hkey with hkey | hkey
      · exact .inr (.inl hkey)
      · exact (mem_cons.mp hkey).imp_right .inr
    rcases hmem with rfl | hmem
    · exact ⟨h.val, recNo_lt h.recNo hnew⟩
    · exact (hpage.holds.valid key hmem).mono hold
  rw [hrun]
  unfold insertedSlots
  split
  · next hwide =>
    -- the record numbers get wider, so that all keys are put again
    have hrec : (UInt8.ofNat (hb_nsxGetRecSize pKey.recNo)).toNat = hb_nsxGetRecSize pKey.recNo :=
      UInt8.toNat_ofNat_of_lt' (lt_of_le_of_lt (getRecSize_le _).2 (by decide))
    rw [max_eq_right hwide.le]
    exact putKeys_inserts _ _ []
      ⟨hpage.leaf, hrec.ge.trans' (getRecSize_le _).1, hrec.le.trans (getRecSize_le _).2, rfl, rfl,
        show NSX_LEAFKEYOFFSET ≤ NSX_PAGELEN by decide, trivial⟩
      hrec (.inl ⟨rfl, rfl⟩) (hvalid _ hwide.le le_rfl) rfl hlength
  · next hwide =>
    have hkept : LeafPage tag prevKey
        ⟨page.buffer, (slots.take uiKey).length, NSX_LEAFKEYOFFSET + totalSize (slots.take uiKey)⟩
        (slots.take uiKey) := by
      rcases h.first with rfl | rfl
      · exact hpage.frame _ uiKey rfl rfl (fun _ _ _ => rfl) rfl rfl
      · exact ⟨hpage.leaf, hpage.low, hpage.high, rfl, rfl,
          show NSX_LEAFKEYOFFSET ≤ NSX_PAGELEN by decide, trivial⟩
    have hinserts := putKeys_inserts newBuffer
      ⟨page.buffer, page.uiKeys + 1, NSX_LEAFKEYOFFSET + totalSize (slots.take uiKey)⟩ _ hkept rfl
      hhalf (hvalid _ le_rfl (not_lt.mp hwide)) rfl hlength
    rw [max_eq_left (not_lt.mp hwide)]
    rw [htake] at hinserts
    exact hinserts

end

end Insert

/--
`hb_nsxTagInsertKey` puts a key on a leaf page with one split at most, no page being left without
a key, if and only if the keys fit in the page, or there is a key behind the first one that starts
at `NSX_LEAFSPLITOFFSET` or later and those behind it fit in a page.
-/
theorem hb_nsxTagInsertKey_oneSplit (tag : Tag) (prevKey pKeyPrev : Option Bytes)
    (newBuffer pKeyVal : Mem) (page : PageInfo) (slots : List Slot) (uiKey : Nat) (pKey : KeyInfo)
    (h : Call tag prevKey page slots uiKey pKey pKeyPrev) :
    Inserts tag prevKey (insertedKeys slots uiKey pKey)
        (hb_nsxTagInsertKey tag prevKey newBuffer pKeyVal page uiKey pKey pKeyPrev) ↔
      OneSplitSuffices tag
        (max (hb_nsxGetKeyRecSize page.buffer).toNat (hb_nsxGetRecSize pKey.recNo)) prevKey
        (insertedSlots tag (hb_nsxGetKeyRecSize page.buffer).toNat prevKey slots uiKey pKey) :=
  h.inserts newBuffer pKeyVal

def rootPage : PageInfo where
  buffer := fun a => if a = 0 then NSX_ROOTPAGE ||| NSX_LEAFPAGE else if a = 1 then 4 else 0
  uiKeys := 0
  uiOffset := NSX_LEAFKEYOFFSET

theorem rootPage_leaf (tag : Tag) : LeafPage tag none rootPage [] :=
  ⟨by decide, by decide, by decide, rfl, rfl, by decide, trivial⟩

/-- A key that cannot be packed. -/
def wideKey (tag : Tag) (i : Nat) : KeyInfo where
  val := UInt8.ofNat i :: (range (tag.KeyLength - 1)).map fun j => UInt8.ofNat (j % 2)
  recNo := i

theorem wideKey_valid (tag : Tag) {i : Nat} (h : i < 256 ^ 4) : ValidKey tag 4 (wideKey tag i) := by
  refine ⟨?_, h⟩
  have hpos := tag.pos
  rw [wideKey, length_cons, length_map, length_range]
  omega

def wideTag : Tag := ⟨150, 32, by decide, by decide⟩

def wideKeys : List KeyInfo := [1, 2, 3, 5, 6, 7].map (wideKey wideTag)

def widePage : PageInfo :=
  (putNew wideTag { rootPage with uiKeys := 6 } none wideKeys).toOption.getD rootPage

theorem widePage_leaf : LeafPage wideTag none widePage (putSlots wideTag 4 none wideKeys) := by
  have hvalid : ∀ key ∈ wideKeys, ValidKey wideTag 4 key := by
    intro key hkey
    obtain ⟨i, hi, rfl⟩ := mem_map.mp hkey
    have hle : ∀ i ∈ [1, 2, 3, 5, 6, 7], i < 256 ^ 4 := by decide
    exact wideKey_valid wideTag (hle i hi)
  obtain ⟨page, hput, -, hpage⟩ := (putNew_cases { rootPage with uiKeys := 6 } [] _
    (rootPage_leaf wideTag) rfl hvalid rfl).1 (by decide +kernel)
  rw [widePage, show putNew wideTag _ none wideKeys = .ok page from hput]
  exact hpage

/-- The seventh key comes into the middle: four keys stay, one is moved up and two go to the new
page. -/
theorem hb_nsxTagInsertKey_oneSplit_middle :
    Inserts wideTag none ([1, 2, 3, 4, 5, 6, 7].map (wideKey wideTag))
        (hb_nsxTagInsertKey wideTag none (fun _ => 0) (fun _ => 0) widePage 3 (wideKey wideTag 4)
          none) ∧
      ∃ pPage pNewPage pNewKey, hb_nsxTagInsertKey wideTag none (fun _ => 0) (fun _ => 0) widePage 3
          (wideKey wideTag 4) none = .ok (.split pPage pNewPage pNewKey) ∧
        (pPage.uiKeys, pNewKey.recNo, pNewPage.uiKeys) = (4, 5, 2) := by
  have hcall : Call wideTag none widePage (putSlots wideTag 4 none wideKeys) 3
      (wideKey wideTag 4) none :=
    ⟨widePage_leaf, nofun, by decide +kernel, .inl rfl, (wideKey_valid wideTag (by decide)).1,
      by decide⟩
  have hinserts := (hb_nsxTagInsertKey_oneSplit wideTag none none (fun _ => 0) (fun _ => 0)
    widePage _ 3 (wideKey wideTag 4) hcall).mpr (.inr (by decide +kernel))
  have hkeys : insertedKeys (putSlots wideTag 4 none wideKeys) 3 (wideKey wideTag 4) =
      [1, 2, 3, 4, 5, 6, 7].map (wideKey wideTag) := by
    have hslots : (putSlots wideTag 4 none wideKeys).map (·.key) = wideKeys :=
      keysOf_putSlots none wideKeys
    unfold insertedKeys keysOf
    rw [map_take, map_drop, hslots]
    rfl
  rw [hkeys] at hinserts
  refine ⟨hinserts, ?_⟩
  have hsplit : (match hb_nsxTagInsertKey wideTag none (fun _ => 0) (fun _ => 0) widePage 3
      (wideKey wideTag 4) none with
    | .ok (.split pPage pNewPage pNewKey) => (pPage.uiKeys, pNewKey.recNo, pNewPage.uiKeys)
    | _ => (0, 0, 0)) = (4, 5, 2) := by
    obtain ⟨half, hhalf, hrun⟩ := hcall.runs (fun _ => 0) fun _ => 0
    obtain ⟨-, rfl⟩ := hhalf.resolve_right (mt And.left (by decide +kernel))
    rw [hkeys] at hrun
    rw [hrun]
    decide +kernel
  split at hsplit
  · rename_i pPage pNewPage pNewKey hresult
    exact ⟨pPage, pNewPage, pNewKey, hresult, hsplit⟩
  · cases hsplit

def fullTag : Tag := ⟨250, 32, by decide, by decide⟩

/--
The last of four keys of 250 characters is moved up and leaves a new page without any key, where
the page had the record size 4.
-/
theorem hb_nsxTagInsertKey_leaves_emptyPage :
    ¬ ∀ (tag : Tag) (prevKey pKeyPrev : Option Bytes) (newBuffer pKeyVal : Mem) (page : PageInfo)
      (slots : List Slot) (uiKey : Nat) (pKey : KeyInfo),
      Call tag prevKey page slots uiKey pKey pKeyPrev →
      (insertedKeys slots uiKey pKey).Pairwise (fun key key' => key.val < key'.val) →
      Inserts tag prevKey (insertedKeys slots uiKey pKey)
        (hb_nsxTagInsertKey tag prevKey newBuffer pKeyVal page uiKey pKey pKeyPrev) := by
  intro hall
  have hkeys : ∀ key ∈ [wideKey fullTag 1, wideKey fullTag 2, wideKey fullTag 3],
      ValidKey fullTag 4 key := by
    simp only [forall_mem_cons]
    exact ⟨wideKey_valid fullTag (by decide), wideKey_valid fullTag (by decide),
      wideKey_valid fullTag (by decide), nofun⟩
  obtain ⟨page, -, hrec, hpage⟩ := (putNew_cases { rootPage with uiKeys := 3 } [] _
    (rootPage_leaf fullTag) rfl hkeys rfl).1 (by decide +kernel)
  have hcall : Call fullTag none page _ 3 (wideKey fullTag 4) none :=
    ⟨hpage, nofun, by decide +kernel, .inl rfl, (wideKey_valid fullTag (by decide)).1, by decide⟩
  have hinserts := hall _ _ _ (fun _ => 0) (fun _ => 0) _ _ _ _ hcall (by decide +kernel)
  rw [hcall.inserts, hrec] at hinserts
  revert hinserts
  unfold OneSplitSuffices
  decide +kernel

end Harbour.Rdd.NsxLeafInsert
