import Harbour.Rtl.CdpSizesAgree
import Harbour.Rtl.SerialEncode

/-!
The pass that stores an item takes the bytes that the first pass has counted, and fills all of
them where it fills those of every string.
-/

namespace Harbour.Rtl.SerialSize

open Library.Bytes CdpSizes SerialItems SerialRefs SerialEncode List Option
open Cdpapi (tableChar)
open CdpMulti (charBytes charBytes_length_eq)
open Library.Scan (drain)

/-- The bytes are counted, and none is left out where none of a string is. -/
structure Fills (whole : Bytes → Prop) (texts : List Bytes) (cells : Cells) (nSize : Nat) :
    Prop where
  length : cells.length = nSize
  filled : none ∉ cells ↔ ∀ szVal ∈ texts, whole szVal

variable {item : Item} {address nRefs nReg : Nat} {items : List Item} {whole : Bytes → Prop}

section Leaves

variable {cdpIn cdpOut : Option Page} {flags : SerializeFlags}

theorem none_not_stored (bytes : Bytes) : none ∉ stored bytes := by
  intro hmem
  obtain ⟨byte, -, hbyte⟩ := mem_map.mp hmem
  cases hbyte

theorem fills_stored (whole : Bytes → Prop) (bytes : Bytes) :
    Fills whole [] (stored bytes) bytes.length :=
  ⟨length_map some, iff_of_true (none_not_stored bytes) nofun⟩

theorem Fills.append {texts texts' : List Bytes} {cells cells' : Cells} {n n' : Nat}
    (h : Fills whole texts cells n) (h' : Fills whole texts' cells' n') :
    Fills whole (texts ++ texts') (cells ++ cells') (n + n') where
  length := by rw [length_append, h.length, h'.length]
  filled := by
    rw [mem_append, not_or, h.filled, h'.filled, forall_mem_append]

theorem numInt_length (lVal : Int64) (iWidth : Nat) :
    (serializeNumInt flags lVal iWidth).length = numIntSize flags lVal := by
  have hzero : lVal = 0 → limInt 8 lVal = true := by
    rintro rfl
    decide
  unfold serializeNumInt numIntSize
  cases flags.numSize
  · simp only [Bool.false_eq_true, if_false]
    split_ifs <;> simp [numBytes]
  · simp only [if_true, length_append, leBytes_length]
    by_cases h0 : lVal = 0
    · rw [if_pos h0, if_pos (hzero h0)]
      simp [numBytes]
    · rw [if_neg h0]
      split_ifs <;> simp [numBytes]

theorem double_length (bits : UInt64) (iWidth iDecimal : Nat) :
    (serializeDouble flags bits iWidth iDecimal).length = doubleSize flags bits := by
  unfold serializeDouble doubleSize
  split_ifs <;> simp

theorem symbol_length {szName : Bytes} (h : szName.length ≤ 255) :
    (serializeSymbol szName).length = 2 + szName.length := by
  unfold serializeSymbol
  rw [if_neg (by omega)]
  simp
  omega

theorem trailing_spec (szVal : Bytes) : trailing szVal ≤ szVal.length ∧
    szVal = szVal.take (szVal.length - trailing szVal) ++ replicate (trailing szVal) 0x20 ∧
      (szVal.take (szVal.length - trailing szVal)).getLast? ≠ some 0x20 := by
  have hreverse : szVal.reverse = replicate (trailing szVal) 0x20 ++
      szVal.reverse.dropWhile (· = 0x20) := by
    have hspaces : szVal.reverse.takeWhile (· = 0x20) = replicate (trailing szVal) 0x20 :=
      eq_replicate_iff.mpr ⟨rfl, fun b hb => by simpa using all_eq_true.mp all_takeWhile b hb⟩
    rw [← hspaces, takeWhile_append_dropWhile]
  have hsplit : szVal = (szVal.reverse.dropWhile (· = 0x20)).reverse ++
      replicate (trailing szVal) 0x20 := by
    have h := congrArg reverse hreverse
    rwa [reverse_reverse, reverse_append, reverse_replicate] at h
  have hlength := congrArg length hsplit
  rw [length_append, length_replicate] at hlength
  have htake : ∀ body n, szVal = body ++ replicate n 0x20 →
      szVal.take (szVal.length - n) = body := by
    rintro body n rfl
    rw [length_append, length_replicate, Nat.add_sub_cancel, take_left]
  rw [htake _ _ hsplit]
  refine ⟨by omega, hsplit, fun hlast => ?_⟩
  rw [getLast?_reverse] at hlast
  have hfirst := head?_dropWhile_not (· = (0x20 : UInt8)) szVal.reverse
  rw [hlast] at hfirst
  simp at hfirst

/-- What is stored of a text, whatever the room for it. -/
theorem dup2_spec (szVal : Bytes) (nSize nDst : Nat) (cdpIn cdpOut : Option Page) :
    (cdpnDup2 szVal nSize nDst cdpIn cdpOut).data.length ≤ nDst ∧
      ((cdpnDup2 szVal nSize nDst cdpIn cdpOut).fNul = true ↔
        (cdpnDup2 szVal nSize nDst cdpIn cdpOut).data.length < nDst) := by
  obtain ⟨out, hout, hplaces, hnul⟩ :=
    transTo_within (byteBehind szVal nSize) (szVal.take nSize) cdpIn cdpOut nDst
  rw [cdpnDup2, hout, getD_some]
  exact ⟨(Nat.le_add_right _ _).trans hplaces, hnul⟩

theorem text_length (head szVal : Bytes) (nSize nLen : Nat) :
    (serializeText cdpIn cdpOut head szVal nSize nLen).length = head.length + nLen := by
  obtain ⟨hle, hnul⟩ := dup2_spec szVal nSize nLen cdpIn cdpOut
  unfold serializeText placed stored
  split
  · rename_i hfNul
    have hlt := hnul.mp hfNul
    simp only [length_append, length_map, length_cons, length_replicate]
    omega
  · rename_i hfNul
    have hge := mt hnul.mpr hfNul
    simp only [length_append, length_map]
    omega

/-- A NUL makes up for one byte. -/
theorem text_filled_iff (head szVal : Bytes) (nSize nLen : Nat) :
    none ∉ serializeText cdpIn cdpOut head szVal nSize nLen ↔
      nLen ≤ (cdpnDup2 szVal nSize nLen cdpIn cdpOut).data.length + 1 := by
  obtain ⟨hle, hnul⟩ := dup2_spec szVal nSize nLen cdpIn cdpOut
  unfold serializeText placed
  rw [mem_append, not_or, and_iff_right (none_not_stored head)]
  split
  · rename_i hfNul
    have hlt := hnul.mp hfNul
    rw [mem_append, not_or, and_iff_right (none_not_stored _), mem_cons, mem_replicate]
    simp only [reduceCtorEq, false_or, and_true]
    omega
  · rename_i hfNul
    have hge := mt hnul.mpr hfNul
    exact iff_of_true (none_not_stored _) (by omega)

theorem string_length (szVal : Bytes) :
    (serializeString cdpIn cdpOut szVal).length = stringSize cdpIn cdpOut szVal := by
  unfold serializeString stringSize
  dsimp only
  split_ifs <;> first
    | rfl
    | rw [text_length]
      simp
      omega

/-- The conversion keeps the spaces at the end of the string, which stand behind what comes in
front of them. -/
def KeepsSpaces (cdpIn cdpOut : Option Page) (szVal : Bytes) : Prop :=
  let translated := fun nSize =>
    (cdpnDup2 szVal nSize (cdpnDupLen szVal nSize cdpIn cdpOut) cdpIn cdpOut).data
  translated szVal.length =
    translated (szVal.length - trailing szVal) ++ replicate (trailing szVal) 0x20

/-- The characters of the string for which a pair of bytes is counted and one byte is stored. -/
def doubles (cdpIn cdpOut : Option Page) (szVal : Bytes) : Nat :=
  transDoubles 0 szVal cdpIn cdpOut

theorem doubles_nil : doubles cdpIn cdpOut [] = 0 := by
  unfold doubles transDoubles
  match translatedKinds cdpIn cdpOut with
  | none => rfl
  | some (_, .utf8) => rfl
  | some (.utf8, .own page) => rfl
  | some (.own page, .own page') => rfl

section

variable (cdpIn cdpOut)

def textSize (szVal : Bytes) (nSize : Nat) : Nat :=
  transSize (byteBehind szVal nSize) (szVal.take nSize) cdpIn cdpOut

theorem dupLen_eq (szVal : Bytes) (nSize : Nat) : cdpnDupLen szVal nSize cdpIn cdpOut =
    textSize cdpIn cdpOut szVal nSize +
      transDoubles (byteBehind szVal nSize) (szVal.take nSize) cdpIn cdpOut := by
  rw [cdpnDupLen, transLen_zero, getD_some, textSize]

theorem dupLen_whole (szVal : Bytes) : cdpnDupLen szVal szVal.length cdpIn cdpOut =
    textSize cdpIn cdpOut szVal szVal.length + doubles cdpIn cdpOut szVal := by
  have hbehind : byteBehind szVal szVal.length = 0 := by simp [byteBehind]
  rw [dupLen_eq, hbehind, take_length, doubles]

variable {cdpIn cdpOut}

theorem dup2_length {szVal : Bytes} {nSize nDst : Nat}
    (h : textSize cdpIn cdpOut szVal nSize ≤ nDst) :
    (cdpnDup2 szVal nSize nDst cdpIn cdpOut).data.length = textSize cdpIn cdpOut szVal nSize := by
  obtain ⟨out, hout, hlength⟩ := transTo_length _ _ cdpIn cdpOut h
  rw [cdpnDup2, hout, getD_some]
  exact hlength

theorem KeepsSpaces.size {szVal : Bytes} (h : KeepsSpaces cdpIn cdpOut szVal) :
    textSize cdpIn cdpOut szVal szVal.length =
      textSize cdpIn cdpOut szVal (szVal.length - trailing szVal) + trailing szVal := by
  have hlength := congrArg length h
  dsimp only at hlength
  rwa [length_append, length_replicate, dup2_length (by rw [dupLen_eq]; omega),
    dup2_length (by rw [dupLen_eq]; omega)] at hlength

end

/-- Bytes of a string are left out where two or more of its characters are counted for a pair and
stored as a byte. -/
theorem string_filled_iff {szVal : Bytes} (h : KeepsSpaces cdpIn cdpOut szVal) :
    none ∉ serializeString cdpIn cdpOut szVal ↔ doubles cdpIn cdpOut szVal ≤ 1 := by
  have hwhole := dupLen_whole cdpIn cdpOut szVal
  have htext : ∀ head, none ∉ serializeText cdpIn cdpOut head szVal szVal.length
      (cdpnDupLen szVal szVal.length cdpIn cdpOut) ↔ doubles cdpIn cdpOut szVal ≤ 1 := by
    intro head
    rw [text_filled_iff, dup2_length (by omega)]
    omega
  have hpadded : ∀ head, none ∉ serializeText cdpIn cdpOut head szVal
      (szVal.length - trailing szVal)
      (cdpnDupLen szVal szVal.length cdpIn cdpOut - trailing szVal) ↔
        doubles cdpIn cdpOut szVal ≤ 1 := by
    intro head
    have hsize := h.size
    rw [text_filled_iff, dup2_length (by omega)]
    omega
  unfold serializeString
  dsimp only
  split_ifs with hempty
  · refine iff_of_true (none_not_stored _) ?_
    rw [length_eq_zero_iff.mp hempty]
    exact doubles_nil.le.trans (Nat.zero_le 1)
  all_goals first | exact hpadded _ | exact htext _

/-- The strings of a page of single bytes keep their spaces where a space is written as one. -/
theorem keepsSpaces_of_table {uniCodes : List UInt16} {cdp : CdpMulti.CodePage}
    (hkinds : translatedKinds cdpIn cdpOut = some (.own (.table uniCodes), .own (.multi cdp)))
    (hspace : charBytes cdp (tableChar uniCodes 0x20) = [0x20]) (szVal : Bytes) :
    KeepsSpaces cdpIn cdpOut szVal := by
  have htext : ∀ nSize,
      (cdpnDup2 szVal nSize (cdpnDupLen szVal nSize cdpIn cdpOut) cdpIn cdpOut).data =
        ((szVal.take nSize).map (tableChar uniCodes)).flatMap (charBytes cdp) := by
    intro nSize
    have hsize : textSize cdpIn cdpOut szVal nSize =
        (((szVal.take nSize).map (tableChar uniCodes)).flatMap (charBytes cdp)).length := by
      rw [textSize, transSize, hkinds]
      change ((Own.chars _ _ _).map _).sum = _
      rw [Own.chars_table, length_flatMap]
      exact congrArg sum (map_congr_left fun wc _ => (charBytes_length_eq cdp wc).symm)
    have hroom : ((drain ((Own.table uniCodes).get (byteBehind szVal nSize))
        ((szVal.take nSize).length + 1) (szVal.take nSize)).1.flatMap (charBytes cdp)).length ≤
          cdpnDupLen szVal nSize cdpIn cdpOut := by
      change (((Own.table uniCodes).chars _ _).flatMap _).length ≤ _
      rw [Own.chars_table, ← hsize, dupLen_eq]
      exact Nat.le_add_right _ _
    have hstored := multi_stored ((Own.table uniCodes).get_shrinks (byteBehind szVal nSize))
      (Nat.lt_succ_self _) hroom
    rw [cdpnDup2, transTo, hkinds]
    dsimp only
    rw [hstored, getD_some, finish]
    change ((Own.table uniCodes).chars _ _).flatMap _ = _
    rw [Own.chars_table]
  obtain ⟨-, hsplit, -⟩ := trailing_spec szVal
  have hspaces : ((replicate (trailing szVal) 0x20).map (tableChar uniCodes)).flatMap
      (charBytes cdp) = replicate (trailing szVal) 0x20 := by
    rw [map_replicate]
    induction trailing szVal with
    | zero => rfl
    | succ n ih => rw [replicate_succ, flatMap_cons, hspace, ih, singleton_append, replicate_succ]
  unfold KeepsSpaces
  dsimp only
  rw [htext, htext, take_length]
  conv_lhs => rw [hsplit, map_append, flatMap_append, hspaces]

/-- The names of symbols have at most 255 bytes. -/
def ShortName : Item → Prop
  | .symbol szName => szName.length ≤ 255
  | .byRef item => ShortName item
  | _ => True

def leafTexts : Item → List Bytes
  | .string szVal => [szVal]
  | _ => []

variable (cdpIn cdpOut) in
/-- All bytes of the string are stored. -/
def Whole (szVal : Bytes) : Prop := none ∉ serializeString cdpIn cdpOut szVal

theorem leaf_fills (hname : ShortName item) :
    Fills (Whole cdpIn cdpOut) (leafTexts item) (serializeLeaf cdpIn cdpOut flags item)
      (leafSize cdpIn cdpOut flags item) := by
  cases item with
  | numInt lVal iWidth =>
    rw [leafSize, ← numInt_length lVal iWidth]
    exact fills_stored _ _
  | double bits iWidth iDecimal =>
    rw [leafSize, ← double_length bits iWidth iDecimal]
    exact fills_stored _ _
  | symbol szName =>
    rw [leafSize, ← symbol_length hname]
    exact fills_stored _ _
  | string szVal => exact ⟨string_length szVal, by rw [leafTexts, forall_mem_singleton]; rfl⟩
  | nil => exact fills_stored _ _
  | logical value => exact fills_stored _ _
  | date julian => exact fills_stored _ _
  | timestamp julian milliSec => exact fills_stored _ _
  | container address => exact fills_stored _ _
  | byRef item => exact fills_stored _ _
  | other => exact fills_stored _ _

theorem shortName_unRef (h : ShortName item) : ShortName item.unRef := by
  induction item with
  | byRef item ih => exact ih h
  | _ => exact h

theorem class_length (uiClass : ClassNames) : (classBytes uiClass).length = classSize uiClass := by
  cases uiClass with
  | none => rfl
  | some names =>
    simp only [classBytes, classSize, length_append, length_cons, length_nil]
    omega

theorem two_le_lenSize (nLen : Nat) : 2 ≤ lenSize nLen := by
  unfold lenSize
  split_ifs <;> omega

theorem len_length (tags : Tags) (nLen : Nat) : (lenBytes tags nLen).length = lenSize nLen := by
  unfold lenBytes lenSize
  split_ifs <;> simp

theorem flag_length (base : HashBase) :
    (flagBytes base).length = if base.hasFlags then 3 else 0 := by
  unfold flagBytes
  split_ifs <;> simp

end Leaves

section Passes

variable {flags : SerializeFlags} {refs refs' final : RefList} {nOffset nSize : Nat}

/-- The string is in the item, or inside of it. -/
inductive Holds (heap : Heap) (szVal : Bytes) : Item → Prop
  | string {item : Item} (h : item.unRef = .string szVal) : Holds heap szVal item
  | inside {item child : Item} {address : Nat} (h : item.unRef = .container address)
      (hmem : child ∈ (heap address).items) (hchild : Holds heap szVal child) :
      Holds heap szVal item

/-- A pass has come to the strings of the item, but for those inside of containers that the list
has. -/
inductive Settled (heap : Heap) (texts : List Bytes) (refs : RefList) : Item → Prop
  | leaf {item : Item} (hleaf : ∀ address, item.unRef ≠ .container address)
      (h : ∀ szVal, item.unRef = .string szVal → szVal ∈ texts) : Settled heap texts refs item
  | met {item : Item} {ref : RefItem} (hmem : ref ∈ refs) (h : item.unRef = .container ref.value) :
      Settled heap texts refs item
  | inside {item : Item} {address : Nat} (h : item.unRef = .container address)
      (hitems : ∀ child ∈ (heap address).items, Settled heap texts refs child) :
      Settled heap texts refs item

/-- The strings that a pass comes to on its way from one list to the other: all are in the items,
and none is missed, neither in the items nor in a container that was met on the way. -/
structure Visits (heap : Heap) (items : List Item) (refs refs' : RefList) (texts : List Bytes) :
    Prop where
  held : ∀ szVal ∈ texts, ∃ item ∈ items, Holds heap szVal item
  settled : ∀ item ∈ items, Settled heap texts refs' item
  met : ∀ ref ∈ refs', (∀ old ∈ refs, old.value ≠ ref.value) →
    ∀ child ∈ (heap ref.value).items, Settled heap texts refs' child

section Visited

variable {heap : Heap} {refs'' : RefList} {texts texts' : List Bytes}

theorem Settled.mono (h : Settled heap texts refs item) (htexts : texts ⊆ texts')
    (hgrows : Grows refs refs') : Settled heap texts' refs' item := by
  induction h with
  | leaf hleaf h => exact .leaf hleaf fun szVal heq => htexts (h szVal heq)
  | met hmem h =>
    obtain ⟨ref', hmem', hvalue, -⟩ := hgrows _ hmem
    exact .met hmem' (h.trans (congrArg Item.container hvalue.symm))
  | inside h _ ih => exact .inside h ih

theorem visits_nil : Visits heap [] refs refs [] :=
  ⟨nofun, nofun, fun ref hmem hnew => absurd rfl (hnew ref hmem)⟩

theorem Visits.append {items' : List Item} (h : Visits heap items refs refs' texts)
    (h' : Visits heap items' refs' refs'' texts') (hgrows : Grows refs' refs'') :
    Visits heap (items ++ items') refs refs'' (texts ++ texts') where
  held szVal hmem := by
    rcases mem_append.mp hmem with hmem | hmem
    · obtain ⟨item, hitem, hholds⟩ := h.held szVal hmem
      exact ⟨item, mem_append_left _ hitem, hholds⟩
    · obtain ⟨item, hitem, hholds⟩ := h'.held szVal hmem
      exact ⟨item, mem_append_right _ hitem, hholds⟩
  settled item hmem := by
    rcases mem_append.mp hmem with hmem | hmem
    · exact (h.settled item hmem).mono (subset_append_left _ _) hgrows
    · exact (h'.settled item hmem).mono (subset_append_right _ _) (grows_refl _)
  met ref hmem hnew child hchild := by
    by_cases hold : ∃ ref' ∈ refs', ref'.value = ref.value
    · obtain ⟨ref', hmem', hvalue⟩ := hold
      rw [← hvalue] at hnew hchild
      exact (h.met ref' hmem' hnew child hchild).mono (subset_append_left _ _) hgrows
    · have hmissing : ∀ old ∈ refs', old.value ≠ ref.value := fun old hmem heq =>
        hold ⟨old, hmem, heq⟩
      exact (h'.met ref hmem hmissing child hchild).mono (subset_append_right _ _) (grows_refl _)

theorem visits_leaf (hleaf : ∀ address, item.unRef ≠ .container address) :
    Visits heap [item] refs refs (leafTexts item.unRef) where
  held szVal hmem := by
    refine ⟨item, mem_cons_self, .string ?_⟩
    cases hitem : item.unRef with
    | string text =>
      rw [hitem, leafTexts, mem_singleton] at hmem
      rw [hmem]
    | _ =>
      rw [hitem] at hmem
      cases hmem
  settled child hmem := by
    obtain rfl := mem_singleton.mp hmem
    refine .leaf hleaf fun szVal hitem => ?_
    rw [hitem]
    exact mem_cons_self
  met ref hmem hnew := absurd rfl (hnew ref hmem)

/-- The items of a container that is new to the list. -/
theorem Visits.inside (h : Visits heap (heap address).items refs' refs'' texts)
    (hitem : item.unRef = .container address)
    (hnew : ∀ ref ∈ refs', ref.value = address ∨ ∃ old ∈ refs, old.value = ref.value) :
    Visits heap [item] refs refs'' texts where
  held szVal hmem := by
    obtain ⟨child, hchild, hholds⟩ := h.held szVal hmem
    exact ⟨item, mem_cons_self, .inside hitem hchild hholds⟩
  settled child hmem := by
    obtain rfl := mem_singleton.mp hmem
    exact .inside hitem h.settled
  met ref hmem hmissing := by
    by_cases hold : ∃ ref' ∈ refs', ref'.value = ref.value
    · obtain ⟨ref', hmem', hvalue⟩ := hold
      rcases hnew ref' hmem' with haddress | ⟨old, hold, holdValue⟩
      · rw [← hvalue, haddress]
        exact h.settled
      · exact absurd (holdValue.trans hvalue) (hmissing old hold)
    · exact h.met ref hmem fun old hmem heq => hold ⟨old, hmem, heq⟩

/-- A container that the list has already. -/
theorem visits_met (hitem : item.unRef = .container address)
    (hback : ∀ ref ∈ refs', ∃ old ∈ refs, old.value = ref.value)
    (hmet : ∃ ref ∈ refs', ref.value = address) : Visits heap [item] refs refs' [] where
  held := nofun
  settled child hmem := by
    obtain rfl := mem_singleton.mp hmem
    obtain ⟨ref, hmem, rfl⟩ := hmet
    exact .met hmem hitem
  met ref hmem hmissing := by
    obtain ⟨old, hold, hvalue⟩ := hback ref hmem
    exact absurd hvalue (hmissing old hold)

theorem Settled.mem (hmet : ∀ ref ∈ refs, ∀ child ∈ (heap ref.value).items,
      Settled heap texts refs child) {szVal : Bytes} (h : Settled heap texts refs item)
    (hholds : Holds heap szVal item) : szVal ∈ texts := by
  induction hholds with
  | string hitem =>
    cases h with
    | leaf hleaf hstring => exact hstring _ hitem
    | met hmem hcontainer => cases hitem.symm.trans hcontainer
    | inside hcontainer => cases hitem.symm.trans hcontainer
  | inside hitem hmem hchild ih =>
    apply ih
    cases h with
    | leaf hleaf => exact absurd hitem (hleaf _)
    | met hmember hcontainer =>
      cases hitem.symm.trans hcontainer
      exact hmet _ hmember _ hmem
    | inside hcontainer hitems =>
      cases hitem.symm.trans hcontainer
      exact hitems _ hmem

/-- A pass that starts with an empty list comes to every string. -/
theorem Visits.mem_iff (h : Visits heap [item] [] refs texts) {szVal : Bytes} :
    szVal ∈ texts ↔ Holds heap szVal item := by
  refine ⟨fun hmem => ?_, fun hholds => ?_⟩
  · obtain ⟨child, hchild, hholds⟩ := h.held szVal hmem
    rwa [mem_singleton.mp hchild] at hholds
  · exact (h.settled item mem_cons_self).mem (fun ref hmem => h.met ref hmem nofun) hholds

end Visited

def Before (refs : RefList) (nOffset : Nat) : Prop := ∀ ref ∈ refs, ref.nOffset < nOffset

theorem Before.mono {nOffset' : Nat} (h : Before refs nOffset) (hle : nOffset ≤ nOffset') :
    Before refs nOffset' :=
  fun ref hmem => (h ref hmem).trans_le hle

/-- The second pass gets this list when the first one goes on from `refs`. -/
structure Leads (flags : SerializeFlags) (refs final : RefList) : Prop where
  pruned : ∃ refs', Sorted refs' ∧ Grows refs refs' ∧ final = itemSerialUnusedFree refs'
  ignored : flags.ignoreRef → final = []

theorem Leads.of_grows (h : Leads flags refs' final) (hgrows : Grows refs refs') :
    Leads flags refs final := by
  obtain ⟨refs'', hsorted, hgrows', heq⟩ := h.pruned
  exact ⟨⟨refs'', hsorted, hgrows.trans hgrows', heq⟩, h.ignored⟩

/-- What the first pass does to the list on its way past `nSize` bytes. -/
structure Counts (refs : RefList) (nOffset nSize : Nat) (refs' : RefList) : Prop where
  sorted : Sorted refs'
  grows : Grows refs refs'
  before : Before refs' (nOffset + nSize)

theorem Counts.trans {refs'' : RefList} {nSize' : Nat} (h : Counts refs nOffset nSize refs')
    (h' : Counts refs' (nOffset + nSize) nSize' refs'') :
    Counts refs nOffset (nSize + nSize') refs'' :=
  ⟨h'.sorted, h.grows.trans h'.grows, Nat.add_assoc _ _ _ ▸ h'.before⟩

/-- The first pass over the items, and what the second one stores for them with its list. -/
structure Covers (flags : SerializeFlags) (heap : Heap) (whole : Bytes → Prop) (items : List Item)
    (refs : RefList) (nOffset nSize : Nat) (refs' : RefList)
    (serialize : RefList → Option Cells) : Prop where
  counts : Counts refs nOffset nSize refs'
  stores : ∃ texts, Visits heap items refs refs' texts ∧ ∀ final, Leads flags refs' final →
    ∃ cells, serialize final = some cells ∧ Fills whole texts cells nSize

def Agree (flags : SerializeFlags) (heap : Heap) (whole : Bytes → Prop)
    (size : Item → RefList → Nat → Option (Nat × RefList))
    (serialize : RefList → Item → Nat → Option Cells) : Prop :=
  ∀ item refs nOffset nSize refs', ShortName item → size item refs nOffset = some (nSize, refs') →
    Sorted refs → Before refs nOffset →
      Covers flags heap whole [item] refs nOffset nSize refs' fun final =>
        serialize final item nOffset

variable {heap : Heap} {size : Item → RefList → Nat → Option (Nat × RefList)}
  {serialize : RefList → Item → Nat → Option Cells}

theorem sizeItems_cons (h : sizeItems size (item :: items) refs nOffset = some (nSize, refs')) :
    ∃ nFirst nMore more, size item refs nOffset = some (nFirst, more) ∧
      sizeItems size items more (nOffset + nFirst) = some (nMore, refs') ∧
      nSize = nFirst + nMore := by
  obtain ⟨⟨nFirst, more⟩, hfirst, h⟩ := bind_eq_some_iff.mp h
  obtain ⟨⟨nMore, refs''⟩, hmore, h⟩ := bind_eq_some_iff.mp h
  cases h
  exact ⟨nFirst, nMore, more, hfirst, hmore, rfl⟩

theorem items_agree (hagree : Agree flags heap whole size serialize)
    (hnames : ∀ item ∈ items, ShortName item)
    (h : sizeItems size items refs nOffset = some (nSize, refs')) (hsorted : Sorted refs)
    (hbefore : Before refs nOffset) : Covers flags heap whole items refs nOffset nSize refs'
      fun final => serializeItems (serialize final) items nOffset := by
  induction items generalizing refs nOffset nSize with
  | nil =>
    cases h
    exact ⟨⟨hsorted, grows_refl _, hbefore⟩, [], visits_nil,
      fun final _ => ⟨[], rfl, fills_stored whole []⟩⟩
  | cons item items ih =>
    obtain ⟨nFirst, nMore, more, hfirst, hmore, rfl⟩ := sizeItems_cons h
    obtain ⟨hcounts, texts, hvisits, hstores⟩ := hagree item refs nOffset nFirst more
      (hnames item mem_cons_self) hfirst hsorted hbefore
    obtain ⟨hcounts', texts', hvisits', hstores'⟩ := ih
      (fun item hmem => hnames item (mem_cons_of_mem _ hmem)) hmore hcounts.sorted hcounts.before
    refine ⟨hcounts.trans hcounts', texts ++ texts', hvisits.append hvisits' hcounts'.grows,
      fun final hfinal => ?_⟩
    obtain ⟨cells, hcells, hfills⟩ := hstores final (hfinal.of_grows hcounts'.grows)
    obtain ⟨cells', hcells', hfills'⟩ := hstores' final hfinal
    refine ⟨cells ++ cells', ?_, hfills.append hfills'⟩
    rw [serializeItems, hcells]
    change (do return cells ++ (← serializeItems (serialize final)
      items (nOffset + cells.length))) = _
    rw [hfills.length, hcells']
    rfl

theorem sizeRef_met (h : sizeRef flags nRefs address nReg refs = (true, refs'))
    (hsorted : Sorted refs) : (∀ ref ∈ refs', ∃ old ∈ refs, old.value = ref.value) ∧
      ∃ ref ∈ refs', ref.value = address := by
  unfold sizeRef at h
  split at h
  · obtain ⟨-, -, ⟨ref, hmem, hvalue, -⟩, hback⟩ := valueRef_true hsorted h
    refine ⟨fun ref hmem => ?_, ref, hmem, hvalue⟩
    obtain ⟨old, hold, hvalue, -⟩ := hback ref hmem
    exact ⟨old, hold, hvalue⟩
  · cases h

theorem sizeRef_new (h : sizeRef flags nRefs address nReg refs = (false, refs'))
    (hsorted : Sorted refs) :
    ∀ ref ∈ refs', ref.value = address ∨ ∃ old ∈ refs, old.value = ref.value := by
  intro ref hmem
  unfold sizeRef at h
  split at h
  · obtain ⟨-, -, hentries⟩ := valueRef_false hsorted h
    rcases (hentries ref).mp hmem with rfl | hold
    · exact .inl rfl
    · exact .inr ⟨ref, hold, rfl⟩
  · cases h
    exact .inr ⟨ref, hmem, rfl⟩

theorem sizeRef_true (h : sizeRef flags nRefs address nReg refs = (true, refs'))
    (hsorted : Sorted refs) (hbefore : Before refs nOffset) : Counts refs nOffset 5 refs' ∧
      ∀ final, Leads flags refs' final →
        ∃ nRef, serializeRef final nRefs address nOffset = (true, nRef) := by
  unfold sizeRef at h
  split at h
  · rename_i htracked
    obtain ⟨hsorted', hgrows, ⟨ref, hmem, hvalue, hused⟩, hback⟩ := valueRef_true hsorted h
    have hbefore' : Before refs' nOffset := by
      intro ref hmem
      obtain ⟨old, hold, -, hoffset⟩ := hback ref hmem
      rw [← hoffset]
      exact hbefore old hold
    refine ⟨⟨hsorted', hgrows, hbefore'.mono (Nat.le_add_right _ _)⟩, fun final hfinal => ?_⟩
    obtain ⟨refs'', hsorted'', hgrows'', rfl⟩ := hfinal.pruned
    obtain ⟨ref', hmem', hvalue', hoffset', hused'⟩ := hgrows'' ref hmem
    refine ⟨some ref'.nOffset, ?_⟩
    rw [serializeRef, if_pos htracked.2, valueOffset_mem hsorted''.unusedFree
      (mem_unusedFree.mpr ⟨hmem', hused' hused⟩) (hvalue'.trans hvalue), hoffset',
      decide_eq_true (hbefore' ref hmem)]
  · cases h

theorem sizeRef_false (hreg : nOffset ≤ nReg)
    (h : sizeRef flags nRefs address nReg refs = (false, refs')) (hsorted : Sorted refs)
    (hbefore : Before refs nOffset) : Counts refs nReg 1 refs' ∧
      ∀ final, Leads flags refs' final →
        ∃ nRef, serializeRef final nRefs address nOffset = (false, nRef) := by
  suffices hsuff : Counts refs nReg 1 refs' ∧ ∀ final, Leads flags refs' final →
      (serializeRef final nRefs address nOffset).1 = false from
    ⟨hsuff.1, fun final hfinal => ⟨_, Prod.ext (hsuff.2 final hfinal) rfl⟩⟩
  unfold sizeRef at h
  split at h
  · obtain ⟨hsorted', hgrows, hmem⟩ := valueRef_false hsorted h
    refine ⟨⟨hsorted', hgrows, fun ref href => ?_⟩, fun final hfinal => ?_⟩
    · rcases (hmem ref).mp href with rfl | href
      · exact Nat.lt_succ_self nReg
      · exact (hbefore ref href).trans_le (by omega)
    · obtain ⟨refs'', hsorted'', hgrows'', rfl⟩ := hfinal.pruned
      obtain ⟨own, hown, hvalue, hoffset, -⟩ := hgrows'' _ ((hmem _).mpr (.inl rfl))
      unfold serializeRef
      split
      · apply valueOffset_false hsorted''.unusedFree
        intro ref href hrefValue
        have hsame := hsorted''.unique (mem_unusedFree.mp href).1 hown (hrefValue.trans hvalue.symm)
        rw [hsame, hoffset]
        exact hreg
      · rfl
  · rename_i huntracked
    cases h
    refine ⟨⟨hsorted, grows_refl _, hbefore.mono (by omega)⟩, fun final hfinal => ?_⟩
    unfold serializeRef
    split
    · rename_i hrefs
      have hignored : flags.ignoreRef = true := by
        by_contra hne
        exact huntracked ⟨hne, hrefs⟩
      rw [hfinal.ignored hignored]
      exact valueOffset_false List.Pairwise.nil fun _ hmem => absurd hmem not_mem_nil
    · rfl

section

variable (hagree : Agree flags heap whole size serialize)

include hagree

theorem array_agree {base : ArrayBase} (hitem : item.unRef = .container address)
    (hbase : heap address = .array base) (hnames : ∀ item ∈ base.items, ShortName item)
    (h : sizeArray flags size address base refs nOffset = some (nSize, refs'))
    (hsorted : Sorted refs) (hbefore : Before refs nOffset) :
    Covers flags heap whole [item] refs nOffset nSize refs' fun final =>
      serializeArray (serialize final) final address base nOffset := by
  rw [sizeArray] at h
  rcases href : sizeRef flags base.nRefs address (nOffset + classSize base.uiClass) refs with
    ⟨_ | _, more⟩
  · rw [href] at h
    obtain ⟨⟨nMore, refs''⟩, hitems, h⟩ := bind_eq_some_iff.mp h
    cases h
    obtain ⟨hcounts, hwritten⟩ := sizeRef_false (Nat.le_add_right _ _) href hsorted hbefore
    have hlen := two_le_lenSize base.items.length
    obtain ⟨hcounts', texts, hvisits, hstores⟩ := items_agree hagree hnames hitems hcounts.sorted
      (hcounts.before.mono (by omega))
    have hinside : Visits heap (heap address).items more refs' texts := by rwa [hbase]
    refine ⟨⟨hcounts'.sorted, hcounts.grows.trans hcounts'.grows, by
      rw [← Nat.add_assoc]
      exact hcounts'.before⟩, texts, hinside.inside hitem (sizeRef_new href hsorted),
      fun final hfinal => ?_⟩
    obtain ⟨cells, hcells, hfills⟩ := hstores final hfinal
    obtain ⟨nRef, hserialize⟩ := hwritten final (hfinal.of_grows hcounts'.grows)
    rw [serializeArray, hserialize]
    dsimp only
    generalize htags : (if nRef = none then arrayTags else arrayRefTags) = tags
    have hhead : (classBytes base.uiClass ++ lenBytes tags base.items.length).length =
        classSize base.uiClass + lenSize base.items.length := by
      rw [length_append, class_length, len_length]
    rw [hhead, hcells]
    refine ⟨_, rfl, ?_⟩
    rw [← hhead]
    exact (fills_stored whole _).append hfills
  · rw [href] at h
    cases h
    obtain ⟨hcounts, hwritten⟩ := sizeRef_true href hsorted hbefore
    obtain ⟨hback, hmet⟩ := sizeRef_met href hsorted
    refine ⟨hcounts, [], visits_met hitem hback hmet, fun final hfinal => ?_⟩
    obtain ⟨nRef, hserialize⟩ := hwritten final hfinal
    rw [serializeArray, hserialize]
    exact ⟨_, rfl, fills_stored whole _⟩

theorem default_agree {pDefVal : Option Item} (hname : ∀ item ∈ pDefVal.toList, ShortName item)
    (h : sizeDefault size pDefVal refs nOffset = some (nSize, refs')) (hsorted : Sorted refs)
    (hbefore : Before refs (nOffset + 1)) :
    Covers flags heap whole pDefVal.toList refs (nOffset + 1) nSize refs' fun final =>
      serializeDefault (serialize final) pDefVal nOffset := by
  cases pDefVal with
  | none =>
    cases h
    exact ⟨⟨hsorted, grows_refl _, hbefore⟩, [], visits_nil,
      fun final _ => ⟨[], rfl, fills_stored whole []⟩⟩
  | some item =>
    obtain ⟨⟨nDefault, refs''⟩, hsize, h⟩ := bind_eq_some_iff.mp h
    cases h
    obtain ⟨hcounts, texts, hvisits, hstores⟩ := hagree item refs (nOffset + 1) nDefault refs'
      (hname item mem_cons_self) hsize hsorted hbefore
    have hend : nOffset + 1 + nDefault ≤ nOffset + 1 + (1 + nDefault) := by omega
    refine ⟨⟨hcounts.sorted, hcounts.grows, hcounts.before.mono hend⟩, texts, hvisits,
      fun final hfinal => ?_⟩
    obtain ⟨cells, hcells, hfills⟩ := hstores final hfinal
    rw [serializeDefault, hcells]
    exact ⟨_, rfl, (fills_stored whole [byte .hashDefVal]).append hfills⟩

theorem hash_agree {base : HashBase} (hitem : item.unRef = .container address)
    (hbase : heap address = .hash base)
    (hnames : ∀ item ∈ (Container.hash base).items, ShortName item)
    (h : sizeHash flags size address base refs nOffset = some (nSize, refs'))
    (hsorted : Sorted refs) (hbefore : Before refs nOffset) :
    Covers flags heap whole [item] refs nOffset nSize refs' fun final =>
      serializeHash (serialize final) final address base nOffset := by
  rw [sizeHash] at h
  rcases href : sizeRef flags base.nRefs address nOffset refs with ⟨_ | _, more⟩
  · rw [href] at h
    rw [← flag_length] at h
    obtain ⟨⟨nDefault, more'⟩, hdefault, h⟩ := bind_eq_some_iff.mp h
    obtain ⟨⟨nMore, refs''⟩, hitems, h⟩ := bind_eq_some_iff.mp h
    cases h
    obtain ⟨hcounts, hwritten⟩ := sizeRef_false (Nat.le_refl _) href hsorted hbefore
    obtain ⟨hcounts', texts, hvisits, hstores⟩ := default_agree hagree
      (fun item hmem => hnames item (mem_append_left _ hmem)) hdefault hcounts.sorted
      (hcounts.before.mono (by omega))
    have hlen := two_le_lenSize base.pairs.length
    obtain ⟨hcounts'', texts', hvisits', hstores'⟩ := items_agree hagree
      (fun item hmem => hnames item (mem_append_right _ hmem)) hitems hcounts'.sorted
      (hcounts'.before.mono (by omega))
    have hinside : Visits heap (heap address).items more refs' (texts ++ texts') := by
      rw [hbase]
      exact hvisits.append hvisits' hcounts''.grows
    refine ⟨⟨hcounts''.sorted, hcounts.grows.trans (hcounts'.grows.trans hcounts''.grows), by
      rw [← Nat.add_assoc]
      exact hcounts''.before⟩, texts ++ texts', hinside.inside hitem (sizeRef_new href hsorted),
      fun final hfinal => ?_⟩
    obtain ⟨cells, hcells, hfills⟩ := hstores final (hfinal.of_grows hcounts''.grows)
    obtain ⟨cells', hcells', hfills'⟩ := hstores' final hfinal
    obtain ⟨nRef, hserialize⟩ :=
      hwritten final (hfinal.of_grows (hcounts'.grows.trans hcounts''.grows))
    rw [serializeHash, hserialize]
    dsimp only
    generalize htags : (if nRef = none then hashTags else hashRefTags) = tags
    rw [hcells]
    change ∃ cells'', (do
      let more ← serializeItems (serialize final) base.items (nOffset +
        ((flagBytes base).length + cells.length + (lenBytes tags base.pairs.length).length))
      return stored (flagBytes base) ++ cells ++ stored (lenBytes tags base.pairs.length) ++ more) =
        some cells'' ∧ _
    rw [hfills.length, len_length, hcells']
    refine ⟨_, rfl, ?_⟩
    rw [← len_length tags]
    have hall := (((fills_stored whole (flagBytes base)).append hfills).append
      (fills_stored whole (lenBytes tags base.pairs.length))).append hfills'
    rwa [nil_append, append_nil] at hall
  · rw [href] at h
    cases h
    obtain ⟨hcounts, hwritten⟩ := sizeRef_true href hsorted hbefore
    obtain ⟨hback, hmet⟩ := sizeRef_met href hsorted
    refine ⟨hcounts, [], visits_met hitem hback hmet, fun final hfinal => ?_⟩
    obtain ⟨nRef, hserialize⟩ := hwritten final hfinal
    rw [serializeHash, hserialize]
    exact ⟨_, rfl, fills_stored whole _⟩

end

end Passes

section Agreement

variable {cdpIn cdpOut : Option Page} {flags : SerializeFlags} {heap : Heap}

def ShortNames (heap : Heap) : Prop := ∀ address, ∀ item ∈ (heap address).items, ShortName item

theorem passes_agree (hnames : ShortNames heap) (depth : Nat) :
    Agree flags heap (Whole cdpIn cdpOut) (itemSerialSize cdpIn cdpOut flags heap depth)
      (fun final => serializeItem cdpIn cdpOut flags heap final depth) := by
  induction depth with
  | zero =>
    intro item refs nOffset nSize refs' hname h
    cases h
  | succ depth ih =>
    intro item refs nOffset nSize refs' hname h hsorted hbefore
    have hleaf : (∀ address, item.unRef ≠ .container address) →
        (nSize, refs') = (leafSize cdpIn cdpOut flags item.unRef, refs) →
        Covers flags heap (Whole cdpIn cdpOut) [item] refs nOffset nSize refs' fun _ =>
          some (serializeLeaf cdpIn cdpOut flags item.unRef) := by
      rintro hleaf heq
      cases heq
      exact ⟨⟨hsorted, grows_refl _, hbefore.mono (Nat.le_add_right _ _)⟩, _, visits_leaf hleaf,
        fun final _ => ⟨_, rfl, leaf_fills (shortName_unRef hname)⟩⟩
    rw [itemSerialSize] at h
    simp only [serializeItem]
    cases hitem : item.unRef with
    | container address =>
      rw [hitem] at h
      dsimp only at h ⊢
      have hitems := hnames address
      cases hcontainer : heap address with
      | array base =>
        rw [hcontainer] at h hitems
        exact array_agree ih hitem hcontainer hitems h hsorted hbefore
      | hash base =>
        rw [hcontainer] at h hitems
        exact hash_agree ih hitem hcontainer hitems h hsorted hbefore
    | _ =>
      rw [hitem] at h hleaf
      exact hleaf nofun (Option.some.inj h).symm

end Agreement

end Harbour.Rtl.SerialSize
