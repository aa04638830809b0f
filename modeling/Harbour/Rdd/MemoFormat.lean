import Harbour.Rdd.MemoItem

/-!
What has to hold of one memo format, item by item, so that whole values come back.
A layout says which bytes an item should take; a format is what the code does.
-/

namespace Harbour.Rdd.MemoFormat

open Library.Bytes List Library.Memory Rtl.Cdpapi MemoItem

structure Format where
  count : Item → Nat
  store : Item → Buffer → Buffer
  read : (fuel : Nat) → Bytes → Except ErrCode (Item × Bytes)

/-- The bytes of the items that are no arrays, the bytes in front of the items of an
array, the item read back from the bytes of an item, and the bytes that are stored
behind an item. -/
structure Layout where
  header : Nat → Bytes
  leafBytes : Item → Bytes
  leafBack : Item → Item
  leafSpill : Item → Bytes

namespace Layout

mutual

def bytes (layout : Layout) : Item → Bytes
  | .array items => layout.header items.length ++ layout.itemsBytes items
  | item => layout.leafBytes item

def itemsBytes (layout : Layout) : List Item → Bytes
  | [] => []
  | item :: items => layout.bytes item ++ layout.itemsBytes items

end

mutual

def back (layout : Layout) : Item → Item
  | .array items => .array (layout.itemsBack items)
  | item => layout.leafBack item

def itemsBack (layout : Layout) : List Item → List Item
  | [] => []
  | item :: items => layout.back item :: layout.itemsBack items

end

mutual

def spill (layout : Layout) : Item → Bytes
  | .array items => layout.itemsSpill [] items
  | item => layout.leafSpill item

def itemsSpill (layout : Layout) : Bytes → List Item → Bytes
  | bytes, [] => bytes
  | _, item :: items => layout.itemsSpill (layout.spill item) items

end

variable (layout : Layout)

section

variable (items : List Item)

include items

theorem itemsBytes_eq : layout.itemsBytes items = items.flatMap layout.bytes := by
  induction items with
  | nil => rfl
  | cons item items ih => rw [itemsBytes, ih, flatMap_cons]

theorem itemsBack_eq : layout.itemsBack items = items.map layout.back := by
  induction items with
  | nil => rfl
  | cons item items ih => rw [itemsBack, ih, map_cons]

theorem bytes_array :
    layout.bytes (.array items) = layout.header items.length ++ items.flatMap layout.bytes := by
  rw [bytes, itemsBytes_eq]

theorem back_array : layout.back (.array items) = .array (items.map layout.back) := by
  rw [back, itemsBack_eq]

end

section

variable {item : Item} (h : ∀ items, item ≠ .array items)

include h

theorem bytes_leaf : layout.bytes item = layout.leafBytes item := by
  rw [bytes]
  exact h

theorem back_leaf : layout.back item = layout.leafBack item := by
  rw [back]
  exact h

theorem spill_leaf : layout.spill item = layout.leafSpill item := by
  rw [spill]
  exact h

end

theorem itemsSpill_length {items : List Item} {bytes : Bytes} (hbytes : bytes.length ≤ 1)
    (h : ∀ item ∈ items, (layout.spill item).length ≤ 1) :
    (layout.itemsSpill bytes items).length ≤ 1 := by
  induction items generalizing bytes with
  | nil => exact hbytes
  | cons item items ih =>
    exact ih (h item (by simp)) fun item hitem => h item (by simp [hitem])

theorem itemsSpill_eq_nil {items : List Item} (h : ∀ item ∈ items, layout.spill item = []) :
    layout.itemsSpill [] items = [] := by
  induction items with
  | nil => rfl
  | cons item items ih =>
    rw [Layout.itemsSpill, h item (by simp)]
    exact ih fun item hitem => h item (by simp [hitem])

theorem back_plain_iff (item : Item) :
    (layout.back item).plain = item.plain ↔
      item.Everywhere fun item => (∀ items, item ≠ .array items) →
        (layout.leafBack item).plain = item.plain := by
  induction item using Item.inductionOn with
  | array items ih =>
    rw [back_array, Item.everywhere_array, Item.plain, Item.plain, Item.plainItems_eq,
      Item.plainItems_eq, Item.array.injEq, map_map, map_inj_left]
    refine ⟨fun h => ⟨fun hleaf => absurd rfl (hleaf items), fun item hitem => ?_⟩,
      fun h item hitem => ?_⟩
    · exact (ih item hitem).mp (h item hitem)
    · exact (ih item hitem).mpr (h.2 item hitem)
  | leaf item hitem =>
    rw [back_leaf layout hitem, Item.everywhere_leaf hitem]
    exact ⟨fun h _ => h, fun h => h hitem⟩

end Layout

/-- Items are sized, stored and read back in their place, whatever was in memory;
nothing around them is touched. -/
def RoundTrips (format : Format) (item : Item) : Prop :=
  ∀ buf : Buffer,
    (format.store item buf).ptr = buf.ptr + format.count item ∧
    (∀ a, a < buf.ptr ∨ buf.ptr + format.count item ≤ a →
      (format.store item buf).mem a = buf.mem a) ∧
    ∃ item', format.read (format.count item)
        ((format.store item buf).mem.read buf.ptr (format.count item)) = .ok (item', []) ∧
      item'.plain = item.plain

/-- The bytes stored behind a string; nothing is stored behind any other item. -/
def strSpill (iTrans : Trans) (u : Nat) : Item → Bytes
  | .string value => strNul iTrans u value
  | _ => []

theorem strSpill_length (iTrans : Trans) (u : Nat) (item : Item) :
    (strSpill iTrans u item).length ≤ 1 := by
  cases item with
  | string value => exact strNul_length iTrans u value
  | _ => simp [strSpill]

/-- The format follows the layout for every value without wide text. -/
structure Follows (format : Format) (layout : Layout) (platform : Platform) (iTrans : Trans) :
    Prop where
  header_length : ∀ n, 0 < (layout.header n).length
  leafBytes_length : ∀ item, Storable platform iTrans item → (∀ items, item ≠ .array items) →
    0 < (layout.leafBytes item).length
  leafSpill_length : ∀ item, (layout.leafSpill item).length ≤ 1
  count_leaf : ∀ item, Storable platform iTrans item → NoWideText iTrans item →
    (∀ items, item ≠ .array items) → format.count item = (layout.leafBytes item).length
  count_array : ∀ items : List Item, items.length ≤ 0xFFFF →
    format.count (.array items) =
      (layout.header items.length).length + (items.map format.count).sum
  store_leaf : ∀ item buf, Storable platform iTrans item → NoWideText iTrans item →
    (∀ items, item ≠ .array items) → format.store item buf =
      buf.fill (layout.leafBytes item ++ layout.leafSpill item) (layout.leafBytes item).length
  store_array : ∀ (items : List Item) buf, items.length ≤ 0xFFFF →
    format.store (.array items) buf = items.foldl (fun buf item => format.store item buf)
      (buf.fill (layout.header items.length) (layout.header items.length).length)
  read_leaf : ∀ item fuel tail, Storable platform iTrans item → NoWideText iTrans item →
    (∀ items, item ≠ .array items) →
    format.read (fuel + 1) (layout.leafBytes item ++ tail) = .ok (layout.leafBack item, tail)
  read_array : ∀ n fuel memo, n ≤ 0xFFFF → n ≤ memo.length →
    format.read (fuel + 1) (layout.header n ++ memo) =
      (readItems (format.read fuel) n memo).map fun parsed => (.array parsed.1, parsed.2)

namespace Follows

variable {format : Format} {layout : Layout} {platform : Platform} {iTrans : Trans}
variable (follows : Follows format layout platform iTrans)

include follows

theorem bytes_length {item : Item} (hstorable : item.Everywhere (Storable platform iTrans)) :
    0 < (layout.bytes item).length := by
  induction item using Item.inductionOn with
  | array items ih =>
    have := follows.header_length items.length
    rw [layout.bytes_array, length_append]
    omega
  | leaf item hitem =>
    rw [layout.bytes_leaf hitem]
    exact follows.leafBytes_length item ((Item.everywhere_leaf hitem).mp hstorable) hitem

theorem spill_length (item : Item) : (layout.spill item).length ≤ 1 := by
  induction item using Item.inductionOn with
  | array items ih =>
    exact layout.itemsSpill_length (by simp) ih
  | leaf item hitem =>
    rw [layout.spill_leaf hitem]
    exact follows.leafSpill_length item

theorem count_eq {item : Item} (hstorable : item.Everywhere (Storable platform iTrans))
    (hwide : item.Everywhere (NoWideText iTrans)) :
    format.count item = (layout.bytes item).length := by
  induction item using Item.inductionOn with
  | array items ih =>
    rw [Item.everywhere_array] at hstorable hwide
    rw [follows.count_array items hstorable.1, layout.bytes_array, length_append,
      length_flatMap]
    congr 2
    exact map_congr_left fun item hitem =>
      ih item hitem (hstorable.2 item hitem) (hwide.2 item hitem)
  | leaf item hitem =>
    rw [Item.everywhere_leaf hitem] at hstorable hwide
    rw [layout.bytes_leaf hitem]
    exact follows.count_leaf item hstorable hwide hitem

theorem foldl_store (items : List Item) (bytes spill : Bytes) (hspill : spill.length ≤ 1)
    (hpos : ∀ item ∈ items, 0 < (layout.bytes item).length)
    (h : ∀ item ∈ items, ∀ buf, format.store item buf =
      buf.fill (layout.bytes item ++ layout.spill item) (layout.bytes item).length) (buf : Buffer) :
    items.foldl (fun buf item => format.store item buf) (buf.fill (bytes ++ spill) bytes.length) =
      buf.fill (bytes ++ items.flatMap layout.bytes ++ layout.itemsSpill spill items)
        (bytes ++ items.flatMap layout.bytes).length := by
  induction items generalizing bytes spill with
  | nil => simp [Layout.itemsSpill]
  | cons item items ih =>
    have hitem := hpos item (by simp)
    have hfirst : format.store item (buf.fill (bytes ++ spill) bytes.length) =
        buf.fill (bytes ++ layout.bytes item ++ layout.spill item)
          (bytes ++ layout.bytes item).length := by
      rw [h item (by simp), Buffer.fill_fill _ _ _ _ _ (by simp; omega), append_assoc,
        length_append]
    rw [foldl_cons, hfirst, ih _ _ (follows.spill_length item)
      (fun item hitem => hpos item (by simp [hitem]))
      (fun item hitem => h item (by simp [hitem]))]
    simp [Layout.itemsSpill]

section

variable {item : Item} (hstorable : item.Everywhere (Storable platform iTrans))
  (hwide : item.Everywhere (NoWideText iTrans))

include hstorable hwide

theorem store_eq (buf : Buffer) : format.store item buf =
      buf.fill (layout.bytes item ++ layout.spill item) (layout.bytes item).length := by
  induction item using Item.inductionOn generalizing buf with
  | array items ih =>
    rw [Item.everywhere_array] at hstorable hwide
    have hitems := follows.foldl_store items (layout.header items.length) [] (by simp)
      (fun item hitem => follows.bytes_length (hstorable.2 item hitem))
      (fun item hitem => ih item hitem (hstorable.2 item hitem) (hwide.2 item hitem)) buf
    rw [append_nil] at hitems
    rw [follows.store_array items buf hstorable.1, hitems, layout.bytes_array, Layout.spill]
  | leaf item hitem =>
    rw [Item.everywhere_leaf hitem] at hstorable hwide
    rw [layout.bytes_leaf hitem, layout.spill_leaf hitem]
    exact follows.store_leaf item buf hstorable hwide hitem

theorem read_eq {fuel : Nat} (hfuel : (layout.bytes item).length ≤ fuel) (tail : Bytes) :
    format.read fuel (layout.bytes item ++ tail) = .ok (layout.back item, tail) := by
  obtain ⟨fuel, rfl⟩ : ∃ n, fuel = n + 1 :=
    ⟨fuel - 1, by have := follows.bytes_length hstorable; omega⟩
  induction item using Item.inductionOn generalizing fuel tail with
  | array items ih =>
    rw [Item.everywhere_array] at hstorable hwide
    have hheader := follows.header_length items.length
    rw [layout.bytes_array, length_append] at hfuel
    have hitems : ∀ item ∈ items, (layout.bytes item).length ≤
        (items.flatMap layout.bytes).length := by
      intro item hitem
      rw [length_flatMap]
      exact le_sum_of_mem (mem_map_of_mem hitem)
    have hread : readItems (format.read fuel) items.length
        (items.flatMap layout.bytes ++ tail) = .ok (items.map layout.back, tail) := by
      apply readItems_flatMap
      intro item hitem tail
      have hlen := hitems item hitem
      have hpos := follows.bytes_length (hstorable.2 item hitem)
      rcases fuel with _ | fuel
      · omega
      exact ih item hitem (hstorable.2 item hitem) (hwide.2 item hitem) tail fuel (by omega)
    have hcount : items.length ≤ (items.flatMap layout.bytes ++ tail).length := by
      rw [length_append, length_flatMap]
      have := length_le_sum_of_one_le (items.map fun item => (layout.bytes item).length)
        (by simpa using fun item hitem =>
          Nat.succ_le_of_lt (follows.bytes_length (hstorable.2 item hitem)))
      simp only [length_map] at this
      omega
    rw [layout.bytes_array, layout.back_array, append_assoc,
      follows.read_array _ _ _ hstorable.1 hcount, hread]
    rfl
  | leaf item hitem =>
    rw [Item.everywhere_leaf hitem] at hstorable hwide
    rw [layout.bytes_leaf hitem, layout.back_leaf hitem]
    exact follows.read_leaf item fuel tail hstorable hwide hitem

theorem roundTrips_narrow : RoundTrips format item ↔
      layout.spill item = [] ∧ (layout.back item).plain = item.plain := by
  have hcount := follows.count_eq hstorable hwide
  have hread : ∀ buf : Buffer, (format.store item buf).mem.read buf.ptr (format.count item) =
      layout.bytes item := by
    intro buf
    rw [follows.store_eq hstorable hwide, hcount]
    exact Mem.read_write_prefix _ _ _ _
  constructor
  · intro h
    constructor
    · by_contra hspill
      obtain ⟨b, hb⟩ : ∃ b, layout.spill item = [b] :=
        List.length_eq_one_iff.mp (Nat.le_antisymm (follows.spill_length item)
          (List.length_pos_iff.mpr hspill))
      have houtside := (h ⟨fun _ => b + 1, 0⟩).2.1 (format.count item) (.inr (by simp))
      rw [follows.store_eq hstorable hwide, hcount, hb] at houtside
      have hlt : (layout.bytes item).length < (layout.bytes item ++ [b]).length := by simp
      have hbyte := Mem.write_inside (fun _ => b + 1) 0 hlt
      simp only [Buffer.fill, Nat.zero_add] at houtside hbyte
      rw [hbyte] at houtside
      simp at houtside
    · obtain ⟨-, -, item', hitem', hplain⟩ := h ⟨fun _ => 0, 0⟩
      have hback := follows.read_eq hstorable hwide (Nat.le_of_eq hcount.symm) []
      rw [append_nil] at hback
      rw [hread, hback] at hitem'
      cases hitem'
      exact hplain
  · rintro ⟨hspill, hplain⟩ buf
    refine ⟨?_, fun a ha => ?_, layout.back item, ?_, hplain⟩
    · rw [follows.store_eq hstorable hwide, hcount]
      rfl
    · rw [follows.store_eq hstorable hwide, hspill, append_nil]
      rw [hcount] at ha
      exact Mem.write_outside _ _ _ ha
    · have hback := follows.read_eq hstorable hwide (Nat.le_of_eq hcount.symm) []
      rw [append_nil] at hback
      rw [hread, hback]

end

end Follows

/-! ### Wide text -/

/-- Storing the item leaves `k` bytes behind the bytes `pre` as they were, and from
them the reader takes the first character of the text `value` inside the item. -/
structure Exposes (format : Format) (vmCDP : CodePage) (item : Item) (pre : Bytes) (k : Nat)
    (value : Bytes) : Prop where
  header : ∀ buf, (format.store item buf).mem.read buf.ptr pre.length = pre
  gap : ∀ buf, (format.store item buf).mem.read (buf.ptr + pre.length) k =
    buf.mem.read (buf.ptr + pre.length) k
  grows : ∀ buf, Buffer.Grows buf (format.store item buf) (pre.length + k)
  misread : ∀ fuel wc memo parsed, pre.length ≤ fuel →
    format.read fuel (pre ++ ((leBytes 2 wc.toNat).take k ++ memo)) = .ok parsed →
      parsed.1.plain = item.plain → ∃ text, value = cdpU16ToStr vmCDP wc ++ text

variable {k : Nat} {pre value : Bytes} {errCode : ErrCode}

theorem Exposes.not_roundTrips {format : Format} {vmCDP : CodePage} {item : Item}
    (h : Exposes format vmCDP item pre k value) (hk : k ≤ 2) (hpage : Separates vmCDP) :
    ¬ RoundTrips format item := by
  intro htrip
  have hstart : ∀ wc, ∃ text, value = cdpU16ToStr vmCDP wc ++ text := by
    intro wc
    let buf : Buffer := ⟨Mem.write (fun _ => 0) pre.length (leBytes 2 wc.toNat), 0⟩
    obtain ⟨hptr, -, item', hread, hplain⟩ := htrip buf
    have hgrows := (h.grows buf).ptr_le
    have hsplit : (format.store item buf).mem.read buf.ptr (format.count item) =
        pre ++ ((leBytes 2 wc.toNat).take k ++ (format.store item buf).mem.read
          (buf.ptr + pre.length + k) (format.count item - (pre.length + k))) := by
      have hgap : buf.mem.read (buf.ptr + pre.length) k = (leBytes 2 wc.toNat).take k := by
        have hprefix := Mem.read_write_prefix (fun _ => 0) pre.length
          ((leBytes 2 wc.toNat).take k) ((leBytes 2 wc.toNat).drop k)
        simpa [buf, Nat.min_eq_left hk] using hprefix
      have hcount : format.count item =
          pre.length + (k + (format.count item - (pre.length + k))) := by omega
      conv_lhs => rw [hcount, Mem.read_add, Mem.read_add, h.header buf, h.gap buf, hgap]
    rw [hsplit] at hread
    exact h.misread _ wc _ _ (by omega) hread hplain
  obtain ⟨wc, wc', hseparate⟩ := hpage
  obtain ⟨text, htext⟩ := hstart wc
  obtain ⟨text', htext'⟩ := hstart wc'
  exact hseparate text text' (htext.symm.trans htext')

theorem exposes_wide {format : Format} {vmCDP : CodePage} (pre : Bytes) (n : Nat) (hne : value ≠ [])
    (hstore : ∀ buf, ∃ q payload, buf.ptr + pre.length + 2 ≤ q ∧
      format.store (.string value) buf =
        ⟨(buf.mem.write buf.ptr pre).write q payload, buf.ptr + pre.length + n * 2⟩)
    (hread : ∀ fuel memo parsed, pre.length ≤ fuel → format.read fuel (pre ++ memo) = .ok parsed →
      parsed.1 = .string (readStr (.unicode vmCDP) (memo.take (n * 2)))) :
    ∃ k, k ≤ 2 ∧ Exposes format vmCDP (.string value) pre k value := by
  refine ⟨min (n * 2) 2, by omega, fun buf => ?_, fun buf => ?_, fun buf => ⟨?_, fun a ha => ?_⟩,
    fun fuel wc memo parsed hfuel hparsed hplain => ?_⟩
  · obtain ⟨q, payload, hq, hstore⟩ := hstore buf
    rw [hstore, Mem.read_congr fun a _ ha => Mem.write_outside _ q payload (.inl (by omega))]
    exact Mem.read_write buf.mem buf.ptr pre
  · obtain ⟨q, payload, hq, hstore⟩ := hstore buf
    rw [hstore]
    refine Mem.read_congr fun a ha ha' => ?_
    exact (Mem.write_outside _ q payload (.inl (by omega))).trans
      (Mem.write_outside _ _ pre (.inr (by omega)))
  · obtain ⟨q, payload, hq, hstore⟩ := hstore buf
    rw [hstore]
    simp only
    omega
  · obtain ⟨q, payload, hq, hstore⟩ := hstore buf
    rw [hstore]
    exact (Mem.write_outside _ q payload (.inl (by omega))).trans
      (Mem.write_outside _ _ pre (.inl ha))
  · have htext := hread fuel _ parsed hfuel hparsed
    rw [htext] at hplain
    simp only [Item.plain, Item.string.injEq] at hplain
    rcases Nat.eq_zero_or_pos n with rfl | hpos
    · exact absurd (hplain.symm.trans (by simp [readStr, u16Chars])) hne
    · rcases n with _ | n
      · omega
      refine ⟨readStr (.unicode vmCDP) (memo.take (n * 2)), ?_⟩
      rw [← readStr_unicode, ← hplain, Nat.min_eq_right (by omega)]
      have hwc : (leBytes 2 wc.toNat).take 2 = leBytes 2 wc.toNat := rfl
      rw [hwc, take_append, take_of_length_le (by simp)]
      simp [Nat.succ_mul]

theorem exposes_text {format : Format} {platform : Platform} {vmCDP : CodePage} (u off : Nat)
    (pre : Nat → Bytes) (hstorable : Storable platform (.unicode vmCDP) (.string value))
    (hne : value ≠ []) (hpre : ∀ n, 0 < (pre n).length) (hstore : ∀ payload n, (∀ buf : Buffer,
        storeStr (.unicode vmCDP) u off value buf = (buf.poke (2 * off) payload, n * 2)) →
      ∀ buf, ∃ q payload', buf.ptr + (pre (n * 2)).length + 2 ≤ q ∧
        format.store (.string value) buf = ⟨(buf.mem.write buf.ptr (pre (n * 2))).write q payload',
          buf.ptr + (pre (n * 2)).length + n * 2⟩)
    (hread : ∀ {n} fuel memo, n ≤ 0xFFFF → format.read (fuel + 1) (pre n ++ memo) =
      (takeBytes errCode n memo).map
        fun taken => (.string (readStr (.unicode vmCDP) taken.1), taken.2)) :
    ∃ pre k, k ≤ 2 ∧ Exposes format vmCDP (.string value) pre k value := by
  obtain ⟨payload, n, hn, hstr⟩ := storeStr_unicode hstorable u off
  refine ⟨pre (n * 2), exposes_wide _ n hne (hstore payload n hstr)
    fun fuel memo parsed hfuel h => ?_⟩
  obtain ⟨fuel, rfl⟩ : ∃ n, fuel = n + 1 :=
    ⟨fuel - 1, by have := hpre (n * 2); omega⟩
  rw [hread fuel memo hn] at h
  cases htext : takeBytes errCode (n * 2) memo with
  | error errCode =>
    rw [htext] at h
    cases h
  | ok taken =>
    rw [htext] at h
    cases h
    rw [← takeBytes_ok htext]

theorem exposes_typed {format : Format} {platform : Platform} {vmCDP : CodePage} (type : UInt8)
    (hstorable : Storable platform (.unicode vmCDP) (.string value)) (hne : value ≠ [])
    (hstore : ∀ buf : Buffer, format.store (.string value) buf =
      let stored := storeStr (.unicode vmCDP) 0xFFFF 2 value (buf.putByte type)
      (stored.1.poke 0 (leBytes 2 stored.2)).advance (stored.2 + 2))
    (hread : ∀ {n} fuel memo, n ≤ 0xFFFF →
      format.read (fuel + 1) (type :: leBytes 2 n ++ memo) = (takeBytes errCode n memo).map
        fun taken => (.string (readStr (.unicode vmCDP) taken.1), taken.2)) :
    ∃ pre k, k ≤ 2 ∧ Exposes format vmCDP (.string value) pre k value := by
  refine exposes_text 0xFFFF 2 (fun n => type :: leBytes 2 n) hstorable hne (fun n => by simp)
    (fun payload n hstr buf => ⟨buf.ptr + 1 + 4, payload, by simp, ?_⟩) hread
  rw [hstore, hstr]
  refine (Buffer.putByte_poke_gap buf type (leBytes 2 (n * 2)) payload (by simp)
    (n * 2 + 2)).trans ?_
  simp
  omega

/-- What a format that follows its layout does with strings stored in wide
characters. -/
structure Misplaces (format : Format) (layout : Layout) (platform : Platform)
    (vmCDP : CodePage) : Prop where
  follows : Follows format layout platform (.unicode vmCDP)
  leafSpill : ∀ item, layout.leafSpill item = []
  read_zero : ∀ memo, ∃ errCode, format.read 0 memo = .error errCode
  read_array_ok : ∀ n fuel memo parsed, n ≤ 0xFFFF →
    format.read (fuel + 1) (layout.header n ++ memo) = .ok parsed →
      ∃ items memo', readItems (format.read fuel) n memo = .ok (items, memo') ∧
        parsed = (.array items, memo')
  exposes_leaf : ∀ value, Storable platform (.unicode vmCDP) (.string value) → value ≠ [] →
    ∃ pre k, k ≤ 2 ∧ Exposes format vmCDP (.string value) pre k value

theorem exists_first {α : Type} {p : α → Prop} {l : List α} (h : ¬ ∀ a ∈ l, p a) :
    ∃ before a after, l = before ++ a :: after ∧ (∀ b ∈ before, p b) ∧ ¬ p a := by
  induction l with
  | nil => exact absurd (by simp) h
  | cons a l ih =>
    by_cases ha : p a
    · obtain ⟨before, b, after, rfl, hbefore, hb⟩ := ih fun hl => h (by simpa [ha] using hl)
      exact ⟨a :: before, b, after, rfl, by simpa [ha] using hbefore, hb⟩
    · exact ⟨[], a, l, rfl, by simp, ha⟩

theorem foldl_grows {format : Format} {items : List Item}
    (h : ∀ item ∈ items, ∀ buf, Buffer.Grows buf (format.store item buf) 0) (buf : Buffer) :
    Buffer.Grows buf (items.foldl (fun buf item => format.store item buf) buf) 0 := by
  induction items generalizing buf with
  | nil => exact Buffer.grows_refl buf
  | cons item items ih =>
    exact (h item (by simp) buf).trans
      (ih (fun item hitem => h item (by simp [hitem])) (format.store item buf))

namespace Misplaces

variable {format : Format} {layout : Layout} {platform : Platform} {vmCDP : CodePage}
variable (misplaces : Misplaces format layout platform vmCDP)

include misplaces

theorem grows {item : Item} (hstorable : item.Everywhere (Storable platform (.unicode vmCDP)))
    (buf : Buffer) : Buffer.Grows buf (format.store item buf) 0 := by
  induction item using Item.inductionOn generalizing buf with
  | array items ih =>
    rw [Item.everywhere_array] at hstorable
    rw [misplaces.follows.store_array items buf hstorable.1]
    have hitems := foldl_grows (fun item hitem buf =>
      ih item hitem (hstorable.2 item hitem) buf)
      (buf.fill (layout.header items.length) (layout.header items.length).length)
    exact ((Buffer.grows_fill buf _ _).trans hitems).mono (Nat.zero_le _)
  | leaf item hitem =>
    rw [Item.everywhere_leaf hitem] at hstorable
    by_cases hwide : NoWideText (.unicode vmCDP) item
    · rw [misplaces.follows.store_leaf item buf hstorable hwide hitem]
      exact (Buffer.grows_fill buf _ _).mono (Nat.zero_le _)
    · cases item with
      | string value =>
        obtain ⟨pre, k, -, h⟩ := misplaces.exposes_leaf value hstorable hwide
        exact (h.grows buf).mono (Nat.zero_le _)
      | _ => exact absurd trivial hwide

theorem spill_eq (item : Item) : layout.spill item = [] := by
  induction item using Item.inductionOn with
  | array items ih =>
    exact layout.itemsSpill_eq_nil ih
  | leaf item hitem =>
    rw [layout.spill_leaf hitem]
    exact misplaces.leafSpill item

theorem exposes_array {before after : List Item} {item : Item}
    (hstorable : (Item.array (before ++ item :: after)).Everywhere
      (Storable platform (.unicode vmCDP)))
    (hbefore : ∀ item ∈ before, item.Everywhere (NoWideText (.unicode vmCDP)))
    (h : Exposes format vmCDP item pre k value) :
    Exposes format vmCDP (.array (before ++ item :: after))
      (layout.header (before ++ item :: after).length ++ before.flatMap layout.bytes ++ pre)
      k value := by
  rw [Item.everywhere_array] at hstorable
  generalize hitems : before ++ item :: after = items at hstorable ⊢
  generalize hstart : layout.header items.length ++ before.flatMap layout.bytes = start
  have hbeforeStorable : ∀ item ∈ before, item.Everywhere (Storable platform (.unicode vmCDP)) :=
    fun b hb => hstorable.2 b (by simp [← hitems, hb])
  have hstore : ∀ buf, format.store (.array items) buf =
      after.foldl (fun buf item => format.store item buf)
        (format.store item (buf.fill start start.length)) := by
    intro buf
    have hfirst := misplaces.follows.foldl_store before (layout.header items.length) [] (by simp)
      (fun b hb => misplaces.follows.bytes_length (hbeforeStorable b hb))
      (fun b hb => misplaces.follows.store_eq (hbeforeStorable b hb) (hbefore b hb)) buf
    rw [layout.itemsSpill_eq_nil fun b _ => misplaces.spill_eq b, append_nil,
      append_nil, hstart] at hfirst
    rw [misplaces.follows.store_array items buf hstorable.1, ← hitems, foldl_append,
      foldl_cons, hitems, hfirst]
  have hafter : ∀ buf, Buffer.Grows (format.store item buf)
      (after.foldl (fun buf item => format.store item buf) (format.store item buf)) 0 :=
    fun buf => foldl_grows (fun b hb buf =>
      misplaces.grows (hstorable.2 b (by simp [← hitems, hb])) buf) _
  have hsame : ∀ (buf : Buffer) (a : Nat), a < buf.ptr + start.length + pre.length + k →
      (format.store (.array items) buf).mem a =
        (format.store item (buf.fill start start.length)).mem a := by
    intro buf a ha
    have hptr := (h.grows (buf.fill start start.length)).ptr_le
    rw [hstore]
    exact (hafter _).below a (by simp only [Buffer.fill] at hptr ⊢; omega)
  refine ⟨fun buf => ?_, fun buf => ?_, fun buf => ?_, ?_⟩
  · have hlow : (format.store (.array items) buf).mem.read buf.ptr start.length = start := by
      rw [Mem.read_congr fun a _ ha => hsame buf a (by omega),
        Mem.read_congr fun a _ ha => (h.grows (buf.fill start start.length)).below a ha]
      exact Mem.read_write buf.mem buf.ptr start
    have hhigh : (format.store (.array items) buf).mem.read (buf.ptr + start.length) pre.length =
        pre := by
      rw [Mem.read_congr fun a _ ha => hsame buf a (by omega)]
      exact h.header (buf.fill start start.length)
    rw [length_append, Mem.read_add, hlow, hhigh]
  · rw [length_append, ← Nat.add_assoc,
      Mem.read_congr fun a _ ha => hsame buf a (by omega)]
    refine (h.gap (buf.fill start start.length)).trans (Mem.read_congr fun a ha _ => ?_)
    exact Mem.write_outside _ _ _ (.inr (by simp only [Buffer.fill] at ha; omega))
  · rw [hstore, length_append]
    have hall := ((Buffer.grows_fill buf start start.length).trans
      (h.grows (buf.fill start start.length))).trans (hafter _)
    exact hall.mono (by omega)
  · intro fuel wc memo parsed hfuel hread hplain
    have hheader := misplaces.follows.header_length items.length
    rw [length_append, ← hstart, length_append] at hfuel
    rcases fuel with _ | fuel
    · omega
    rw [← hstart, append_assoc, append_assoc] at hread
    obtain ⟨items', memo', hitemsRead, rfl⟩ :=
      misplaces.read_array_ok items.length fuel _ parsed hstorable.1 hread
    have hbeforeRead : ∀ b ∈ before, ∀ tail,
        format.read fuel (layout.bytes b ++ tail) = .ok (layout.back b, tail) := by
      intro b hb tail
      have hlen : (layout.bytes b).length ≤ (before.flatMap layout.bytes).length := by
        rw [length_flatMap]
        exact le_sum_of_mem (mem_map_of_mem hb)
      exact misplaces.follows.read_eq (hbeforeStorable b hb) (hbefore b hb) (by omega) tail
    rw [← hitems] at hplain
    rw [← hitems, length_append, length_cons] at hitemsRead
    obtain ⟨item', memo'', items'', hitem, rfl⟩ := readItems_split hbeforeRead hitemsRead
    refine h.misread fuel wc memo (item', memo'') (by omega) hitem ?_
    simp only [Item.plain, Item.plainItems_eq, map_append, map_cons,
      Item.array.injEq] at hplain
    exact (List.cons.inj (append_inj hplain (by simp)).2).1

theorem exposes {item : Item} (hstorable : item.Everywhere (Storable platform (.unicode vmCDP)))
    (hwide : ¬ item.Everywhere (NoWideText (.unicode vmCDP))) :
    ∃ pre k value, k ≤ 2 ∧ Exposes format vmCDP item pre k value := by
  induction item using Item.inductionOn with
  | array items ih =>
    have hitem : ¬ ∀ item ∈ items, item.Everywhere (NoWideText (.unicode vmCDP)) :=
      fun h => hwide (Item.everywhere_array.mpr ⟨trivial, h⟩)
    obtain ⟨before, item, after, rfl, hbefore, hitem⟩ := exists_first hitem
    obtain ⟨pre, k, value, hk, hexposes⟩ := ih item (by simp)
      ((Item.everywhere_array.mp hstorable).2 item (by simp)) hitem
    exact ⟨_, k, value, hk, misplaces.exposes_array hstorable hbefore hexposes⟩
  | leaf item hitem =>
    rw [Item.everywhere_leaf hitem] at hstorable hwide
    cases item with
    | string value =>
      obtain ⟨pre, k, hk, h⟩ := misplaces.exposes_leaf value hstorable hwide
      exact ⟨pre, k, value, hk, h⟩
    | _ => exact absurd trivial hwide

theorem roundTrips_exact (hpage : Separates vmCDP) {item : Item}
    (hstorable : item.Everywhere (Storable platform (.unicode vmCDP))) :
    RoundTrips format item ↔
      item.Everywhere (NoWideText (.unicode vmCDP)) ∧ layout.spill item = [] ∧
        (layout.back item).plain = item.plain := by
  by_cases hwide : item.Everywhere (NoWideText (.unicode vmCDP))
  · rw [misplaces.follows.roundTrips_narrow hstorable hwide]
    exact ⟨fun h => ⟨hwide, h⟩, fun h => h.2⟩
  · obtain ⟨pre, k, value, hk, h⟩ := misplaces.exposes hstorable hwide
    exact ⟨fun htrip => absurd htrip (h.not_roundTrips hk hpage), fun h => absurd h.1 hwide⟩

end Misplaces

end Harbour.Rdd.MemoFormat
