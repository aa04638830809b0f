import Harbour.Common.CharClass
import Harbour.Library.Memory

/-!
The list of the tags in the header of an NSX index.

The memory starts with the header; behind it lie the other fields of the index.
-/

namespace Harbour.Rdd.NsxTagList

open Common.CharClass Library.Memory Library.Bytes List Option

abbrev NSX_MAXTAGS : Nat := 50

abbrev NSX_TAGNAME : Nat := 11

abbrev NSX_DUMMYNODE : Nat := 0xFFFFFFFF

abbrev tagCount : Nat := 2

abbrev tagList : Nat := 14

abbrev itemSize : Nat := 16
abbrev tagOffset : Nat := 12

abbrev item (i : Nat) : Nat := tagList + itemSize * i

/-- `hb_strnicmp` of two strings that end with a zero, or at the end of the list. -/
def hb_strnicmp : (count : Nat) → (s1 s2 : Bytes) → Int
  | 0, _, _ => 0
  | count + 1, s1, s2 =>
    let c1 := HB_TOUPPER (s1.headD 0)
    let c2 := HB_TOUPPER (s2.headD 0)
    if c1 ≠ c2 then (if c1 < c2 then -1 else 1)
    else if c1 = 0 then 0
    else hb_strnicmp count s1.tail s2.tail

def strncpyLoop (mem : Mem) : (pDest nLen : Nat) → (pSource : Bytes) → Mem
  | _, 0, _ => mem
  | pDest, nLen + 1, pSource =>
    let mem := mem.write pDest [pSource.headD 0]
    if pSource.headD 0 ≠ 0 then strncpyLoop mem (pDest + 1) nLen pSource.tail else mem

def hb_strncpy (mem : Mem) (pDest : Nat) (pSource : Bytes) (nLen : Nat) : Mem :=
  strncpyLoop (mem.write (pDest + nLen) [0]) pDest nLen pSource

section Directory

variable (mem : Mem)

def sameTag (i : Nat) (szTagName : Bytes) : Bool :=
  hb_strnicmp NSX_TAGNAME (mem.read (item i) (NSX_TAGNAME + 1)) szTagName = 0

/-- The loops over the items: the place of a tag, or the count of all. -/
def findItem (szTagName : Bytes) : (left i : Nat) → Nat
  | 0, i => i
  | left + 1, i => if sameTag mem i szTagName then i else findItem szTagName left (i + 1)

def hb_nsxIndexTagAdd (szTagName : Bytes) (headBlock : UInt32) : Mem :=
  let iTags := getLE mem tagCount 2
  let i := findItem mem szTagName iTags 0
  let mem :=
    if i = iTags then
      hb_strncpy (mem.write tagCount (leBytes 2 (iTags + 1))) (item i) szTagName NSX_TAGNAME
    else mem
  mem.write (item i + tagOffset) (leBytes 4 headBlock.toNat)

def hb_nsxIndexTagDel (szTagName : Bytes) : Mem :=
  let iTags := getLE mem tagCount 2
  let i := findItem mem szTagName iTags 0
  if i < iTags then
    let mem := mem.write (item i) (mem.read (item (i + 1)) ((iTags - i) * itemSize))
    let mem := mem.write (item (i + iTags - 1)) (replicate itemSize 0)
    mem.write tagCount (leBytes 2 (iTags - 1))
  else mem

def hb_nsxIndexTagFind (szTagName : Bytes) : Nat :=
  let iTags := getLE mem tagCount 2
  let i := findItem mem szTagName iTags 0
  if i < iTags then getLE mem (item i + tagOffset) 4 else NSX_DUMMYNODE

end Directory

variable {c : UInt8} {a count k pos : Nat}

def cName (count : Nat) (name : Bytes) : Bytes := (name.take count).takeWhile (· ≠ 0)

/-- Names that differ in upper and lower case only have one key. -/
def nameKey (count : Nat) (name : Bytes) : Bytes := (cName count name).map HB_TOUPPER

theorem toUpper_eq_zero : HB_TOUPPER c = 0 ↔ c = 0 := by
  unfold HB_TOUPPER
  split
  · next hletter =>
    have hle := UInt8.le_iff_toNat_le.mp hletter.1
    refine iff_of_false (fun h => ?_) (fun h => by rw [h] at hle; exact absurd hle (by decide))
    have hsub := congrArg UInt8.toNat h
    rw [UInt8.toNat_sub_of_le _ _ (UInt8.le_iff_toNat_le.mpr (hle.trans' (by decide)))] at hsub
    change 97 ≤ c.toNat at hle
    change c.toNat - 32 = 0 at hsub
    omega
  · exact Iff.rfl

theorem cName_zero (name : Bytes) : cName 0 name = [] := by
  rfl

theorem cName_succ (count : Nat) (name : Bytes) :
    cName (count + 1) name =
      if name.headD 0 = 0 then [] else name.headD 0 :: cName count name.tail := by
  cases name with
  | nil => rfl
  | cons c name =>
    unfold cName
    rw [take_succ_cons, headD_cons, tail_cons]
    split
    · next hzero => rw [takeWhile_cons_of_neg (by simpa using hzero)]
    · next hne => rw [takeWhile_cons_of_pos (by simpa using hne)]

theorem hb_strnicmp_eq_zero_iff (count : Nat) (s1 s2 : Bytes) :
    hb_strnicmp count s1 s2 = 0 ↔ nameKey count s1 = nameKey count s2 := by
  unfold nameKey
  induction count generalizing s1 s2 with
  | zero => simp [hb_strnicmp, cName_zero]
  | succ count ih =>
    unfold hb_strnicmp
    rw [cName_succ, cName_succ]
    dsimp only
    split
    · next hother =>
      refine iff_of_false (by split <;> decide) (fun heq => hother ?_)
      split at heq
      · next h1 =>
        split at heq
        · next h2 => rw [h1, h2]
        · exact absurd heq (by simp)
      · split at heq
        · exact absurd heq (by simp)
        · exact (List.cons.inj heq).1
    · next hsame =>
      rw [not_not] at hsame
      split
      · next hzero =>
        have h1 := toUpper_eq_zero.mp hzero
        have h2 := toUpper_eq_zero.mp (hsame ▸ hzero)
        rw [if_pos h1, if_pos h2]
        exact iff_of_true rfl rfl
      · next hne =>
        have h1 := mt toUpper_eq_zero.mpr hne
        have h2 := mt toUpper_eq_zero.mpr (hsame ▸ hne)
        rw [if_neg h1, if_neg h2, map_cons, map_cons, hsame, List.cons.injEq]
        exact (ih s1.tail s2.tail).trans ⟨fun h => ⟨rfl, h⟩, And.right⟩

theorem strncpyLoop_eq (mem : Mem) (pDest nLen : Nat) (pSource : Bytes) :
    strncpyLoop mem pDest nLen pSource = mem.write pDest (cName nLen pSource ++
      if (cName nLen pSource).length < nLen then [0] else []) := by
  induction nLen generalizing mem pDest pSource with
  | zero => simp [strncpyLoop, cName_zero]
  | succ nLen ih =>
    unfold strncpyLoop
    rw [cName_succ]
    by_cases hzero : pSource.headD 0 = 0
    · rw [if_neg (not_not.mpr hzero), if_pos hzero, hzero]
      rfl
    · rw [if_pos hzero, if_neg hzero, ih, cons_append, length_cons]
      have happend := mem.write_append pDest [pSource.headD 0] (cName nLen pSource.tail ++
        if (cName nLen pSource.tail).length < nLen then [0] else [])
      simp only [Nat.add_lt_add_iff_right]
      exact happend

section Items

abbrev Tag := Bytes × UInt32

def place (tags : List Tag) (name : Bytes) : Nat :=
  tags.findIdx fun tag => tag.1.map HB_TOUPPER = nameKey NSX_TAGNAME name

structure HoldsItem (mem : Mem) (i : Nat) (tag : Tag) : Prop where
  name : cName NSX_TAGNAME (mem.read (item i) (NSX_TAGNAME + 1)) = tag.1
  offset : getLE mem (item i + tagOffset) 4 = tag.2.toNat

def keys (tags : List Tag) : List Bytes := tags.map fun tag => tag.1.map HB_TOUPPER

structure Holds (mem : Mem) (tags : List Tag) : Prop where
  count : getLE mem tagCount 2 = tags.length
  le : tags.length ≤ NSX_MAXTAGS
  items : ∀ i tag, tags[i]? = some tag → HoldsItem mem i tag
  zero : ∀ a, item tags.length ≤ a → a < item NSX_MAXTAGS → mem a = 0
  distinct : (keys tags).Nodup

/-- Nothing has changed but `TagCount` and `TagList`. -/
def Kept (mem mem' : Mem) : Prop :=
  ∀ a, ¬ (tagCount ≤ a ∧ a < tagCount + 2) → ¬ (tagList ≤ a ∧ a < item NSX_MAXTAGS) →
    mem' a = mem a

variable {mem mem' mem'' : Mem} {tags : List Tag} {tag : Tag} {i j : Nat} {name : Bytes}

theorem Kept.refl (mem : Mem) : Kept mem mem := fun _ _ _ => rfl

theorem Kept.trans (h : Kept mem mem') (h' : Kept mem' mem'') : Kept mem mem'' :=
  fun a hcount hlist => (h' a hcount hlist).trans (h a hcount hlist)

theorem HoldsItem.move (h : HoldsItem mem i tag)
    (hsame : ∀ k < itemSize, mem' (item j + k) = mem (item i + k)) : HoldsItem mem' j tag := by
  have hread : ∀ off n, off + n ≤ itemSize →
      mem'.read (item j + off) n = mem.read (item i + off) n := by
    intro off n hn
    apply map_congr_left
    intro k hk
    rw [mem_range] at hk
    rw [Nat.add_assoc, hsame _ (by omega), ← Nat.add_assoc]
  have hname := hread 0 (NSX_TAGNAME + 1) (by decide)
  have hoffset := hread tagOffset 4 (by decide)
  refine ⟨?_, ?_⟩
  · rw [← h.name]
    exact congrArg _ hname
  · rw [← h.offset]
    exact congrArg _ hoffset

theorem sameTag_iff (h : HoldsItem mem i tag) :
    sameTag mem i name = true ↔ tag.1.map HB_TOUPPER = nameKey NSX_TAGNAME name := by
  unfold sameTag
  rw [decide_eq_true_iff, hb_strnicmp_eq_zero_iff, ← h.name]
  rfl

theorem findItem_eq (h : Holds mem tags) (left i : Nat) (hleft : i + left = tags.length) :
    findItem mem name left i = i + place (tags.drop i) name := by
  unfold place
  induction left generalizing i with
  | zero => rw [drop_of_length_le (by omega)]; rfl
  | succ left ih =>
    have hi : i < tags.length := by omega
    have hitem := h.items i tags[i] (getElem?_eq_getElem hi)
    unfold findItem
    rw [drop_eq_getElem_cons hi, findIdx_cons]
    by_cases hsame : sameTag mem i name = true
    · rw [if_pos hsame, decide_eq_true ((sameTag_iff hitem).mp hsame)]
      rfl
    · rw [if_neg hsame, decide_eq_false (mt (sameTag_iff hitem).mpr hsame), ih (i + 1) (by omega)]
      simp only [cond_false]
      omega

theorem findItem_place (h : Holds mem tags) :
    findItem mem name (getLE mem tagCount 2) 0 = place tags name := by
  rw [h.count, findItem_eq h tags.length 0 (Nat.zero_add _), Nat.zero_add, drop_zero]

end Items

section Steps

variable {mem mem' : Mem} {tags : List Tag} {name : Bytes} {off : UInt32}

def added (tags : List Tag) (name : Bytes) (off : UInt32) : List Tag :=
  if place tags name < tags.length then tags.modify (place tags name) fun tag => (tag.1, off)
  else tags ++ [(cName NSX_TAGNAME name, off)]

def deleted (tags : List Tag) (name : Bytes) : List Tag := tags.eraseIdx (place tags name)

def offsetOf (tags : List Tag) (name : Bytes) : Nat :=
  (tags[place tags name]?).elim NSX_DUMMYNODE fun tag => tag.2.toNat

theorem place_le (tags : List Tag) (name : Bytes) : place tags name ≤ tags.length :=
  findIdx_le_length

theorem hb_nsxIndexTagFind_eq (h : Holds mem tags) :
    hb_nsxIndexTagFind mem name = offsetOf tags name := by
  unfold hb_nsxIndexTagFind offsetOf
  dsimp only
  rw [findItem_place h, h.count]
  split
  · next hlt =>
    rw [getElem?_eq_getElem hlt]
    exact (h.items _ _ (getElem?_eq_getElem hlt)).offset
  · next hge =>
    rw [getElem?_eq_none (by omega)]
    rfl

theorem Kept.write {mem : Mem} {bytes : Bytes}
    (h : tagCount ≤ pos ∧ pos + bytes.length ≤ tagCount + 2 ∨
      tagList ≤ pos ∧ pos + bytes.length ≤ item NSX_MAXTAGS) : Kept mem (mem.write pos bytes) :=
  fun a hcount hlist => mem.write_outside pos bytes (by omega)

theorem cName_append {s : Bytes} (hs : ∀ c ∈ s, c ≠ 0) (hle : s.length ≤ count) (rest : Bytes) :
    cName count (s ++ 0 :: rest) = s := by
  induction s generalizing count with
  | nil =>
    cases count with
    | zero => exact cName_zero _
    | succ count => exact cName_succ count _
  | cons c s ih =>
    obtain ⟨count, rfl⟩ := Nat.exists_eq_succ_of_ne_zero (Nat.ne_of_gt (Nat.lt_of_lt_of_le
      (Nat.succ_pos _) hle))
    rw [cons_append, cName_succ, headD_cons, tail_cons,
      if_neg (hs c mem_cons_self),
      ih (fun c' hc' => hs c' (mem_cons_of_mem _ hc')) (Nat.le_of_succ_le_succ hle)]

theorem cName_length_le (count : Nat) (name : Bytes) : (cName count name).length ≤ count := by
  have htake := length_take_le count name
  have hwhile := (takeWhile_sublist (l := name.take count) (· ≠ 0)).length_le
  exact hwhile.trans htake

theorem cName_ne_zero (h : c ∈ cName count name) : c ≠ 0 := by
  have hall := all_eq_true.mp (all_takeWhile (l := name.take count)) c h
  exact of_decide_eq_true hall

theorem hb_strncpy_outside (mem : Mem) (nLen : Nat) (name : Bytes) (ha : a < pos ∨ pos + nLen < a) :
    hb_strncpy mem pos name nLen a = mem a := by
  have hlength := cName_length_le nLen name
  unfold hb_strncpy
  rw [strncpyLoop_eq, Mem.write_outside, Mem.write_outside]
  · simp only [length_singleton]
    omega
  · rw [length_append]
    split
    · rw [length_singleton]
      omega
    · rw [length_nil]
      omega

theorem hb_strncpy_name (mem : Mem) (pos nLen : Nat) (name : Bytes) :
    cName nLen ((hb_strncpy mem pos name nLen).read pos (nLen + 1)) = cName nLen name := by
  have hlength := cName_length_le nLen name
  obtain ⟨r, hr⟩ : ∃ r, nLen + 1 = (cName nLen name).length + (1 + r) :=
    ⟨nLen - (cName nLen name).length, by omega⟩
  unfold hb_strncpy
  rw [strncpyLoop_eq, hr, Mem.read_add, Mem.read_write_prefix, Mem.read_add]
  have hzero : ((mem.write (pos + nLen) [0]).write pos (cName nLen name ++
      if (cName nLen name).length < nLen then [0] else [])).read
        (pos + (cName nLen name).length) 1 = [0] := by
    change [Mem.write _ _ _ _] = [0]
    rw [Nat.add_zero]
    split
    · next hlt =>
      rw [Mem.write_inside _ _ (by rw [length_append, length_singleton]; omega)]
      simp
    · next hge =>
      rw [append_nil, Mem.write_outside _ _ _ (.inr (le_refl _)),
        show pos + (cName nLen name).length = pos + nLen + 0 by omega,
        Mem.write_inside _ _ (by simp)]
      rfl
  rw [hzero, singleton_append]
  exact cName_append (fun c hc => cName_ne_zero hc) hlength _

theorem item_lt {i j : Nat} (h : i < j) (hk : k < itemSize) : item i + k < item j := by
  simp only [item, tagList, itemSize] at *
  omega

theorem keys_modify (tags : List Tag) (i : Nat) (off : UInt32) :
    keys (tags.modify i fun tag => (tag.1, off)) = keys tags := by
  unfold keys
  apply ext_getElem?
  intro j
  rw [getElem?_map, getElem?_map, getElem?_modify]
  cases tags[j]? with
  | none => rfl
  | some tag => by_cases hij : i = j <;> simp [hij]

theorem hb_nsxIndexTagAdd_old (h : Holds mem tags) (hlt : place tags name < tags.length) :
    Holds (hb_nsxIndexTagAdd mem name off) (added tags name off) ∧
      Kept mem (hb_nsxIndexTagAdd mem name off) := by
  have hle := h.le
  unfold hb_nsxIndexTagAdd
  dsimp only
  rw [findItem_place h, h.count, if_neg (Nat.ne_of_lt hlt), added, if_pos hlt]
  generalize place tags name = i at hlt
  have hkept : ∀ a, a < item i + tagOffset ∨ item (i + 1) ≤ a →
      mem.write (item i + tagOffset) (leBytes 4 off.toNat) a = mem a := by
    intro a ha
    apply mem.write_outside
    rw [leBytes_length]
    omega
  refine ⟨⟨?_, ?_, fun j tag hj => ?_, fun a ha ha' => ?_, ?_⟩, .write (.inr ?_)⟩
  · rw [length_modify, ← h.count]
    refine congrArg leValue (Mem.read_congr fun a ha ha' => hkept a (.inl ?_))
    simp only [item, tagList, itemSize, tagOffset, tagCount] at *
    omega
  · rw [length_modify]
    exact hle
  · rw [getElem?_modify] at hj
    split at hj
    · next hij =>
      subst hij
      obtain ⟨old, hold, rfl⟩ := Option.map_eq_some_iff.mp hj
      refine ⟨?_, ?_⟩
      · rw [← (h.items i old hold).name]
        exact congrArg _ (Mem.read_congr fun a ha ha' => hkept a (.inl ha'))
      · refine (getLE_of_read (n := off.toNat) ?_).trans (Nat.mod_eq_of_lt off.toNat_lt)
        exact mem.read_write _ _
    · next hij =>
      have hj : tags[j]? = some tag := by simpa using hj
      refine (h.items j tag hj).move fun k hk => hkept _ ?_
      simp only [item, tagList, itemSize, tagOffset] at *
      omega
  · rw [length_modify] at ha
    rw [hkept a (.inr ?_)]
    · exact h.zero a ha ha'
    · simp only [item, tagList, itemSize] at *
      omega
  · rw [keys_modify]
    exact h.distinct
  · rw [leBytes_length]
    simp only [item, tagList, itemSize, tagOffset, NSX_MAXTAGS] at *
    omega

theorem place_eq_length (hge : ¬ place tags name < tags.length) :
    nameKey NSX_TAGNAME name ∉ keys tags := by
  intro hmem
  obtain ⟨tag, htag, hkey⟩ := mem_map.mp hmem
  exact hge (findIdx_lt_length_of_exists ⟨tag, htag, decide_eq_true hkey⟩)

theorem hb_nsxIndexTagAdd_new (h : Holds mem tags) (hge : ¬ place tags name < tags.length)
    (hroom : tags.length < NSX_MAXTAGS) :
    Holds (hb_nsxIndexTagAdd mem name off) (added tags name off) ∧
      Kept mem (hb_nsxIndexTagAdd mem name off) := by
  have hplace : place tags name = tags.length :=
    Nat.le_antisymm (place_le tags name) (not_lt.mp hge)
  have hnew := place_eq_length hge
  unfold hb_nsxIndexTagAdd
  dsimp only
  rw [findItem_place h, h.count, hplace, if_pos rfl, added, if_neg hge]
  generalize hn : tags.length = n at hroom
  generalize hcounted : mem.write tagCount (leBytes 2 (n + 1)) = counted
  generalize hmem' : (hb_strncpy counted (item n) name NSX_TAGNAME).write (item n + tagOffset)
    (leBytes 4 off.toNat) = mem'
  have hother : ∀ a, a < item n ∨ item (n + 1) ≤ a → mem' a = counted a := by
    intro a ha
    simp only [item, tagList, itemSize] at ha
    rw [← hmem', Mem.write_outside, hb_strncpy_outside]
    · simp only [item, tagList, itemSize, NSX_TAGNAME]
      omega
    · rw [leBytes_length]
      simp only [item, tagList, itemSize, tagOffset]
      omega
  have hkept : ∀ a, tagList ≤ a → a < item n ∨ item (n + 1) ≤ a → mem' a = mem a := by
    intro a hlist ha
    rw [hother a ha, ← hcounted, Mem.write_outside]
    rw [leBytes_length]
    exact .inr (le_trans (by decide) hlist)
  refine ⟨⟨?_, ?_, fun j tag hj => ?_, fun a ha ha' => ?_, ?_⟩, fun a hcount hlist => ?_⟩
  · rw [length_append, length_singleton, hn]
    refine (getLE_of_read (n := n + 1) ?_).trans (Nat.mod_eq_of_lt ?_)
    · have hread : mem'.read tagCount 2 = counted.read tagCount 2 := by
        refine Mem.read_congr fun a _ ha => hother a (.inl ?_)
        simp only [item, tagList, itemSize, tagCount] at *
        omega
      rw [hread, ← hcounted]
      exact mem.read_write _ _
    · exact Nat.lt_of_le_of_lt hroom (by decide)
  · rw [length_append, length_singleton, hn]
    exact hroom
  · rw [getElem?_append] at hj
    split at hj
    · next hlt =>
      refine (h.items j tag hj).move fun k hk => hkept _ (by simp only [item]; omega) (.inl ?_)
      exact item_lt (hn ▸ hlt) hk
    · next hle =>
      obtain ⟨hj0, htag⟩ := List.getElem?_eq_some_iff.mp hj
      rw [length_singleton] at hj0
      obtain rfl : j = n := by omega
      rw [getElem_singleton] at htag
      rw [← htag, ← hmem']
      refine ⟨?_, ?_⟩
      · rw [Mem.read_write_outside _ (.inl (le_refl _))]
        exact hb_strncpy_name _ _ _ _
      · refine (getLE_of_read (n := off.toNat) ?_).trans (Nat.mod_eq_of_lt off.toNat_lt)
        exact Mem.read_write _ _ _
  · rw [length_append, length_singleton, hn] at ha
    rw [hkept a (by simp only [item] at ha; omega) (.inr ha)]
    refine h.zero a (le_trans ?_ ha) ha'
    simp only [item, itemSize, hn]
    omega
  · unfold keys
    rw [map_append, nodup_append]
    refine ⟨h.distinct, nodup_singleton _, fun k hk k' hk' => ?_⟩
    rw [map_singleton, mem_singleton] at hk'
    rintro rfl
    rw [hk'] at hk
    exact hnew hk
  · simp only [item, tagList, itemSize, NSX_MAXTAGS, tagCount] at *
    rw [hother a (by omega), ← hcounted, Mem.write_outside _ _ _ (by rw [leBytes_length]; omega)]

theorem hb_nsxIndexTagAdd_holds (h : Holds mem tags)
    (hroom : (added tags name off).length ≤ NSX_MAXTAGS) :
    Holds (hb_nsxIndexTagAdd mem name off) (added tags name off) ∧
      Kept mem (hb_nsxIndexTagAdd mem name off) := by
  by_cases hlt : place tags name < tags.length
  · exact hb_nsxIndexTagAdd_old h hlt
  · refine hb_nsxIndexTagAdd_new h hlt ?_
    rw [added, if_neg hlt, length_append] at hroom
    exact hroom

/--
That a tag can be deleted from place `i` of `n`: what `hb_nsxIndexTagDel` clears, or copies into
the list, from behind the list is zero.
-/
def Clear (mem : Mem) (i n : Nat) : Prop :=
  (∀ a, item NSX_MAXTAGS ≤ a → item (i + n - 1) ≤ a → a < item (i + n) → mem a = 0) ∧
    (n = NSX_MAXTAGS → 0 < i → ∀ a, item NSX_MAXTAGS ≤ a → a < item (NSX_MAXTAGS + 1) → mem a = 0)

theorem Clear.of_le {mem : Mem} {i n : Nat} (h : i + n ≤ NSX_MAXTAGS) : Clear mem i n := by
  refine ⟨fun a hlist _ hhigh => ?_, fun hfull hi => by omega⟩
  simp only [item, tagList, itemSize, NSX_MAXTAGS] at *
  omega

theorem hb_nsxIndexTagDel_none (h : Holds mem tags) (hge : ¬ place tags name < tags.length) :
    hb_nsxIndexTagDel mem name = mem ∧ deleted tags name = tags := by
  unfold hb_nsxIndexTagDel deleted
  dsimp only
  rw [findItem_place h, h.count, if_neg hge]
  exact ⟨rfl, eraseIdx_of_length_le (not_lt.mp hge)⟩

section

variable (h : Holds mem tags) (hlt : place tags name < tags.length)

include h hlt

theorem hb_nsxIndexTagDel_apply (hcount : ¬ (tagCount ≤ a ∧ a < tagCount + 2)) :
    hb_nsxIndexTagDel mem name a =
      if item (place tags name + tags.length - 1) ≤ a ∧ a < item (place tags name + tags.length)
      then 0
      else if item (place tags name) ≤ a ∧ a < item tags.length then mem (a + itemSize)
      else mem a := by
  unfold hb_nsxIndexTagDel
  rw [findItem_place h, h.count, if_pos hlt]
  generalize place tags name = i at hlt
  generalize tags.length = n at hlt
  rw [Mem.write_outside _ _ _ (by rw [leBytes_length]; omega)]
  have hsize : item (i + n) = item (i + n - 1) + itemSize := by
    simp only [item, itemSize]
    omega
  split
  · next hclear =>
    obtain ⟨k, rfl⟩ := Nat.exists_eq_add_of_le hclear.1
    rw [Mem.write_inside _ _ (by rw [length_replicate]; omega)]
    exact getElem_replicate _
  · next hkeep =>
    rw [Mem.write_outside _ _ _ (by rw [length_replicate]; omega)]
    have hend : item n = item i + (n - i) * itemSize := by
      simp only [item, itemSize]
      omega
    split
    · next hmove =>
      obtain ⟨k, rfl⟩ := Nat.exists_eq_add_of_le hmove.1
      rw [Mem.write_inside _ _ (by rw [Mem.read_length]; omega), Mem.read_getElem]
      congr 1
      simp only [item, itemSize]
      omega
    · next hstay => rw [Mem.write_outside _ _ _ (by rw [Mem.read_length]; omega)]

theorem hb_nsxIndexTagDel_count :
    getLE (hb_nsxIndexTagDel mem name) tagCount 2 = tags.length - 1 := by
  have hle := h.le
  unfold hb_nsxIndexTagDel
  dsimp only
  rw [findItem_place h, h.count, if_pos hlt]
  refine (getLE_of_read (n := tags.length - 1) (Mem.read_write _ _ _)).trans (Nat.mod_eq_of_lt ?_)
  simp only [NSX_MAXTAGS] at hle
  omega

theorem hb_nsxIndexTagDel_iff : (Holds (hb_nsxIndexTagDel mem name) (deleted tags name) ∧
      Kept mem (hb_nsxIndexTagDel mem name)) ↔ Clear mem (place tags name) tags.length := by
  have hle := h.le
  have happly := fun a => hb_nsxIndexTagDel_apply (a := a) h hlt
  have hcount := hb_nsxIndexTagDel_count h hlt
  have hlength : (deleted tags name).length = tags.length - 1 := length_eraseIdx_of_lt hlt
  have herase : ∀ j, (deleted tags name)[j]? =
      if j < place tags name then tags[j]? else tags[j + 1]? := fun j => getElem?_eraseIdx ..
  have hkeys : (keys (deleted tags name)).Sublist (keys tags) :=
    (eraseIdx_sublist tags _).map _
  have hitems := h.items
  have hzero := h.zero
  have hdistinct := h.distinct.sublist hkeys
  generalize tags.length = n at *
  constructor
  · rintro ⟨hholds, hkept⟩
    refine ⟨fun a hlist hlow hhigh => ?_, fun hfull hi a hlow hhigh => ?_⟩
    · have houtside : ¬ (tagCount ≤ a ∧ a < tagCount + 2) := by
        simp only [item, tagList, itemSize, NSX_MAXTAGS, tagCount] at *
        omega
      rw [← hkept a houtside (by omega), happly a houtside, if_pos ⟨hlow, hhigh⟩]
    · obtain ⟨b, rfl⟩ : ∃ b, a = b + itemSize := by
        refine ⟨a - itemSize, ?_⟩
        simp only [item, tagList, itemSize, NSX_MAXTAGS] at *
        omega
      have hb : item (n - 1) ≤ b ∧ b < item n := by
        simp only [item, tagList, itemSize, NSX_MAXTAGS] at *
        omega
      have hlast := hholds.zero b (hlength ▸ hb.1) (hfull ▸ hb.2)
      rw [happly b, if_neg, if_pos] at hlast
      · exact hlast
      all_goals
        simp only [item, tagList, itemSize, NSX_MAXTAGS, tagCount] at *
        omega
  · rintro ⟨hlost, hcopied⟩
    refine ⟨⟨hcount.trans hlength.symm, ?_, fun j tag hj => ?_, fun a ha ha' => ?_, hdistinct⟩,
      fun a hcount hlist => ?_⟩
    · rw [hlength]
      omega
    · have hjlt : j < n - 1 := hlength ▸ (List.getElem?_eq_some_iff.mp hj).1
      rw [herase] at hj
      split at hj
      · next hji =>
        refine (hitems j tag hj).move fun k hk => ?_
        rw [happly, if_neg, if_neg]
        all_goals
          simp only [item, tagList, itemSize, tagCount] at *
          omega
      · next hji =>
        refine (hitems (j + 1) tag hj).move fun k hk => ?_
        rw [happly, if_neg, if_pos]
        · congr 1
          simp only [item, itemSize]
          omega
        all_goals
          simp only [item, tagList, itemSize, tagCount] at *
          omega
    · rw [hlength] at ha
      rw [happly a (by simp only [item, tagList, tagCount] at *; omega)]
      split
      · rfl
      · next hkeep =>
        split
        · next hmove =>
          by_cases hfull : n = NSX_MAXTAGS
          · refine hcopied hfull ?_ _ ?_ ?_
            all_goals
              simp only [item, tagList, itemSize, NSX_MAXTAGS] at *
              omega
          · refine hzero _ ?_ ?_
            all_goals
              simp only [item, tagList, itemSize, NSX_MAXTAGS] at *
              omega
        · next hstay =>
          refine hzero a ?_ ha'
          simp only [item, tagList, itemSize] at *
          omega
    · rw [happly a hcount]
      split
      · next hclear =>
        refine (hlost a ?_ hclear.1 hclear.2).symm
        simp only [item, tagList, itemSize, NSX_MAXTAGS] at *
        omega
      · rw [if_neg]
        simp only [item, tagList, itemSize, NSX_MAXTAGS] at *
        omega

end

end Steps

section Runs

inductive Op where
  | tagAdd (szTagName : Bytes) (headBlock : UInt32)
  | tagDel (szTagName : Bytes)

namespace Op

def apply (mem : Mem) : Op → Mem
  | tagAdd name off => hb_nsxIndexTagAdd mem name off
  | tagDel name => hb_nsxIndexTagDel mem name

def live (tags : List Tag) : Op → List Tag
  | tagAdd name off => added tags name off
  | tagDel name => deleted tags name

/-- What a step asks of the bytes behind the list. -/
def Clear (mem : Mem) (tags : List Tag) : Op → Prop
  | tagAdd _ _ => True
  | tagDel name =>
    place tags name < tags.length → NsxTagList.Clear mem (place tags name) tags.length

end Op

def run (mem : Mem) (ops : List Op) : Mem := ops.foldl Op.apply mem

def liveTags (tags : List Tag) (ops : List Op) : List Tag := ops.foldl Op.live tags

/-- The header is a map of the live tags, and nothing else has changed. -/
structure Directory (mem mem' : Mem) (tags : List Tag) : Prop where
  holds : Holds mem' tags
  find : ∀ name, hb_nsxIndexTagFind mem' name = offsetOf tags name
  kept : Kept mem mem'

variable {mem : Mem} {tags : List Tag}

theorem Op.apply_iff (h : Holds mem tags) (op : Op) (hroom : (op.live tags).length ≤ NSX_MAXTAGS) :
    (Holds (op.apply mem) (op.live tags) ∧ Kept mem (op.apply mem)) ↔ op.Clear mem tags := by
  cases op with
  | tagAdd name off => exact iff_of_true (hb_nsxIndexTagAdd_holds h hroom) trivial
  | tagDel name =>
    unfold Op.apply Op.live Op.Clear
    by_cases hlt : place tags name < tags.length
    · rw [hb_nsxIndexTagDel_iff h hlt]
      exact ⟨fun hclear _ => hclear, fun hclear => hclear hlt⟩
    · obtain ⟨hmem, htags⟩ := hb_nsxIndexTagDel_none h hlt
      dsimp only
      rw [hmem, htags]
      exact iff_of_true ⟨h, Kept.refl mem⟩ fun hlt' => absurd hlt' hlt

theorem run_take_succ (mem : Mem) {ops : List Op} {op : Op} (hop : ops[k]? = some op) :
    run mem (ops.take (k + 1)) = op.apply (run mem (ops.take k)) := by
  unfold run
  rw [take_add_one, hop, toList_some, foldl_append]
  rfl

theorem liveTags_take_succ (tags : List Tag) {ops : List Op} {op : Op} (hop : ops[k]? = some op) :
    liveTags tags (ops.take (k + 1)) = op.live (liveTags tags (ops.take k)) := by
  unfold liveTags
  rw [take_add_one, hop, toList_some, foldl_append]
  rfl

/--
In a run that never holds more than `NSX_MAXTAGS` tags the header is a map of the live tags after
every step just when each deletion finds the bytes behind the list as it leaves them.
-/
theorem directory_iff_clear (h : Holds mem tags) (ops : List Op)
    (hroom : ∀ k, (liveTags tags (ops.take k)).length ≤ NSX_MAXTAGS) :
    (∀ k, Directory mem (run mem (ops.take k)) (liveTags tags (ops.take k))) ↔
      ∀ (k : Nat) (op : Op), ops[k]? = some op →
        op.Clear (run mem (ops.take k)) (liveTags tags (ops.take k)) := by
  constructor
  · intro hall k op hop
    have hroom' := hroom (k + 1)
    have hnext := hall (k + 1)
    rw [liveTags_take_succ tags hop] at hroom' hnext
    rw [run_take_succ mem hop] at hnext
    refine (op.apply_iff (hall k).holds hroom').mp ⟨hnext.holds, fun a hcount hlist => ?_⟩
    rw [hnext.kept a hcount hlist, (hall k).kept a hcount hlist]
  · intro hclear k
    suffices hholds : Holds (run mem (ops.take k)) (liveTags tags (ops.take k)) ∧
        Kept mem (run mem (ops.take k)) from
      ⟨hholds.1, fun _ => hb_nsxIndexTagFind_eq hholds.1, hholds.2⟩
    induction k with
    | zero => exact ⟨h, Kept.refl mem⟩
    | succ k ih =>
      cases hop : ops[k]? with
      | none =>
        rw [take_add_one, hop, toList_none, append_nil]
        exact ih
      | some op =>
        have hroom' := hroom (k + 1)
        rw [liveTags_take_succ tags hop] at hroom' ⊢
        rw [run_take_succ mem hop]
        obtain ⟨hholds, hkept⟩ := (op.apply_iff ih.1 hroom').mpr (hclear k op hop)
        exact ⟨hholds, ih.2.trans hkept⟩

/-- Two tags are added and the first one is deleted. -/
theorem directory_iff_clear_example :
    let ops := [Op.tagAdd [65] 1024, .tagAdd [66] 3072, .tagDel [97]]
    ∀ k, Directory (fun _ => 0) (run (fun _ => 0) (ops.take k)) (liveTags [] (ops.take k)) := by
  intro ops
  have hempty : Holds (fun _ => 0) [] :=
    ⟨rfl, Nat.zero_le _, nofun, fun _ _ _ => rfl, nodup_nil⟩
  refine (directory_iff_clear hempty ops fun k => ?_).mpr fun k op hop => ?_
  · match k with
    | 0 | 1 | 2 => decide
    | k + 3 =>
      rw [take_of_length_le (Nat.le_add_left 3 k)]
      decide
  · match k with
    | 0 | 1 =>
      obtain rfl := some.inj hop
      exact trivial
    | 2 =>
      obtain rfl := some.inj hop
      exact fun _ => .of_le (by decide)
    | k + 3 => exact absurd hop nofun

def crowdTags : List Tag :=
  (range 33).map fun i => ([UInt8.ofNat (i + 1)], UInt32.ofNat (i + 1))

def crowd : Mem := fun a =>
  if a = 2 then 33
  else if tagList ≤ a ∧ a < item 33 then
    if (a - tagList) % itemSize = 0 ∨ (a - tagList) % itemSize = tagOffset then
      UInt8.ofNat ((a - tagList) / itemSize + 1)
    else 0
  else if a = 1024 then 1 else 0

theorem crowd_holds : Holds crowd crowdTags := by
  refine ⟨by decide, by decide, fun i tag hi => ?_, fun a ha ha' => ?_, by decide⟩
  · have hlt : i < 33 := (List.getElem?_eq_some_iff.mp hi).1
    rw [crowdTags, getElem?_map, getElem?_range hlt, map_some,
      Option.some.injEq] at hi
    rw [← hi]
    have hname : ∀ i < 33, cName NSX_TAGNAME (crowd.read (item i) (NSX_TAGNAME + 1)) =
        [UInt8.ofNat (i + 1)] := by decide
    have hoffset : ∀ i < 33, getLE crowd (item i + tagOffset) 4 =
        (UInt32.ofNat (i + 1)).toNat := by decide
    exact ⟨hname i hlt, hoffset i hlt⟩
  · unfold crowd
    simp only [crowdTags, length_map, length_range, item, tagList, itemSize,
      NSX_MAXTAGS] at *
    rw [if_neg (by omega), if_neg (by omega), if_neg (by omega)]

/-- To delete the tag before the last one of 33 clears `fValidHeader`. -/
theorem directory_crowd : ¬ ∀ (mem : Mem) (tags : List Tag) (ops : List Op), Holds mem tags →
    (∀ k, (liveTags tags (ops.take k)).length ≤ NSX_MAXTAGS) →
    Directory mem (run mem ops) (liveTags tags ops) := by
  intro hall
  have hroom : ∀ k, (liveTags crowdTags ([Op.tagDel [32]].take k)).length ≤ NSX_MAXTAGS := by
    intro k
    match k with
    | 0 => decide
    | k + 1 =>
      rw [take_of_length_le (Nat.le_add_left 1 k)]
      decide
  have hkept := (hall crowd crowdTags [.tagDel [32]] crowd_holds hroom).kept 1024 (by decide)
  exact absurd hkept (by decide)

end Runs

end Harbour.Rdd.NsxTagList
