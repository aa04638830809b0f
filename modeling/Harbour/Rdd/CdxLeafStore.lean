import Mathlib.Tactic.Linarith
import Harbour.Rdd.CdxLeafCodec

/-!
The number of keys that are packed into a CDX leaf page, and the page in the index file.
-/

namespace Harbour.Rdd.CdxLeafStore

open Library.Memory Library.Bytes CdxLeaf CdxLeafCodec List

def leastWidth (tag : CdxTag) : Nat :=
  if lenBits tag.uiLen > 12 then 5 else if lenBits tag.uiLen > 8 then 4 else 3

structure Fits (tag : CdxTag) (keys : List LeafKey) (width : Nat) : Prop where
  width_ge : leastWidth tag ≤ width
  recs : ∀ key ∈ keys, key.recNo.toNat < 2 ^ (8 * width - 2 * lenBits tag.uiLen)
  room : extHeadSize + keys.length * width + keySpace tag keys ≤ tag.pIndex.uiPageLen

/-- The state of `hb_cdxPageCalcLeafSpace` when the keys of `done` are counted. -/
structure Counted (tag : CdxTag) (page : Page) (done : List LeafKey) : Prop where
  shaped : Shaped tag page
  rnMask_eq : page.rnMask = 2 ^ page.rnBits - 1
  fits : Fits tag done page.reqByte
  least : ∀ width, Fits tag done width → page.reqByte ≤ width
  iKeys_eq : page.iKeys = done.length
  iFree_eq : page.iFree =
    (tag.pIndex.uiPageLen : Int) - extHeadSize - done.length * page.reqByte - keySpace tag done

variable {done keys : List LeafKey} {page page' : Page} {width : Nat} {node : Mem}

section Space

variable {tag : CdxTag}

theorem widen_spec {ulRec : Nat} (hrec : ulRec < 2 ^ 32) (iKey : Nat) (w : Width)
    (hmask : w.rnMask = 2 ^ w.rnBits - 1) (hbits : w.rnBits < 40) :
    ∃ k, widen ulRec iKey w =
        ⟨2 ^ (w.rnBits + 8 * k) - 1, w.rnBits + 8 * k, w.reqByte + k, w.iSize + k * (iKey + 1)⟩ ∧
      ulRec < 2 ^ (w.rnBits + 8 * k) ∧ w.rnBits + 8 * k < 40 ∧
      (k = 0 ∨ 2 ^ (w.rnBits + 8 * (k - 1)) ≤ ulRec) := by
  fun_induction widen ulRec iKey w with
  | case1 w hlt ih =>
    have hpow : 2 ^ (w.rnBits + 8) = 2 ^ w.rnBits * 256 := Nat.pow_add _ _ _
    have hpos : 0 < 2 ^ w.rnBits := by positivity
    have hshort : w.rnBits < 32 := by
      refine Nat.lt_of_not_le fun hle => ?_
      have := Nat.pow_le_pow_right two_pos hle
      omega
    have hmask' : w.rnMask <<< 8 ||| 0xFF = 2 ^ (w.rnBits + 8) - 1 := by
      rw [widened_mask, hmask]
      omega
    obtain ⟨k, hwiden, hrec', hbits', hleast⟩ := ih hmask' (show w.rnBits + 8 < 40 by omega)
    dsimp only at hwiden hrec' hbits' hleast
    refine ⟨k + 1, ?_, ?_, ?_, .inr ?_⟩
    · rw [hwiden]
      simp only [Width.mk.injEq]
      refine ⟨by congr 2; omega, by omega, by omega, by push_cast; ring⟩
    · rwa [show w.rnBits + 8 * (k + 1) = w.rnBits + 8 + 8 * k by omega]
    · omega
    · rcases Nat.eq_zero_or_pos k with rfl | hk
      · simp
        omega
      · rw [show w.rnBits + 8 * (k + 1 - 1) = w.rnBits + 8 + 8 * (k - 1) by omega]
        exact hleast.resolve_left (by omega)
  | case2 w hge =>
    have hpos : 0 < 2 ^ w.rnBits := by positivity
    exact ⟨0, by simp [← hmask], by simp; omega, by omega, .inl rfl⟩

theorem leastWidth_bits (tag : CdxTag) : 2 * lenBits tag.uiLen + 8 ≤ 8 * leastWidth tag := by
  have hle := CdxTag.lenBits_le tag
  unfold leastWidth
  split_ifs <;> omega

theorem Fits.of_append {keys' : List LeafKey} (h : Fits tag (keys ++ keys') width) :
    Fits tag keys width := by
  have hroom := h.room
  rw [keySpace_append, length_append, Nat.add_mul] at hroom
  exact ⟨h.width_ge, fun key hmem => h.recs key (mem_append_left _ hmem), by omega⟩

theorem Fits.take_le {m n : Nat} (hle : m ≤ n) (h : Fits tag (keys.take n) width) :
    Fits tag (keys.take m) width := by
  rw [← take_append_drop m (keys.take n), take_take, Nat.min_eq_left hle] at h
  exact h.of_append

theorem Counted.add {key : LeafKey} (h : Counted tag page done)
    (hcounts : key.trl.toNat + key.dup.toNat ≤ tag.uiLen) {w : Width}
    (hw : widen key.recNo.toNat page.iKeys ⟨page.rnMask, page.rnBits, page.reqByte,
      page.reqByte + tag.uiLen - key.dup.toNat - key.trl.toNat⟩ = w) :
    (w.iSize ≤ page.iFree → Counted tag { page with
      rnMask := w.rnMask
      rnBits := w.rnBits
      reqByte := w.reqByte
      iFree := page.iFree - w.iSize
      iKeys := page.iKeys + 1 } (done ++ [key])) ∧
    (page.iFree < w.iSize → ∀ width, ¬ Fits tag (done ++ [key]) width) := by
  have hrnBits := h.shaped.rnBits_eq
  have hbits := h.shaped.bits_le
  have hreq := h.shaped.reqByte_ge
  have hfree := h.iFree_eq
  have hkeys := h.iKeys_eq
  have hspace : ((leafSpace tag key : Nat) : Int) = tag.uiLen - key.dup.toNat - key.trl.toNat := by
    simp only [leafSpace]
    omega
  obtain ⟨k, hwiden, hrec, hlt, hleast⟩ :=
    widen_spec key.recNo.toNat_lt page.iKeys ⟨page.rnMask, page.rnBits, page.reqByte,
      page.reqByte + tag.uiLen - key.dup.toNat - key.trl.toNat⟩ h.rnMask_eq h.shaped.rnBits_lt
  obtain rfl := hw.symm.trans hwiden
  dsimp only at hrec hlt hleast ⊢
  have hlength : (done ++ [key]).length = done.length + 1 := by simp
  have hsum : keySpace tag (done ++ [key]) = keySpace tag done + leafSpace tag key := by
    simp [keySpace_append]
  have hwidth : ∀ width, Fits tag (done ++ [key]) width → page.reqByte + k ≤ width := by
    intro width hfits
    have hdone := h.least width (hfits.of_append)
    rcases hleast with rfl | hleast
    · exact hdone
    · have hkey := hleast.trans_lt (hfits.recs key (by simp))
      have := (Nat.pow_lt_pow_iff_right (by omega)).mp hkey
      omega
  have hrec' : key.recNo.toNat < 2 ^ (8 * (page.reqByte + k) - 2 * lenBits tag.uiLen) := by
    rwa [show 8 * (page.reqByte + k) - 2 * lenBits tag.uiLen = page.rnBits + 8 * k by omega]
  have hhead : ((extHeadSize : Nat) : Int) = 24 := rfl
  have hsize : (done.length + 1 : Int) * (page.reqByte + k) =
      done.length * page.reqByte + page.reqByte + k * (page.iKeys + 1) := by
    rw [hkeys]
    ring
  refine ⟨fun hle => ⟨⟨h.shaped.dcBits_eq, h.shaped.tcBits_eq, h.shaped.dcMask_eq,
    h.shaped.tcMask_eq, ?_, ?_, ?_, hlt, ⟨_, Nat.le_refl _, Nat.min_le_left _ _, rfl⟩⟩, rfl,
    ⟨?_, ?_, ?_⟩, hwidth, ?_, ?_⟩, fun hgt width hfits => ?_⟩
  · dsimp only
    omega
  · dsimp only
    omega
  · dsimp only
    omega
  · exact h.fits.width_ge.trans (Nat.le_add_right _ _)
  · intro key' hmem
    rcases mem_append.mp hmem with hmem | hmem
    · refine (h.fits.recs key' hmem).trans_le (Nat.pow_le_pow_right two_pos ?_)
      exact Nat.sub_le_sub_right (Nat.mul_le_mul_left 8 (Nat.le_add_right _ _)) _
    · obtain rfl := mem_singleton.mp hmem
      exact hrec'
  · dsimp only
    rw [hlength, hsum]
    linarith
  · simp [hkeys]
  · dsimp only
    rw [hlength, hsum]
    push_cast
    linarith
  · have hroom := hfits.room
    have hmul := Nat.mul_le_mul_left (done.length + 1) (hwidth width hfits)
    rw [hlength, hsum] at hroom
    linarith

theorem counted_init (page : Page) (hlen : extHeadSize ≤ tag.pIndex.uiPageLen) :
    Counted tag { cdxPageLeafInitSpace tag page with iKeys := 0 } [] := by
  have hbits := leastWidth_bits tag
  have hle : 3 ≤ leastWidth tag ∧ leastWidth tag ≤ 4 := by
    have := CdxTag.lenBits_le tag
    unfold leastWidth
    split_ifs <;> omega
  refine ⟨?_, rfl, ?_, fun width hfits => hfits.width_ge, rfl, ?_⟩
  · refine ⟨rfl, rfl, rfl, rfl, hle.1, ?_, rfl, ?_, ?_⟩
    · change _ ≤ 8 * leastWidth tag
      omega
    · change 8 * leastWidth tag - 2 * lenBits tag.uiLen < 40
      omega
    · exact ⟨_, Nat.le_refl _, Nat.min_le_left _ _, rfl⟩
  · exact ⟨Nat.le_refl _, by simp, by simpa using hlen⟩
  · simp [cdxPageLeafInitSpace]

theorem calcLeafSpace_spec (h : Counted tag page done)
    (hcounts : ∀ key ∈ keys, key.trl.toNat + key.dup.toNat ≤ tag.uiLen) :
    ∃ n ≤ keys.length, Counted tag (calcLeafSpace tag keys page) (done ++ keys.take n) ∧
      (n < keys.length → ∀ width, ¬ Fits tag (done ++ keys.take (n + 1)) width) ∧
      (calcLeafSpace tag keys page).isLeaf = page.isLeaf ∧
      (calcLeafSpace tag keys page).pKeyBuf = page.pKeyBuf := by
  induction keys generalizing page done with
  | nil => exact ⟨0, Nat.le_refl _, by simpa [calcLeafSpace] using h, by simp, rfl, rfl⟩
  | cons key keys ih =>
    obtain ⟨hadd, hstop⟩ := h.add (hcounts key mem_cons_self) rfl
    rw [calcLeafSpace]
    split_ifs with hfull
    · exact ⟨0, Nat.zero_le _, by simpa using h, fun _ => by simpa using hstop hfull, rfl, rfl⟩
    · obtain ⟨n, hn, hcounted, hmaximal, hleaf, hbuf⟩ :=
        ih (hadd (not_lt.mp hfull)) fun key' hmem => hcounts key' (mem_cons_of_mem _ hmem)
      refine ⟨n + 1, Nat.succ_le_succ hn, ?_, fun hlt => ?_, hleaf, hbuf⟩
      · simpa using hcounted
      · simpa using hmaximal (Nat.lt_of_succ_lt_succ hlt)

theorem CdxTag.head_le (tag : CdxTag) :
    extHeadSize ≤ tag.pIndex.uiPageLen ∧ tag.pIndex.uiPageLen ≤ 0x2000 := by
  have hsized := tag.pIndex.sized
  unfold cdxSetPageSize at hsized
  split_ifs at hsized with hsize
  · simp only [extHeadSize]
    omega
  · simp only [extHeadSize]
    omega

/-- The keys that are counted are the longest prefix that fits, and the page is ready for them. -/
theorem cdxPageCalcLeafSpace_spec (hleaf : page.isLeaf) {pKeyBuf : List LeafKey}
    (hrules : PageRules tag [] (clearFirstDup pKeyBuf)) :
    let keys := clearFirstDup pKeyBuf
    let page' := (cdxPageCalcLeafSpace tag page pKeyBuf).1
    Sized tag page' (keys.take page'.iKeys) ∧ page'.iKeys ≤ keys.length ∧
      (∀ n ≤ keys.length, (∃ width, Fits tag (keys.take n) width) ↔ n ≤ page'.iKeys) ∧
      page'.pKeyBuf = page.pKeyBuf := by
  intro keys page'
  obtain ⟨n, hn, hcounted, hmaximal, hleaf', hbuf⟩ :=
    calcLeafSpace_spec (counted_init page (CdxTag.head_le tag).1) hrules.counts
  change Counted tag page' ([] ++ keys.take n) at hcounted
  rw [nil_append] at hcounted hmaximal
  have hkeys : page'.iKeys = n := by
    rw [hcounted.iKeys_eq, length_take]
    exact Nat.min_eq_left hn
  subst hkeys
  refine ⟨⟨hcounted.shaped, hleaf'.trans hleaf, hrules.take _, ?_, hcounted.iKeys_eq,
    hcounted.fits.room, hcounted.iFree_eq⟩, hn, fun m hm => ⟨?_, fun hle => ?_⟩, hbuf⟩
  · intro key hmem
    rw [Recorded, hcounted.shaped.rnBits_eq]
    exact hcounted.fits.recs key hmem
  · rintro ⟨width, hfits⟩
    refine Nat.le_of_not_lt fun hlt => ?_
    exact hmaximal (Nat.lt_of_lt_of_le hlt hm) width (hfits.take_le hlt)
  · exact ⟨page'.reqByte, hcounted.fits.take_le hle⟩

end Space

section File

variable {tag : CdxTag}

theorem getLE_slice {bytes : Bytes} (h : node.read 0 bytes.length = bytes) {pos : Nat}
    (hle : pos + width ≤ bytes.length) :
    getLE node pos width = leValue ((bytes.drop pos).take width) := by
  obtain ⟨rest, hlength⟩ : ∃ rest, bytes.length = pos + (width + rest) :=
    ⟨bytes.length - pos - width, by omega⟩
  rw [hlength, Mem.read_add, Mem.read_add, Nat.zero_add] at h
  rw [← h, drop_left' (Mem.read_length _ _ _), take_left' (Mem.read_length _ _ _)]
  rfl

@[simp]
theorem intHeader_length (page : Page) : (intHeader page).length = intHeadSize := by
  simp [intHeader]

@[simp]
theorem extHeader_length (page : Page) : (extHeader page).length = 12 := by
  unfold extHeader
  split_ifs <;> simp

theorem extHeader_eq (page : Page) :
    ∃ dupMask trlMask, extHeader page =
        leBytes 2 (unsigned 16 page.iFree) ++ leBytes 4 page.rnMask ++ [dupMask, trlMask] ++
          [UInt8.ofNat page.rnBits, UInt8.ofNat page.dcBits, UInt8.ofNat page.tcBits,
            UInt8.ofNat page.reqByte] ∧
      (page.dcBits ≤ 8 →
        dupMask = UInt8.ofNat page.dcMask ∧ trlMask = UInt8.ofNat page.tcMask) := by
  unfold extHeader
  split_ifs with h
  · exact ⟨_, _, rfl, fun _ => ⟨rfl, rfl⟩⟩
  · exact ⟨_, _, rfl, fun hle => absurd hle h⟩

def Headed (page : Page) (node : Mem) : Prop :=
  node.read 0 extHeadSize = intHeader page ++ extHeader page

structure Fields (page : Page) (node : Mem) : Prop where
  attr : getLE node 0 2 = page.pageType.toNat
  nKeys : getLE node 2 2 = page.iKeys
  leftPtr : getLE node 4 4 = page.left.toNat
  rightPtr : getLE node 8 4 = page.right.toNat
  freeSpc : getLE node 12 2 = unsigned 16 page.iFree
  recMask : getLE node 14 4 = page.rnMask % 2 ^ 32
  masks : page.dcBits ≤ 8 → getLE node 18 1 = page.dcMask ∧ getLE node 19 1 = page.tcMask
  recBits : getLE node 20 1 = page.rnBits
  dupBits : getLE node 21 1 = page.dcBits
  trlBits : getLE node 22 1 = page.tcBits
  keyBytes : getLE node 23 1 = page.reqByte

theorem sized_iKeys_lt (h : Sized tag page keys) : page.iKeys < 2 ^ 16 := by
  have hroom := h.room
  have hlen := (CdxTag.head_le tag).2
  have hmul := Nat.mul_le_mul_left keys.length h.shaped.reqByte_ge
  rw [h.iKeys_eq]
  omega

theorem sized_iFree (h : Sized tag page keys) : 0 ≤ page.iFree ∧ page.iFree < 2 ^ 15 := by
  have hroom := h.room
  have hlen := (CdxTag.head_le tag).2
  have hfree := h.iFree_eq
  omega

theorem fields_of_headed (h : Sized tag page keys) (hhead : Headed page node) :
    Fields page node := by
  obtain ⟨dupMask, trlMask, hext, hmasks⟩ := extHeader_eq page
  have hget : ∀ pos width, pos + width ≤ 24 →
      getLE node pos width =
        leValue (((intHeader page ++ extHeader page).drop pos).take width) := by
    intro pos width hle
    refine getLE_slice ?_ (by simpa using hle)
    rw [length_append, intHeader_length, extHeader_length]
    exact hhead
  rw [hext] at hget
  have hbits := CdxTag.lenBits_le tag
  have hdc := h.shaped.dcBits_eq
  have htc := h.shaped.tcBits_eq
  have hrnBits := h.shaped.rnBits_lt
  have hwide : ∀ width n, n < 256 ^ width → leValue (leBytes width n) = n := fun width n hn => by
    rw [leValue_leBytes, Nat.mod_eq_of_lt hn]
  have hbyte : ∀ n, n < 256 → leValue [UInt8.ofNat n] = n := fun n hn => by
    rw [leValue, leValue, UInt8.toNat_ofNat_of_lt' hn, Nat.mul_zero, Nat.add_zero]
  refine ⟨?_, ?_, ?_, ?_, ?_, ?_, fun hle => ⟨?_, ?_⟩, ?_, ?_, ?_, ?_⟩
  · exact (hget 0 2 (by omega)).trans (hwide 2 _ (page.pageType.toNat_lt.trans (by decide)))
  · exact (hget 2 2 (by omega)).trans (hwide 2 _ (sized_iKeys_lt h))
  · exact (hget 4 4 (by omega)).trans (hwide 4 _ page.left.toNat_lt)
  · exact (hget 8 4 (by omega)).trans (hwide 4 _ page.right.toNat_lt)
  · exact (hget 12 2 (by omega)).trans (hwide 2 _ (unsigned_lt 16 page.iFree))
  · exact (hget 14 4 (by omega)).trans (leValue_leBytes 4 page.rnMask)
  · have hmask : page.dcMask < 2 ^ 8 := by
      have := Nat.pow_le_pow_right two_pos (hdc ▸ hle)
      rw [h.shaped.dcMask_eq]
      omega
    rw [(hmasks hle).1] at hget
    exact (hget 18 1 (by omega)).trans (hbyte _ hmask)
  · have hmask : page.tcMask < 2 ^ 8 := by
      have := Nat.pow_le_pow_right two_pos (hdc ▸ hle)
      rw [h.shaped.tcMask_eq]
      omega
    rw [(hmasks hle).2] at hget
    exact (hget 19 1 (by omega)).trans (hbyte _ hmask)
  · exact (hget 20 1 (by omega)).trans (hbyte _ (by omega))
  · exact (hget 21 1 (by omega)).trans (hbyte _ (by omega))
  · exact (hget 22 1 (by omega)).trans (hbyte _ (by omega))
  · exact (hget 23 1 (by omega)).trans (hbyte _ (by have := h.shaped.rnBits_eq; omega))

structure Loaded (page page' : Page) : Prop where
  pageType : page'.pageType = page.pageType
  left : page'.left = page.left
  right : page'.right = page.right
  iKeys : page'.iKeys = page.iKeys
  rnMask : page'.rnMask = page.rnMask % 2 ^ 32
  rnBits : page'.rnBits = page.rnBits
  dcBits : page'.dcBits = page.dcBits
  tcBits : page'.tcBits = page.tcBits
  dcMask : page'.dcMask = page.dcMask
  tcMask : page'.tcMask = page.tcMask
  reqByte : page'.reqByte = page.reqByte
  iFree : page'.iFree = page.iFree

theorem cdxPageLoad_spec (h : Sized tag page keys) (fresh : Page) (file : Mem)
    (hhead : Headed page (fresh.node.write 0 (cdxIndexPageRead tag.pIndex file fresh.page))) :
    Loaded page (cdxPageLoad tag fresh file) ∧
      (cdxPageLoad tag fresh file).pKeyBuf = none ∧
      (cdxPageLoad tag fresh file).bufKeyNum = 0 ∧
      (cdxPageLoad tag fresh file).node =
        fresh.node.write 0 (cdxIndexPageRead tag.pIndex file fresh.page) := by
  have hfields := fields_of_headed h hhead
  have htype : UInt8.ofNat page.pageType.toNat = page.pageType := UInt8.ofNat_toNat
  have hleaf : (page.pageType &&& 2 != 0) = true := h.leaf
  have hfree := sized_iFree h
  simp only [cdxPageLoad, Page.isLeaf, hfields.attr, htype, hleaf, if_true]
  refine ⟨⟨rfl, ?_, ?_, hfields.nKeys, hfields.recMask, hfields.recBits, hfields.dupBits,
    hfields.trlBits, ?_, ?_, hfields.keyBytes, ?_⟩, trivial, trivial, trivial⟩
  · exact (congrArg UInt32.ofNat hfields.leftPtr).trans UInt32.ofNat_toNat
  · exact (congrArg UInt32.ofNat hfields.rightPtr).trans UInt32.ofNat_toNat
  · dsimp only
    rw [hfields.dupBits]
    split_ifs with hle
    · exact (hfields.masks hle).1
    · exact (congrArg bitMask h.shaped.dcBits_eq).trans h.shaped.dcMask_eq.symm
  · dsimp only
    rw [hfields.dupBits, hfields.trlBits]
    split_ifs with hle
    · exact (hfields.masks hle).2
    · exact (congrArg bitMask h.shaped.tcBits_eq).trans h.shaped.tcMask_eq.symm
  · refine (congrArg (signed 16) hfields.freeSpc).trans (signed_unsigned (by decide) ?_ ?_)
    · omega
    · omega

theorem mask_mod {k : Nat} : (2 ^ k - 1) % 2 ^ 32 = 2 ^ min k 32 - 1 := by
  rcases Nat.le_total k 32 with h | h
  · have := Nat.pow_le_pow_right two_pos h
    rw [Nat.min_eq_left h, Nat.mod_eq_of_lt (by omega)]
  · obtain ⟨j, rfl⟩ := Nat.exists_eq_add_of_le h
    have hpos : 0 < 2 ^ j := by positivity
    rw [Nat.min_eq_right h, Nat.pow_add]
    omega

theorem Loaded.holds (hsized : Sized tag page keys) (h : Loaded page page')
    (hlaid : Laid tag page page'.node keys extHeadSize tag.pIndex.uiPageLen) :
    Holds tag page' keys := by
  have hshaped := hsized.shaped
  obtain ⟨k, hk, hmin, hmask⟩ := hshaped.rnMask_eq
  refine ⟨⟨⟨?_, ?_, ?_, ?_, ?_, ?_, ?_, ?_, min k 32, ?_, ?_, ?_⟩, ?_,
    hsized.rules, ?_, ?_, ?_, ?_⟩,
    hlaid.of_page h.reqByte h.rnBits⟩
  · rw [h.dcBits, hshaped.dcBits_eq]
  · rw [h.tcBits, hshaped.tcBits_eq]
  · rw [h.dcMask, hshaped.dcMask_eq]
  · rw [h.tcMask, hshaped.tcMask_eq]
  · rw [h.reqByte]
    exact hshaped.reqByte_ge
  · rw [h.reqByte]
    exact hshaped.bits_le
  · rw [h.rnBits, h.reqByte, hshaped.rnBits_eq]
  · rw [h.rnBits]
    exact hshaped.rnBits_lt
  · rw [h.rnBits]
    omega
  · rw [h.rnBits]
    omega
  · rw [h.rnMask, hmask, mask_mod]
  · rw [Page.isLeaf, h.pageType]
    exact hsized.leaf
  · intro key hmem
    rw [Recorded, h.rnBits]
    exact hsized.recs key hmem
  · rw [h.iKeys, hsized.iKeys_eq]
  · rw [h.reqByte]
    exact hsized.room
  · rw [h.iFree, h.reqByte, hsized.iFree_eq]

/-- The keys of the leaf are in its node, or they wait in its buffer to be encoded. -/
def Storable (tag : CdxTag) (page : Page) (keys : List LeafKey) : Prop :=
  (Holds tag page keys ∧ page.pKeyBuf = none) ∨
    (Sized tag page keys ∧ page.pKeyBuf = some keys ∧ page.fBufChanged = true)

theorem Storable.sized (h : Storable tag page keys) : Sized tag page keys :=
  h.elim (fun h => h.1.toSized) fun h => h.1

structure Stored (tag : CdxTag) (page : Page) (keys : List LeafKey) (node : Mem) : Prop where
  headed : Headed page node
  laid : Laid tag page node keys extHeadSize tag.pIndex.uiPageLen

theorem storeLeaf_spec (h : Storable tag page keys) :
    ∃ page', storeLeaf tag { page with node := page.node.write 0 (intHeader page) } = some page' ∧
      page'.page = page.page ∧ Stored tag page keys page'.node := by
  have hsized := h.sized
  have hroom := hsized.room
  let header := intHeader page ++ extHeader page
  let node := page.node.write 0 header
  have hheader : (page.node.write 0 (intHeader page)).write intHeadSize
      (extHeader page) = node := by
    have := Mem.write_append page.node 0 (intHeader page) (extHeader page)
    rwa [intHeader_length, Nat.zero_add] at this
  have hlength : header.length = extHeadSize := by simp [header]
  have hheaded : Headed page node := by
    rw [Headed, ← hlength]
    exact Mem.read_write page.node 0 header
  have hnode : (page.node.write 0 (intHeader page)).write intHeadSize
      (extHeader { page with node := page.node.write 0 (intHeader page) }) = node := hheader
  rcases h with ⟨hholds, hbuf⟩ | ⟨-, hbuf, hchanged⟩
  · refine ⟨{ page with node := node }, ?_, rfl, hheaded, ?_⟩
    · simp only [storeLeaf, hnode]
      simp only [hbuf]
    · refine hholds.laid.congr (by omega) ?_ ?_
      · exact fun a hle _ => (Mem.write_outside page.node 0 header (.inr (by omega))).symm
      · exact fun a hle _ => (Mem.write_outside page.node 0 header (.inr (by omega))).symm
  · have hsized' : Sized tag { page with node := node } keys :=
      { hsized with shaped := { hsized.shaped with } }
    obtain ⟨node', hencode, hholds, hframe, -⟩ :=
      cdxPageLeafEncode_spec hsized' keys (by rw [hsized'.iKeys_eq, take_length])
    have hstore : storeLeaf tag { page with node := page.node.write 0 (intHeader page) } =
        (cdxPageLeafEncode tag { page with node := node } keys page.iKeys).map
          fun page => { page with fBufChanged := false } := by
      simp only [storeLeaf, hnode]
      simp only [hbuf, hchanged, if_true]
    refine ⟨_, hstore.trans (congrArg (Option.map _) hencode), rfl, ?_, ?_⟩
    · rw [Headed, ← hheaded]
      exact Mem.read_congr fun a _ hlt => hframe a (by omega)
    · exact hholds.laid.of_page rfl rfl

theorem cdxPageStore_spec (h : Storable tag page keys) (hpage : page.page ≠ 0)
    (hdummy : page.page ≠ 0xFFFFFFFF) (file : Mem) :
    ∃ page', cdxPageStore tag page file =
        some (page', cdxIndexPageWrite tag.pIndex file page.page
          (page'.node.read 0 tag.pIndex.uiPageLen)) ∧
      Stored tag page keys page'.node := by
  have hfree := (sized_iFree h.sized).1
  have hleaf := h.sized.leaf
  have hleaf' : ∀ node, ({ page with node := node } : Page).isLeaf = true := fun _ => hleaf
  obtain ⟨page', hstore, hnumber, hstored⟩ := storeLeaf_spec h
  refine ⟨{ page' with fChanged := false }, ?_, hstored⟩
  have hbind : cdxPageStore tag page file =
      (storeLeaf tag { page with node := page.node.write 0 (intHeader page) }).bind fun page =>
        some ({ page with fChanged := false }, cdxIndexPageWrite tag.pIndex file page.page
          (page.node.read 0 tag.pIndex.uiPageLen)) := by
    simp [cdxPageStore, guard, hpage, hdummy, hleaf, hleaf', hfree]
  rw [hbind, hstore, Option.bind_some, hnumber]

theorem cdxPageLoad_stored {fresh : Page} (hsized : Sized tag page keys)
    (hstored : Stored tag page keys page'.node) (hfresh : fresh.page = page.page) (file : Mem) :
    let loaded := cdxPageLoad tag fresh (cdxIndexPageWrite tag.pIndex file page.page
      (page'.node.read 0 tag.pIndex.uiPageLen))
    Loaded page loaded ∧ Holds tag loaded keys ∧ loaded.pKeyBuf = none ∧ loaded.bufKeyNum = 0 := by
  have hroom := hsized.room
  have hread : cdxIndexPageRead tag.pIndex (cdxIndexPageWrite tag.pIndex file page.page
      (page'.node.read 0 tag.pIndex.uiPageLen)) fresh.page =
      page'.node.read 0 tag.pIndex.uiPageLen := by
    have := Mem.read_write file (cdxFilePageOffset tag.pIndex page.page)
      (page'.node.read 0 tag.pIndex.uiPageLen)
    rw [Mem.read_length] at this
    rw [cdxIndexPageRead, hfresh]
    exact this
  have hsame : ∀ a < tag.pIndex.uiPageLen,
      page'.node a = fresh.node.write 0 (page'.node.read 0 tag.pIndex.uiPageLen) a := by
    intro a ha
    have hlen : a < (page'.node.read 0 tag.pIndex.uiPageLen).length := by simpa using ha
    have hinside := Mem.write_inside fresh.node 0 hlen
    rw [Nat.zero_add, Mem.read_getElem, Nat.zero_add] at hinside
    exact hinside.symm
  have hheaded : Headed page (fresh.node.write 0 (page'.node.read 0 tag.pIndex.uiPageLen)) := by
    rw [Headed, ← hstored.headed]
    exact (Mem.read_congr fun a _ hlt => hsame a (by omega)).symm
  obtain ⟨hloaded, hbuf, hnum, hnode⟩ := cdxPageLoad_spec hsized fresh (cdxIndexPageWrite tag.pIndex
    file page.page (page'.node.read 0 tag.pIndex.uiPageLen)) (by rw [hread]; exact hheaded)
  refine ⟨hloaded, hloaded.holds hsized ?_, hbuf, hnum⟩
  rw [hnode, hread]
  refine hstored.laid.congr (by omega) ?_ ?_
  · exact fun a _ hlt => hsame a (by omega)
  · exact fun a _ hlt => hsame a hlt

structure Decodes (tag : CdxTag) (page : Page) (keys : List LeafKey) : Prop where
  decode : cdxPageLeafDecode tag page = some keys
  calls : ∀ calls, (∀ call ∈ calls, call.iKey < keys.length) →
    Call.runs tag page calls = calls.mapM (Call.answer keys)

theorem Decodes.of_holds (h : Holds tag page keys) (hbuf : page.pKeyBuf = none)
    (hnum : page.bufKeyNum = 0) : Decodes tag page keys :=
  ⟨cdxPageLeafDecode_spec h, fun _ => Call.runs_spec h hbuf (.inl hnum)⟩

def Reloads (tag : CdxTag) (page : Page) (keys : List LeafKey) : Prop :=
  ∀ file fresh, fresh.page = page.page →
    ∃ page' file', cdxPageStore tag page file = some (page', file') ∧
      Loaded page (cdxPageLoad tag fresh file') ∧ Decodes tag (cdxPageLoad tag fresh file') keys

theorem Storable.reloads (h : Storable tag page keys) (hpage : page.page ≠ 0)
    (hdummy : page.page ≠ 0xFFFFFFFF) : Reloads tag page keys := by
  intro file fresh hfresh
  obtain ⟨page', hstore, hstored⟩ := cdxPageStore_spec h hpage hdummy file
  obtain ⟨hloaded, hholds, hbuf, hnum⟩ := cdxPageLoad_stored h.sized hstored hfresh file
  exact ⟨page', _, hstore, hloaded, .of_holds hholds hbuf hnum⟩

end File

/-- The leaf codec: the longest prefix that fits is encoded, and both decoders give it back,
also after the page was stored and loaded. -/
theorem cdxLeaf_codec (tag : CdxTag) (page : Page) (pKeyBuf : List LeafKey)
    (hleaf : page.isLeaf) (hbuf : page.pKeyBuf = none)
    (hrules : PageRules tag [] (clearFirstDup pKeyBuf)) :
    let counted := (cdxPageCalcLeafSpace tag page pKeyBuf).1
    let buffer := (cdxPageCalcLeafSpace tag page pKeyBuf).2
    let keys := buffer.take counted.iKeys
    counted.iKeys ≤ buffer.length ∧
    (∀ n ≤ buffer.length, (∃ width, Fits tag (buffer.take n) width) ↔ n ≤ counted.iKeys) ∧
    (∀ key ∈ keys, key.recNo.toNat < 2 ^ counted.rnBits) ∧
    0 ≤ counted.iFree ∧
    (tag.pIndex.uiPageLen - keySpace tag keys : Int) -
      (extHeadSize + counted.iKeys * counted.reqByte) = counted.iFree ∧
    ∃ encoded, cdxPageLeafEncode tag counted buffer counted.iKeys = some encoded ∧
      Decodes tag encoded keys ∧
      (encoded.page ≠ 0 → encoded.page ≠ 0xFFFFFFFF →
        Reloads tag encoded keys ∧
        Reloads tag { counted with pKeyBuf := some keys, fBufChanged := true } keys) := by
  intro counted buffer keys
  obtain ⟨hsized, hle, hmaximal, hbuf'⟩ := cdxPageCalcLeafSpace_spec hleaf hrules
  change Sized tag counted keys at hsized
  obtain ⟨node, hencode, hholds, -⟩ := cdxPageLeafEncode_spec hsized buffer rfl
  refine ⟨hle, hmaximal, hsized.recs, (sized_iFree hsized).1, ?_, _, hencode,
    .of_holds hholds (hbuf'.trans hbuf) rfl, fun hpage hdummy => ⟨?_, ?_⟩⟩
  · rw [hsized.iFree_eq, hsized.iKeys_eq]
    ring
  · exact Storable.reloads (.inl ⟨hholds, hbuf'.trans hbuf⟩) hpage hdummy
  · refine Storable.reloads (.inr ⟨?_, rfl, rfl⟩) hpage hdummy
    exact { hsized with shaped := { hsized.shaped with } }

def sampleTag : CdxTag where
  pIndex := ⟨false, 1024, 512, 9, 240, by decide⟩
  uiLen := 3
  bTrail := 0x20
  uiLen_pos := by decide
  uiLen_le := by decide

def sampleLeaf : Page where
  page := 0x600
  left := 0xFFFFFFFF
  right := 0xFFFFFFFF
  iKeys := 0
  rnMask := 0
  dcMask := 0
  tcMask := 0
  rnBits := 0
  dcBits := 0
  tcBits := 0
  reqByte := 0
  pageType := 3
  fChanged := false
  fBufChanged := false
  bufKeyNum := 0
  bufKeyPos := 0
  bufKeyLen := 0
  iFree := 0
  pKeyBuf := none
  node := fun _ => 0

def sampleKeys : List LeafKey :=
  [⟨[0x61, 0x62, 0x20], 5, 0, 1⟩, ⟨[0x61, 0x62, 0x63], 0x7FFFFFFF, 2, 0⟩,
    ⟨[0x61, 0x62, 0x63], 0x80000000, 3, 0⟩]

theorem sampleLeaf_codec :
    ∃ encoded, cdxPageLeafEncode sampleTag (cdxPageCalcLeafSpace sampleTag sampleLeaf sampleKeys).1
        (cdxPageCalcLeafSpace sampleTag sampleLeaf sampleKeys).2
        (cdxPageCalcLeafSpace sampleTag sampleLeaf sampleKeys).1.iKeys = some encoded ∧
      Decodes sampleTag encoded ((cdxPageCalcLeafSpace sampleTag sampleLeaf sampleKeys).2.take
        (cdxPageCalcLeafSpace sampleTag sampleLeaf sampleKeys).1.iKeys) := by
  have hrules : PageRules sampleTag [] (clearFirstDup sampleKeys) :=
    ⟨⟨rfl, by decide, rfl, rfl⟩, ⟨rfl, by decide, rfl, rfl⟩, ⟨rfl, by decide, rfl, rfl⟩, trivial⟩
  obtain ⟨-, -, -, -, -, encoded, hencode, hdecodes, -⟩ :=
    cdxLeaf_codec sampleTag sampleLeaf sampleKeys rfl rfl hrules
  exact ⟨encoded, hencode, hdecodes⟩

end Harbour.Rdd.CdxLeafStore
