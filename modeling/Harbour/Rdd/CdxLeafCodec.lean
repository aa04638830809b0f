import Harbour.Rdd.CdxLeaf

/-!
The keys packed into a CDX leaf page come back from both of its decoders.
-/

namespace Harbour.Rdd.CdxLeafCodec

open Library.Memory Library.Bytes CdxLeaf List

theorem lt_two_pow_iff (iLen k : Nat) : iLen < 2 ^ k ↔ lenBits iLen ≤ k := by
  fun_induction lenBits iLen generalizing k with
  | case1 => simp
  | case2 iLen hpos ih =>
    cases k with
    | zero => simp; omega
    | succ k =>
      rw [Nat.pow_succ, Nat.succ_le_succ_iff, ← ih]
      omega

variable {a bits k m : Nat} {done rest : List LeafKey}

theorem or_eq_add (b : Nat) (h : a < 2 ^ k) : b <<< k ||| a = b * 2 ^ k + a := by
  rw [← Nat.shiftLeft_add_eq_or_of_lt h, Nat.shiftLeft_eq]

theorem leafRecordBytes_eq (iFrom n i ulRec iBits : Nat) :
    leafRecordBytes iFrom n i ulRec iBits =
      leBytes n (ulRec ||| iBits <<< (8 * (iFrom - i))) := by
  induction n generalizing i ulRec iBits with
  | zero => rfl
  | succ n ih =>
    have hshift : ∀ bits, (ulRec ||| bits) / 256 = ulRec >>> 8 ||| bits >>> 8 := fun bits => by
      rw [show 256 = 2 ^ 8 by rfl, Nat.or_div_two_pow, Nat.shiftRight_eq_div_pow,
        Nat.shiftRight_eq_div_pow]
    rw [leafRecordBytes, leBytes, UInt8.ofNat_or, hshift]
    split_ifs with h
    · rw [ih, Nat.sub_eq_zero_of_le h, Nat.sub_eq_zero_of_le (by omega)]
      simp
    · have hlow : UInt8.ofNat (iBits <<< (8 * (iFrom - i))) = 0 := by
        rw [show 8 * (iFrom - i) = 8 * (iFrom - i - 1) + 8 by omega, Nat.shiftLeft_add,
          Nat.shiftLeft_eq _ 8]
        exact UInt8.toNat_inj.mp (by simp)
      have hhigh : iBits <<< (8 * (iFrom - i)) >>> 8 = iBits <<< (8 * (iFrom - (i + 1))) := by
        rw [show 8 * (iFrom - i) = 8 * (iFrom - (i + 1)) + 8 by omega, Nat.shiftLeft_add,
          Nat.shiftLeft_shiftRight]
      rw [ih, hlow, hhigh, UInt8.or_zero]

def packed (bits rnBits : Nat) (key : LeafKey) : Nat :=
  key.recNo.toNat + (key.trl.toNat * 2 ^ bits + key.dup.toNat) * 2 ^ rnBits

theorem cdxSetLeafRecord_eq {iReq : Nat} {key : LeafKey} (hbits : 2 * bits ≤ 8 * iReq)
    (hrec : key.recNo.toNat < 2 ^ (8 * iReq - 2 * bits)) (hdup : key.dup.toNat < 2 ^ bits) :
    cdxSetLeafRecord key.recNo.toNat key.dup.toNat key.trl.toNat iReq bits bits =
      leBytes iReq (packed bits (8 * iReq - 2 * bits) key) := by
  have hshift : 8 * ((bits + bits + 7) / 8) - bits - bits + 8 * (iReq - (bits + bits + 7) / 8 - 0) =
      8 * iReq - 2 * bits := by omega
  rw [cdxSetLeafRecord, leafRecordBytes_eq, ← Nat.shiftLeft_add, hshift, Nat.or_comm,
    or_eq_add _ hrec, or_eq_add _ hdup, packed, Nat.add_comm]

theorem add_mul_two_pow_lt {b : Nat} (ha : a < 2 ^ k) (hb : b < 2 ^ m) :
    a + b * 2 ^ k < 2 ^ (m + k) :=
  calc a + b * 2 ^ k < (b + 1) * 2 ^ k := by rw [Nat.succ_mul]; omega
    _ ≤ 2 ^ m * 2 ^ k := Nat.mul_le_mul_right _ hb
    _ = 2 ^ (m + k) := (Nat.pow_add _ _ _).symm

theorem packed_lt {iReq : Nat} {key : LeafKey} (hbits : 2 * bits ≤ 8 * iReq)
    (hrec : key.recNo.toNat < 2 ^ (8 * iReq - 2 * bits)) (hdup : key.dup.toNat < 2 ^ bits)
    (htrl : key.trl.toNat < 2 ^ bits) : packed bits (8 * iReq - 2 * bits) key < 256 ^ iReq := by
  have hcount : key.trl.toNat * 2 ^ bits + key.dup.toNat < 2 ^ (bits + bits) := by
    rw [Nat.add_comm]
    exact add_mul_two_pow_lt hdup htrl
  have hpow : 256 ^ iReq = 2 ^ (bits + bits + (8 * iReq - 2 * bits)) := by
    rw [show (256 : Nat) = 2 ^ 8 by rfl, ← Nat.pow_mul]
    congr 1
    omega
  rw [hpow]
  exact add_mul_two_pow_lt hrec hcount

section Record

variable {node : Mem} {pos iReq n : Nat}

section

variable (hread : node.read pos iReq = leBytes iReq n) (hn : n < 256 ^ iReq)

include hread hn

theorem getLE_record : getLE node pos iReq = n := by
  rw [getLE, hread, leValue_leBytes, Nat.mod_eq_of_lt hn]

theorem getLE_record_end (hreq : 3 ≤ iReq) (hpos : 1 ≤ pos) (hm : m ≤ 24) :
    getLE node (pos + iReq - 4) 4 / 2 ^ (32 - m) = n / 2 ^ (8 * iReq - m) := by
  have hrecord := getLE_record hread hn
  rcases Nat.lt_or_ge iReq 4 with hthree | hfour
  · obtain rfl : iReq = 3 := by omega
    have hsplit := getLE_add node (pos - 1) 1 3
    have hlow := getLE_lt node (pos - 1) 1
    rw [show pos - 1 + 1 = pos by omega, hrecord] at hsplit
    rw [show pos + 3 - 4 = pos - 1 by omega, hsplit, show 32 - m = 8 + (8 * 3 - m) by omega,
      Nat.pow_add, ← Nat.div_div_eq_div_mul]
    congr 1
    omega
  · have hsplit := getLE_add node pos (iReq - 4) 4
    have hlow := getLE_lt node pos (iReq - 4)
    rw [Nat.sub_add_cancel hfour, hrecord, ← Nat.add_sub_assoc hfour] at hsplit
    rw [hsplit, show 8 * iReq - m = 8 * (iReq - 4) + (32 - m) by omega, Nat.pow_add,
      ← Nat.div_div_eq_div_mul, Nat.pow_mul, Nat.add_mul_div_left _ _ (by positivity),
      Nat.div_eq_of_lt hlow, Nat.zero_add]

theorem getLE_record_start (hk : k ≤ 8 * iReq) (hk' : k ≤ 32) :
    getLE node pos 4 % 2 ^ k = n % 2 ^ k := by
  have hrecord := getLE_record hread hn
  have hdvd : ∀ j, k ≤ 8 * j → 2 ^ k ∣ 256 ^ j := fun j h => by
    rw [show (256 : Nat) = 2 ^ 8 by rfl, ← Nat.pow_mul]
    exact Nat.pow_dvd_pow 2 h
  rcases Nat.lt_or_ge iReq 4 with hshort | hfour
  · have hsplit := getLE_add node pos iReq (4 - iReq)
    rw [Nat.add_sub_cancel' (by omega), hrecord] at hsplit
    rw [hsplit, Nat.add_mod, Nat.mod_eq_zero_of_dvd ((hdvd iReq hk).mul_right _), Nat.add_zero,
      Nat.mod_mod]
  · have hsplit := getLE_add node pos 4 (iReq - 4)
    rw [Nat.add_sub_cancel' hfour, hrecord] at hsplit
    rw [hsplit, Nat.add_mod, Nat.mod_eq_zero_of_dvd ((hdvd 4 (by omega)).mul_right _), Nat.add_zero,
      Nat.mod_mod]

end

end Record

def leafSpace (tag : CdxTag) (key : LeafKey) : Nat :=
  tag.uiLen - key.trl.toNat - key.dup.toNat

def keySpace (tag : CdxTag) (keys : List LeafKey) : Nat :=
  (keys.map (leafSpace tag)).sum

/-- The counters of a key fit the key in front of it: duplicate bytes are shared with that
key and cover no trailing byte, trailing bytes are fill bytes. -/
structure Follows (tag : CdxTag) (prev : Bytes) (key : LeafKey) : Prop where
  length : key.val.length = tag.uiLen
  counts : key.trl.toNat + key.dup.toNat ≤ tag.uiLen
  shared : key.val.take key.dup.toNat = prev.take key.dup.toNat
  trailing : key.val.drop (tag.uiLen - key.trl.toNat) = replicate key.trl.toNat tag.bTrail

def PageRules (tag : CdxTag) : (prev : Bytes) → List LeafKey → Prop
  | _, [] => True
  | prev, key :: keys => Follows tag prev key ∧ PageRules tag key.val keys

/-- The widths of a page fit its key length; a mask that was loaded is cut to 32 bits. -/
structure Shaped (tag : CdxTag) (page : Page) : Prop where
  dcBits_eq : page.dcBits = lenBits tag.uiLen
  tcBits_eq : page.tcBits = lenBits tag.uiLen
  dcMask_eq : page.dcMask = 2 ^ lenBits tag.uiLen - 1
  tcMask_eq : page.tcMask = 2 ^ lenBits tag.uiLen - 1
  reqByte_ge : 3 ≤ page.reqByte
  bits_le : 2 * lenBits tag.uiLen ≤ 8 * page.reqByte
  rnBits_eq : page.rnBits = 8 * page.reqByte - 2 * lenBits tag.uiLen
  rnBits_lt : page.rnBits < 40
  rnMask_eq : ∃ k ≤ page.rnBits, min page.rnBits 32 ≤ k ∧ page.rnMask = 2 ^ k - 1

def Recorded (page : Page) (key : LeafKey) : Prop := key.recNo.toNat < 2 ^ page.rnBits

section Key

variable {tag : CdxTag} {page : Page} {key : LeafKey} {prev : Bytes}

theorem CdxTag.lenBits_le (tag : CdxTag) : lenBits tag.uiLen ≤ 12 := by
  have hsized := tag.pIndex.sized
  have hle := tag.uiLen_le
  rw [← lt_two_pow_iff]
  unfold cdxSetPageSize at hsized
  split_ifs at hsized with hsize hlarge
  · simp only [Option.some.injEq, Prod.mk.injEq] at hsized
    omega
  · simp only [Option.some.injEq, Prod.mk.injEq] at hsized
    omega

theorem Follows.dup_lt (h : Follows tag prev key) : key.dup.toNat < 2 ^ lenBits tag.uiLen := by
  have hlen := (lt_two_pow_iff tag.uiLen _).mpr (Nat.le_refl _)
  have hcounts := h.counts
  omega

theorem Follows.trl_lt (h : Follows tag prev key) : key.trl.toNat < 2 ^ lenBits tag.uiLen := by
  have hlen := (lt_two_pow_iff tag.uiLen _).mpr (Nat.le_refl _)
  have hcounts := h.counts
  omega

def record (tag : CdxTag) (page : Page) (key : LeafKey) : Nat :=
  packed (lenBits tag.uiLen) page.rnBits key

def keyPart (tag : CdxTag) (key : LeafKey) : Bytes :=
  (key.val.drop key.dup.toNat).take (leafSpace tag key)

theorem Follows.keyPart_length (h : Follows tag prev key) :
    (keyPart tag key).length = leafSpace tag key := by
  have hlength := h.length
  simp only [keyPart, leafSpace, length_take, length_drop]
  omega

theorem Follows.val_eq (h : Follows tag prev key) :
    prev.take key.dup.toNat ++ keyPart tag key ++ replicate key.trl.toNat tag.bTrail =
      key.val := by
  have hcounts := h.counts
  have hmiddle : key.val.drop key.dup.toNat =
      keyPart tag key ++ key.val.drop (tag.uiLen - key.trl.toNat) := by
    nth_rewrite 1 [← take_append_drop (tag.uiLen - key.trl.toNat - key.dup.toNat)
      (key.val.drop key.dup.toNat)]
    rw [drop_drop]
    congr 2
    omega
  rw [← h.shared, ← h.trailing, append_assoc, ← hmiddle, take_append_drop]

section

variable (hshaped : Shaped tag page) (hfollows : Follows tag prev key) (hrec : Recorded page key)

include hshaped hfollows hrec

theorem setLeafRecord_eq :
    cdxSetLeafRecord key.recNo.toNat key.dup.toNat key.trl.toNat page.reqByte page.dcBits
      page.tcBits = leBytes page.reqByte (record tag page key) := by
  rw [Recorded, hshaped.rnBits_eq] at hrec
  rw [hshaped.dcBits_eq, hshaped.tcBits_eq, record, hshaped.rnBits_eq]
  exact cdxSetLeafRecord_eq hshaped.bits_le hrec hfollows.dup_lt

theorem record_lt : record tag page key < 256 ^ page.reqByte := by
  rw [Recorded, hshaped.rnBits_eq] at hrec
  rw [record, hshaped.rnBits_eq]
  exact packed_lt hshaped.bits_le hrec hfollows.dup_lt hfollows.trl_lt

end

theorem record_div (hrec : Recorded page key) :
    record tag page key / 2 ^ page.rnBits =
      key.trl.toNat * 2 ^ lenBits tag.uiLen + key.dup.toNat := by
  rw [record, packed, Nat.add_mul_div_right _ _ (by positivity), Nat.div_eq_of_lt hrec,
    Nat.zero_add]

variable {pRec : Nat} (hshaped : Shaped tag page) (hfollows : Follows tag prev key)
  (hrec : Recorded page key)
  (hread : page.node.read pRec page.reqByte = leBytes page.reqByte (record tag page key))

include hshaped hfollows hrec hread

section

variable (hpos : 1 ≤ pRec)

include hpos

theorem recordBits_eq :
    recordBits page pRec = key.trl.toNat * 2 ^ lenBits tag.uiLen + key.dup.toNat := by
  have hbits := CdxTag.lenBits_le tag
  rw [recordBits, Nat.shiftRight_eq_div_pow, hshaped.dcBits_eq, hshaped.tcBits_eq, Nat.sub_sub,
    getLE_record_end hread (record_lt hshaped hfollows hrec) hshaped.reqByte_ge hpos (by omega),
    ← Nat.two_mul, ← hshaped.rnBits_eq, record_div hrec]

theorem recordDup_eq : recordBits page pRec &&& page.dcMask = key.dup.toNat := by
  rw [recordBits_eq hshaped hfollows hrec hread hpos, hshaped.dcMask_eq,
    Nat.and_two_pow_sub_one_eq_mod, Nat.add_comm, Nat.add_mul_mod_self_right,
    Nat.mod_eq_of_lt hfollows.dup_lt]

theorem recordTrl_eq : (recordBits page pRec >>> page.dcBits) &&& page.tcMask = key.trl.toNat := by
  rw [recordBits_eq hshaped hfollows hrec hread hpos, hshaped.tcMask_eq, hshaped.dcBits_eq,
    Nat.and_two_pow_sub_one_eq_mod, Nat.shiftRight_eq_div_pow, Nat.mul_comm,
    Nat.mul_add_div (by positivity), Nat.div_eq_of_lt hfollows.dup_lt, Nat.add_zero,
    Nat.mod_eq_of_lt hfollows.trl_lt]

theorem getKeyTrl_eq :
    getLE page.node (pRec + page.reqByte - 4) 4 >>> (32 - page.tcBits) &&& page.tcMask =
      key.trl.toNat := by
  have hbits := CdxTag.lenBits_le tag
  have hle := hshaped.bits_le
  have hdiv : record tag page key / 2 ^ (8 * page.reqByte - lenBits tag.uiLen) = key.trl.toNat := by
    rw [show 8 * page.reqByte - lenBits tag.uiLen = page.rnBits + lenBits tag.uiLen by
      rw [hshaped.rnBits_eq]; omega, Nat.pow_add, ← Nat.div_div_eq_div_mul, record_div hrec,
      Nat.mul_comm, Nat.mul_add_div (by positivity), Nat.div_eq_of_lt hfollows.dup_lt, Nat.add_zero]
  rw [Nat.shiftRight_eq_div_pow, hshaped.tcBits_eq, hshaped.tcMask_eq,
    getLE_record_end hread (record_lt hshaped hfollows hrec) hshaped.reqByte_ge hpos (by omega),
    hdiv, Nat.and_two_pow_sub_one_eq_mod, Nat.mod_eq_of_lt hfollows.trl_lt]

end

theorem recordRec_eq : getLE page.node pRec 4 &&& page.rnMask = key.recNo.toNat := by
  obtain ⟨k, hk, hmin, hmask⟩ := hshaped.rnMask_eq
  have hlt := record_lt hshaped hfollows hrec
  have hle := hshaped.rnBits_eq
  have hrecord : ∀ j ≤ page.rnBits, record tag page key % 2 ^ j = key.recNo.toNat % 2 ^ j := by
    intro j hj
    rw [record, packed, Nat.add_mod, Nat.mod_eq_zero_of_dvd ((Nat.pow_dvd_pow 2 hj).mul_left _),
      Nat.add_zero, Nat.mod_mod]
  have hword : key.recNo.toNat < 2 ^ 32 := key.recNo.toNat_lt
  rw [hmask, Nat.and_two_pow_sub_one_eq_mod]
  rcases Nat.le_total k 32 with hshort | hlong
  · rw [getLE_record_start hread hlt (by omega) hshort, hrecord k hk]
    refine Nat.mod_eq_of_lt ?_
    rcases Nat.le_total page.rnBits 32 with h | h
    · exact hrec.trans_le (Nat.pow_le_pow_right two_pos (by omega))
    · exact hword.trans_le (Nat.pow_le_pow_right two_pos (by omega))
  · have hbound : getLE page.node pRec 4 < 2 ^ 32 := getLE_lt page.node pRec 4
    have hstart := getLE_record_start hread hlt (show 32 ≤ 8 * page.reqByte by omega)
      (Nat.le_refl _)
    rw [Nat.mod_eq_of_lt (hbound.trans_le (Nat.pow_le_pow_right two_pos hlong))]
    rw [hrecord 32 (by omega), Nat.mod_eq_of_lt hbound, Nat.mod_eq_of_lt hword] at hstart
    exact hstart

end Key

/-- The keys lie in the record area from `pRec` up and in the key area from `pKey` down. -/
def Laid (tag : CdxTag) (page : Page) (node : Mem) : List LeafKey → (pRec pKey : Nat) → Prop
  | [], _, _ => True
  | key :: keys, pRec, pKey =>
    node.read pRec page.reqByte = leBytes page.reqByte (record tag page key) ∧
      node.read (pKey - leafSpace tag key) (leafSpace tag key) = keyPart tag key ∧
      Laid tag page node keys (pRec + page.reqByte) (pKey - leafSpace tag key)

section Area

variable {tag : CdxTag} {page : Page}

@[simp]
theorem keySpace_nil : keySpace tag [] = 0 := rfl

@[simp]
theorem keySpace_cons (key : LeafKey) (keys : List LeafKey) :
    keySpace tag (key :: keys) = leafSpace tag key + keySpace tag keys := by
  simp [keySpace]

theorem keySpace_append (keys keys' : List LeafKey) :
    keySpace tag (keys ++ keys') = keySpace tag keys + keySpace tag keys' := by
  simp [keySpace]

theorem Laid.congr {node node' : Mem} {keys : List LeafKey} {pRec pKey : Nat}
    (h : Laid tag page node keys pRec pKey) (hspace : keySpace tag keys ≤ pKey)
    (hrec : ∀ a, pRec ≤ a → a < pRec + keys.length * page.reqByte → node a = node' a)
    (hkey : ∀ a, pKey - keySpace tag keys ≤ a → a < pKey → node a = node' a) :
    Laid tag page node' keys pRec pKey := by
  induction keys generalizing pRec pKey with
  | nil => trivial
  | cons key keys ih =>
    simp only [keySpace_cons, length_cons, Nat.succ_mul] at hspace hrec hkey
    obtain ⟨hrecord, hpart, hrest⟩ := h
    refine ⟨?_, ?_, ih hrest (by omega) ?_ ?_⟩
    · rw [← hrecord]
      exact (Mem.read_congr fun a hle hlt => hrec a hle (by omega)).symm
    · rw [← hpart]
      exact (Mem.read_congr fun a hle hlt => hkey a (by omega) (by omega)).symm
    · exact fun a hle hlt => hrec a (by omega) (by omega)
    · exact fun a hle hlt => hkey a (by omega) (by omega)

section

variable (hshaped : Shaped tag page) {keys : List LeafKey} {prev : Bytes} {pRec pKey : Nat}

include hshaped

theorem leafEncode_spec (node : Mem) (hrules : PageRules tag prev keys)
    (hrecs : ∀ key ∈ keys, Recorded page key)
    (hroom : pRec + keys.length * page.reqByte + keySpace tag keys ≤ pKey) : ∃ node',
      leafEncode tag page keys pRec pKey node =
        some (pRec + keys.length * page.reqByte, pKey - keySpace tag keys, node') ∧
      (∀ a, a < pRec ∨ pKey ≤ a → node' a = node a) ∧
      Laid tag page node' keys pRec pKey := by
  induction keys generalizing prev pRec pKey node with
  | nil => exact ⟨node, by simp [leafEncode], fun _ _ => rfl, trivial⟩
  | cons key keys ih =>
    obtain ⟨hfollows, hrules⟩ := hrules
    have hrec := hrecs key mem_cons_self
    simp only [keySpace_cons, length_cons, Nat.succ_mul] at hroom
    let node₁ := node.write pRec (leBytes page.reqByte (record tag page key))
    let node₂ := node₁.write (pKey - leafSpace tag key) (keyPart tag key)
    obtain ⟨node', hencode, hframe, hlaid⟩ := ih node₂ hrules
      (fun key' hmem => hrecs key' (mem_cons_of_mem _ hmem))
      (show pRec + page.reqByte + keys.length * page.reqByte + keySpace tag keys ≤
        pKey - leafSpace tag key by omega)
    have hlength := hfollows.keyPart_length
    have hlow : ∀ a, a < pKey - leafSpace tag key → node₂ a = node₁ a := fun a ha =>
      Mem.write_outside _ _ _ (.inl ha)
    refine ⟨node', ?_, ?_, ?_, ?_, hlaid⟩
    · rw [leafEncode, if_neg (by have := hfollows.counts; omega),
        setLeafRecord_eq hshaped hfollows hrec]
      simp only [keySpace_cons, length_cons, Nat.succ_mul]
      rw [← Nat.sub_sub]
      refine hencode.trans ?_
      congr 2
      omega
    · intro a ha
      exact (hframe a (by omega)).trans
        ((Mem.write_outside node₁ _ _ (by omega)).trans
          (Mem.write_outside node _ _ (by rw [leBytes_length]; omega)))
    · have hread := Mem.read_write node pRec (leBytes page.reqByte (record tag page key))
      rw [leBytes_length] at hread
      rw [← hread]
      exact Mem.read_congr fun a hle hlt =>
        (hframe a (by omega)).trans (hlow a (by omega))
    · have hread := Mem.read_write node₁ (pKey - leafSpace tag key) (keyPart tag key)
      rw [hlength] at hread
      rw [← hread]
      exact Mem.read_congr fun a hle hlt => hframe a (by omega)

theorem leafDecode_spec (iKey : Nat) (hrules : PageRules tag prev keys)
    (hrecs : ∀ key ∈ keys, Recorded page key) (hlaid : Laid tag page page.node keys pRec pKey)
    (hfirst : iKey = 0 → ∀ key ∈ keys.head?, key.dup = 0) (hpos : 1 ≤ pRec) :
    leafDecode tag page keys.length iKey pRec pKey prev = some keys := by
  induction keys generalizing prev iKey pRec pKey with
  | nil => rfl
  | cons key keys ih =>
    obtain ⟨hfollows, hrules⟩ := hrules
    obtain ⟨hread, hpart, hlaid⟩ := hlaid
    have hrec := hrecs key mem_cons_self
    have hdup : (if iKey = 0 then 0 else recordBits page pRec &&& page.dcMask) =
        key.dup.toNat := by
      split_ifs with hzero
      · simp [hfirst hzero key rfl]
      · exact recordDup_eq hshaped hfollows hrec hread hpos
    have htrl := recordTrl_eq hshaped hfollows hrec hread hpos
    have hrest := ih (iKey + 1) hrules
      (fun key' hmem => hrecs key' (mem_cons_of_mem _ hmem)) hlaid (by simp) (by omega)
    have hcounts := hfollows.counts
    have hspace : tag.uiLen - key.dup.toNat - key.trl.toNat = leafSpace tag key := by
      rw [leafSpace, Nat.sub_right_comm]
    have hkey : LeafKey.mk key.val (UInt32.ofNat key.recNo.toNat) (UInt16.ofNat key.dup.toNat)
        (UInt16.ofNat key.trl.toNat) = key := by
      simp
    rw [length_cons, leafDecode, hdup, htrl]
    simp only [hspace, hpart, hfollows.val_eq, hrest,
      recordRec_eq hshaped hfollows hrec hread, hkey]
    simp [guard, Nat.add_comm key.dup.toNat, hcounts]

end

end Area

/-- The keys that a leaf stands for, as far as its counters and widths are concerned. -/
structure Sized (tag : CdxTag) (page : Page) (keys : List LeafKey) : Prop where
  shaped : Shaped tag page
  leaf : page.isLeaf
  rules : PageRules tag [] keys
  recs : ∀ key ∈ keys, Recorded page key
  iKeys_eq : page.iKeys = keys.length
  room : extHeadSize + keys.length * page.reqByte + keySpace tag keys ≤ tag.pIndex.uiPageLen
  iFree_eq : page.iFree =
    (tag.pIndex.uiPageLen : Int) - extHeadSize - keys.length * page.reqByte - keySpace tag keys

structure Holds (tag : CdxTag) (page : Page) (keys : List LeafKey) : Prop
    extends Sized tag page keys where
  laid : Laid tag page page.node keys extHeadSize tag.pIndex.uiPageLen

section Page

variable {tag : CdxTag} {page : Page} {keys : List LeafKey}

theorem PageRules.first_dup {tag : CdxTag} {keys : List LeafKey} (h : PageRules tag [] keys) :
    ∀ key ∈ keys.head?, key.dup = 0 := by
  intro key hkey
  cases keys with
  | nil => simp at hkey
  | cons first keys =>
    obtain rfl : first = key := by simpa using hkey
    have hshared := congrArg length h.1.shared
    have hlength := h.1.length
    have hpos := tag.uiLen_pos
    simp only [take_nil, length_nil, length_take, hlength] at hshared
    exact UInt16.toNat_inj.mp (by simp only [UInt16.toNat_zero]; omega)

theorem Laid.of_page {page page' : Page} {node : Mem} {keys : List LeafKey} {pRec pKey : Nat}
    (h : Laid tag page node keys pRec pKey) (hreq : page'.reqByte = page.reqByte)
    (hbits : page'.rnBits = page.rnBits) : Laid tag page' node keys pRec pKey := by
  induction keys generalizing pRec pKey with
  | nil => trivial
  | cons key keys ih =>
    obtain ⟨hrecord, hpart, hrest⟩ := h
    refine ⟨?_, hpart, ?_⟩
    · rw [record, hreq, hbits]
      exact hrecord
    · rw [hreq]
      exact ih hrest

theorem cdxPageLeafEncode_spec (hsized : Sized tag page keys) (pKeyBuf : List LeafKey)
    (htake : pKeyBuf.take page.iKeys = keys) :
    ∃ node,
      cdxPageLeafEncode tag page pKeyBuf page.iKeys =
        some { page with node := node, fChanged := true, bufKeyNum := 0 } ∧
      Holds tag { page with node := node, fChanged := true, bufKeyNum := 0 } keys ∧
      (∀ a < extHeadSize, node a = page.node a) ∧
      ∀ a, extHeadSize + keys.length * page.reqByte ≤ a →
        a < tag.pIndex.uiPageLen - keySpace tag keys → node a = 0 := by
  obtain ⟨node, hencode, hframe, hlaid⟩ := leafEncode_spec hsized.shaped page.node
    hsized.rules hsized.recs hsized.room
  have hroom := hsized.room
  have hfree := hsized.iFree_eq
  let gap := tag.pIndex.uiPageLen - keySpace tag keys - (extHeadSize + keys.length * page.reqByte)
  let pRecPos := extHeadSize + keys.length * page.reqByte
  refine ⟨node.write pRecPos (replicate gap 0), ?_, ⟨?_, ?_⟩, ?_, ?_⟩
  · have hspace : ((tag.pIndex.uiPageLen - keySpace tag keys : Nat) : Int) -
        (extHeadSize + keys.length * page.reqByte : Nat) = page.iFree ∧ 0 ≤ page.iFree := by
      omega
    rw [cdxPageLeafEncode, htake, hencode]
    simp only [guard, hsized.leaf, Option.bind_eq_bind, Option.bind_some, if_pos hspace]
    rfl
  · exact { hsized with shaped := { hsized.shaped with } }
  · refine (hlaid.congr (by omega) ?_ ?_).of_page rfl rfl
    · exact fun a hle hlt => (Mem.write_outside node _ _ (.inl (by omega))).symm
    · exact fun a hle hlt => (Mem.write_outside node _ _ (.inr (by simp; omega))).symm
  · intro a ha
    exact (Mem.write_outside node _ _ (.inl (by omega))).trans (hframe a (.inl ha))
  · intro a hle hlt
    obtain ⟨i, rfl⟩ : ∃ i, a = pRecPos + i := ⟨a - pRecPos, by omega⟩
    have hi : i < (replicate gap (0 : UInt8)).length := by simp; omega
    refine (Mem.write_inside node pRecPos hi).trans ?_
    simp

theorem cdxPageLeafDecode_spec (h : Holds tag page keys) :
    cdxPageLeafDecode tag page = some keys := by
  have hdecode := leafDecode_spec h.shaped 0 h.rules h.recs h.laid
    (fun _ => h.rules.first_dup) (by simp)
  simp [cdxPageLeafDecode, guard, h.leaf, h.iKeys_eq, hdecode]

theorem Laid.append {node : Mem} {pRec pKey : Nat}
    (h : Laid tag page node (done ++ rest) pRec pKey) :
    Laid tag page node rest (pRec + done.length * page.reqByte) (pKey - keySpace tag done) := by
  induction done generalizing pRec pKey with
  | nil => simpa using h
  | cons key done ih =>
    have hrest := ih h.2.2
    rw [Nat.add_assoc, Nat.sub_sub, Nat.add_comm page.reqByte] at hrest
    simpa [Nat.succ_mul] using hrest

def lastVal (prev : Bytes) (done : List LeafKey) : Bytes :=
  (done.getLast?.map LeafKey.val).getD prev

theorem PageRules.append {prev : Bytes} (h : PageRules tag prev (done ++ rest)) :
    PageRules tag (lastVal prev done) rest := by
  induction done generalizing prev with
  | nil => exact h
  | cons key done ih =>
    have hlast : lastVal prev (key :: done) = lastVal key.val done := by
      cases hlast : done.getLast? <;> simp [lastVal, getLast?_cons, hlast]
    rw [hlast]
    exact ih h.2

section

variable {prev : Bytes} (h : PageRules tag prev keys)

include h

theorem PageRules.take (n : Nat) : PageRules tag prev (keys.take n) := by
  induction keys generalizing prev n with
  | nil => simpa using h
  | cons key keys ih =>
    cases n with
    | zero => trivial
    | succ n => exact ⟨h.1, ih h.2 n⟩

theorem PageRules.counts : ∀ key ∈ keys, key.trl.toNat + key.dup.toNat ≤ tag.uiLen := by
  induction keys generalizing prev with
  | nil => simp
  | cons key keys ih =>
    rintro key' (_ | ⟨_, hmem⟩)
    · exact h.1.counts
    · exact ih h.2 key' hmem

end

structure Scanned (tag : CdxTag) (page : Page) (done : List LeafKey) : Prop where
  num : page.bufKeyNum = done.length
  pos : extHeadSize + page.bufKeyPos = tag.pIndex.uiPageLen - keySpace tag done
  val : ∀ key ∈ done.getLast?, page.node.read tag.pIndex.uiPageLen tag.uiLen = key.val
  len : page.bufKeyLen ≤ tag.uiLen
  fill : (page.node.read tag.pIndex.uiPageLen tag.uiLen).drop page.bufKeyLen =
    replicate (tag.uiLen - page.bufKeyLen) tag.bTrail

theorem filled_eq {old : Bytes} {filled iLen len : Nat} {b : UInt8} (hlen : len ≤ iLen)
    (hfilled : filled ≤ iLen) (hfill : old.drop filled = replicate (iLen - filled) b) :
    replicate (filled - len) b ++ old.drop (len + (filled - len)) =
      replicate (iLen - len) b := by
  rcases Nat.le_total len filled with h | h
  · rw [Nat.add_sub_cancel' h, hfill, replicate_append_replicate]
    congr 1
    omega
  · rw [Nat.sub_eq_zero_of_le h, Nat.add_zero, replicate_zero, nil_append,
      show len = filled + (len - filled) by omega, ← drop_drop, hfill, drop_replicate]
    congr 1
    omega

theorem cacheNextKey_spec {key : LeafKey} (h : Holds tag page keys)
    (hkeys : keys = done ++ key :: rest) (hscanned : Scanned tag page done) :
    ∃ page', cacheNextKey tag page = some page' ∧ Holds tag page' keys ∧
      Scanned tag page' (done ++ [key]) ∧ page'.pKeyBuf = page.pKeyBuf := by
  subst hkeys
  have hroom := h.room
  obtain ⟨hread, hpart, -⟩ := h.laid.append
  obtain ⟨hfollows, -⟩ := h.rules.append
  have hrec : Recorded page key := h.recs key (by simp)
  have hpos : 1 ≤ extHeadSize + done.length * page.reqByte := by simp [extHeadSize]; omega
  have hcounts := hfollows.counts
  simp only [keySpace_append, keySpace_cons] at hroom
  have hdup : (if page.bufKeyNum = 0 then 0 else
      recordBits page (extHeadSize + page.bufKeyNum * page.reqByte) &&& page.dcMask) =
      key.dup.toNat := by
    rw [hscanned.num]
    split_ifs with hzero
    · obtain rfl := length_eq_zero_iff.mp hzero
      have := h.rules.first_dup key rfl
      simp [this]
    · exact recordDup_eq h.shaped hfollows hrec hread hpos
  have htrl : recordBits page (extHeadSize + page.bufKeyNum * page.reqByte) >>> page.dcBits &&&
      page.tcMask = key.trl.toNat := by
    rw [hscanned.num]
    exact recordTrl_eq h.shaped hfollows hrec hread hpos
  have hlen := hscanned.len
  have hpartLen := hfollows.keyPart_length
  have hpos' : extHeadSize + (page.bufKeyPos - leafSpace tag key) =
      tag.pIndex.uiPageLen - keySpace tag done - leafSpace tag key := by
    have := hscanned.pos
    omega
  let len := tag.uiLen - key.trl.toNat
  have hend : key.dup.toNat + leafSpace tag key = len := by
    simp only [leafSpace, len]
    omega
  let node₁ := page.node.write (tag.pIndex.uiPageLen + key.dup.toNat) (keyPart tag key)
  let node₂ := node₁.write (tag.pIndex.uiPageLen + len)
    (replicate (page.bufKeyLen - len) tag.bTrail)
  have hnode : ∀ a < tag.pIndex.uiPageLen, page.node a = node₂ a := fun a ha =>
    ((Mem.write_outside node₁ _ _ (.inl (by omega))).trans
      (Mem.write_outside page.node _ _ (.inl (by omega)))).symm
  have hold : (page.node.read tag.pIndex.uiPageLen tag.uiLen).take key.dup.toNat =
      (lastVal [] done).take key.dup.toNat := by
    cases hlast : done.getLast? with
    | none =>
      obtain rfl := getLast?_eq_none_iff.mp hlast
      simp [lastVal, h.rules.first_dup key rfl]
    | some last => simp [lastVal, hlast, hscanned.val last hlast]
  have hval : node₂.read tag.pIndex.uiPageLen tag.uiLen = key.val := by
    have hfront : ((page.node.read tag.pIndex.uiPageLen tag.uiLen).take key.dup.toNat ++
        keyPart tag key).length = len := by
      simp only [length_append, length_take, Mem.read_length]
      omega
    have hfilled := filled_eq (show len ≤ tag.uiLen from Nat.sub_le _ _) hlen hscanned.fill
    rw [Mem.read_write_inside node₁ _ (by simp; omega),
      Mem.read_write_inside page.node _ (by omega), length_replicate, hpartLen, hend,
      take_left' hfront, ← drop_drop, drop_left' hfront, drop_drop,
      append_assoc, hfilled, hold, show tag.uiLen - len = key.trl.toNat by omega]
    exact hfollows.val_eq
  refine ⟨{ page with
    node := node₂
    bufKeyPos := page.bufKeyPos - leafSpace tag key
    bufKeyLen := len
    bufKeyNum := page.bufKeyNum + 1 }, ?_, ?_, ?_, rfl⟩
  · rw [cacheNextKey, hdup, htrl]
    have hspace : tag.uiLen - key.dup.toNat - key.trl.toNat = leafSpace tag key := by
      rw [leafSpace, Nat.sub_right_comm]
    simp only [hspace, hpos', hpart]
    simp [guard, Nat.add_comm key.dup.toNat, hcounts, node₂, node₁, len]
  · refine ⟨{ h.toSized with shaped := { h.shaped with } }, ?_⟩
    refine (h.laid.congr ?_ ?_ ?_).of_page rfl rfl
    · simp only [keySpace_append, keySpace_cons]
      omega
    · exact fun a _ hlt => hnode a (by omega)
    · exact fun a _ hlt => hnode a hlt
  · refine ⟨?_, ?_, ?_, ?_, ?_⟩
    · simp [hscanned.num]
    · rw [keySpace_append, keySpace_cons, keySpace_nil, Nat.add_zero, ← Nat.sub_sub]
      exact hpos'
    · simpa using hval
    · exact Nat.sub_le _ _
    · rw [show node₂.read tag.pIndex.uiPageLen tag.uiLen = key.val from hval, hfollows.trailing,
        Nat.sub_sub_self (by omega)]

theorem cacheKeys_spec {n : Nat} (h : Holds tag page keys)
    (hscanned : Scanned tag page (keys.take m)) (hn : m + n ≤ keys.length) :
    ∃ page', cacheKeys tag n page = some page' ∧ Holds tag page' keys ∧
      Scanned tag page' (keys.take (m + n)) ∧ page'.pKeyBuf = page.pKeyBuf := by
  induction n generalizing m page with
  | zero => exact ⟨page, rfl, h, hscanned, rfl⟩
  | succ n ih =>
    have hkeys : keys = keys.take m ++ keys.get ⟨m, by omega⟩ :: keys.drop (m + 1) := by
      rw [get_eq_getElem, getElem_cons_drop, take_append_drop]
    obtain ⟨page₁, hstep, h₁, hscanned₁, hbuf₁⟩ := cacheNextKey_spec h hkeys hscanned
    rw [get_eq_getElem, take_append_getElem] at hscanned₁
    obtain ⟨page₂, hrest, h₂, hscanned₂, hbuf₂⟩ := ih h₁ hscanned₁ (by omega)
    refine ⟨page₂, ?_, h₂, ?_, hbuf₂.trans hbuf₁⟩
    · rw [cacheKeys, hstep, Option.bind_some, hrest]
    · rwa [← Nat.add_assoc, Nat.add_right_comm]

/-- What the incremental decoder remembers between calls. -/
def Cached (tag : CdxTag) (page : Page) (keys : List LeafKey) : Prop :=
  page.bufKeyNum = 0 ∨ ∃ n, Scanned tag page (keys.take n)

theorem rewindCache_spec (h : Holds tag page keys) (hcached : Cached tag page keys) (iKey : Nat) :
    Holds tag (rewindCache tag page iKey) keys ∧
      (∃ m ≤ iKey + 1, Scanned tag (rewindCache tag page iKey) (keys.take m)) ∧
      (rewindCache tag page iKey).pKeyBuf = page.pKeyBuf := by
  have hroom := h.room
  have hstart : Holds tag { page with
        bufKeyNum := 0
        bufKeyPos := tag.pIndex.uiPageLen - extHeadSize
        bufKeyLen := tag.uiLen } keys ∧
      Scanned tag { page with
        bufKeyNum := 0
        bufKeyPos := tag.pIndex.uiPageLen - extHeadSize
        bufKeyLen := tag.uiLen } (keys.take 0) := by
    refine ⟨⟨{ h.toSized with shaped := { h.shaped with } }, h.laid.of_page rfl rfl⟩, rfl, ?_, ?_,
      Nat.le_refl _, ?_⟩
    · rw [take_zero, keySpace_nil]
      exact Nat.add_sub_cancel' (by omega)
    · simp
    · simp
  rcases Nat.eq_zero_or_pos page.bufKeyNum with hzero | hpos
  · have hpage : rewindCache tag page iKey = { page with
        bufKeyNum := 0
        bufKeyPos := tag.pIndex.uiPageLen - extHeadSize
        bufKeyLen := tag.uiLen } := by
      simp_all [rewindCache]
    rw [hpage]
    exact ⟨hstart.1, ⟨0, Nat.zero_le _, hstart.2⟩, rfl⟩
  · obtain ⟨n, hscanned⟩ := hcached.resolve_left (by omega)
    rcases Nat.lt_or_ge (iKey + 1) page.bufKeyNum with hback | hforward
    · simp only [rewindCache, if_pos hback, if_true]
      exact ⟨hstart.1, ⟨0, Nat.zero_le _, hstart.2⟩, trivial⟩
    · have hnum := hscanned.num
      have hpage : rewindCache tag page iKey = page := by
        simp only [rewindCache, if_neg (Nat.not_lt.mpr hforward), if_neg (Nat.ne_of_gt hpos)]
      rw [hpage]
      refine ⟨h, ⟨(keys.take n).length, by omega, ?_⟩, rfl⟩
      rwa [show keys.take (keys.take n).length = keys.take n by
        rw [take_eq_take_iff]; simp]

theorem cdxPageGetKeyVal_spec (h : Holds tag page keys) (hbuf : page.pKeyBuf = none)
    (hcached : Cached tag page keys) {iKey : Nat} {key : LeafKey} (hkey : keys[iKey]? = some key) :
    ∃ page', cdxPageGetKeyVal tag page iKey = some (page', key.val) ∧ Holds tag page' keys ∧
      page'.pKeyBuf = none ∧ Cached tag page' keys := by
  obtain ⟨hiKey, rfl⟩ := List.getElem?_eq_some_iff.mp hkey
  obtain ⟨h₁, ⟨m, hm, hscanned₁⟩, hbuf₁⟩ := rewindCache_spec h hcached iKey
  have hnum : (rewindCache tag page iKey).bufKeyNum = m := by
    rw [hscanned₁.num, length_take]
    omega
  obtain ⟨page₂, hloop, h₂, hscanned₂, hbuf₂⟩ :=
    cacheKeys_spec h₁ hscanned₁ (show m + (iKey + 1 - m) ≤ keys.length by omega)
  rw [Nat.add_sub_cancel' hm] at hscanned₂
  have hval : page₂.node.read tag.pIndex.uiPageLen tag.uiLen = keys[iKey].val := by
    refine hscanned₂.val _ ?_
    rw [← take_append_getElem hiKey, getLast?_concat]
    rfl
  refine ⟨page₂, ?_, h₂, ?_, .inr ⟨_, hscanned₂⟩⟩
  · simp [cdxPageGetKeyVal, guard, h.iKeys_eq, hiKey, hbuf, h.leaf, hnum, hloop, hval]
  · rw [hbuf₂, hbuf₁, hbuf]

theorem Laid.record_at {node : Mem} (h : Laid tag page node keys extHeadSize tag.pIndex.uiPageLen)
    (hrules : PageRules tag [] keys) {iKey : Nat} {key : LeafKey} (hkey : keys[iKey]? = some key) :
    node.read (extHeadSize + iKey * page.reqByte) page.reqByte =
        leBytes page.reqByte (record tag page key) ∧
      ∃ prev, Follows tag prev key := by
  obtain ⟨hiKey, rfl⟩ := List.getElem?_eq_some_iff.mp hkey
  have hkeys : keys = keys.take iKey ++ keys[iKey] :: keys.drop (iKey + 1) := by
    rw [getElem_cons_drop, take_append_drop]
  have hlength : (keys.take iKey).length = iKey := by simp; omega
  rw [hkeys] at h hrules
  have hread := h.append.1
  rw [hlength] at hread
  exact ⟨hread, _, hrules.append.1⟩

section

variable (h : Holds tag page keys) (hbuf : page.pKeyBuf = none) {iKey : Nat} {key : LeafKey}
  (hkey : keys[iKey]? = some key)

include h hbuf hkey

theorem cdxPageGetKeyRec_spec : cdxPageGetKeyRec tag page iKey = some key.recNo.toNat := by
  obtain ⟨hread, prev, hfollows⟩ := h.laid.record_at h.rules hkey
  obtain ⟨hiKey, -⟩ := List.getElem?_eq_some_iff.mp hkey
  have hrec := recordRec_eq h.shaped hfollows (h.recs key (mem_of_getElem? hkey)) hread
  simp [cdxPageGetKeyRec, guard, h.iKeys_eq, hiKey, hbuf, h.leaf, hrec]

theorem cdxPageGetKeyTrl_spec : cdxPageGetKeyTrl page iKey = some key.trl.toNat := by
  obtain ⟨hread, prev, hfollows⟩ := h.laid.record_at h.rules hkey
  have htrl := getKeyTrl_eq h.shaped hfollows (h.recs key (mem_of_getElem? hkey)) hread
    (by simp [extHeadSize]; omega)
  simp only [cdxPageGetKeyTrl, hbuf, Nat.succ_mul, ← Nat.add_assoc, htrl]

end

end Page

inductive Call where
  | keyVal (iKey : Nat)
  | keyRec (iKey : Nat)
  | keyTrl (iKey : Nat)

inductive Answer where
  | val (bytes : Bytes)
  | number (n : Nat)
  deriving DecidableEq

namespace Call

def iKey : Call → Nat
  | keyVal iKey | keyRec iKey | keyTrl iKey => iKey

def run (tag : CdxTag) (page : Page) : Call → Option (Page × Answer)
  | keyVal iKey => (cdxPageGetKeyVal tag page iKey).map fun r => (r.1, .val r.2)
  | keyRec iKey => (cdxPageGetKeyRec tag page iKey).map fun n => (page, .number n)
  | keyTrl iKey => (cdxPageGetKeyTrl page iKey).map fun n => (page, .number n)

def answer (keys : List LeafKey) : Call → Option Answer
  | keyVal iKey => (keys[iKey]?).map fun key => .val key.val
  | keyRec iKey => (keys[iKey]?).map fun key => .number key.recNo.toNat
  | keyTrl iKey => (keys[iKey]?).map fun key => .number key.trl.toNat

def runs (tag : CdxTag) : Page → List Call → Option (List Answer)
  | _, [] => some []
  | page, call :: calls => do
    let (page, answer) ← call.run tag page
    let answers ← runs tag page calls
    some (answer :: answers)

section

variable {tag : CdxTag} {page : Page} {keys : List LeafKey} (h : Holds tag page keys)
  (hbuf : page.pKeyBuf = none) (hcached : Cached tag page keys)

include h hbuf hcached

theorem run_spec {call : Call} (hcall : call.iKey < keys.length) :
    ∃ page' result, call.run tag page = some (page', result) ∧
      call.answer keys = some result ∧ Holds tag page' keys ∧ page'.pKeyBuf = none ∧
      Cached tag page' keys := by
  obtain ⟨key, hkey⟩ : ∃ key, keys[call.iKey]? = some key :=
    ⟨_, getElem?_eq_getElem hcall⟩
  cases call with
  | keyVal iKey =>
    change keys[iKey]? = some key at hkey
    obtain ⟨page', hget, h', hbuf', hcached'⟩ := cdxPageGetKeyVal_spec h hbuf hcached hkey
    exact ⟨page', _, by rw [run, hget]; rfl, by rw [answer, hkey]; rfl, h', hbuf', hcached'⟩
  | keyRec iKey =>
    change keys[iKey]? = some key at hkey
    have hget := cdxPageGetKeyRec_spec h hbuf hkey
    exact ⟨page, _, by rw [run, hget]; rfl, by rw [answer, hkey]; rfl, h, hbuf, hcached⟩
  | keyTrl iKey =>
    change keys[iKey]? = some key at hkey
    have hget := cdxPageGetKeyTrl_spec h hbuf hkey
    exact ⟨page, _, by rw [run, hget]; rfl, by rw [answer, hkey]; rfl, h, hbuf, hcached⟩

theorem runs_spec {calls : List Call} (hcalls : ∀ call ∈ calls, call.iKey < keys.length) :
    runs tag page calls = calls.mapM (answer keys) := by
  induction calls generalizing page with
  | nil => rfl
  | cons call calls ih =>
    obtain ⟨page', result, hrun, hanswer, h', hbuf', hcached'⟩ :=
      run_spec h hbuf hcached (hcalls call mem_cons_self)
    have hrest := ih h' hbuf' hcached' fun call' hmem => hcalls call' (mem_cons_of_mem _ hmem)
    simp only [runs, hrun, hanswer, hrest, mapM_cons, Option.bind_eq_bind, Option.bind_some]
    rfl

end

end Call

end Harbour.Rdd.CdxLeafCodec
