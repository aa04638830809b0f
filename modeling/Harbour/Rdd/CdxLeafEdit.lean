import Mathlib.Data.List.Lex
import Harbour.Rdd.CdxLeafStore

/-!
Adding a key to a CDX leaf page and removing one, with `HB_CDX_PACKTRAIL`.
-/

namespace Harbour.Rdd.CdxLeafEdit

open Library.Bytes CdxLeaf CdxLeafCodec CdxLeafStore List

section Edits

def sharedFrom (prev val : Bytes) (iMax iDup : Nat) : Nat :=
  if iDup < iMax ∧ prev[iDup]? = val[iDup]? then sharedFrom prev val iMax (iDup + 1) else iDup
termination_by iMax - iDup

def sharedSeeded (prev val : Bytes) (iMax iDup : Nat) : Nat :=
  if iDup > iMax then iMax else sharedFrom prev val iMax iDup

structure NodeRet where
  newLastKey : Bool
  split : Bool
  join : Bool
  balance : Bool
  deriving DecidableEq

variable (tag : CdxTag)

def trailing (val : Bytes) : Nat := (val.reverse.takeWhile (· = tag.bTrail)).length

def takeShort (iFree iSpc : Int) : Int := (iFree - iSpc.bmod (2 ^ 16)).bmod (2 ^ 16)

def keyBuf (page : Page) : Option (List LeafKey) :=
  match page.pKeyBuf with
  | some pKeyBuf => some pKeyBuf
  | none => cdxPageLeafDecode tag page

def joinNext (before : List LeafKey) (removed : LeafKey) : List LeafKey → List LeafKey × Int
  | [] => ([], 0)
  | next :: after =>
    let iDup := match before.getLast? with
      | none => 0
      | some prev => sharedSeeded prev.val next.val (tag.uiLen - next.trl.toNat)
          (min next.dup.toNat removed.dup.toNat)
    ({ next with dup := UInt16.ofNat iDup } :: after, iDup - next.dup.toNat)

def cdxPageLeafDelKey (page : Page) (iCurKey : Nat) : Option (Page × NodeRet) := do
  guard (page.isLeaf ∧ iCurKey < page.iKeys)
  let pKeyBuf ← keyBuf tag page
  let removed ← pKeyBuf[iCurKey]?
  let (after, iSpc') := joinNext tag (pKeyBuf.take iCurKey) removed (pKeyBuf.drop (iCurKey + 1))
  let iSpc := page.reqByte + tag.uiLen - removed.dup.toNat - removed.trl.toNat + iSpc'
  let page :=
    { page with
      pKeyBuf := some (pKeyBuf.take iCurKey ++ after)
      iKeys := page.iKeys - 1
      iFree := takeShort page.iFree (-iSpc)
      fBufChanged := true
      fChanged := true }
  some (page,
    { newLastKey := page.iKeys ≤ iCurKey
      split := page.iKeys ≠ 0 ∧ page.iFree < 0
      join := page.iKeys = 0
      balance := page.iFree ≥ page.reqByte })

def fullKey (val : Bytes) : Bytes :=
  val.take tag.uiLen ++ replicate (tag.uiLen - val.length) tag.bTrail

/-- The key after an added one, with what its record gains. -/
def splitNext (val : Bytes) : List LeafKey → List LeafKey × Int
  | [] => ([], 0)
  | next :: after =>
    let iDup := sharedFrom val next.val (tag.uiLen - next.trl.toNat) 0
    ({ next with dup := UInt16.ofNat iDup } :: after, next.dup.toNat - iDup)

def cdxPageLeafAddKey (fSortCDP : Bool) (page : Page) (iCurKey : Nat) (keyVal : Bytes)
    (keyRec : UInt32) : Option (Page × NodeRet) := do
  guard (page.isLeaf ∧ iCurKey ≤ page.iKeys)
  let pKeyBuf ← keyBuf tag page
  let val := fullKey tag keyVal
  let iTrl := trailing tag val
  let iDup := match pKeyBuf[iCurKey]? with
    | some next => if fSortCDP then 0 else next.dup.toNat
    | none => 0
  let iDup := match (pKeyBuf.take iCurKey).getLast? with
    | none => iDup
    | some prev => sharedSeeded prev.val val (tag.uiLen - iTrl) iDup
  let (after, iSpc') := splitNext tag val (pKeyBuf.drop iCurKey)
  let added : LeafKey := ⟨val, keyRec, UInt16.ofNat iDup, UInt16.ofNat iTrl⟩
  let w := widen keyRec.toNat page.iKeys
    ⟨page.rnMask, page.rnBits, page.reqByte, page.reqByte + tag.uiLen - iTrl - iDup + iSpc'⟩
  let page :=
    { page with
      pKeyBuf := some (pKeyBuf.take iCurKey ++ added :: after)
      iKeys := page.iKeys + 1
      rnMask := w.rnMask
      rnBits := w.rnBits
      reqByte := w.reqByte
      iFree := takeShort page.iFree w.iSize
      fBufChanged := true
      fChanged := true }
  some (page,
    { newLastKey := page.iKeys - 1 ≤ iCurKey
      split := page.iFree < 0
      join := false
      balance := page.iFree ≥ page.reqByte ∧ page.left ≠ 0xFFFFFFFF ∧ page.right ≠ 0xFFFFFFFF })

end Edits

section Counters

variable (tag : CdxTag)

abbrev Entry := Bytes × UInt32

def entry (key : LeafKey) : Entry := (key.val, key.recNo)

/-- The counter of shared bytes that `hb_cdxPageCheckDupTrl` wants behind another key. -/
def dupOf : Option Bytes → Bytes → Nat
  | none, _ => 0
  | some prev, val => sharedFrom prev val (tag.uiLen - trailing tag val) 0

def counted (prev : Option Bytes) (e : Entry) : LeafKey :=
  { val := e.1
    recNo := e.2
    dup := UInt16.ofNat (dupOf tag prev e.1)
    trl := UInt16.ofNat (trailing tag e.1) }

def recount (prev : Option Bytes) : List Entry → List LeafKey
  | [] => []
  | e :: entries => counted tag prev e :: recount (some e.1) entries

def lastOf (prev : Option Bytes) (entries : List Entry) : Option Bytes :=
  (entries.getLast?.map Prod.fst).or prev

/-- The order of the entries of a tag that compares bytes. -/
def Before (a b : Entry) : Prop := a.1 < b.1 ∨ a.1 = b.1 ∧ a.2 < b.2

/-- A leaf with decoded or encoded keys, whose accounting is exact; its free space may be
missing. -/
structure Exact (page : Page) (entries : List Entry) : Prop where
  buf : keyBuf tag page = some (recount tag none entries)
  leaf : page.isLeaf
  length : ∀ e ∈ entries, e.1.length = tag.uiLen
  sorted : entries.Pairwise Before
  iKeys_eq : page.iKeys = entries.length
  shaped : Shaped tag page
  recs : ∀ e ∈ entries, e.2.toNat ≤ page.rnMask
  iFree_eq : page.iFree = (tag.pIndex.uiPageLen : Int) - extHeadSize -
    entries.length * page.reqByte - keySpace tag (recount tag none entries)

variable {tag} {prev val : Bytes} {iMax : Nat}

theorem sharedFrom_le {iDup : Nat} (h : iDup ≤ iMax) : sharedFrom prev val iMax iDup ≤ iMax := by
  fun_induction sharedFrom prev val iMax iDup with
  | case1 iDup hstep ih => exact ih hstep.1
  | case2 iDup hstep => exact h

section

variable {iDup : Nat} (hshared : ∀ j < iDup, prev[j]? = val[j]?)

include hshared

theorem sharedFrom_zero (hle : iDup ≤ iMax) :
    sharedFrom prev val iMax 0 = sharedFrom prev val iMax iDup := by
  induction iDup with
  | zero => rfl
  | succ iDup ih =>
    rw [ih (fun j hj => hshared j (Nat.lt_succ_of_lt hj)) (Nat.le_of_succ_le hle), sharedFrom,
      if_pos ⟨hle, hshared iDup (Nat.lt_succ_self _)⟩]

theorem sharedSeeded_eq : sharedSeeded prev val iMax iDup = sharedFrom prev val iMax 0 := by
  rw [sharedSeeded]
  split
  · next hgt =>
    rw [sharedFrom_zero (fun j hj => hshared j (Nat.lt_trans hj hgt)) (Nat.le_refl iMax),
      sharedFrom, if_neg fun h => Nat.lt_irrefl _ h.1]
  · next hgt => exact (sharedFrom_zero hshared (Nat.le_of_not_lt hgt)).symm

theorem sharedFrom_shared : ∀ j < sharedFrom prev val iMax iDup, prev[j]? = val[j]? := by
  fun_induction sharedFrom prev val iMax iDup with
  | case1 iDup hstep ih =>
    refine ih fun j hj => ?_
    rcases Nat.lt_or_eq_of_le (Nat.lt_succ_iff.mp hj) with hlt | rfl
    · exact hshared j hlt
    · exact hstep.2
  | case2 iDup hstep => exact hshared

end

theorem shared_between {a b e : Bytes} (hab : a < b ∨ a = b) (hbc : b < e ∨ b = e)
    (hlength : b.length = e.length) {d : Nat} (hshared : ∀ j < d, a[j]? = e[j]?) :
    ∀ j < d, a[j]? = b[j]? := by
  induction d generalizing a b e with
  | zero => exact fun j hj => absurd hj (Nat.not_lt_zero j)
  | succ d ih =>
    rcases hab with hab | rfl
    · rcases hbc with hbc | rfl
      · cases a with
        | nil =>
          have hnil := hshared 0 (Nat.succ_pos d)
          obtain rfl : e = [] := by simpa using hnil.symm
          exact absurd hbc (not_lt_nil b)
        | cons x a =>
          cases e with
          | nil => exact absurd hbc (not_lt_nil b)
          | cons z e =>
            obtain ⟨y, b, rfl⟩ := exists_cons_of_length_pos
              (show 0 < b.length by rw [hlength]; exact Nat.succ_pos _)
            obtain rfl : x = z := by simpa using hshared 0 (Nat.succ_pos d)
            rw [cons_lt_cons_iff] at hab hbc
            obtain rfl : y = x := by
              rcases hab with hab | hab
              · rcases hbc with hbc | hbc
                · exact absurd (UInt8.lt_trans hab hbc) (UInt8.lt_irrefl x)
                · exact hbc.1
              · exact hab.1.symm
            have hrest := ih (Or.inl (hab.resolve_left (UInt8.lt_irrefl y)).2)
              (Or.inl (hbc.resolve_left (UInt8.lt_irrefl y)).2) (Nat.succ.inj hlength)
              (fun j hj => by simpa using hshared (j + 1) (Nat.succ_lt_succ hj))
            rintro (_ | j) hj
            · rfl
            · simpa using hrest j (Nat.lt_of_succ_lt_succ hj)
      · exact hshared
    · exact fun _ _ => rfl

theorem recount_append (tag : CdxTag) (prev : Option Bytes) (entries entries' : List Entry) :
    recount tag prev (entries ++ entries') =
      recount tag prev entries ++ recount tag (lastOf prev entries) entries' := by
  induction entries generalizing prev with
  | nil => rfl
  | cons e entries ih =>
    have hlast : lastOf (some e.1) entries = lastOf prev (e :: entries) := by
      cases hlast : entries.getLast? <;> simp [lastOf, getLast?_cons, hlast]
    rw [cons_append, recount, ih, hlast, recount, cons_append]

theorem recount_length (tag : CdxTag) (prev : Option Bytes) (entries : List Entry) :
    (recount tag prev entries).length = entries.length := by
  induction entries generalizing prev with
  | nil => rfl
  | cons e entries ih => rw [recount, length_cons, ih, length_cons]

theorem recount_getLast? (tag : CdxTag) (entries : List Entry) :
    (recount tag none entries).getLast?.map LeafKey.val = lastOf none entries := by
  rcases eq_nil_or_concat' entries with rfl | ⟨init, e, rfl⟩
  · rfl
  · rw [recount_append, recount, recount, getLast?_concat]
    simp [lastOf, counted]

theorem trailing_le (tag : CdxTag) (val : Bytes) : trailing tag val ≤ val.length := by
  have hle := ( takeWhile_prefix (p := (· = tag.bTrail)) (l := val.reverse)).length_le
  rwa [length_reverse] at hle

theorem CdxTag.uiLen_lt (tag : CdxTag) : tag.uiLen < 4096 :=
  (lt_two_pow_iff tag.uiLen 12).mpr (CdxLeafCodec.CdxTag.lenBits_le tag)

theorem dupOf_le (tag : CdxTag) (prev : Option Bytes) (val : Bytes) :
    dupOf tag prev val ≤ tag.uiLen - trailing tag val := by
  cases prev with
  | none => exact Nat.zero_le _
  | some prev => exact sharedFrom_le (Nat.zero_le _)

theorem counted_dup (prev : Option Bytes) (e : Entry) :
    (counted tag prev e).dup.toNat = dupOf tag prev e.1 := by
  have hle := dupOf_le tag prev e.1
  have hlen := CdxTag.uiLen_lt tag
  exact UInt16.toNat_ofNat_of_lt' (show _ < 65536 by omega)

theorem counted_trl (prev : Option Bytes) {e : Entry} (he : e.1.length = tag.uiLen) :
    (counted tag prev e).trl.toNat = trailing tag e.1 := by
  have hle := trailing_le tag e.1
  have hlen := CdxTag.uiLen_lt tag
  exact UInt16.toNat_ofNat_of_lt' (show _ < 65536 by omega)

theorem counted_with (prev prev' : Option Bytes) (e : Entry) :
    { counted tag prev e with dup := UInt16.ofNat (dupOf tag prev' e.1) } =
      counted tag prev' e :=
  rfl

theorem counted_space (prev : Option Bytes) {e : Entry} (he : e.1.length = tag.uiLen) :
    (leafSpace tag (counted tag prev e) : Int) =
      tag.uiLen - trailing tag e.1 - dupOf tag prev e.1 := by
  rw [leafSpace, counted_dup, counted_trl prev he]
  have hle := dupOf_le tag prev e.1
  have htrl := trailing_le tag e.1
  omega

def nextGain (tag : CdxTag) (prev prev' : Option Bytes) : List Entry → Int
  | [] => 0
  | next :: _ => dupOf tag prev next.1 - dupOf tag prev' next.1

theorem keySpace_recount (prev prev' : Option Bytes) {entries : List Entry}
    (hlength : ∀ e ∈ entries, e.1.length = tag.uiLen) :
    (keySpace tag (recount tag prev' entries) : Int) =
      keySpace tag (recount tag prev entries) + nextGain tag prev prev' entries := by
  cases entries with
  | nil => exact (Int.add_zero _).symm
  | cons next entries =>
    have hnext := hlength next mem_cons_self
    rw [recount, recount, keySpace_cons, keySpace_cons, Nat.cast_add, Nat.cast_add,
      counted_space prev hnext, counted_space prev' hnext, nextGain]
    ring

theorem splitNext_recount (val : Bytes) (prev : Option Bytes) {entries : List Entry}
    (hlength : ∀ e ∈ entries, e.1.length = tag.uiLen) :
    splitNext tag val (recount tag prev entries) =
      (recount tag (some val) entries, nextGain tag prev (some val) entries) := by
  cases entries with
  | nil => rfl
  | cons next entries =>
    rw [recount, splitNext, counted_trl prev (hlength next mem_cons_self), counted_dup]
    rfl

theorem joinNext_recount {before : List LeafKey} {prev : Option Bytes}
    (hbefore : before.getLast?.map LeafKey.val = prev) (removed : Entry) {entries : List Entry}
    (hlength : ∀ e ∈ entries, e.1.length = tag.uiLen) :
    joinNext tag before (counted tag prev removed) (recount tag (some removed.1) entries) =
      (recount tag prev entries, nextGain tag prev (some removed.1) entries) := by
  cases entries with
  | nil => rfl
  | cons next entries =>
    rw [recount, joinNext, counted_trl _ (hlength next mem_cons_self), counted_dup,
      counted_dup]
    cases hlast : before.getLast? with
    | none =>
      rw [hlast] at hbefore
      obtain rfl := hbefore
      rfl
    | some last =>
      rw [hlast] at hbefore
      obtain rfl := hbefore
      -- bytes that both counters cover are shared over the removed key
      have hseed : sharedSeeded last.val next.1 (tag.uiLen - trailing tag next.1)
          (min (dupOf tag (some removed.1) next.1) (dupOf tag (some last.val) removed.1)) =
            dupOf tag (some last.val) next.1 := by
        refine sharedSeeded_eq fun j hj => ?_
        have hcurr := sharedFrom_shared (fun j hj => absurd hj (Nat.not_lt_zero j)) j
          (Nat.lt_of_lt_of_le hj (Nat.min_le_right _ _))
        exact hcurr.trans (sharedFrom_shared (fun j hj => absurd hj (Nat.not_lt_zero j)) j
          (Nat.lt_of_lt_of_le hj (Nat.min_le_left _ _)))
      have hval : (counted tag (some removed.1) next).val = next.1 := rfl
      simp only [Option.map_some, hval, hseed]
      rfl

theorem Before.le {a b : Entry} (h : Before a b) : a.1 < b.1 ∨ a.1 = b.1 :=
  h.imp_right And.left

theorem addedDup (tag : CdxTag) {before : List LeafKey} {prev : Option Bytes}
    (hbefore : before.getLast?.map LeafKey.val = prev) {val : Bytes} {seed : Nat}
    (hseed : ∀ p, prev = some p → ∀ j < seed, p[j]? = val[j]?) (hnone : prev = none → seed = 0) :
    (match before.getLast? with
      | none => seed
      | some prev => sharedSeeded prev.val val (tag.uiLen - trailing tag val) seed) =
        dupOf tag prev val := by
  cases hlast : before.getLast? with
  | none =>
    rw [hlast] at hbefore
    obtain rfl := hbefore
    exact hnone rfl
  | some last =>
    rw [hlast] at hbefore
    obtain rfl := hbefore
    exact sharedSeeded_eq (hseed _ rfl)

theorem takeShort_eq (iFree iSpc : Int) (hlow : -2 ^ 15 ≤ iSpc) (hhigh : iSpc < 2 ^ 15)
    (hlow' : -2 ^ 15 ≤ iFree - iSpc) (hhigh' : iFree - iSpc < 2 ^ 15) :
    takeShort iFree iSpc = iFree - iSpc := by
  have hshort : ∀ x : Int, -2 ^ 15 ≤ x → x < 2 ^ 15 → x.bmod (2 ^ 16) = x := by
    simp only [Int.bmod]
    omega
  rw [takeShort, hshort iSpc hlow hhigh, hshort _ hlow' hhigh']

end Counters

section Main

variable {tag : CdxTag} {page : Page} {entries : List Entry}

theorem keySpace_insert (entries entries' : List Entry) {e : Entry}
    (he : e.1.length = tag.uiLen) (hlength : ∀ e ∈ entries', e.1.length = tag.uiLen) :
    (keySpace tag (recount tag none (entries ++ e :: entries')) : Int) =
      keySpace tag (recount tag none (entries ++ entries')) + tag.uiLen - trailing tag e.1 -
        dupOf tag (lastOf none entries) e.1 +
          nextGain tag (lastOf none entries) (some e.1) entries' := by
  rw [recount_append, recount_append, recount, keySpace_append, keySpace_append, keySpace_cons]
  push_cast
  rw [counted_space _ he, keySpace_recount (lastOf none entries) (some e.1) hlength]
  ring

theorem nextGain_bounds (tag : CdxTag) (prev prev' : Option Bytes) (entries : List Entry) :
    -4096 ≤ nextGain tag prev prev' entries ∧ nextGain tag prev prev' entries ≤ 4096 := by
  have hlen := CdxTag.uiLen_lt tag
  cases entries with
  | nil =>
    rw [nextGain]
    omega
  | cons next entries =>
    have hle := dupOf_le tag prev next.1
    have hle' := dupOf_le tag prev' next.1
    rw [nextGain]
    omega

theorem Exact.count_le (h : Exact tag page entries) (hroom : 0 ≤ page.iFree) :
    (entries.length : Int) * 3 ≤ 8192 ∧ page.iFree ≤ 8192 := by
  have hpage := CdxTag.head_le tag
  have hfree := h.iFree_eq
  have hwidth := Nat.mul_le_mul_left entries.length h.shaped.reqByte_ge
  omega

theorem recount_split (tag : CdxTag) (before after : List Entry) :
    (recount tag none (before ++ after)).take before.length = recount tag none before ∧
      (recount tag none (before ++ after)).drop before.length =
        recount tag (lastOf none before) after := by
  rw [recount_append, take_left' (recount_length tag none before),
    drop_left' (recount_length tag none before)]
  exact ⟨rfl, rfl⟩

theorem delKey_exact (h : Exact tag page entries) (hroom : 0 ≤ page.iFree) {iCurKey : Nat}
    (hcur : iCurKey < entries.length) :
    ∃ page' ret, cdxPageLeafDelKey tag page iCurKey = some (page', ret) ∧
      Exact tag page' (entries.eraseIdx iCurKey) ∧ (ret.split = true ↔ page'.iFree < 0) := by
  obtain ⟨removed, hremoved⟩ : ∃ e, entries[iCurKey] = e := ⟨_, rfl⟩
  generalize hbefore : entries.take iCurKey = before
  generalize hafter : entries.drop (iCurKey + 1) = after
  have hsplit : entries = before ++ removed :: after := by
    rw [← hbefore, ← hafter, ← hremoved, ← drop_eq_getElem_cons hcur, take_append_drop]
  have hcount : before.length = iCurKey := by
    rw [← hbefore, length_take_of_le (Nat.le_of_lt hcur)]
  subst hsplit
  subst hcount
  have hlength := h.length
  rw [forall_mem_append, forall_mem_cons] at hlength
  obtain ⟨htake, hdrop⟩ := recount_split tag before (removed :: after)
  have hget : (recount tag none (before ++ removed :: after))[before.length]? =
      some (counted tag (lastOf none before) removed) := by
    rw [← head?_drop, hdrop]
    rfl
  have hrest : (recount tag none (before ++ removed :: after)).drop (before.length + 1) =
      recount tag (some removed.1) after := by
    rw [← tail_drop, hdrop]
    rfl
  have hjoin := joinNext_recount (recount_getLast? tag before) removed hlength.2.2
  have hspace := keySpace_insert before after hlength.2.1 hlength.2.2
  have hgain := nextGain_bounds tag (lastOf none before) (some removed.1) after
  have hpage := h.count_le hroom
  have htrl := trailing_le tag removed.1
  have hdup := dupOf_le tag (lastOf none before) removed.1
  have hlen := CdxTag.uiLen_lt tag
  have hwidth := h.shaped.rnBits_eq
  have hwidth' := h.shaped.rnBits_lt
  have hbits := CdxLeafCodec.CdxTag.lenBits_le tag
  have hfree := h.iFree_eq
  rw [hspace] at hfree
  have hcalc := takeShort_eq page.iFree
    (-(page.reqByte + tag.uiLen - dupOf tag (lastOf none before) removed.1 -
      trailing tag removed.1 + nextGain tag (lastOf none before) (some removed.1) after))
    (by omega) (by omega) (by omega) (by omega)
  have herase : (before ++ removed :: after).eraseIdx before.length = before ++ after := by
    rw [eraseIdx_append_of_length_le (Nat.le_refl _), Nat.sub_self, eraseIdx_cons_zero]
  have hsub : (before ++ after).Sublist (before ++ removed :: after) :=
    Sublist.append_left (sublist_cons_self _ _) _
  have hcurKeys : before.length < page.iKeys := by rwa [h.iKeys_eq]
  rw [cdxPageLeafDelKey, h.buf, herase]
  simp only [h.leaf, hcurKeys, and_self, guard, if_true, Option.pure_def, Option.bind_eq_bind,
    Option.bind_some, hget, htake, hrest, hjoin, counted_dup, counted_trl _ hlength.2.1, hcalc]
  have hkeys : (before ++ removed :: after).length = (before ++ after).length + 1 := by
    rw [length_append, length_append, length_cons]
    rfl
  refine ⟨_, _, rfl, ?_, ?_⟩
  · exact
      { buf := congrArg some (recount_append tag none before after).symm
        leaf := h.leaf
        length := fun e he => h.length e (hsub.subset he)
        sorted := h.sorted.sublist hsub
        iKeys_eq := by rw [h.iKeys_eq, hkeys, Nat.add_sub_cancel]
        shaped := ⟨h.shaped.1, h.shaped.2, h.shaped.3, h.shaped.4, h.shaped.5, h.shaped.6,
          h.shaped.7, h.shaped.8, h.shaped.9⟩
        recs := fun e he => h.recs e (hsub.subset he)
        iFree_eq := by
          rw [hfree, hkeys]
          push_cast
          ring }
  · -- a page without keys has all of its space
    rw [decide_eq_true_iff, and_iff_right_iff_imp]
    intro hneg hzero
    rw [h.iKeys_eq, hkeys, Nat.add_sub_cancel] at hzero
    rw [eq_nil_of_length_eq_zero hzero, hkeys, hzero, recount, keySpace_nil] at hfree
    have hhead := (CdxTag.head_le tag).1
    omega

theorem fullKey_length (tag : CdxTag) (val : Bytes) : (fullKey tag val).length = tag.uiLen := by
  rw [fullKey, length_append, length_take, length_replicate]
  omega

theorem widen_shaped (hshaped : Shaped tag page) (keyRec : UInt32) (iKey : Nat) (iSpc : Int) :
    ∃ k, k ≤ 4 ∧ ∃ rnMask rnBits, widen keyRec.toNat iKey
        ⟨page.rnMask, page.rnBits, page.reqByte, iSpc⟩ =
          ⟨rnMask, rnBits, page.reqByte + k, iSpc + k * (iKey + 1)⟩ ∧
      keyRec.toNat ≤ rnMask ∧ page.rnMask ≤ rnMask ∧
      Shaped tag { page with rnMask, rnBits, reqByte := page.reqByte + k } := by
  obtain ⟨m, hm, hmin, hmask⟩ := hshaped.rnMask_eq
  have hrec := UInt32.toNat_lt keyRec
  by_cases hfits : keyRec.toNat ≤ page.rnMask
  · refine ⟨0, by omega, page.rnMask, page.rnBits, ?_, hfits, Nat.le_refl _, ?_⟩
    · rw [widen, if_neg (Nat.not_lt.mpr hfits)]
      simp
    · exact ⟨hshaped.1, hshaped.2, hshaped.3, hshaped.4, hshaped.5, hshaped.6, hshaped.7,
        hshaped.8, hshaped.9⟩
  · -- a mask that does not hold the record has not been cut
    have hshort : m < 32 := by
      refine Nat.lt_of_not_le fun hle => ?_
      have hpow := Nat.pow_le_pow_right two_pos hle
      omega
    obtain rfl : m = page.rnBits := by omega
    obtain ⟨k, hwiden, hlt, hbits, -⟩ := widen_spec (by omega) iKey
      ⟨page.rnMask, page.rnBits, page.reqByte, iSpc⟩ hmask hshaped.rnBits_lt
    have hwidth := hshaped.rnBits_eq
    have hcounts := hshaped.bits_le
    have hreq := hshaped.reqByte_ge
    refine ⟨k, by omega, _, _, hwiden, by omega, by omega, ?_⟩
    exact
      { dcBits_eq := hshaped.dcBits_eq
        tcBits_eq := hshaped.tcBits_eq
        dcMask_eq := hshaped.dcMask_eq
        tcMask_eq := hshaped.tcMask_eq
        reqByte_ge := Nat.le_add_right_of_le hreq
        bits_le := by dsimp only; omega
        rnBits_eq := by dsimp only; omega
        rnBits_lt := hbits
        rnMask_eq := ⟨_, Nat.le_refl _, Nat.min_le_left _ _, rfl⟩ }

theorem insertIdx_middle (before after : List Entry) (e : Entry) :
    (before ++ after).insertIdx before.length e = before ++ e :: after := by
  induction before with
  | nil => exact insertIdx_zero
  | cons e' before ih => rw [cons_append, length_cons, insertIdx_succ_cons, ih]; rfl

theorem nextDup_shared {before after : List Entry} {e : Entry} (he : e.1.length = tag.uiLen)
    (hlength : ∀ e ∈ after, e.1.length = tag.uiLen)
    (hsorted : (before ++ e :: after).Pairwise Before) (fSortCDP : Bool) :
    let seed := match (recount tag (lastOf none before) after).head? with
      | some next => if fSortCDP then 0 else next.dup.toNat
      | none => 0
    (∀ p, lastOf none before = some p → ∀ j < seed, p[j]? = e.1[j]?) ∧
      (lastOf none before = none → seed = 0) := by
  cases after with
  | nil => exact ⟨fun p _ j hj => absurd hj (Nat.not_lt_zero j), fun _ => rfl⟩
  | cons next after =>
    simp only [recount, head?_cons, counted_dup]
    cases fSortCDP with
    | true => exact ⟨fun p _ j hj => absurd hj (Nat.not_lt_zero j), fun _ => rfl⟩
    | false =>
      refine ⟨fun p hp => ?_, fun hnone => by rw [hnone]; rfl⟩
      rw [hp]
      rcases eq_nil_or_concat' before with rfl | ⟨init, last, rfl⟩
      · exact absurd hp nofun
      · obtain rfl : last.1 = p := by simpa [lastOf] using hp
        have hafter := pairwise_append.mp hsorted
        have hprev := (hafter.2.2 last (by simp) e mem_cons_self).le
        have hnext := ((pairwise_cons.mp hafter.2.1).1 next mem_cons_self).le
        exact shared_between hprev hnext (he.trans (hlength next mem_cons_self).symm)
          (sharedFrom_shared fun j hj => absurd hj (Nat.not_lt_zero j))

theorem addKey_exact (h : Exact tag page entries) (hroom : 0 ≤ page.iFree) (fSortCDP : Bool)
    {iCurKey : Nat} (hcur : iCurKey ≤ entries.length) (keyVal : Bytes) (keyRec : UInt32)
    (hsorted : (entries.insertIdx iCurKey (fullKey tag keyVal, keyRec)).Pairwise Before) :
    ∃ page' ret, cdxPageLeafAddKey tag fSortCDP page iCurKey keyVal keyRec = some (page', ret) ∧
      Exact tag page' (entries.insertIdx iCurKey (fullKey tag keyVal, keyRec)) ∧
        (ret.split = true ↔ page'.iFree < 0) := by
  generalize hval : fullKey tag keyVal = val at hsorted ⊢
  have hvalLength : val.length = tag.uiLen := by rw [← hval, fullKey_length]
  generalize hbefore : entries.take iCurKey = before
  generalize hafter : entries.drop iCurKey = after
  have hsplit : entries = before ++ after := by rw [← hbefore, ← hafter, take_append_drop]
  have hcount : before.length = iCurKey := by rw [← hbefore, length_take_of_le hcur]
  subst hsplit
  subst hcount
  have hinsert : (before ++ after).insertIdx before.length (val, keyRec) =
      before ++ (val, keyRec) :: after := insertIdx_middle before after _
  rw [hinsert] at hsorted ⊢
  have hlength := h.length
  rw [forall_mem_append] at hlength
  obtain ⟨htake, hdrop⟩ := recount_split tag before after
  have hnext : (recount tag none (before ++ after))[before.length]? =
      (recount tag (lastOf none before) after).head? := by rw [← head?_drop, hdrop]
  have hsplitNext := splitNext_recount val (lastOf none before) hlength.2
  have hspace := keySpace_insert before after (show (val, keyRec).1.length = _ from hvalLength)
    hlength.2
  have hgain := nextGain_bounds tag (lastOf none before) (some val) after
  have hpage := h.count_le hroom
  have htrl := trailing_le tag val
  have hdup := dupOf_le tag (lastOf none before) val
  have hlen := CdxTag.uiLen_lt tag
  have hwidth := h.shaped.rnBits_eq
  have hwidth' := h.shaped.rnBits_lt
  have hbits := CdxLeafCodec.CdxTag.lenBits_le tag
  have hfree := h.iFree_eq
  obtain ⟨hseed, hnone⟩ := nextDup_shared hvalLength hlength.2 hsorted fSortCDP
  have hadded := addedDup tag (recount_getLast? tag before) hseed hnone
  obtain ⟨k, hk, rnMask, rnBits, hwiden, hrec, hmask, hshaped⟩ :=
    widen_shaped h.shaped keyRec page.iKeys (page.reqByte + tag.uiLen - trailing tag val -
      dupOf tag (lastOf none before) val + nextGain tag (lastOf none before) (some val) after)
  have hwider : k * (page.iKeys + 1) ≤ 4 * (page.iKeys + 1) := Nat.mul_le_mul_right _ hk
  have hnonneg : (0 : Int) ≤ k * (page.iKeys + 1) := by positivity
  have hcount := h.iKeys_eq
  have hcalc := takeShort_eq page.iFree (page.reqByte + tag.uiLen - trailing tag val -
    dupOf tag (lastOf none before) val + nextGain tag (lastOf none before) (some val) after +
      k * (page.iKeys + 1)) (by zify at hwider; omega) (by zify at hwider; omega)
        (by zify at hwider; omega) (by zify at hwider; omega)
  have hcurKeys : before.length ≤ page.iKeys := by rwa [h.iKeys_eq]
  rw [cdxPageLeafAddKey, h.buf]
  simp only [h.leaf, hcurKeys, and_self, guard, if_true, Option.pure_def, Option.bind_eq_bind,
    Option.bind_some, hval, hnext, htake, hdrop, hsplitNext, hadded, hwiden]
  have hkeys : (before ++ (val, keyRec) :: after).length = (before ++ after).length + 1 := by
    rw [length_append, length_append, length_cons]
    rfl
  refine ⟨_, _, rfl, ?_, ?_⟩
  · exact
      { buf := by
          rw [recount_append, recount, ← counted_with none (lastOf none before) (val, keyRec)]
          rfl
        leaf := h.leaf
        length := by
          rw [forall_mem_append, forall_mem_cons]
          exact ⟨hlength.1, hvalLength, hlength.2⟩
        sorted := hsorted
        iKeys_eq := by rw [h.iKeys_eq, hkeys]
        shaped := ⟨hshaped.1, hshaped.2, hshaped.3, hshaped.4, hshaped.5, hshaped.6, hshaped.7,
          hshaped.8, hshaped.9⟩
        recs := by
          have hrecs := fun e he => Nat.le_trans (h.recs e he) hmask
          rw [forall_mem_append] at hrecs ⊢
          rw [forall_mem_cons]
          exact ⟨hrecs.1, hrec, hrecs.2⟩
        iFree_eq := by
          rw [hcalc, hfree, hkeys, hspace, h.iKeys_eq]
          push_cast
          ring }
  · exact decide_eq_true_iff

/-- Both edits of a leaf keep its accounting exact. -/
theorem cdxPageLeaf_edits (h : Exact tag page entries) (hroom : 0 ≤ page.iFree) :
    (∀ (fSortCDP : Bool) (iCurKey : Nat) (keyVal : Bytes) (keyRec : UInt32),
      iCurKey ≤ entries.length →
      (entries.insertIdx iCurKey (fullKey tag keyVal, keyRec)).Pairwise Before →
      ∃ page' ret, cdxPageLeafAddKey tag fSortCDP page iCurKey keyVal keyRec = some (page', ret) ∧
        Exact tag page' (entries.insertIdx iCurKey (fullKey tag keyVal, keyRec)) ∧
          (ret.split = true ↔ page'.iFree < 0)) ∧
    ∀ iCurKey < entries.length,
      ∃ page' ret, cdxPageLeafDelKey tag page iCurKey = some (page', ret) ∧
        Exact tag page' (entries.eraseIdx iCurKey) ∧ (ret.split = true ↔ page'.iFree < 0) :=
  ⟨fun fSortCDP _ keyVal keyRec hle hsorted =>
    addKey_exact h hroom fSortCDP hle keyVal keyRec hsorted, fun _ hlt => delKey_exact h hroom hlt⟩

end Main

def emptyLeaf : Page := { cdxPageLeafInitSpace sampleTag sampleLeaf with pKeyBuf := some [] }

theorem emptyLeaf_exact : Exact sampleTag emptyLeaf [] := by
  have hshaped := (counted_init sampleLeaf (CdxTag.head_le sampleTag).1).shaped
  exact
    { buf := rfl
      leaf := rfl
      length := nofun
      sorted := List.Pairwise.nil
      iKeys_eq := rfl
      shaped := ⟨hshaped.1, hshaped.2, hshaped.3, hshaped.4, hshaped.5, hshaped.6, hshaped.7,
        hshaped.8, hshaped.9⟩
      recs := nofun
      iFree_eq := by simp [emptyLeaf, cdxPageLeafInitSpace, recount] }

instance (a b : Entry) : Decidable (Before a b) :=
  inferInstanceAs (Decidable (a.1 < b.1 ∨ a.1 = b.1 ∧ a.2 < b.2))

def addedPage (page : Page) (iCurKey : Nat) (keyVal : Bytes) (keyRec : UInt32) : Page :=
  ((cdxPageLeafAddKey sampleTag false page iCurKey keyVal keyRec).map Prod.fst).getD page

theorem addedPage_exact {page : Page} {entries : List Entry} (h : Exact sampleTag page entries)
    (hroom : 0 ≤ page.iFree) {iCurKey : Nat} {keyVal : Bytes} {keyRec : UInt32}
    (hle : iCurKey ≤ entries.length)
    (hsorted : (entries.insertIdx iCurKey (fullKey sampleTag keyVal, keyRec)).Pairwise Before) :
    Exact sampleTag (addedPage page iCurKey keyVal keyRec)
      (entries.insertIdx iCurKey (fullKey sampleTag keyVal, keyRec)) := by
  obtain ⟨page', ret, hadd, hexact, -⟩ := addKey_exact h hroom false hle keyVal keyRec hsorted
  rw [addedPage, hadd]
  exact hexact

/-- Two records with one key, and a third one behind them. -/
def filledLeaf : Page :=
  addedPage (addedPage (addedPage emptyLeaf 0 [0x61] 5) 1 [0x61, 0x62, 0x64] 9) 1 [0x61] 7

theorem filledLeaf_exact : Exact sampleTag filledLeaf
    [([0x61, 0x20, 0x20], 5), ([0x61, 0x20, 0x20], 7), ([0x61, 0x62, 0x64], 9)] :=
  addedPage_exact (addedPage_exact (addedPage_exact emptyLeaf_exact (by decide) (Nat.le_refl 0)
    (by decide)) (by decide +kernel) (Nat.le_refl 1) (by decide)) (by decide +kernel)
    (Nat.le_succ 1) (by decide)

/-- The records of the keys with their counters of shared and of trailing bytes. -/
def counters (page : Page) : Option (List (UInt32 × UInt16 × UInt16)) :=
  page.pKeyBuf.map fun keys => keys.map fun key => (key.recNo, key.dup, key.trl)

/-- A key between two others whose record makes every entry wider, and the first key removed. -/
theorem cdxPageLeaf_edits_between :
    (∃ page ret, cdxPageLeafAddKey sampleTag false filledLeaf 2 [0x61, 0x62, 0x63] 0x100000 =
        some (page, ret) ∧
      Exact sampleTag page [([0x61, 0x20, 0x20], 5), ([0x61, 0x20, 0x20], 7),
        ([0x61, 0x62, 0x63], 0x100000), ([0x61, 0x62, 0x64], 9)] ∧
      counters page = some [(5, 0, 2), (7, 1, 2), (0x100000, 1, 0), (9, 2, 0)] ∧
      (filledLeaf.reqByte, page.reqByte) = (3, 4) ∧ ret.split = false) ∧
    ∃ page ret, cdxPageLeafDelKey sampleTag filledLeaf 0 = some (page, ret) ∧
      Exact sampleTag page [([0x61, 0x20, 0x20], 7), ([0x61, 0x62, 0x64], 9)] ∧
      counters page = some [(7, 0, 2), (9, 1, 0)] := by
  obtain ⟨hadd, hdel⟩ := cdxPageLeaf_edits filledLeaf_exact (by decide +kernel)
  obtain ⟨page, ret, hpage, hexact, -⟩ := hadd false 2 [0x61, 0x62, 0x63] 0x100000 (by decide)
    (by decide)
  obtain ⟨page', ret', hpage', hexact', -⟩ := hdel 0 (by decide)
  have hcounters : (cdxPageLeafAddKey sampleTag false filledLeaf 2 [0x61, 0x62, 0x63] 0x100000).map
      (fun (page, ret) => (counters page, (filledLeaf.reqByte, page.reqByte), ret.split)) =
      some (some [(5, 0, 2), (7, 1, 2), (0x100000, 1, 0), (9, 2, 0)], (3, 4), false) := by
    decide +kernel
  have hcounters' : (cdxPageLeafDelKey sampleTag filledLeaf 0).map
      (fun (page, _) => counters page) = some (some [(7, 0, 2), (9, 1, 0)]) := by
    decide +kernel
  rw [hpage, Option.map_some, Option.some.injEq, Prod.mk.injEq, Prod.mk.injEq] at hcounters
  rw [hpage', Option.map_some, Option.some.injEq] at hcounters'
  exact ⟨⟨page, ret, hpage, hexact, hcounters⟩, page', ret', hpage', hexact', hcounters'⟩

end Harbour.Rdd.CdxLeafEdit
