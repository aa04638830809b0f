import Harbour.Common.CharClass
import Harbour.Rdd.HsxFile

/-!
A search in a HiPer-SEEK index finds every text that the comparison would accept.
-/

namespace Harbour.Rdd.HsxSearch

open Common.CharClass Library.BitSignature HsxKey HsxFile List

section Records

variable {p : HsxInfo} {upper : UInt8 → UInt8} {pStr : Bytes}

theorem hsxHashStr_cons (p : HsxInfo) (upper : UInt8 → UInt8) (pStr : Bytes) :
    ∃ first rest, hsxHashStr p upper pStr = first :: rest ∧ first &&& 0x80 = 0 := by
  have hlength := hsxHashStr_length p upper pStr
  have htop := hsxHashStr_unmarked p upper pStr
  have hsize := p.size
  cases hkey : hsxHashStr p upper pStr with
  | nil =>
    rw [hkey, length_nil] at hlength
    omega
  | cons first rest =>
    rw [hkey] at htop
    exact ⟨first, rest, rfl, htop⟩

theorem hsxRecord_isDeleted (fDeleted : Bool) :
    ((hsxRecord p upper pStr fDeleted).getD 0 0 &&& 0x80 != 0) = fDeleted := by
  obtain ⟨first, rest, hkey, htop⟩ := hsxHashStr_cons p upper pStr
  unfold hsxRecord
  rw [hkey]
  cases fDeleted with
  | true =>
    exact bne_iff_ne.mpr (or_top_ne first)
  | false =>
    change (first &&& 0x80 != 0) = false
    rw [htop]
    rfl

theorem hsxRecord_delete (fDeleted : Bool) :
    (hsxRecord p upper pStr fDeleted).modify 0 (· ||| 0x80) = hsxRecord p upper pStr true := by
  obtain ⟨first, rest, hkey, -⟩ := hsxHashStr_cons p upper pStr
  unfold hsxRecord
  rw [hkey]
  cases fDeleted with
  | true =>
    change ((first ||| 0x80) ||| 0x80) :: rest = (first ||| 0x80) :: rest
    rw [UInt8.or_assoc, UInt8.or_self]
  | false => rfl

theorem hsxRecord_unDelete (fDeleted : Bool) :
    (hsxRecord p upper pStr fDeleted).modify 0 (· &&& 0x7F) = hsxRecord p upper pStr false := by
  obtain ⟨first, rest, hkey, htop⟩ := hsxHashStr_cons p upper pStr
  have hrestored := or_top_and first htop
  unfold hsxRecord
  rw [hkey]
  cases fDeleted with
  | true =>
    change ((first ||| 0x80) &&& 0x7F) :: rest = first :: rest
    rw [hrestored]
  | false =>
    change (first &&& 0x7F) :: rest = first :: rest
    rw [← hrestored, UInt8.and_assoc, UInt8.and_self]

theorem map_modify {α β : Type} {g : α → β} {f : α → α} {f' : β → β} (h : ∀ a, g (f a) = f' (g a))
    (l : List α) (n : Nat) : (l.modify n f).map g = (l.map g).modify n f' := by
  induction l generalizing n with
  | nil => cases n <;> rfl
  | cons a l ih =>
    cases n with
    | zero => exact congrArg (· :: l.map g) (h a)
    | succ n =>
      rw [modify_succ_cons, map_cons, map_cons, modify_succ_cons, ih]

end Records

section Runs

/-- The operations on an index, with the text of the key expression. -/
inductive HsxOp where
  | add (pStr : Bytes) (fDeleted : Bool)
  | replace (ulRecord : Nat) (pStr : Bytes) (fDeleted : Bool)
  | delete (ulRecord : Nat)
  | unDelete (ulRecord : Nat)
  | seekSet (pStr : Bytes)
  | next (fSetDeleted : Bool)

variable (p : HsxInfo) (upper : UInt8 → UInt8)

def hsxStep (s : HsxState) : HsxOp → Option (Int × HsxState)
  | .add pStr fDeleted => some (hsxAdd p upper s pStr fDeleted)
  | .replace ulRecord pStr fDeleted => some (hsxReplace p upper s ulRecord pStr fDeleted)
  | .delete ulRecord => some (hsxDelete p s ulRecord)
  | .unDelete ulRecord => some (hsxUnDelete p s ulRecord)
  | .seekSet pStr => some (hsxSeekSet p upper s pStr)
  | .next fSetDeleted => (hsxNext p fSetDeleted s).map fun r => (r.1, r.2.2)

def HsxOp.store (entries : List (Bytes × Bool)) : HsxOp → List (Bytes × Bool)
  | .add pStr fDeleted => entries ++ [(pStr, fDeleted)]
  | .replace ulRecord pStr fDeleted => entries.modify (ulRecord - 1) fun _ => (pStr, fDeleted)
  | .delete ulRecord => entries.modify (ulRecord - 1) fun entry => (entry.1, true)
  | .unDelete ulRecord => entries.modify (ulRecord - 1) fun entry => (entry.1, false)
  | .seekSet _ => entries
  | .next _ => entries

/-- The states of an index that was created and used exclusively; an operation that fails changes
no text. -/
inductive Reaches : HsxState → List (Bytes × Bool) → Prop where
  | create (iBufSize : Int) (pBuffer : List Bytes)
      (hbuffer : pBuffer.length = hsxBufSize p iBufSize) :
      Reaches (hsxCreate p iBufSize pBuffer) []
  | step {s s' : HsxState} {entries : List (Bytes × Bool)} {iRetVal : Int} (op : HsxOp)
      (h : Reaches s entries) (hstep : hsxStep p upper s op = some (iRetVal, s')) :
      Reaches s' (if iRetVal = hsxSuccess then op.store entries else entries)

def records (entries : List (Bytes × Bool)) : List Bytes :=
  entries.map fun entry => hsxRecord p upper entry.1 entry.2

end Runs

section Steps

variable {p : HsxInfo} {upper : UInt8 → UInt8} {s s' : HsxState} {recs : List Bytes}
  {entries : List (Bytes × Bool)} {iRetVal : Int} {r : Nat}

theorem hsxBufSize_pos (p : HsxInfo) (iBufSize : Int) : 0 < hsxBufSize p iBufSize := by
  have hpos (n : Nat) : 0 < if n = 0 then 1 else n := by
    split <;> omega
  exact hpos _

theorem hsxCreate_holds (iBufSize : Int) {pBuffer : List Bytes}
    (hbuffer : pBuffer.length = hsxBufSize p iBufSize) :
    Holds p (hsxCreate p iBufSize pBuffer) [] where
  count := rfl
  room := hsxBufSize_pos p iBufSize
  buffer := hbuffer
  full := Nat.zero_le _
  inside := fun hfirst => absurd rfl hfirst
  window := fun hfirst => absurd rfl hfirst
  written := fun hfirst => absurd rfl hfirst
  saved := fun _ => rfl
  pending := fun hchanged => nomatch hchanged

theorem records_length : (records p upper entries).length = entries.length := length_map _

section

variable (h : Holds p s (records p upper entries))

include h

theorem hsxAdd_holds (pStr : Bytes) (fDeleted : Bool) : Holds p (hsxAdd p upper s pStr fDeleted).2
      (records p upper (entries ++ [(pStr, fDeleted)])) := by
  rw [records, map_append]
  exact h.append

theorem hsxReplace_holds (r : Nat) (pStr : Bytes) (fDeleted : Bool)
    (hstep : hsxReplace p upper s r pStr fDeleted = (iRetVal, s')) :
    Holds p s' (records p upper (if iRetVal = hsxSuccess then
      HsxOp.store entries (.replace r pStr fDeleted) else entries)) := by
  have hcount := h.count
  rw [records_length] at hcount
  unfold hsxReplace at hstep
  by_cases hbound : r = 0 ∨ s.ulRecCount < r
  · have hupdate : hsxUpdate p s r = (hsxRecBound, 0, s) := if_pos hbound
    rw [hupdate] at hstep
    cases hstep
    exact h
  · have hr : r ≠ 0 := by omega
    have hle : r ≤ (records p upper entries).length := by
      rw [records_length]
      omega
    obtain ⟨nPos, s₁, hupdate, hholds⟩ := h.update (hsxRecord p upper pStr fDeleted) hr hle
    rw [hupdate] at hstep
    cases hstep
    have hrecords : records p upper (entries.modify (r - 1) fun _ => (pStr, fDeleted)) =
        (records p upper entries).modify (r - 1) fun _ => hsxRecord p upper pStr fDeleted := by
      apply map_modify
      exact fun _ => rfl
    rw [if_pos rfl, HsxOp.store, hrecords]
    exact hholds

theorem changeMark_holds {f : Bytes → Bytes} {fMark : Bool} (r : Nat)
    (hmark : ∀ pStr fDeleted, f (hsxRecord p upper pStr fDeleted) = hsxRecord p upper pStr fMark) :
    hsxRead p s r = (hsxRecBound, 0, s) ∨
    ∃ s₁, hsxRead p s r = (hsxSuccess, r - s₁.ulFirstRec, s₁) ∧
      Holds p s₁ (records p upper entries) ∧
      Holds p (s₁.change (r - s₁.ulFirstRec) f)
        (records p upper (entries.modify (r - 1) fun entry => (entry.1, fMark))) := by
  have hcount := h.count
  rw [records_length] at hcount
  by_cases hbound : r = 0 ∨ s.ulRecCount < r
  · exact .inl (hsxRead_bound hbound)
  · right
    have hr : r ≠ 0 := by omega
    have hle : r ≤ entries.length := by omega
    obtain ⟨s₁, hread, hholds, hin, -⟩ := h.read hr (by rw [records_length]; exact hle)
    refine ⟨s₁, hread, hholds, ?_⟩
    have hchanged := hholds.change hin f
    have hrecords : records p upper (entries.modify (r - 1) fun entry => (entry.1, fMark)) =
        (records p upper entries).modify (r - 1) f :=
      map_modify (fun entry => (hmark entry.1 entry.2).symm) entries (r - 1)
    rw [hrecords]
    exact hchanged

theorem hsxDelete_holds (r : Nat) (hstep : hsxDelete p s r = (iRetVal, s')) :
    Holds p s' (records p upper (if iRetVal = hsxSuccess then
      HsxOp.store entries (.delete r) else entries)) := by
  unfold hsxDelete at hstep
  rcases changeMark_holds h r fun _ => hsxRecord_delete with
    hbound | ⟨s₁, hread, hholds, hchanged⟩
  · rw [hbound] at hstep
    cases hstep
    exact h
  · rw [hread] at hstep
    rw [if_pos rfl] at hstep
    split at hstep
    · cases hstep
      exact hholds
    · cases hstep
      exact hchanged

theorem hsxUnDelete_holds (r : Nat) (hstep : hsxUnDelete p s r = (iRetVal, s')) :
    Holds p s' (records p upper (if iRetVal = hsxSuccess then
      HsxOp.store entries (.unDelete r) else entries)) := by
  unfold hsxUnDelete at hstep
  rcases changeMark_holds h r fun _ => hsxRecord_unDelete with
    hbound | ⟨s₁, hread, hholds, hchanged⟩
  · rw [hbound] at hstep
    cases hstep
    exact h
  · rw [hread] at hstep
    rw [if_pos rfl] at hstep
    split at hstep
    · cases hstep
      exact hchanged
    · cases hstep
      exact hholds

end

theorem hsxSeekSet_holds (h : Holds p s recs) (pStr : Bytes) :
    Holds p (hsxSeekSet p upper s pStr).2 recs := by
  unfold hsxSeekSet
  dsimp only
  split
  · exact h.flush
  · exact h.flush.setSearch _ _ _

theorem hsxNextLoop_holds {fSetDeleted : Bool} {n : Nat} (h : Holds p s recs)
    (hn : s.ulCurrRec + n = recs.length)
    (hstep : hsxNextLoop p fSetDeleted n s = some (iRetVal, r, s')) : Holds p s' recs := by
  induction n generalizing s with
  | zero =>
    cases hstep
    exact h
  | succ n ih =>
    have hmoved := h.setSearch s.pSearchVal s.pSearchKey (s.ulCurrRec + 1)
    obtain ⟨s₁, hread, hholds, -, hsearch⟩ :=
      hmoved.read (Nat.succ_ne_zero s.ulCurrRec) (by omega)
    have hcurr : s₁.ulCurrRec = s.ulCurrRec + 1 := congrArg (fun q => q.2.2) hsearch
    rw [hsxNextLoop, hread] at hstep
    rw [if_pos rfl] at hstep
    split_ifs at hstep
    · split at hstep
      · cases hstep
      · split_ifs at hstep
        · cases hstep
          exact hholds
        · exact ih hholds (by omega) hstep
    · exact ih hholds (by omega) hstep

theorem hsxStep_holds (ih : Holds p s (records p upper entries)) (op : HsxOp)
    (hstep : hsxStep p upper s op = some (iRetVal, s')) :
    Holds p s' (records p upper (if iRetVal = hsxSuccess then op.store entries else entries)) := by
  cases op with
  | add pStr fDeleted =>
    cases hstep
    exact hsxAdd_holds ih pStr fDeleted
  | replace ulRecord pStr fDeleted =>
    exact hsxReplace_holds ih ulRecord pStr fDeleted (Option.some.inj hstep)
  | delete ulRecord => exact hsxDelete_holds ih ulRecord (Option.some.inj hstep)
  | unDelete ulRecord => exact hsxUnDelete_holds ih ulRecord (Option.some.inj hstep)
  | seekSet pStr =>
    have hholds : Holds p (hsxSeekSet p upper s pStr).2 (records p upper entries) :=
      hsxSeekSet_holds ih pStr
    rw [Option.some.inj hstep] at hholds
    rw [HsxOp.store, ite_self]
    exact hholds
  | next fSetDeleted =>
    obtain ⟨⟨iRet, r, s₁⟩, hnext, heq⟩ := Option.map_eq_some_iff.mp hstep
    cases heq
    rw [HsxOp.store, ite_self]
    by_cases hend : s.ulCurrRec ≤ s.ulRecCount
    · have hcount := ih.count
      exact hsxNextLoop_holds ih (by omega) hnext
    · rw [hsxNext, Nat.sub_eq_zero_of_le (Nat.le_of_not_le hend)] at hnext
      cases hnext
      exact ih

theorem Reaches.holds (h : Reaches p upper s entries) : Holds p s (records p upper entries) := by
  induction h with
  | create iBufSize pBuffer hbuffer => exact hsxCreate_holds iBufSize hbuffer
  | step op _ hstep ih => exact hsxStep_holds ih op hstep

end Steps

section Searches

variable {p : HsxInfo} {upper : UInt8 → UInt8} {s : HsxState} {recs : List Bytes}
  {entries : List (Bytes × Bool)} {pKey : Bytes} {fSetDeleted : Bool} {n : Nat}

def hit (p : HsxInfo) (fSetDeleted : Bool) (pKey : Bytes) (recs : List Bytes) (i : Nat) : Bool :=
  (fSetDeleted = false ∨ ((recs.getD i []).getD 0 0 &&& 0x80 != 0) = false) &&
    hsxMatches p pKey (recs.getD i [])

/-- The numbers of the records at which a search stops, from a position on. -/
def hits (p : HsxInfo) (fSetDeleted : Bool) (pKey : Bytes) (recs : List Bytes) (i : Nat) :
    List Nat :=
  ((range' i (recs.length - i)).filter (hit p fSetDeleted pKey recs)).map (· + 1)

theorem hits_end {i : Nat} (h : recs.length ≤ i) : hits p fSetDeleted pKey recs i = [] := by
  rw [hits, Nat.sub_eq_zero_of_le h]
  rfl

theorem hits_step {i : Nat} (h : i < recs.length) : hits p fSetDeleted pKey recs i =
    if hit p fSetDeleted pKey recs i then (i + 1) :: hits p fSetDeleted pKey recs (i + 1)
    else hits p fSetDeleted pKey recs (i + 1) := by
  have hlength : recs.length - i = recs.length - (i + 1) + 1 := by omega
  rw [hits, hlength, range'_succ, filter_cons]
  split <;> rfl

theorem hsxNextLoop_hits (h : Holds p s recs) (hkey : s.pSearchKey = some pKey)
    (hn : s.ulCurrRec + n = recs.length) :
    ∃ s', hsxNextLoop p fSetDeleted n s =
        some (hsxSuccess, (hits p fSetDeleted pKey recs s.ulCurrRec).headD 0, s') ∧
      Holds p s' recs ∧ s'.pSearchKey = some pKey ∧ s'.ulCurrRec ≤ recs.length ∧
      hits p fSetDeleted pKey recs s'.ulCurrRec =
        (hits p fSetDeleted pKey recs s.ulCurrRec).tail := by
  induction n generalizing s with
  | zero =>
    have hnil : hits p fSetDeleted pKey recs s.ulCurrRec = [] := hits_end (by omega)
    exact ⟨s, by rw [hnil]; rfl, h, hkey, by omega, by rw [hnil]; rfl⟩
  | succ n ih =>
    have hmoved := h.setSearch s.pSearchVal s.pSearchKey (s.ulCurrRec + 1)
    obtain ⟨s₁, hread, hholds, hin, hsearch⟩ :=
      hmoved.read (Nat.succ_ne_zero s.ulCurrRec) (by omega)
    have hcurr : s₁.ulCurrRec = s.ulCurrRec + 1 := congrArg (fun q => q.2.2) hsearch
    have hsame : s₁.pSearchKey = some pKey := (congrArg (fun q => q.2.1) hsearch).trans hkey
    have hrecord : s₁.pBuffer.getD (s.ulCurrRec + 1 - s₁.ulFirstRec) [] =
        recs.getD s.ulCurrRec [] := by
      rw [getD_eq_getElem?_getD, hholds.buffer_get hin, getD_eq_getElem?_getD]
      rfl
    have hlt : s.ulCurrRec < recs.length := by omega
    have hstep : hits p fSetDeleted pKey recs s.ulCurrRec = _ := hits_step hlt
    obtain ⟨s₂, hrest, hheld, hkept, hle, htail⟩ := ih hholds hsame (by omega)
    rw [hcurr] at hrest htail
    rw [hsxNextLoop, hread, hstep]
    rw [if_pos rfl, hsame]
    unfold HsxState.isDeleted
    rw [hrecord]
    dsimp only
    by_cases hseen : fSetDeleted = false ∨
        ((recs.getD s.ulCurrRec []).getD 0 0 &&& 0x80 != 0) = false
    · rw [if_pos hseen]
      cases hmatches : hsxMatches p pKey (recs.getD s.ulCurrRec []) with
      | true =>
        have hhit : hit p fSetDeleted pKey recs s.ulCurrRec = true := by
          rw [hit, hmatches, Bool.and_true]
          exact decide_eq_true hseen
        rw [hhit, if_pos rfl, if_pos rfl]
        exact ⟨s₁, by rw [hcurr]; rfl, hholds, hsame, by omega, by rw [hcurr]; rfl⟩
      | false =>
        have hhit : hit p fSetDeleted pKey recs s.ulCurrRec = false := by
          rw [hit, hmatches, Bool.and_false]
        rw [hhit, if_neg Bool.false_ne_true, if_neg Bool.false_ne_true]
        exact ⟨s₂, hrest, hheld, hkept, hle, htail⟩
    · have hhit : hit p fSetDeleted pKey recs s.ulCurrRec = false := by
        rw [hit, decide_eq_false hseen, Bool.false_and]
      rw [if_neg hseen, hhit, if_neg Bool.false_ne_true]
      exact ⟨s₂, hrest, hheld, hkept, hle, htail⟩

def hsxNexts (p : HsxInfo) (fSetDeleted : Bool) : Nat → HsxState → Option (List Nat × HsxState)
  | 0, s => some ([], s)
  | n + 1, s =>
    match hsxNext p fSetDeleted s with
    | none => none
    | some r =>
      if r.1 = hsxSuccess then
        (hsxNexts p fSetDeleted n r.2.2).map fun q => (r.2.1 :: q.1, q.2)
      else none

theorem hsxNexts_hits (h : Holds p s recs) (hkey : s.pSearchKey = some pKey)
    (hle : s.ulCurrRec ≤ recs.length) :
    ∃ s', hsxNexts p fSetDeleted n s = some ((range n).map fun k =>
      (hits p fSetDeleted pKey recs s.ulCurrRec).getD k 0, s') := by
  induction n generalizing s with
  | zero => exact ⟨s, rfl⟩
  | succ n ih =>
    have hcount := h.count
    have hleft : s.ulCurrRec + (s.ulRecCount - s.ulCurrRec) = recs.length := by omega
    obtain ⟨s₁, hnext, hholds, hsame, hle', htail⟩ := hsxNextLoop_hits h hkey hleft
    obtain ⟨s₂, hrest⟩ := ih hholds hsame hle'
    refine ⟨s₂, ?_⟩
    rw [hsxNexts, hsxNext, hnext]
    dsimp only
    rw [if_pos rfl, hrest, htail, range_succ_eq_map, map_cons, map_map]
    cases hits p fSetDeleted pKey recs s.ulCurrRec with
    | nil => rfl
    | cons first rest => rfl

theorem hsxNexts_empty (hcount : s.ulRecCount = 0) :
    hsxNexts p fSetDeleted n s = some ((range n).map fun _ => 0, s) := by
  induction n with
  | zero => rfl
  | succ n ih =>
    have hnext : hsxNext p fSetDeleted s = some (hsxSuccess, 0, s) := by
      rw [hsxNext, hcount, Nat.zero_sub]
      rfl
    rw [hsxNexts, hnext]
    dsimp only
    rw [if_pos rfl, ih, range_succ_eq_map, map_cons, map_map]
    rfl

theorem hits_sorted (p : HsxInfo) (fSetDeleted : Bool) (pKey : Bytes) (recs : List Bytes)
    (i : Nat) : (hits p fSetDeleted pKey recs i).Pairwise (· < ·) := by
  rw [hits, pairwise_map]
  have hrange : (range' i (recs.length - i)).Pairwise (· < ·) := pairwise_lt_range'
  exact (hrange.filter _).imp fun hlt => Nat.succ_lt_succ hlt

theorem mem_hits {r : Nat} : r ∈ hits p fSetDeleted pKey recs 0 ↔
    ∃ i, i < recs.length ∧ hit p fSetDeleted pKey recs i = true ∧ i + 1 = r := by
  rw [hits, mem_map]
  simp only [mem_filter, mem_range'_1, Nat.sub_zero, Nat.zero_le, true_and, Nat.zero_add,
    and_assoc]

theorem hit_of_verify (hblank : upper 32 = 32) {i : Nat} {szText szSub : Bytes} {iType : VerifyType}
    (hentry : entries[i]? = some (szText, false))
    (hverify : hsxVerify p upper szText szSub iType = true) :
    hit p fSetDeleted (hsxHashStr p upper szSub) (records p upper entries) i = true := by
  have hrecord : (records p upper entries).getD i [] = hsxRecord p upper szText false := by
    rw [getD_eq_getElem?_getD, records, getElem?_map, hentry]
    rfl
  have hcovers := hsxVerify_covers hblank iType hverify
  rw [hit, hrecord, hsxRecord_isDeleted, Bool.and_eq_true]
  refine ⟨decide_eq_true (.inr rfl), all_eq_true.mpr fun j _ => ?_⟩
  exact beq_iff_eq.mpr (hcovers j)

/-- A search returns every record whose last text the comparison accepts and which is not marked as
deleted, each once and in order, and then no record any more. -/
theorem hsx_misses_nothing (iKeySize iFilter : Int) (fIgnoreCase : Bool) (hblank : upper 32 = 32)
    (h : Reaches (hsxSettings iKeySize fIgnoreCase iFilter) upper s entries) (szSub : Bytes)
    (fSetDeleted : Bool) :
    (∀ pStr,
      (hsxHashStr (hsxSettings iKeySize fIgnoreCase iFilter) upper pStr).getD 0 0 &&& 0x80 = 0) ∧
    (∀ c1 c2, hsxHashVal (hsxSettings iKeySize fIgnoreCase iFilter) upper c1 c2 ≠ 0 →
      hsxHashVal (hsxSettings iKeySize fIgnoreCase iFilter) upper c1 c2 - 1 ≠ 0 ∧
      (hsxHashVal (hsxSettings iKeySize fIgnoreCase iFilter) upper c1 c2 - 1) / 8 <
        (hsxSettings iKeySize fIgnoreCase iFilter).uiRecordSize) ∧
    ∃ s', hsxSeekSet (hsxSettings iKeySize fIgnoreCase iFilter) upper s szSub =
        (if entries = [] then hsxNoRecs else hsxSuccess, s') ∧
      ∃ found : List Nat, found.Pairwise (· < ·) ∧ (∀ r ∈ found, 1 ≤ r ∧ r ≤ entries.length) ∧
        (∀ i szText iType, entries[i]? = some (szText, false) →
          hsxVerify (hsxSettings iKeySize fIgnoreCase iFilter) upper szText szSub iType = true →
          i + 1 ∈ found) ∧
        ∀ n, ∃ s'', hsxNexts (hsxSettings iKeySize fIgnoreCase iFilter) fSetDeleted n s' =
          some ((range n).map fun k => found.getD k 0, s'') := by
  generalize hsxSettings iKeySize fIgnoreCase iFilter = p at h ⊢
  have hholds := h.holds
  refine ⟨hsxHashStr_unmarked p upper, fun c1 c2 hne => ?_, ?_⟩
  · have hbounds := hsxHashVal_bounds p upper c1 c2
    omega
  · have hflushed := hholds.flush
    have hcount := hflushed.count
    rw [records_length] at hcount
    cases hentries : entries with
    | nil =>
      rw [hentries, length_nil] at hcount
      refine ⟨hsxFlush p s, ?_, [], List.Pairwise.nil, fun _ hmem => absurd hmem not_mem_nil,
        fun _ _ _ hget => (nomatch hget), fun n => ⟨_, hsxNexts_empty hcount⟩⟩
      exact if_pos hcount
    | cons entry rest =>
      have hne : (hsxFlush p s).ulRecCount ≠ 0 := by
        rw [hcount, hentries]
        exact Nat.succ_ne_zero _
      have hset := hflushed.setSearch (some szSub) (some (hsxHashStr p upper szSub)) 0
      refine ⟨_, if_neg hne, hits p fSetDeleted (hsxHashStr p upper szSub)
        (records p upper entries) 0, hits_sorted .., ?_, ?_,
        fun n => hsxNexts_hits hset rfl (Nat.zero_le _)⟩
      · intro r hr
        obtain ⟨i, hlt, -, rfl⟩ := mem_hits.mp hr
        rw [records_length, hentries] at hlt
        omega
      · intro i szText iType hentry hverify
        rw [← hentries] at hentry
        obtain ⟨hlt, -⟩ := List.getElem?_eq_some_iff.mp hentry
        refine mem_hits.mpr ⟨i, ?_, hit_of_verify hblank hentry hverify, rfl⟩
        rw [records_length]
        exact hlt

end Searches

def hsxAdds (p : HsxInfo) (upper : UInt8 → UInt8) (s : HsxState) (entries : List (Bytes × Bool)) :
    HsxState :=
  entries.foldl (fun s entry => (hsxAdd p upper s entry.1 entry.2).2) s

theorem Reaches.adds {p : HsxInfo} {upper : UInt8 → UInt8} {s : HsxState}
    {entries : List (Bytes × Bool)} (h : Reaches p upper s entries) (more : List (Bytes × Bool)) :
    Reaches p upper (hsxAdds p upper s more) (entries ++ more) := by
  induction more generalizing s entries with
  | nil => rwa [append_nil]
  | cons entry more ih =>
    have hstep := ih (h.step (.add entry.1 entry.2) rfl)
    rwa [if_pos rfl, HsxOp.store, append_assoc] at hstep

/-- The text `Ab C` in the records 3 and 17, and `xy` in 18 others. -/
def sampleTexts : List (Bytes × Bool) :=
  (range 20).map fun i => (if i % 14 = 2 then [0x41, 0x62, 0x20, 0x43] else [0x78, 0x79], false)

/-- An index for national characters, with a buffer of 16 records. -/
def sampleIndex : HsxState :=
  hsxAdds (hsxSettings 3 true 3) HB_TOUPPER
    (hsxCreate (hsxSettings 3 true 3) 1 (replicate 16 [])) sampleTexts

theorem sampleIndex_reaches : Reaches (hsxSettings 3 true 3) HB_TOUPPER sampleIndex sampleTexts :=
  (Reaches.create 1 (replicate 16 []) rfl).adds sampleTexts

theorem hsx_misses_nothing_sample :
    sampleIndex.ulFirstRec = 17 ∧
    ∃ (s' : HsxState) (found : List Nat),
      hsxSeekSet (hsxSettings 3 true 3) HB_TOUPPER sampleIndex [0x61, 0x62] = (hsxSuccess, s') ∧
      3 ∈ found ∧ 17 ∈ found ∧
      (∀ n, ∃ s'', hsxNexts (hsxSettings 3 true 3) true n s' =
        some ((range n).map fun k => found.getD k 0, s'')) ∧
      (hsxNexts (hsxSettings 3 true 3) true 3 s').map Prod.fst = some [3, 17, 0] := by
  obtain ⟨-, -, s', hset, found, -, -, hfound, hnexts⟩ :=
    hsx_misses_nothing 3 3 true rfl sampleIndex_reaches [0x61, 0x62] true
  refine ⟨by decide +kernel, s', found, hset, hfound 2 _ .verifyPhrase rfl (by decide),
    hfound 16 _ .verifyPhrase rfl (by decide), hnexts, ?_⟩
  obtain rfl := congrArg Prod.snd hset
  decide +kernel

end Harbour.Rdd.HsxSearch
