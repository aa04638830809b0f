import Mathlib.Data.Option.Defs
import Harbour.Rdd.HsxSearch

/-!
What a HiPer-SEEK index is after `hb_hsxAdd` or `hb_hsxReplace` whose key expression failed.
-/

namespace Harbour.Rdd.HsxFailed

open Common.CharClass Library.BitSignature HsxKey HsxFile HsxSearch List Option

section Model

variable (p : HsxInfo) (upper : UInt8 → UInt8)

inductive HsxCall where
  | add
  | replace (ulRecord : Nat)

/-- A call whose key expression fails: the record has been given its place in the buffer and
`hb_hsxEval` stores nothing there. There is none where the record has no place. -/
def hsxFails (s : HsxState) : HsxCall → Option HsxState
  | .add => some (hsxAppend p s).2
  | .replace ulRecord =>
    let r := hsxUpdate p s ulRecord
    if r.1 = hsxSuccess then some r.2.2 else none

def hsxRun (s : HsxState) : List HsxOp → Option HsxState
  | [] => some s
  | op :: ops => (hsxStep p upper s op).bind fun r => hsxRun r.2 ops

def seen (s : HsxState) (ulRecord : Nat) : Option Bytes :=
  let r := hsxRead p s ulRecord
  if r.1 = hsxSuccess then r.2.2.pBuffer[r.2.1]? else none

def hsxHeader (s : HsxState) : Nat × Nat × Nat × Bool × Nat × Bool :=
  (s.ulRecCount, p.uiRecordSize, p.uiRecordSize.log2, p.fIgnoreCase, p.iFilterType, p.fUseHash)

structure Unchanged (s s' : HsxState) : Prop where
  count : s'.ulRecCount = s.ulRecCount
  header : hsxHeader p s' = hsxHeader p s
  seen (ops : List HsxOp) (ulRecord : Nat) :
    (hsxRun p upper s' ops).map (seen p · ulRecord) = (hsxRun p upper s ops).map (seen p · ulRecord)
  flushed (ops : List HsxOp) : (hsxRun p upper s' ops).map (fun s => (hsxFlush p s).file) =
    (hsxRun p upper s ops).map fun s => (hsxFlush p s).file

/-- The window shows the record already, or the buffer starts with what is stored for it. -/
def InPlace (s : HsxState) (recs : List Bytes) : HsxCall → Prop
  | .add => False
  | .replace ulRecord => ¬ s.Outside ulRecord ∨ s.pBuffer[0]? = recs[ulRecord - 1]?

/-- The states of an index that is used exclusively, with the last text of each record and its
mark, where each call that failed found its record in place. -/
inductive Runs : HsxState → List (Bytes × Bool) → Prop where
  | create (iBufSize : Int) (pBuffer : List Bytes)
      (hbuffer : pBuffer.length = hsxBufSize p iBufSize) : Runs (hsxCreate p iBufSize pBuffer) []
  | step {s s' : HsxState} {entries : List (Bytes × Bool)} {iRetVal : Int} (op : HsxOp)
      (h : Runs s entries) (hstep : hsxStep p upper s op = some (iRetVal, s')) :
      Runs s' (if iRetVal = hsxSuccess then op.store entries else entries)
  | fails {s s' : HsxState} {entries : List (Bytes × Bool)} {call : HsxCall}
      (h : Runs s entries) (hfails : hsxFails p s call = some s')
      (hplace : InPlace s (records p upper entries) call) : Runs s' entries

end Model

section Alike

variable {p : HsxInfo} {upper : UInt8 → UInt8} {s s' : HsxState} {recs : List Bytes}

/-- Two states with the same records and the same search. -/
def Alike (p : HsxInfo) (s s' : HsxState) : Prop :=
  s.search = s'.search ∧ ∃ recs, Holds p s recs ∧ Holds p s' recs

theorem hsxFlush_search (s : HsxState) : (hsxFlush p s).search = s.search := by
  rw [hsxFlush]
  split <;> rfl

theorem hsxAppend_search (s : HsxState) : (hsxAppend p s).2.search = s.search := by
  rw [hsxAppend]
  split
  · exact hsxFlush_search s
  · rfl

theorem hsxUpdate_search (s : HsxState) (ulRecord : Nat) :
    (hsxUpdate p s ulRecord).2.2.search = s.search := by
  rw [hsxUpdate]
  split_ifs
  · rfl
  · exact hsxFlush_search s
  · rfl

theorem Alike.read (h : Alike p s s') (r : Nat) :
    hsxRead p s r = (hsxRecBound, 0, s) ∧ hsxRead p s' r = (hsxRecBound, 0, s') ∨
    ∃ s₁ s₁', hsxRead p s r = (hsxSuccess, r - s₁.ulFirstRec, s₁) ∧
      hsxRead p s' r = (hsxSuccess, r - s₁'.ulFirstRec, s₁') ∧ Alike p s₁ s₁' ∧
      s₁.pBuffer[r - s₁.ulFirstRec]? = s₁'.pBuffer[r - s₁'.ulFirstRec]? ∧
      ∀ f, Alike p (s₁.change (r - s₁.ulFirstRec) f) (s₁'.change (r - s₁'.ulFirstRec) f) := by
  obtain ⟨hsearch, recs, hs, hs'⟩ := h
  by_cases hbound : r = 0 ∨ recs.length < r
  · exact .inl ⟨hsxRead_bound (hs.count ▸ hbound), hsxRead_bound (hs'.count ▸ hbound)⟩
  · obtain ⟨s₁, hread, hholds, hin, hsame⟩ := hs.read (by omega) (by omega : r ≤ recs.length)
    obtain ⟨s₁', hread', hholds', hin', hsame'⟩ := hs'.read (by omega) (by omega : r ≤ recs.length)
    have hsearch₁ : s₁.search = s₁'.search := hsame.trans (hsearch.trans hsame'.symm)
    exact .inr ⟨s₁, s₁', hread, hread', ⟨hsearch₁, recs, hholds, hholds'⟩,
      (hholds.buffer_get hin).trans (hholds'.buffer_get hin').symm,
      fun f => ⟨hsearch₁, _, hholds.change hin f, hholds'.change hin' f⟩⟩

theorem getD_congr {nPos nPos' : Nat} (h : s.pBuffer[nPos]? = s'.pBuffer[nPos']?) :
    s.pBuffer.getD nPos [] = s'.pBuffer.getD nPos' [] := by
  rw [getD_eq_getElem?_getD, h, getD_eq_getElem?_getD]

theorem Alike.setSearch (h : Alike p s s') (pSearchVal pSearchKey : Option Bytes)
    (ulCurrRec : Nat) : Alike p { s with pSearchVal, pSearchKey, ulCurrRec }
      { s' with pSearchVal, pSearchKey, ulCurrRec } := by
  obtain ⟨-, recs, hs, hs'⟩ := h
  exact ⟨rfl, recs, hs.setSearch _ _ _, hs'.setSearch _ _ _⟩

/-- Two operations with the same result that leave states alike. -/
def Paired (p : HsxInfo) (a b : Int × HsxState) : Prop := a.1 = b.1 ∧ Alike p a.2 b.2

section

variable (h : Alike p s s')

include h

theorem Alike.replace (r : Nat) (pStr : Bytes) (fDeleted : Bool) :
    Paired p (hsxReplace p upper s r pStr fDeleted) (hsxReplace p upper s' r pStr fDeleted) := by
  obtain ⟨hsearch, recs, hs, hs'⟩ := h
  unfold hsxReplace
  by_cases hbound : r = 0 ∨ recs.length < r
  · have hupdate : hsxUpdate p s r = (hsxRecBound, 0, s) := if_pos (hs.count ▸ hbound)
    have hupdate' : hsxUpdate p s' r = (hsxRecBound, 0, s') := if_pos (hs'.count ▸ hbound)
    rw [hupdate, hupdate']
    exact ⟨rfl, hsearch, recs, hs, hs'⟩
  · have hkept := hsxUpdate_search (p := p) s r
    have hkept' := hsxUpdate_search (p := p) s' r
    obtain ⟨nPos, s₁, hupdate, hholds⟩ :=
      hs.update (hsxRecord p upper pStr fDeleted) (by omega) (by omega : r ≤ recs.length)
    obtain ⟨nPos', s₁', hupdate', hholds'⟩ :=
      hs'.update (hsxRecord p upper pStr fDeleted) (by omega) (by omega : r ≤ recs.length)
    rw [hupdate] at hkept
    rw [hupdate'] at hkept'
    rw [hupdate, hupdate']
    exact ⟨rfl, hkept.trans (hsearch.trans hkept'.symm), _, hholds, hholds'⟩

theorem Alike.onRecord (r : Nat) {g : Nat → HsxState → Int × HsxState}
    (hg : ∀ {s₁ s₁' : HsxState} {nPos nPos' : Nat},
      Alike p s₁ s₁' → s₁.isDeleted nPos = s₁'.isDeleted nPos' →
      (∀ f, Alike p (s₁.change nPos f) (s₁'.change nPos' f)) → Paired p (g nPos s₁) (g nPos' s₁')) :
    Paired p
      (if (hsxRead p s r).1 = hsxSuccess then g (hsxRead p s r).2.1 (hsxRead p s r).2.2
        else ((hsxRead p s r).1, (hsxRead p s r).2.2))
      (if (hsxRead p s' r).1 = hsxSuccess then g (hsxRead p s' r).2.1 (hsxRead p s' r).2.2
        else ((hsxRead p s' r).1, (hsxRead p s' r).2.2)) := by
  rcases h.read r with ⟨hread, hread'⟩ | ⟨s₁, s₁', hread, hread', hsame, hget, hchange⟩
  · rw [hread, hread']
    exact ⟨rfl, h⟩
  · rw [hread, hread']
    exact hg hsame (by rw [HsxState.isDeleted, HsxState.isDeleted, getD_congr hget]) hchange

theorem Alike.delete (r : Nat) : Paired p (hsxDelete p s r) (hsxDelete p s' r) := by
  refine h.onRecord r (g := fun nPos s => if s.isDeleted nPos then (hsxIsDeleted, s)
    else (hsxSuccess, s.change nPos _)) fun hsame hmark hchange => ?_
  rw [hmark]
  split
  · exact ⟨rfl, hsame⟩
  · exact ⟨rfl, hchange _⟩

theorem Alike.unDelete (r : Nat) : Paired p (hsxUnDelete p s r) (hsxUnDelete p s' r) := by
  refine h.onRecord r (g := fun nPos s => if s.isDeleted nPos then (hsxSuccess, s.change nPos _)
    else (hsxNotDeleted, s)) fun hsame hmark hchange => ?_
  rw [hmark]
  split
  · exact ⟨rfl, hchange _⟩
  · exact ⟨rfl, hsame⟩

theorem Alike.flush : Alike p (hsxFlush p s) (hsxFlush p s') := by
  obtain ⟨hsearch, recs, hs, hs'⟩ := h
  rw [← hsxFlush_search (p := p) s, ← hsxFlush_search (p := p) s'] at hsearch
  exact ⟨hsearch, recs, hs.flush, hs'.flush⟩

theorem Alike.count : s.ulRecCount = s'.ulRecCount := by
  obtain ⟨-, recs, hs, hs'⟩ := h
  rw [hs.count, hs'.count]

theorem Alike.seekSet (pStr : Bytes) :
    Paired p (hsxSeekSet p upper s pStr) (hsxSeekSet p upper s' pStr) := by
  have hcount := h.flush.count
  unfold hsxSeekSet
  by_cases hzero : (hsxFlush p s).ulRecCount = 0
  · rw [if_pos hzero, if_pos (hcount ▸ hzero)]
    exact ⟨rfl, h.flush⟩
  · rw [if_neg hzero, if_neg (hcount ▸ hzero)]
    exact ⟨rfl, h.flush.setSearch _ _ _⟩

end

theorem Alike.nextLoop (fSetDeleted : Bool) (n : Nat) (h : Alike p s s') :
    Rel (fun a b => a.1 = b.1 ∧ Alike p a.2.2 b.2.2) (hsxNextLoop p fSetDeleted n s)
      (hsxNextLoop p fSetDeleted n s') := by
  induction n generalizing s s' with
  | zero => exact .some ⟨rfl, h⟩
  | succ n ih =>
    have hcurr : s.ulCurrRec = s'.ulCurrRec := congrArg (fun q => q.2.2) h.1
    have hmoved : Alike p { s with ulCurrRec := s.ulCurrRec + 1 }
        { s' with ulCurrRec := s.ulCurrRec + 1 } := by
      obtain ⟨hsearch, recs, hs, hs'⟩ := h
      exact ⟨congrArg (fun q => (q.1, q.2.1, s.ulCurrRec + 1)) hsearch, recs,
        hs.setSearch _ _ _, hs'.setSearch _ _ _⟩
    rw [hsxNextLoop, hsxNextLoop, ← hcurr]
    rcases hmoved.read (s.ulCurrRec + 1) with ⟨hread, hread'⟩ |
      ⟨s₁, s₁', hread, hread', hsame, hget, -⟩
    · rw [hread, hread']
      exact .some ⟨rfl, hmoved⟩
    · have hkey : s₁.pSearchKey = s₁'.pSearchKey := congrArg (fun q => q.2.1) hsame.1
      rw [hread, hread']
      rw [if_pos rfl, if_pos rfl, HsxState.isDeleted, HsxState.isDeleted, getD_congr hget, hkey]
      split
      · cases s₁'.pSearchKey with
        | none => exact .none
        | some pKey =>
          dsimp only
          split
          · exact .some ⟨rfl, hsame⟩
          · exact ih hsame
      · exact ih hsame

section

variable {α β γ δ : Type} {r : α → β → Prop} {r' : γ → δ → Prop} {o : Option α} {o' : Option β}

theorem rel_map {f : α → γ} {f' : β → δ} (hrel : Rel r o o')
    (hf : ∀ {a b}, r a b → r' (f a) (f' b)) : Rel r' (o.map f) (o'.map f') := by
  cases hrel with
  | none => exact .none
  | some h => exact .some (hf h)

theorem rel_bind {f : α → Option γ} {f' : β → Option δ} (hrel : Rel r o o')
    (hf : ∀ {a b}, r a b → Rel r' (f a) (f' b)) : Rel r' (o.bind f) (o'.bind f') := by
  cases hrel with
  | none => exact .none
  | some h => exact hf h

end

theorem Alike.step (h : Alike p s s') (op : HsxOp) :
    Rel (Paired p) (hsxStep p upper s op) (hsxStep p upper s' op) := by
  cases op with
  | add pStr fDeleted =>
    obtain ⟨hsearch, recs, hs, hs'⟩ := h
    refine .some ⟨rfl, ?_, _, hs.append, hs'.append⟩
    exact (hsxAppend_search s).trans (hsearch.trans (hsxAppend_search s').symm)
  | replace ulRecord pStr fDeleted => exact .some (h.replace ulRecord pStr fDeleted)
  | delete ulRecord => exact .some (h.delete ulRecord)
  | unDelete ulRecord => exact .some (h.unDelete ulRecord)
  | seekSet pStr => exact .some (h.seekSet pStr)
  | next fSetDeleted =>
    have hcurr : s.ulCurrRec = s'.ulCurrRec := congrArg (fun q => q.2.2) h.1
    have hloop := h.nextLoop fSetDeleted (s.ulRecCount - s.ulCurrRec)
    unfold hsxStep hsxNext
    rw [← h.count, ← hcurr]
    exact rel_map hloop fun hsame => hsame

theorem Alike.run (h : Alike p s s') (ops : List HsxOp) :
    Rel (Alike p) (hsxRun p upper s ops) (hsxRun p upper s' ops) := by
  induction ops generalizing s s' with
  | nil => exact .some h
  | cons op ops ih =>
    exact rel_bind (h.step op) fun hsame => ih hsame.2

theorem Alike.seen_eq (h : Alike p s s') (r : Nat) : seen p s r = seen p s' r := by
  unfold seen
  rcases h.read r with ⟨hread, hread'⟩ | ⟨s₁, s₁', hread, hread', -, hget, -⟩
  · rw [hread, hread']
    rfl
  · rw [hread, hread']
    exact hget

theorem Alike.flushed_eq (h : Alike p s s') : (hsxFlush p s).file = (hsxFlush p s').file := by
  obtain ⟨-, recs, hs, hs'⟩ := h
  rw [hs.flush_eq, hs'.flush_eq]

theorem map_eq_of_rel {α : Type} {f : HsxState → α} {o o' : Option HsxState}
    (hrel : Rel (Alike p) o o') (hf : ∀ {s s'}, Alike p s s' → f s = f s') :
    o'.map f = o.map f := by
  cases hrel with
  | none => rfl
  | some h => exact congrArg some (hf h).symm

theorem Alike.unchanged (h : Alike p s s') : Unchanged p upper s s' where
  count := h.count.symm
  header := by rw [hsxHeader, hsxHeader, h.count]
  seen ops ulRecord := map_eq_of_rel (h.run ops) fun h => h.seen_eq ulRecord
  flushed ops := map_eq_of_rel (h.run ops) fun h => h.flushed_eq

end Alike

section Failures

variable {p : HsxInfo} {upper : UInt8 → UInt8} {s s' : HsxState} {recs : List Bytes}
  {entries : List (Bytes × Bool)} {call : HsxCall}

theorem placed_holds (h : Holds p s recs) {r : Nat} (hr : r ≠ 0) (hle : r ≤ recs.length)
    (hsame : s.pBuffer[0]? = recs[r - 1]?) :
    Holds p { hsxFlush p s with ulFirstRec := r, ulBufRec := 1 } recs := by
  have hget : s.pBuffer.take 1 = (recs.drop (r - 1)).take 1 := by
    rw [take_one, take_one, head?_eq_getElem?, head?_eq_getElem?, hsame, getElem?_drop]
    rfl
  rw [h.flush_eq]
  refine ⟨h.count, h.room, h.buffer, h.room, fun _ => Nat.succ_le_succ hle, fun _ => hget, ?_,
    fun _ => rfl, fun hchanged => nomatch hchanged⟩
  intro _
  dsimp only
  rw [hget]
  apply fileWriteAt_read
  omega

theorem hsxFails_replace {r : Nat} (h : Holds p s recs)
    (hfails : hsxFails p s (.replace r) = some s') : r ≠ 0 ∧ r ≤ recs.length ∧
      s' = if s.Outside r then { hsxFlush p s with ulFirstRec := r, ulBufRec := 1 } else s := by
  have hcount := h.count
  by_cases hbound : r = 0 ∨ s.ulRecCount < r
  · have hupdate : hsxUpdate p s r = (hsxRecBound, 0, s) := if_pos hbound
    unfold hsxFails at hfails
    dsimp only at hfails
    rw [hupdate] at hfails
    cases hfails
  · refine ⟨by omega, by omega, ?_⟩
    unfold hsxFails hsxUpdate at hfails
    dsimp only at hfails
    rw [if_neg hbound] at hfails
    by_cases hout : s.Outside r
    · rw [if_pos hout, if_pos rfl] at hfails
      rw [if_pos hout]
      exact (some.inj hfails).symm
    · rw [if_neg hout, if_pos rfl] at hfails
      rw [if_neg hout]
      exact (some.inj hfails).symm

theorem hsxFails_alike (h : Holds p s recs) (hfails : hsxFails p s call = some s')
    (hplace : InPlace s recs call) : Alike p s s' ∧ Holds p s' recs := by
  cases call with
  | add => exact hplace.elim
  | replace r =>
    obtain ⟨hr, hle, rfl⟩ := hsxFails_replace h hfails
    split
    · rename_i hout
      have hholds := placed_holds h hr hle (hplace.resolve_left (not_not.mpr hout))
      exact ⟨⟨(hsxFlush_search s).symm, recs, h, hholds⟩, hholds⟩
    · exact ⟨⟨rfl, recs, h, h⟩, h⟩

theorem Runs.holds (h : Runs p upper s entries) : Holds p s (records p upper entries) := by
  induction h with
  | create iBufSize pBuffer hbuffer => exact hsxCreate_holds iBufSize hbuffer
  | step op _ hstep ih => exact hsxStep_holds ih op hstep
  | fails _ hfails hplace ih => exact (hsxFails_alike ih hfails hplace).2

theorem seen_eq (h : Holds p s recs) {r : Nat} (hr : r ≠ 0) (hle : r ≤ recs.length) :
    seen p s r = recs[r - 1]? := by
  obtain ⟨s₁, hread, hholds, hin, -⟩ := h.read hr hle
  unfold seen
  rw [hread]
  exact hholds.buffer_get hin

theorem hsxFails_add_count : (hsxAppend p s).2.ulRecCount = s.ulRecCount + 1 := by
  unfold hsxAppend hsxFlush
  split_ifs <;> rfl

theorem seen_placed {r : Nat} (h : Holds p s recs) (hr : r ≠ 0) (hle : r ≤ recs.length) :
    seen p { hsxFlush p s with ulFirstRec := r, ulBufRec := 1 } r = s.pBuffer[0]? := by
  have hcount := h.count
  have hbound : ¬ (r = 0 ∨ s.ulRecCount < r) := by omega
  have hin : ¬ HsxState.Outside { hsxFlush p s with ulFirstRec := r, ulBufRec := 1 } r := by
    unfold HsxState.Outside
    dsimp only
    omega
  rw [h.flush_eq] at hin ⊢
  unfold seen hsxRead
  rw [if_neg hbound, if_neg hin]
  rw [if_pos rfl, Nat.sub_self]

/-- A call whose key expression fails changes nothing exactly when it replaces a record that it
finds in its place. -/
theorem hsxFails_unchanged_iff (h : Runs p upper s entries) (hfails : hsxFails p s call = some s') :
    Unchanged p upper s s' ↔ InPlace s (records p upper entries) call := by
  have hholds := h.holds
  refine ⟨fun hsame => ?_, fun hplace => (hsxFails_alike hholds hfails hplace).1.unchanged⟩
  cases call with
  | add =>
    have hcount := hsame.count
    rw [← some.inj hfails, hsxFails_add_count] at hcount
    exact absurd hcount (Nat.succ_ne_self _)
  | replace r =>
    obtain ⟨hr, hle, rfl⟩ := hsxFails_replace hholds hfails
    by_cases hout : s.Outside r
    · have hseen : seen p _ r = seen p s r := some.inj (hsame.seen [] r)
      rw [if_pos hout, seen_placed hholds hr hle, seen_eq hholds hr hle] at hseen
      exact .inr hseen
    · exact .inl hout

/-- A new index counts a record that was never stored. -/
theorem hsxAdd_fails_counted :
    ∃ s s', Runs (hsxSettings 2 true 3) HB_TOUPPER s [] ∧
      hsxFails (hsxSettings 2 true 3) s .add = some s' ∧
      ¬ Unchanged (hsxSettings 2 true 3) HB_TOUPPER s s' :=
  ⟨_, _, .create 1 (List.replicate 32 []) rfl, rfl, fun h => absurd h.count (by decide)⟩

theorem Runs.of_reaches (h : Reaches p upper s entries) : Runs p upper s entries := by
  induction h with
  | create iBufSize pBuffer hbuffer => exact .create iBufSize pBuffer hbuffer
  | step op _ hstep ih => exact .step op ih hstep

theorem hsxFails_of_success {r : Nat} (h : (hsxUpdate p s r).1 = hsxSuccess) :
    hsxFails p s (.replace r) = some (hsxUpdate p s r).2.2 := if_pos h

/-- The window goes from record 17 to record 3, which has the same text; it does not go to record 4
without a change. -/
theorem hsxFails_unchanged_iff_sample :
    (∃ s', hsxFails (hsxSettings 3 true 3) sampleIndex (.replace 3) = some s' ∧
      s'.ulFirstRec = 3 ∧ Unchanged (hsxSettings 3 true 3) HB_TOUPPER sampleIndex s') ∧
    ∃ s', hsxFails (hsxSettings 3 true 3) sampleIndex (.replace 4) = some s' ∧
      ¬ Unchanged (hsxSettings 3 true 3) HB_TOUPPER sampleIndex s' := by
  have hruns := Runs.of_reaches sampleIndex_reaches
  constructor
  · have hfails := hsxFails_of_success (p := hsxSettings 3 true 3) (s := sampleIndex) (r := 3)
      (by decide +kernel)
    refine ⟨_, hfails, by decide +kernel, (hsxFails_unchanged_iff hruns hfails).mpr (.inr ?_)⟩
    decide +kernel
  · have hfails := hsxFails_of_success (p := hsxSettings 3 true 3) (s := sampleIndex) (r := 4)
      (by decide +kernel)
    refine ⟨_, hfails, fun hsame => ?_⟩
    rcases (hsxFails_unchanged_iff hruns hfails).mp hsame with hin | hsame
    · exact absurd hin (by decide +kernel)
    · exact absurd hsame (by decide +kernel)

end Failures

end Harbour.Rdd.HsxFailed
