import Harbour.Rdd.HsxKey

/-!
The operations of a HiPer-SEEK index that is used exclusively, with its window on the records.
-/

namespace Harbour.Rdd.HsxFile

open Library.BitSignature HsxKey List

section Model

/-- The file behind its header, the window on it and the search, counted in records. -/
structure HsxState where
  file : List Bytes
  ulRecCount : Nat
  ulBufSize : Nat
  ulBufRec : Nat
  ulFirstRec : Nat
  pBuffer : List Bytes
  fChanged : Bool
  pSearchVal : Option Bytes
  pSearchKey : Option Bytes
  ulCurrRec : Nat

def hsxSuccess : Int := 1
def hsxBadRead : Int := -5
def hsxRecBound : Int := -7
def hsxIsDeleted : Int := -8
def hsxNotDeleted : Int := -9
def hsxNoRecs : Int := -13

variable (p : HsxInfo) (upper : UInt8 → UInt8)

def hsxBufSize (iBufSize : Int) : Nat :=
  let ulBufSize := ((iBufSize * 1024) % 2 ^ 64).toNat
  let ulBufSize :=
    if ulBufSize = 0 then 16384
    else if ulBufSize < 512 then 512
    else if 64536 < ulBufSize then 64536
    else ulBufSize
  let ulBufSize := ulBufSize / p.uiRecordSize
  if ulBufSize = 0 then 1 else ulBufSize

def hsxCreate (iBufSize : Int) (pBuffer : List Bytes) : HsxState where
  file := []
  ulRecCount := 0
  ulBufSize := hsxBufSize p iBufSize
  ulBufRec := 0
  ulFirstRec := 0
  pBuffer
  fChanged := false
  pSearchVal := none
  pSearchKey := none
  ulCurrRec := 0

def fileWriteAt (file : List Bytes) (nOffset : Nat) (records : List Bytes) : List Bytes :=
  file.take nOffset ++ replicate (nOffset - file.length) (replicate p.uiRecordSize 0) ++
    records ++ file.drop (nOffset + records.length)

def hsxFlush (s : HsxState) : HsxState :=
  if s.fChanged then
    { s with
      file := fileWriteAt p s.file (s.ulFirstRec - 1) (s.pBuffer.take s.ulBufRec)
      fChanged := false }
  else s

def HsxState.Outside (s : HsxState) (ulRecord : Nat) : Prop :=
  s.ulFirstRec = 0 ∨ ulRecord < s.ulFirstRec ∨ s.ulFirstRec + s.ulBufRec ≤ ulRecord

instance (s : HsxState) (ulRecord : Nat) : Decidable (s.Outside ulRecord) :=
  inferInstanceAs (Decidable (_ ∨ _ ∨ _))

def hsxRead (s : HsxState) (ulRecord : Nat) : Int × Nat × HsxState :=
  if ulRecord = 0 ∨ s.ulRecCount < ulRecord then (hsxRecBound, 0, s)
  else if s.Outside ulRecord then
    let s := hsxFlush p s
    let ulBufRec :=
      if ulRecord + s.ulBufSize - 1 ≤ s.ulRecCount then s.ulBufSize
      else min s.ulBufSize (s.ulRecCount - ulRecord + 1)
    let records := (s.file.drop (ulRecord - 1)).take ulBufRec
    let s := { s with pBuffer := records ++ s.pBuffer.drop records.length }
    if records.length ≠ ulBufRec then
      (hsxBadRead, 0, { s with ulFirstRec := 0, ulBufRec := 0 })
    else (hsxSuccess, 0, { s with ulFirstRec := ulRecord, ulBufRec })
  else (hsxSuccess, ulRecord - s.ulFirstRec, s)

def hsxAppend (s : HsxState) : Nat × HsxState :=
  if s.ulFirstRec = 0 ∨ s.ulBufRec = s.ulBufSize ∨
      s.ulFirstRec + s.ulBufRec ≠ s.ulRecCount + 1 then
    let s := hsxFlush p s
    (0, { s with ulRecCount := s.ulRecCount + 1, ulFirstRec := s.ulRecCount + 1, ulBufRec := 1 })
  else
    (s.ulBufRec, { s with ulBufRec := s.ulBufRec + 1, ulRecCount := s.ulRecCount + 1 })

def hsxUpdate (s : HsxState) (ulRecord : Nat) : Int × Nat × HsxState :=
  if ulRecord = 0 ∨ s.ulRecCount < ulRecord then (hsxRecBound, 0, s)
  else if s.Outside ulRecord then
    (hsxSuccess, 0, { hsxFlush p s with ulFirstRec := ulRecord, ulBufRec := 1 })
  else (hsxSuccess, ulRecord - s.ulFirstRec, s)

/-- The record that `hb_hsxAdd` and `hb_hsxReplace` store for a text. -/
def hsxRecord (pStr : Bytes) (fDeleted : Bool) : Bytes :=
  let pKey := hsxHashStr p upper pStr
  if fDeleted then pKey.modify 0 (· ||| 0x80) else pKey

def HsxState.change (s : HsxState) (nPos : Nat) (f : Bytes → Bytes) : HsxState :=
  { s with pBuffer := s.pBuffer.modify nPos f, fChanged := true }

def hsxAdd (s : HsxState) (pStr : Bytes) (fDeleted : Bool) : Int × HsxState :=
  let r := hsxAppend p s
  (hsxSuccess, r.2.change r.1 fun _ => hsxRecord p upper pStr fDeleted)

def hsxReplace (s : HsxState) (ulRecord : Nat) (pStr : Bytes) (fDeleted : Bool) :
    Int × HsxState :=
  let r := hsxUpdate p s ulRecord
  if r.1 = hsxSuccess then
    (hsxSuccess, r.2.2.change r.2.1 fun _ => hsxRecord p upper pStr fDeleted)
  else (r.1, r.2.2)

def HsxState.isDeleted (s : HsxState) (nPos : Nat) : Bool :=
  (s.pBuffer.getD nPos []).getD 0 0 &&& 0x80 != 0

def hsxDelete (s : HsxState) (ulRecord : Nat) : Int × HsxState :=
  let r := hsxRead p s ulRecord
  if r.1 = hsxSuccess then
    if r.2.2.isDeleted r.2.1 then (hsxIsDeleted, r.2.2)
    else (hsxSuccess, r.2.2.change r.2.1 fun pRec => pRec.modify 0 (· ||| 0x80))
  else (r.1, r.2.2)

def hsxUnDelete (s : HsxState) (ulRecord : Nat) : Int × HsxState :=
  let r := hsxRead p s ulRecord
  if r.1 = hsxSuccess then
    if r.2.2.isDeleted r.2.1 then
      (hsxSuccess, r.2.2.change r.2.1 fun pRec => pRec.modify 0 (· &&& 0x7F))
    else (hsxNotDeleted, r.2.2)
  else (r.1, r.2.2)

def hsxSeekSet (s : HsxState) (pStr : Bytes) : Int × HsxState :=
  let s := hsxFlush p s
  if s.ulRecCount = 0 then (hsxNoRecs, s)
  else
    (hsxSuccess,
      { s with pSearchVal := some pStr, pSearchKey := some (hsxHashStr p upper pStr),
               ulCurrRec := 0 })

def hsxMatches (pKey pRec : Bytes) : Bool :=
  (range p.uiRecordSize).all fun i => pRec.getD i 0 &&& pKey.getD i 0 == pKey.getD i 0

/-- The loop of `hb_hsxNext` over the `n` records that are left. There is no result where it reads
the key of a search that was not set; `fSetDeleted` is `SET DELETED`. -/
def hsxNextLoop (fSetDeleted : Bool) : Nat → HsxState → Option (Int × Nat × HsxState)
  | 0, s => some (hsxSuccess, 0, s)
  | n + 1, s =>
    let r := hsxRead p { s with ulCurrRec := s.ulCurrRec + 1 } (s.ulCurrRec + 1)
    if r.1 = hsxSuccess then
      if fSetDeleted = false ∨ r.2.2.isDeleted r.2.1 = false then
        match r.2.2.pSearchKey with
        | none => none
        | some pKey =>
          if hsxMatches p pKey (r.2.2.pBuffer.getD r.2.1 []) then
            some (hsxSuccess, r.2.2.ulCurrRec, r.2.2)
          else hsxNextLoop fSetDeleted n r.2.2
      else hsxNextLoop fSetDeleted n r.2.2
    else some (r.1, 0, r.2.2)

def hsxNext (fSetDeleted : Bool) (s : HsxState) : Option (Int × Nat × HsxState) :=
  hsxNextLoop p fSetDeleted (s.ulRecCount - s.ulCurrRec) s

end Model

section Files

variable {p : HsxInfo} {file records : List Bytes} {nOffset n : Nat} {x : Bytes}

theorem fileWriteAt_length : (fileWriteAt p file nOffset records).length =
    nOffset + records.length + (file.length - (nOffset + records.length)) := by
  simp only [fileWriteAt, length_append, length_take, length_replicate,
    length_drop]
  omega

theorem fileWriteAt_read (h : nOffset + n ≤ file.length) :
    fileWriteAt p file nOffset ((file.drop nOffset).take n) = file := by
  have hlength : ((file.drop nOffset).take n).length = n := by
    rw [length_take, length_drop]
    omega
  have hzero : nOffset - file.length = 0 := by omega
  rw [fileWriteAt, hlength, hzero, replicate_zero, append_nil, append_assoc,
    ← drop_drop, take_append_drop, take_append_drop]

theorem modify_append {front back : List Bytes} (h : n < records.length) (f : Bytes → Bytes) :
    (front ++ records ++ back).modify (front.length + n) f =
      front ++ records.modify n f ++ back := by
  induction front with
  | nil =>
    rw [nil_append, nil_append, length_nil, Nat.zero_add]
    induction records generalizing n with
    | nil => exact absurd h (Nat.not_lt_zero _)
    | cons record records ih =>
      cases n with
      | zero => rfl
      | succ n =>
        rw [cons_append, modify_succ_cons, modify_succ_cons,
          ih (Nat.lt_of_succ_lt_succ h), cons_append]
  | cons record front ih =>
    rw [length_cons, Nat.add_right_comm, cons_append, cons_append,
      modify_succ_cons, ih, cons_append, cons_append]

theorem fileWriteAt_modify (h : n < records.length) (f : Bytes → Bytes) :
    fileWriteAt p file nOffset (records.modify n f) =
      (fileWriteAt p file nOffset records).modify (nOffset + n) f := by
  have hfront : (file.take nOffset ++
      replicate (nOffset - file.length)
        (replicate p.uiRecordSize (0 : UInt8))).length = nOffset := by
    rw [length_append, length_take, length_replicate]
    omega
  unfold fileWriteAt
  rw [length_modify, ← modify_append h f, hfront]

theorem fileWriteAt_append (h : file.length ≤ nOffset + records.length) :
    fileWriteAt p file nOffset (records ++ [x]) = fileWriteAt p file nOffset records ++ [x] := by
  have hdrop : file.drop (nOffset + records.length) = [] := drop_eq_nil_of_le h
  have hdrop' : file.drop (nOffset + (records ++ [x]).length) = [] := by
    apply drop_eq_nil_of_le
    rw [length_append]
    omega
  rw [fileWriteAt, fileWriteAt, hdrop, hdrop', append_nil, append_nil,
    ← append_assoc]

end Files

section Window

variable {p : HsxInfo} {s : HsxState} {recs recs' : List Bytes} {r : Nat} {record : Bytes}

/-- The file with the window over it has these records, and what the window does not show is
saved. -/
structure Holds (p : HsxInfo) (s : HsxState) (recs : List Bytes) : Prop where
  count : s.ulRecCount = recs.length
  room : 0 < s.ulBufSize
  buffer : s.pBuffer.length = s.ulBufSize
  full : s.ulBufRec ≤ s.ulBufSize
  inside : s.ulFirstRec ≠ 0 → s.ulFirstRec + s.ulBufRec ≤ recs.length + 1
  window : s.ulFirstRec ≠ 0 →
    s.pBuffer.take s.ulBufRec = (recs.drop (s.ulFirstRec - 1)).take s.ulBufRec
  written : s.ulFirstRec ≠ 0 →
    fileWriteAt p s.file (s.ulFirstRec - 1) (s.pBuffer.take s.ulBufRec) = recs
  saved : s.fChanged = false → s.file = recs
  pending : s.fChanged = true → s.ulFirstRec ≠ 0

def HsxState.search (s : HsxState) : Option Bytes × Option Bytes × Nat :=
  (s.pSearchVal, s.pSearchKey, s.ulCurrRec)

section

variable (h : Holds p s recs)

include h

theorem Holds.setSearch (pSearchVal pSearchKey : Option Bytes) (ulCurrRec : Nat) :
    Holds p { s with pSearchVal, pSearchKey, ulCurrRec } recs :=
  ⟨h.count, h.room, h.buffer, h.full, h.inside, h.window, h.written, h.saved, h.pending⟩

theorem Holds.flush_eq : hsxFlush p s = { s with file := recs, fChanged := false } := by
  unfold hsxFlush
  cases hchanged : s.fChanged with
  | true => rw [if_pos rfl, h.written (h.pending hchanged)]
  | false =>
    rw [if_neg Bool.false_ne_true, ← h.saved hchanged, ← hchanged]

theorem Holds.flush : Holds p (hsxFlush p s) recs := by
  rw [h.flush_eq]
  refine ⟨h.count, h.room, h.buffer, h.full, h.inside, h.window, ?_, fun _ => rfl,
    (fun hchanged => nomatch hchanged)⟩
  intro hfirst
  have hinside : s.ulFirstRec + s.ulBufRec ≤ recs.length + 1 := h.inside hfirst
  have hne : s.ulFirstRec ≠ 0 := hfirst
  change fileWriteAt p recs (s.ulFirstRec - 1) (s.pBuffer.take s.ulBufRec) = recs
  rw [h.window hfirst]
  apply fileWriteAt_read
  omega

theorem Holds.buffer_get (hin : ¬ s.Outside r) : s.pBuffer[r - s.ulFirstRec]? = recs[r - 1]? := by
  unfold HsxState.Outside at hin
  have hfirst : s.ulFirstRec ≠ 0 := fun hzero => hin (.inl hzero)
  have hlt : r - s.ulFirstRec < s.ulBufRec := by omega
  have hwindow := congrArg (fun l : List Bytes => l[r - s.ulFirstRec]?) (h.window hfirst)
  rw [getElem?_take_of_lt hlt, getElem?_take_of_lt hlt, getElem?_drop] at hwindow
  rw [hwindow]
  congr 1
  omega

theorem Holds.change (hin : ¬ s.Outside r) (f : Bytes → Bytes) :
    Holds p (s.change (r - s.ulFirstRec) f) (recs.modify (r - 1) f) := by
  unfold HsxState.Outside at hin
  have hfirst : s.ulFirstRec ≠ 0 := fun hzero => hin (.inl hzero)
  have hbuffer := h.buffer
  have hfull := h.full
  have hoffset : s.ulFirstRec - 1 + (r - s.ulFirstRec) = r - 1 := by omega
  refine ⟨?_, h.room, ?_, h.full, ?_, ?_, ?_, (fun hchanged => nomatch hchanged), fun _ => hfirst⟩
  · rw [length_modify]
    exact h.count
  · exact (length_modify _ _ _).trans h.buffer
  · intro _
    rw [length_modify]
    exact h.inside hfirst
  · intro _
    have hrest : r - 1 - (s.ulFirstRec - 1) = r - s.ulFirstRec := by omega
    change (s.pBuffer.modify _ f).take s.ulBufRec =
      ((recs.modify (r - 1) f).drop (s.ulFirstRec - 1)).take s.ulBufRec
    rw [take_modify, h.window hfirst, drop_modify_of_ge _ _ _ _ (by omega),
      take_modify, hrest]
  · intro _
    change fileWriteAt p s.file (s.ulFirstRec - 1) ((s.pBuffer.modify _ f).take s.ulBufRec) = _
    have hlt : r - s.ulFirstRec < (s.pBuffer.take s.ulBufRec).length := by
      rw [length_take]
      omega
    rw [take_modify, fileWriteAt_modify hlt, h.written hfirst, hoffset]

theorem Holds.opened (hr : r ≠ 0) (hle : r ≤ recs'.length)
    (hwritten : fileWriteAt p recs (r - 1) [record] = recs')
    (hget : (recs'.drop (r - 1)).take 1 = [record]) : Holds p (HsxState.change { hsxFlush p s with
      ulRecCount := recs'.length, ulFirstRec := r, ulBufRec := 1 } 0 fun _ => record) recs' := by
  rw [h.flush_eq]
  have hroom := h.room
  have hbuffer := h.buffer
  have htake : (s.pBuffer.modify 0 fun _ => record).take 1 = [record] := by
    cases hlist : s.pBuffer with
    | nil =>
      rw [hlist, length_nil] at hbuffer
      omega
    | cons old rest => rfl
  refine ⟨rfl, hroom, (length_modify _ _ _).trans hbuffer, hroom, ?_, ?_, ?_,
    (fun hchanged => nomatch hchanged), fun _ => hr⟩
  · exact fun _ => Nat.succ_le_succ hle
  · exact fun _ => htake.trans hget.symm
  · intro _
    change fileWriteAt p recs (r - 1) ((s.pBuffer.modify 0 fun _ => record).take 1) = recs'
    rw [htake, hwritten]

end

theorem hsxRead_bound (h : r = 0 ∨ s.ulRecCount < r) : hsxRead p s r = (hsxRecBound, 0, s) :=
  if_pos h

theorem Holds.read (h : Holds p s recs) (hr : r ≠ 0) (hle : r ≤ recs.length) :
    ∃ s', hsxRead p s r = (hsxSuccess, r - s'.ulFirstRec, s') ∧ Holds p s' recs ∧
      ¬ s'.Outside r ∧ s'.search = s.search := by
  have hcount := h.count
  unfold hsxRead
  rw [if_neg (by omega)]
  split
  · rw [h.flush_eq]
    have hroom := h.room
    set ulBufRec := if r + s.ulBufSize - 1 ≤ s.ulRecCount then s.ulBufSize
      else min s.ulBufSize (s.ulRecCount - r + 1) with hdef
    have hsize : 0 < ulBufRec ∧ ulBufRec ≤ s.ulBufSize ∧ r + ulBufRec ≤ recs.length + 1 := by
      rw [hdef]
      split <;> omega
    have hlength : ((recs.drop (r - 1)).take ulBufRec).length = ulBufRec := by
      rw [length_take, length_drop]
      omega
    rw [if_neg (not_not.mpr hlength)]
    refine ⟨{ s with
      file := recs
      fChanged := false
      pBuffer := (recs.drop (r - 1)).take ulBufRec ++
        s.pBuffer.drop ((recs.drop (r - 1)).take ulBufRec).length
      ulFirstRec := r
      ulBufRec := ulBufRec }, ?_, ⟨hcount, hroom, ?_, hsize.2.1, fun _ => hsize.2.2, ?_, ?_,
        fun _ => rfl, fun hchanged => nomatch hchanged⟩, ?_, rfl⟩
    · dsimp only
      rw [Nat.sub_self]
    · dsimp only
      rw [length_append, hlength, length_drop, h.buffer]
      omega
    · intro _
      rw [take_left' hlength]
    · intro _
      dsimp only
      rw [take_left' hlength]
      apply fileWriteAt_read
      omega
    · unfold HsxState.Outside
      dsimp only
      omega
  · rename_i hin
    exact ⟨s, rfl, h, hin, rfl⟩

theorem Holds.update (h : Holds p s recs) (record : Bytes) (hr : r ≠ 0) (hle : r ≤ recs.length) :
    ∃ nPos s', hsxUpdate p s r = (hsxSuccess, nPos, s') ∧
      Holds p (s'.change nPos fun _ => record) (recs.modify (r - 1) fun _ => record) := by
  have hcount := h.count
  unfold hsxUpdate
  rw [if_neg (by omega)]
  split
  · refine ⟨0, _, rfl, ?_⟩
    have hlt : r - 1 < recs.length := by omega
    have hsplit : recs.modify (r - 1) (fun _ => record) =
        recs.take (r - 1) ++ record :: recs.drop r := by
      rw [modify_eq_take_cons_drop hlt, Nat.sub_add_cancel (by omega)]
    have hlength : (recs.modify (r - 1) fun _ => record).length = recs.length :=
      length_modify _ _ _
    have hwritten : fileWriteAt p recs (r - 1) [record] =
        recs.modify (r - 1) fun _ => record := by
      have hzero : r - 1 - recs.length = 0 := by omega
      have hnext : r - 1 + [record].length = r := by
        rw [length_singleton]
        omega
      rw [hsplit, fileWriteAt, hzero, hnext]
      simp
    have hget : ((recs.modify (r - 1) fun _ => record).drop (r - 1)).take 1 = [record] := by
      have htake : (recs.take (r - 1)).length = r - 1 := by
        rw [length_take]
        omega
      rw [hsplit, drop_left' htake]
      rfl
    have hopened := h.opened hr (hlength.symm ▸ hle) hwritten hget
    have hsame : (hsxFlush p s).ulRecCount = recs.length := by
      rw [h.flush_eq]
      exact hcount
    rw [hlength, ← hsame] at hopened
    exact hopened
  · rename_i hin
    exact ⟨_, s, rfl, h.change hin _⟩

theorem Holds.append (h : Holds p s recs) :
    Holds p ((hsxAppend p s).2.change (hsxAppend p s).1 fun _ => record)
      (recs ++ [record]) := by
  have hcount := h.count
  unfold hsxAppend
  split
  · have hlength : (recs ++ [record]).length = recs.length + 1 := by simp
    have hwritten : fileWriteAt p recs (recs.length + 1 - 1) [record] = recs ++ [record] := by
      simp [fileWriteAt]
    have hget : ((recs ++ [record]).drop (recs.length + 1 - 1)).take 1 = [record] := by simp
    have hopened := h.opened (Nat.succ_ne_zero _) hlength.ge hwritten hget
    have hsame : (hsxFlush p s).ulRecCount = recs.length := by
      rw [h.flush_eq]
      exact hcount
    rw [hlength] at hopened
    dsimp only
    rw [hsame]
    exact hopened
  · rename_i hin
    have hfirst : s.ulFirstRec ≠ 0 := fun hzero => hin (.inl hzero)
    have hfull := h.full
    have hbuffer := h.buffer
    have hlt : s.ulBufRec < s.pBuffer.length := by omega
    have hdrop : (recs.drop (s.ulFirstRec - 1)).length = s.ulBufRec := by
      rw [length_drop]
      omega
    have hwindow : s.pBuffer.take s.ulBufRec = recs.drop (s.ulFirstRec - 1) := by
      rw [h.window hfirst, take_of_length_le (by omega)]
    have htake : (s.pBuffer.modify s.ulBufRec fun _ => record).take (s.ulBufRec + 1) =
        s.pBuffer.take s.ulBufRec ++ [record] := by
      rw [modify_eq_take_cons_drop hlt]
      have hfront : (s.pBuffer.take s.ulBufRec).length = s.ulBufRec := by
        rw [length_take]
        omega
      have hlength : (s.pBuffer.take s.ulBufRec ++ [record]).length = s.ulBufRec + 1 := by
        rw [length_append, hfront, length_singleton]
      rw [← singleton_append, ← append_assoc, take_left' hlength]
    refine ⟨?_, h.room, ?_, ?_, ?_, ?_, ?_, (fun hchanged => nomatch hchanged), fun _ => hfirst⟩
    · simp [HsxState.change, hcount]
    · exact (length_modify _ _ _).trans h.buffer
    · change s.ulBufRec + 1 ≤ s.ulBufSize
      omega
    · intro _
      change s.ulFirstRec + (s.ulBufRec + 1) ≤ (recs ++ [record]).length + 1
      rw [length_append, length_singleton]
      omega
    · intro _
      change (s.pBuffer.modify s.ulBufRec fun _ => record).take (s.ulBufRec + 1) =
        ((recs ++ [record]).drop (s.ulFirstRec - 1)).take (s.ulBufRec + 1)
      rw [htake, hwindow, drop_append_of_le_length (by omega),
        take_of_length_le (by rw [length_append, hdrop]; exact Nat.le_refl _)]
    · intro _
      change fileWriteAt p s.file (s.ulFirstRec - 1)
        ((s.pBuffer.modify s.ulBufRec fun _ => record).take (s.ulBufRec + 1)) = recs ++ [record]
      have hwritten := h.written hfirst
      have hlength := congrArg length hwritten
      rw [fileWriteAt_length, hwindow, hdrop] at hlength
      rw [htake, fileWriteAt_append, hwritten]
      rw [hwindow, hdrop]
      omega

end Window

end Harbour.Rdd.HsxFile
