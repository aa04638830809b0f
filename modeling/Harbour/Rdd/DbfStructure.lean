import Harbour.Rdd.DbfReopen
import Mathlib.Algebra.Order.BigOperators.Group.List
import Mathlib.Algebra.Order.Group.Nat

/-!
The structure of a table survives when it is closed and opened again.
-/

namespace Harbour.Rdd.DbfStructure

open List

/-- `pArea` is a work area that `hb_dbfCreate` can start from. -/
structure Prepared (bTableType : TableType) (uiFieldExtent : Nat) (pArea : DbfArea) : Prop where
  tableType : pArea.bTableType = bTableType
  extent : pArea.uiFieldExtent = uiFieldExtent
  nullOffset : pArea.uiNullOffset = 0
  bits : pArea.fieldBits = none
  short : ∀ f ∈ pArea.fields, f.Short

variable {infos : List DbFieldInfo} {bMemoType : MemoType} {guess : Guess}
  {decimals nSize nSize' uiCount uiFlagsMask : Nat} {ds nullFlags : List DbfField}
  {fEncrypted : Bool} {header : Header} {a₁ a₂ : DbfArea}

section

variable {bTableType : TableType} {uiFieldExtent : Nat} {a a' : DbfArea}
  (h : Prepared bTableType uiFieldExtent a)

include h

theorem addField_prepared {info : DbFieldInfo} (hadd : addField a info = .ok a') :
    Prepared bTableType uiFieldExtent a' ∧ a'.fields.length = a.fields.length + 1 := by
  simp only [addField] at hadd
  split_ifs at hadd
  rw [waAddField] at hadd
  split at hadd
  · cases hadd
  · obtain rfl := Except.ok.inj hadd
    refine ⟨⟨h.tableType, h.extent, h.nullOffset, h.bits, ?_⟩, by simp⟩
    intro f hf
    rcases mem_append.mp hf with hf | hf
    · exact h.short f hf
    · obtain rfl := mem_singleton.mp hf
      exact ⟨Nat.mod_lt _ (by decide), Nat.mod_lt _ (by decide)⟩

theorem foldlM_addField_prepared (hadd : infos.foldlM addField a = .ok a') :
    Prepared bTableType uiFieldExtent a' ∧ a'.fields.length = a.fields.length + infos.length := by
  induction infos generalizing a with
  | nil =>
    obtain rfl := Except.ok.inj hadd
    exact ⟨h, rfl⟩
  | cons info infos ih =>
    cases hone : addField a info with
    | error fault => simp [hone, bind, Except.bind] at hadd
    | ok mid =>
      obtain ⟨hmid, hlength⟩ := addField_prepared h hone
      obtain ⟨ha', hlengths⟩ := ih hmid (by simpa [hone, bind, Except.bind] using hadd)
      exact ⟨ha', by rw [hlengths, hlength, length_cons]; omega⟩

end

variable {a a' b : DbfArea} {bTableType : TableType} {uiDecimals : Nat}

theorem createFields_prepared (h : createFields bTableType bMemoType infos = .ok a) :
    Prepared bTableType a.fields.length a := by
  obtain ⟨ha, hlength⟩ := foldlM_addField_prepared ⟨rfl, rfl, rfl, rfl, by simp [setFieldExtent]⟩ h
  have hfields : a.fields.length = infos.length := by simpa [setFieldExtent] using hlength
  rw [hfields]
  exact ha

/-- A mask that keeps the null flags once anything is known. -/
def Guess.Usable (guess : Guess) : Prop :=
  guess.uiFlagsMask = 0 ∨ guess.uiFlagsMask.testBit 1 = true

theorem Guess.doubt_mask (p : Prop) [Decidable p] (guess : Guess) :
    (if p then { guess with uiFlags := 0 } else guess).uiFlagsMask = guess.uiFlagsMask := by
  split <;> rfl

theorem guessFlags_mask (uiCount : Nat) (d : DbfField) (guess : Guess) :
    (guessFlags uiCount d guess).uiFlagsMask = guess.uiFlagsMask ∨
      (guessFlags uiCount d guess).uiFlagsMask = Flag.stored := by
  have hplain (g : Guess) : (guessPlain uiCount d g).uiFlagsMask = g.uiFlagsMask := by
    exact Guess.doubt_mask _ g
  have hnumber (g : Guess) : (guessNumber uiCount d g).uiFlagsMask = g.uiFlagsMask := by
    simp only [guessNumber]
    split
    · rfl
    · split
      · exact Guess.doubt_mask _ g
      · exact hplain g
  simp only [guessFlags]
  split
  · exact Or.inl rfl
  · split
    · split
      · exact Or.inl rfl
      · exact Or.inl (hnumber guess)
    · split
      · exact Or.inl rfl
      · exact Or.inl (hnumber guess)
    · exact Or.inl (hnumber guess)
    · exact Or.inl (hplain guess)
    · exact Or.inl (hplain guess)
    · exact Or.inl (hplain guess)
    · exact Or.inr rfl

theorem stored_nullable : Flag.stored.testBit 1 = true := by decide

theorem guessFlags_usable (uiCount : Nat) (d : DbfField) (h : guess.Usable) :
    (guessFlags uiCount d guess).Usable := by
  rcases guessFlags_mask uiCount d guess with hmask | hmask
  · rw [Guess.Usable, hmask]
    exact h
  · exact Or.inr (hmask ▸ stored_nullable)

theorem guessFlags_keeps {d : DbfField} (h : guess.uiFlagsMask.testBit 1 = true) :
    (guessFlags uiCount d guess).uiFlagsMask.testBit 1 = true := by
  rcases guessFlags_mask uiCount d guess with hmask | hmask <;> rw [hmask]
  · exact h
  · exact stored_nullable

theorem scanFields_append
    (hplain : ∀ d ∈ ds, d.bName.head? ≠ some 13 ∧ skipped bTableType d = false)
    (rest : List DbfField) (uiCount : Nat) (h : guess.Usable) :
    ∃ guess' : Guess, guess'.Usable ∧
      scanFields bTableType uiCount guess (ds ++ rest) =
        scanFields bTableType (uiCount + ds.length) guess' rest := by
  induction ds generalizing uiCount guess with
  | nil => exact ⟨guess, h, rfl⟩
  | cons d ds ih =>
    obtain ⟨hname, hskip⟩ := hplain d mem_cons_self
    obtain ⟨guess', hguess', hscan⟩ := ih (fun e he => hplain e (by simp [he])) (uiCount + 1)
      (guessFlags_usable uiCount d h)
    refine ⟨guess', hguess', ?_⟩
    rw [cons_append, scanFields]
    simp only [hname, hskip, if_false, Bool.false_eq_true]
    rw [hscan, length_cons, Nat.add_right_comm uiCount 1 ds.length]
    rfl

theorem scanFields_fieldsEnd (bTableType : TableType) (uiCount : Nat) (guess : Guess) :
    ∃ guess' : Guess,
      (guess.uiFlagsMask.testBit 1 = true → guess'.uiFlagsMask.testBit 1 = true) ∧
      scanFields bTableType uiCount guess (fieldsEnd bTableType) = (guess', uiCount, 0) := by
  cases bTableType with
  | std => exact ⟨guess, id, rfl⟩
  | vfp => exact ⟨guessFlags uiCount _ guess, guessFlags_keeps, rfl⟩

theorem nullFlagsField_skipped (bTableType : TableType) (pArea : DbfArea) (uiCount : Nat) :
    (nullFlagsField pArea uiCount).bName.head? ≠ some 13 ∧
      skipped bTableType (nullFlagsField pArea uiCount) = true :=
  ⟨by simp [nullFlagsField, nullFlagsName], by simp [skipped, nullFlagsField, has, Flag.hidden]⟩

theorem scanFields_nullFlags (bTableType : TableType) (pArea : DbfArea) (uiNull uiCount : Nat)
    (h : guess.Usable) :
    ∃ guess' : Guess, guess'.uiFlagsMask.testBit 1 = true ∧
      scanFields bTableType uiCount guess
        (nullFlagsField pArea uiNull :: fieldsEnd bTableType) = (guess', uiCount + 1, 1) := by
  obtain ⟨hname, hskip⟩ := nullFlagsField_skipped bTableType pArea uiNull
  obtain ⟨guess', hkeeps, hend⟩ := scanFields_fieldsEnd bTableType (uiCount + 1)
    (guessFlags uiCount (nullFlagsField pArea uiNull) guess)
  refine ⟨guess', hkeeps ?_, ?_⟩
  · rcases h with hzero | hbit
    · rw [guessFlags, if_neg (by simp [hzero])]
      exact stored_nullable
    · exact guessFlags_keeps hbit
  · simp only [scanFields, hname, if_false, hend, hskip, if_true, Nat.zero_add]

theorem openLoop_append {b' : DbfArea} (rest : List DbfField)
    (h : openLoop uiDecimals uiFlagsMask uiCount b ds = .ok b') :
    openLoop uiDecimals uiFlagsMask uiCount b (ds ++ rest) =
      openLoop uiDecimals uiFlagsMask (uiCount + ds.length) b' rest := by
  induction ds generalizing b uiCount with
  | nil =>
    obtain rfl := Except.ok.inj h
    rfl
  | cons d ds ih =>
    cases hstep : openStep uiDecimals uiFlagsMask uiCount b d with
    | error fault => simp [openLoop, hstep, bind, Except.bind] at h
    | ok mid =>
      have hrest : openLoop uiDecimals uiFlagsMask (uiCount + 1) mid ds = .ok b' := by
        simpa [openLoop, hstep, bind, Except.bind] using h
      rw [cons_append, openLoop, hstep]
      simp only [bind, Except.bind]
      rw [ih hrest, length_cons, Nat.add_right_comm uiCount 1 ds.length]
      rfl

theorem openStep_nullFlags {uiNull : Nat} (hroom : b.uiRecordLen + uiNull % 256 < 65536) :
    openStep uiDecimals uiFlagsMask uiCount b (nullFlagsField a uiNull) =
      .ok { b with
        uiNullOffset := b.uiRecordLen, uiRecordLen := b.uiRecordLen + uiNull % 256 } := by
  have hhidden : openHidden b (nullFlagsField a uiNull) =
      some { b with
        uiNullOffset := b.uiRecordLen, uiRecordLen := b.uiRecordLen + uiNull % 256 } := by
    have hflag : has Flag.hidden Flag.hidden = true := by decide
    simp only [openHidden, nullFlagsField, hflag, and_self, if_true, Nat.mod_eq_of_lt hroom]
    rw [if_pos (Nat.le_add_left _ _)]
  rw [openStep, hhidden]

theorem readDBHeader_written {h : Header} (hversion : h.bVersion = headerVersion a fEncrypted)
    (htags : h.bHasTags = if a.bTableType = .vfp ∧ a.fHasMemo ∧ a.bMemoType = .fpt then 0x02 else 0)
    (hvfp : a.bTableType = .vfp → a.fHasMemo = true → a.bMemoType = .fpt) :
    ∃ bMemoType fHasMemo fAutoInc,
      readDBHeader h = .ok (a.bTableType, bMemoType, fHasMemo, fAutoInc) ∧
      (a.fHasMemo = true → bMemoType = a.bMemoType) := by
  simp only [readDBHeader, hversion, htags, headerVersion]
  cases htable : a.bTableType with
  | std =>
    cases hmemo : a.fHasMemo <;> cases htype : a.bMemoType <;> cases fEncrypted <;>
      exact ⟨_, _, _, rfl, fun h => by first | rfl | cases h⟩
  | vfp =>
    cases hmemo : a.fHasMemo with
    | false => cases a.fAutoInc <;> exact ⟨_, _, _, rfl, fun h => by cases h⟩
    | true =>
      rw [hvfp htable hmemo]
      cases a.fAutoInc <;> exact ⟨_, _, _, rfl, fun _ => rfl⟩

theorem dbfCreate_cases (h : dbfCreate a fEncrypted = .ok (a', header)) :
    ∃ a₁ ds a₂ nullFlags nSize, headerSize a.bTableType a.fields.length + 32 ≤ 65535 ∧
      createLoop (startCreate a) a.fields = .ok (a₁, ds) ∧
      createNullFlags a₁ (headerSize a.bTableType a.fields.length) = .ok (a₂, nullFlags, nSize) ∧
      endCreate a₂ fEncrypted nSize (ds ++ nullFlags) = (a', header) := by
  simp only [dbfCreate] at h
  split at h
  · cases h
  · rename_i hsmall
    cases hloop : createLoop (startCreate a) a.fields with
    | error fault => simp [hloop, bind, Except.bind] at h
    | ok looped =>
      obtain ⟨a₁, ds⟩ := looped
      simp only [hloop, bind, Except.bind] at h
      cases hnull : createNullFlags a₁ (headerSize a.bTableType a.fields.length) with
      | error fault => simp [hnull] at h
      | ok ended =>
        obtain ⟨a₂, nullFlags, nSize⟩ := ended
        simp only [hnull, Except.ok.injEq] at h
        exact ⟨a₁, ds, a₂, nullFlags, nSize, Nat.le_of_not_lt hsmall, rfl, hnull, h⟩

theorem createNullFlags_cases (h : createNullFlags a₁ nSize = .ok (a₂, nullFlags, nSize')) :
    (a₁.uiNullCount = 0 ∧ a₂ = a₁ ∧ nullFlags = [] ∧ nSize' = nSize) ∨
      (a₁.uiNullCount ≠ 0 ∧ nullFlags = [nullFlagsField a₁ (nullFlagsLen a₁)] ∧
        nSize' = nSize + 32 ∧
        a₁.uiRecordLen ≤ (a₁.uiRecordLen + nullFlagsLen a₁) % 65536 ∧
        a₂ = { a₁ with
          uiNullOffset := a₁.uiRecordLen
          uiRecordLen := (a₁.uiRecordLen + nullFlagsLen a₁) % 65536 }) := by
  simp only [createNullFlags] at h
  split at h
  · rename_i hzero
    obtain ⟨rfl, rfl, rfl⟩ : a₁ = a₂ ∧ [] = nullFlags ∧ nSize = nSize' := by simpa using h
    exact Or.inl ⟨hzero, rfl, rfl, rfl⟩
  · rename_i hzero
    split at h
    · cases h
    · rename_i hfits
      obtain ⟨rfl, rfl, rfl⟩ := h
      exact Or.inr ⟨hzero, rfl, rfl, by omega, rfl⟩

theorem fieldsEnd_length (bTableType : TableType) :
    (fieldsEnd bTableType).length = if bTableType = .vfp then 8 else 0 := by
  cases bTableType <;> rfl

theorem dbfOpen_descriptors {fHasMemo fAutoInc : Bool} (decimals : Nat)
    (hread : readDBHeader header = .ok (bTableType, bMemoType, fHasMemo, fAutoInc))
    (hlen : header.uiHeaderLen = 32 + (headerSize bTableType ds.length + 32 * nullFlags.length))
    (hdescriptors : header.descriptors = ds ++ nullFlags ++ fieldsEnd bTableType)
    (hplain : ∀ d ∈ ds, d.bName.head? ≠ some 13 ∧ skipped bTableType d = false)
    (hnull : nullFlags = [] ∨ ∃ pArea uiNull, nullFlags = [nullFlagsField pArea uiNull]) :
    ∃ uiFlagsMask, (nullFlags ≠ [] → uiFlagsMask.testBit 1 = true) ∧
      dbfOpen header decimals =
        (openLoop (decimals % 65536) uiFlagsMask 0
          (startOpen bTableType bMemoType fHasMemo fAutoInc ds.length) (ds ++ nullFlags)).bind
          endOpen := by
  have hall : (header.uiHeaderLen - 32) / 32 = header.descriptors.length := by
    rw [hlen, hdescriptors, headerSize, length_append, length_append, fieldsEnd_length]
    split <;> omega
  have hstart : Guess.Usable ⟨Flag.stored, if bTableType = .vfp then Flag.stored else 0⟩ := by
    cases bTableType
    · exact Or.inl rfl
    · exact Or.inr stored_nullable
  obtain ⟨guess, husable, hscan⟩ :=
    scanFields_append hplain (nullFlags ++ fieldsEnd bTableType) 0 hstart
  obtain ⟨guess', hbit, hrest⟩ : ∃ guess' : Guess,
      (nullFlags ≠ [] → guess'.uiFlagsMask.testBit 1 = true) ∧
        scanFields bTableType (0 + ds.length) guess (nullFlags ++ fieldsEnd bTableType) =
          (guess', ds.length + nullFlags.length, nullFlags.length) := by
    rcases hnull with rfl | ⟨pArea, uiNull, rfl⟩
    · obtain ⟨guess', -, hend⟩ := scanFields_fieldsEnd bTableType (0 + ds.length) guess
      exact ⟨guess', fun h => absurd rfl h, by simpa using hend⟩
    · obtain ⟨guess', hbit, hend⟩ :=
        scanFields_nullFlags bTableType pArea uiNull (0 + ds.length) husable
      exact ⟨guess', fun _ => hbit, by simpa using hend⟩
  refine ⟨guess'.uiFlagsMask ||| guess'.uiFlags, fun hne => ?_, ?_⟩
  · rw [Nat.testBit_or, hbit hne, Bool.true_or]
  · have htake : header.descriptors.take header.descriptors.length =
        ds ++ (nullFlags ++ fieldsEnd bTableType) := by
      rw [take_length, hdescriptors, append_assoc]
    simp only [dbfOpen, hread, bind, Except.bind, hall, lt_irrefl, if_false, htake, hscan, hrest,
      Nat.add_sub_cancel]
    rw [← append_assoc, take_left' (by simp)]

def DbfArea.storageWidth (pArea : DbfArea) (i : Nat) : Nat :=
  let behind := if pArea.uiNullCount = 0 then pArea.uiRecordLen else pArea.uiNullOffset
  (pArea.fieldOffset ++ [behind]).getD (i + 1) 0 - pArea.fieldOffset.getD i 0

/-- Both work areas find the same values in a record. -/
structure SameLayout (a b : DbfArea) : Prop where
  count : b.fields.length = a.fields.length
  widths : ∀ i, b.storageWidth i = a.storageWidth i
  offsets : b.fieldOffset = a.fieldOffset
  bits : b.fieldBits = a.fieldBits
  nullCount : b.uiNullCount = a.uiNullCount
  nullOffset : b.uiNullOffset = a.uiNullOffset
  recordLen : b.uiRecordLen = a.uiRecordLen

section

variable (h : Alike uiDecimals a b)

include h

theorem SameLayout.of_alike : SameLayout a b where
  count := h.length
  widths i := by
    simp only [DbfArea.storageWidth, h.offsets, h.nullCount, h.recordLen, h.nullOffset]
  offsets := h.offsets
  bits := h.bits
  nullCount := h.nullCount
  nullOffset := h.nullOffset
  recordLen := h.recordLen

theorem Alike.of_memoType (bMemoType : MemoType) :
    Alike uiDecimals { a with bMemoType := bMemoType } b :=
  ⟨h.tableType, h.extent, h.offsets, h.recordLen, h.nullCount, h.nullOffset, h.bits, h.decimals⟩

end

theorem createNullFlags_reopens (h : createNullFlags a₁ nSize = .ok (a₂, nullFlags, nSize'))
    (hab : Alike uiDecimals a₁ b) (hbits : a₁.uiNullCount < 65536)
    (hrecord : a₁.uiRecordLen < 65536) (hpos : 1 ≤ a₁.uiRecordLen) :
    ∃ b', (openLoop uiDecimals uiFlagsMask uiCount b nullFlags).bind endOpen = .ok b' ∧
      if a₁.uiNullCount ≤ 2040 then Alike uiDecimals a₂ b'
      else b'.uiRecordLen < a₂.uiRecordLen := by
  rcases createNullFlags_cases h with ⟨hzero, rfl, rfl, -⟩ | ⟨hsome, rfl, -, hgrows, rfl⟩
  · refine ⟨b, ?_, ?_⟩
    · simp [openLoop, Except.bind, endOpen, hab.nullCount, hzero]
    · rw [if_pos (by omega)]
      exact hab
  · have hlen : nullFlagsLen a₁ = (a₁.uiNullCount + 7) / 8 := rfl
    have hfits : a₁.uiRecordLen + nullFlagsLen a₁ < 65536 := by omega
    have hroom : b.uiRecordLen + nullFlagsLen a₁ % 256 < 65536 := by
      rw [hab.recordLen]
      omega
    have hopen : (openLoop uiDecimals uiFlagsMask uiCount b
        [nullFlagsField a₁ (nullFlagsLen a₁)]).bind endOpen =
          .ok { b with
            uiNullOffset := b.uiRecordLen
            uiRecordLen := b.uiRecordLen + nullFlagsLen a₁ % 256 } := by
      simp only [openLoop, openStep_nullFlags hroom, bind, Except.bind, endOpen]
      rw [if_neg (by rw [hab.recordLen]; omega)]
    refine ⟨_, hopen, ?_⟩
    rw [Nat.mod_eq_of_lt hfits]
    split
    · refine ⟨hab.tableType, hab.extent, hab.offsets, ?_, hab.nullCount, hab.recordLen, hab.bits,
        hab.decimals⟩
      change b.uiRecordLen + nullFlagsLen a₁ % 256 = a₁.uiRecordLen + nullFlagsLen a₁
      rw [hab.recordLen]
      omega
    · change b.uiRecordLen + nullFlagsLen a₁ % 256 < a₁.uiRecordLen + nullFlagsLen a₁
      rw [hab.recordLen]
      omega

theorem createNullFlags_keeps (h : createNullFlags a₁ nSize = .ok (a₂, nullFlags, nSize')) :
    a₂.bTableType = a₁.bTableType ∧ a₂.bMemoType = a₁.bMemoType ∧ a₂.fHasMemo = a₁.fHasMemo ∧
      nSize' = nSize + 32 * nullFlags.length ∧ (a₁.uiNullCount ≠ 0 → nullFlags ≠ []) ∧
      (nullFlags = [] ∨ ∃ pArea uiNull, nullFlags = [nullFlagsField pArea uiNull]) := by
  rcases createNullFlags_cases h with ⟨hzero, rfl, rfl, rfl⟩ | ⟨hsome, rfl, rfl, -, rfl⟩
  · exact ⟨rfl, rfl, rfl, rfl, fun hne => absurd hzero hne, Or.inl rfl⟩
  · exact ⟨rfl, rfl, rfl, rfl, fun _ => by simp, Or.inr ⟨_, _, rfl⟩⟩

theorem endCreate_header {descriptors : List DbfField}
    (h : endCreate a₂ fEncrypted nSize descriptors = (a', header))
    (hvfp : a₂.bTableType = .vfp → a₂.bMemoType = .fpt) :
    (∃ bMemoType fHasMemo fAutoInc,
      readDBHeader header = .ok (a₂.bTableType, bMemoType, fHasMemo, fAutoInc) ∧
      (a₂.fHasMemo = true → bMemoType = a₂.bMemoType)) ∧
      header.uiHeaderLen = 32 + nSize ∧
      header.descriptors = descriptors ++ fieldsEnd a₂.bTableType ∧
      ∃ bMemoType, a' = { a₂ with bMemoType := bMemoType } := by
  simp only [endCreate, Prod.mk.injEq] at h
  obtain ⟨ha', hheader⟩ := h
  rw [ha'] at hheader
  obtain ⟨mt, hmt⟩ : ∃ bMemoType, a' = { a₂ with bMemoType := bMemoType } := by
    rw [← ha']
    split
    · exact ⟨a₂.bMemoType, rfl⟩
    · exact ⟨.none, rfl⟩
  have htable : a'.bTableType = a₂.bTableType := by rw [hmt]
  have hhas : a'.fHasMemo = a₂.fHasMemo := by rw [hmt]
  have hkept : a₂.fHasMemo = true → a'.bMemoType = a₂.bMemoType := by
    intro hmemo
    rw [← ha', if_pos hmemo]
  obtain ⟨bMemoType, fHasMemo, fAutoInc, hread, htype⟩ :=
    readDBHeader_written (a := a') (h := header) (by rw [← hheader]) (by rw [← hheader])
      (fun hv hmemo => by rw [hkept (hhas ▸ hmemo), hvfp (htable ▸ hv)])
  rw [htable] at hread
  refine ⟨⟨bMemoType, fHasMemo, fAutoInc, hread, fun hmemo => ?_⟩, ?_, ?_, mt, hmt⟩
  · rw [htype (hhas.trans hmemo), hkept hmemo]
  · rw [← hheader]
  · rw [← hheader, ← htable]

theorem fieldBitCount_sum_le (fields : List Field) :
    (fields.map fieldBitCount).sum ≤ 2 * fields.length := by
  induction fields with
  | nil => exact le_rfl
  | cons f fields ih =>
    have htwo : fieldBitCount f ≤ 1 + 1 := Nat.add_le_add (Bool.toNat_le _) (Bool.toNat_le _)
    rw [map_cons, sum_cons, length_cons]
    omega

theorem dbfOpen_fields (decimals : Nat) (hfields : createFields bTableType bMemoType infos = .ok a)
    (hstore : ∀ f ∈ a.fields, Storable bTableType f)
    (hcreate : dbfCreate a fEncrypted = .ok (a', header)) :
    ∃ a₁ a₂ b nullFlags nSize nSize' uiFlagsMask uiCount,
      createNullFlags a₁ nSize = .ok (a₂, nullFlags, nSize') ∧
      (∃ bMemoType, a' = { a₂ with bMemoType := bMemoType }) ∧ Alike (decimals % 65536) a₁ b ∧
      a₁.uiNullCount = (a.fields.map fieldBitCount).sum ∧ a₁.uiNullCount < 65536 ∧
      1 ≤ a₁.uiRecordLen ∧ a₁.uiRecordLen < 65536 ∧
      dbfOpen header decimals =
        (openLoop (decimals % 65536) uiFlagsMask uiCount b nullFlags).bind endOpen := by
  have hprepared := createFields_prepared hfields
  obtain ⟨a₁, ds, a₂, nullFlags, nSize, hsmall, hloop, hnull, hend⟩ := dbfCreate_cases hcreate
  have htable : (startCreate a).bTableType = bTableType := hprepared.tableType
  have hdecimals : decimals % 65536 < 65536 := Nat.mod_lt _ (by decide)
  rw [← htable] at hstore
  obtain ⟨hturned, -, hds, hplain⟩ := createLoop_turned hloop hprepared.short hstore
    (show 1 < 65536 by decide) (show 0 < 65536 by decide)
  have hcount : a₁.uiNullCount = (a.fields.map fieldBitCount).sum := by
    have hsum := fieldBitCount_sum_le a.fields
    rw [headerSize] at hsmall
    rw [hturned.nullCount]
    change (0 + (a.fields.map fieldBitCount).sum) % 65536 = _
    omega
  obtain ⟨htable₂, hmemo₂, hhas₂, hsize, hsome, hshape⟩ := createNullFlags_keeps hnull
  have htableA : a.bTableType = bTableType := hprepared.tableType
  have hall : a₂.bTableType = bTableType := by
    rw [htable₂, hturned.tableType]
    exact htable
  have hvfp : a₂.bTableType = .vfp → a₂.bMemoType = .fpt := by
    intro hv
    rw [hmemo₂, hturned.memoType]
    exact if_pos (htableA.trans (hall.symm.trans hv))
  obtain ⟨⟨mt, fHasMemo, fAutoInc, hread, hkept⟩, hlen, hdescriptors, hmt⟩ :=
    endCreate_header hend hvfp
  rw [hall] at hread hdescriptors
  rw [htable] at hplain
  obtain ⟨uiFlagsMask, hmask, hopen⟩ :=
    dbfOpen_descriptors decimals hread (by rw [hlen, hsize, htableA, hds]) hdescriptors hplain
      hshape
  have hstart : Alike (decimals % 65536) (startCreate a)
      (startOpen bTableType mt fHasMemo fAutoInc ds.length) :=
    ⟨htable.symm, hds.trans hprepared.extent.symm, rfl, rfl, rfl, hprepared.nullOffset.symm,
      hprepared.bits.symm, rfl⟩
  have hnulls : ∀ f ∈ a.fields, has f.uiFlags Flag.nullable → uiFlagsMask.testBit 1 := by
    intro f hf hnullable
    apply hmask
    apply hsome
    have hone : 1 ≤ fieldBitCount f := by
      rw [fieldBitCount, hnullable, Bool.toNat_true]
      omega
    have hle := le_sum_of_mem (mem_map_of_mem (f := fieldBitCount) hf)
    omega
  have hmemos : ∀ f ∈ a.fields, f.uiType.keepsMemo →
      (startOpen bTableType mt fHasMemo fAutoInc ds.length).bMemoType =
        (startCreate a).bMemoType := by
    intro f hf hkeeps
    change mt = (startCreate a).bMemoType
    rw [hkept, hmemo₂, hturned.memoType]
    rw [hhas₂]
    apply hturned.hasMemo
    rw [Bool.or_eq_true]
    exact Or.inr (any_eq_true.mpr ⟨f, hf, hkeeps⟩)
  obtain ⟨b, hloop₁, hab⟩ := createLoop_reopens hstart hloop hprepared.short hstore hdecimals
    (show 1 < 65536 by decide) (show 0 < 65536 by decide) hnulls hmemos
    (by simp [startCreate, hprepared.extent])
  change openLoop _ _ 0 _ ds = _ at hloop₁
  refine ⟨a₁, a₂, b, nullFlags, _, nSize, uiFlagsMask, 0 + ds.length, hnull, hmt, hab, hcount,
    hturned.nullCount ▸ Nat.mod_lt _ (by decide), hturned.grows, hturned.recordLen, ?_⟩
  rw [hopen, openLoop_append nullFlags hloop₁]

/-- A table keeps its structure when it is closed and opened again, as far as its descriptors can
hold it; the decimals are those that are stored. -/
theorem dbfOpen_restores {bTableType : TableType} {bMemoType : MemoType} {infos : List DbFieldInfo}
    {a a' : DbfArea} {header : Header} (fEncrypted : Bool) (decimals : Nat)
    (hfields : createFields bTableType bMemoType infos = .ok a)
    (hstore : ∀ f ∈ a.fields, Storable bTableType f)
    (hbits : (a.fields.map fieldBitCount).sum ≤ 2040)
    (hcreate : dbfCreate a fEncrypted = .ok (a', header)) :
    ∃ b, dbfOpen header decimals = .ok b ∧ SameLayout a' b ∧
      b.fields.map Field.uiDec = a'.fields.map (readDecimals (decimals % 65536)) := by
  obtain ⟨a₁, a₂, b, nullFlags, nSize, nSize', uiFlagsMask, uiCount, hnull, ⟨mt, rfl⟩, hab, hcount,
    hshort, hpos, hrecord, hopen⟩ := dbfOpen_fields decimals hfields hstore hcreate
  obtain ⟨b', hb', hab'⟩ := createNullFlags_reopens hnull hab hshort hrecord hpos
  rw [if_pos (by omega)] at hab'
  exact ⟨b', hopen.trans hb', SameLayout.of_alike (hab'.of_memoType mt),
    (hab'.of_memoType mt).decimals⟩

theorem dbfOpen_restores_mixed :
    ∃ a a' header b,
      createFields .std .dbt [⟨[65], .string, 300, 0, Flag.nullable⟩, ⟨[66], .memo, 4, 0, 0⟩,
        ⟨[67], .varlength, 20, 0, Flag.nullable ||| Flag.binary⟩, ⟨[68], .double, 8, 0, 0⟩] =
          .ok a ∧ dbfCreate a false = .ok (a', header) ∧ dbfOpen header 2 = .ok b ∧
        SameLayout a' b ∧
        b.fields.map Field.uiDec = a'.fields.map (readDecimals (2 % 65536)) := by
  obtain ⟨a, a', header, hfields, hstore, hbits, hcreate⟩ : ∃ a a' header,
      createFields .std .dbt [⟨[65], .string, 300, 0, Flag.nullable⟩, ⟨[66], .memo, 4, 0, 0⟩,
        ⟨[67], .varlength, 20, 0, Flag.nullable ||| Flag.binary⟩, ⟨[68], .double, 8, 0, 0⟩] =
          .ok a ∧ (∀ f ∈ a.fields, Storable .std f) ∧
        (a.fields.map fieldBitCount).sum ≤ 2040 ∧ dbfCreate a false = .ok (a', header) := by
    refine ⟨_, _, _, rfl, ?_, ?_, rfl⟩
    · intro f hf
      change f ∈ [_, _, _, _] at hf
      simp only [mem_cons, not_mem_nil, or_false] at hf
      rcases hf with rfl | rfl | rfl | rfl
      · exact ⟨(nomatch ·), trivial⟩
      · exact ⟨(nomatch ·), trivial⟩
      · exact ⟨(nomatch ·), show has 6 Flag.unicode = false by decide⟩
      · exact ⟨(nomatch ·), Nat.zero_le 255⟩
    · decide
  obtain ⟨b, hopen, hlayout, hdecimals⟩ := dbfOpen_restores false 2 hfields hstore hbits hcreate
  exact ⟨a, a', header, b, hfields, hcreate, hopen, hlayout, hdecimals⟩

theorem dbfOpen_loses_nullFlags (hfields : createFields bTableType bMemoType infos = .ok a)
    (hstore : ∀ f ∈ a.fields, Storable bTableType f)
    (hbits : 2040 < (a.fields.map fieldBitCount).sum)
    (hcreate : dbfCreate a fEncrypted = .ok (a', header))
    (hopened : dbfOpen header decimals = .ok b) : b.uiRecordLen < a'.uiRecordLen := by
  obtain ⟨a₁, a₂, b₁, nullFlags, nSize, nSize', uiFlagsMask, uiCount, hnull, ⟨mt, rfl⟩, hab, hcount,
    hshort, hpos, hrecord, hopen⟩ := dbfOpen_fields decimals hfields hstore hcreate
  obtain ⟨b', hb', hless⟩ := createNullFlags_reopens hnull hab hshort hrecord hpos
  rw [if_neg (by omega)] at hless
  obtain rfl := Except.ok.inj (hopened.symm.trans (hopen.trans hb'))
  exact hless

/-- Every work area that is created with these fields is opened with the same structure, decimals
included. -/
def Restores (bTableType : TableType) (bMemoType : MemoType) (infos : List DbFieldInfo)
    (decimals : Nat) : Prop :=
  ∀ a a' header, createFields bTableType bMemoType infos = .ok a →
    dbfCreate a false = .ok (a', header) →
    ∃ b, dbfOpen header decimals = .ok b ∧ SameLayout a' b ∧
      b.fields.map Field.uiDec = a'.fields.map Field.uiDec

def DbfArea.view (pArea : DbfArea) : List Nat × List Nat × Nat × Nat × Option (List FieldBits) :=
  (pArea.fields.map Field.uiDec, pArea.fieldOffset, pArea.uiRecordLen, pArea.uiNullOffset,
    pArea.fieldBits)

def reopenedViews (bTableType : TableType) (bMemoType : MemoType) (infos : List DbFieldInfo)
    (decimals : Nat) :=
  match createFields bTableType bMemoType infos with
  | .error _ => none
  | .ok a =>
    match dbfCreate a false with
    | .error _ => none
    | .ok (a', header) => some (a'.view, (dbfOpen header decimals).toOption.map DbfArea.view)

theorem not_restores
    (h : (reopenedViews bTableType bMemoType infos decimals).any fun v => v.2 != some v.1) :
    ¬ Restores bTableType bMemoType infos decimals := by
  intro hrestores
  simp only [reopenedViews] at h
  cases hfields : createFields bTableType bMemoType infos with
  | error fault => simp [hfields] at h
  | ok a =>
    cases hcreate : dbfCreate a false with
    | error fault => simp [hfields, hcreate] at h
    | ok created =>
      obtain ⟨a', header⟩ := created
      obtain ⟨b, hopen, hlayout, hdecimals⟩ := hrestores a a' header hfields hcreate
      have hview : b.view = a'.view := by
        rw [DbfArea.view, DbfArea.view, hlayout.offsets, hlayout.recordLen, hlayout.nullOffset,
          hlayout.bits, hdecimals]
      simp [hfields, hcreate, hopen, hview, Except.toOption] at h

theorem dbfOpen_changes :
    ¬ Restores .std .fpt [⟨[65], .double, 8, 0, 0⟩] 2 ∧
      ¬ Restores .std .fpt [⟨[65], .date, 8, 1, 0⟩] 0 ∧
      ¬ Restores .std .fpt [⟨[65], .varlength, 8, 0, Flag.unicode⟩] 0 ∧
      ¬ Restores .std .fpt [⟨[65], .any, 300, 0, 0⟩] 0 ∧
      ¬ Restores .std .fpt [⟨[65], .long, 300, 0, 0⟩] 0 ∧
      ¬ Restores .std .fpt [⟨[65], .long, 10, 256, 0⟩] 0 ∧
      ¬ Restores .vfp .fpt [⟨[65], .date, 8, 0, Flag.hidden⟩] 0 :=
  ⟨not_restores (by decide), not_restores (by decide), not_restores (by decide),
    not_restores (by decide), not_restores (by decide), not_restores (by decide),
    not_restores (by decide)⟩

end Harbour.Rdd.DbfStructure
