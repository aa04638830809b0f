import Harbour.Rdd.DbfFieldRead

/-!
A table that was created is opened with the same structure.
-/

namespace Harbour.Rdd.DbfStructure

open List

structure Shaped (pField : Field) (start : DbfField) (written : Written) : Prop where
  name : written.descriptor.bName = start.bName
  type : written.descriptor.bType ≠ '0'
  hidden : has written.descriptor.bFieldFlags Flag.hidden = has start.bFieldFlags Flag.hidden
  width : written.uiLen < 65536
  length : written.fLength = decide (pField.uiType = .varlength)
  memo : pField.uiType.keepsMemo = true → written.fHasMemo = true

theorem setBinary_hidden (start : DbfField) :
    has (setBinary start).bFieldFlags Flag.hidden = has start.bFieldFlags Flag.hidden := by
  have hzero : Flag.binary.testBit 0 = false := by decide
  rw [has_hidden, has_hidden, setBinary, Nat.testBit_or, hzero, Bool.or_false]

variable {pField : Field} {start : DbfField} {written : Written}

variable {bType : Char} {begun d : DbfField} {f : Field} {a a' b pArea : DbfArea}
  {uiDecimals uiLen : Nat} {fLength : Bool} {ds : List DbfField} {fields : List Field}

theorem shaped_number (hname : begun.bName = start.bName)
    (hhidden : has begun.bFieldFlags Flag.hidden = has start.bFieldFlags Flag.hidden)
    (hlen : f.uiLen < 65536) (hchar : bType ≠ '0') (htype : pField.uiType ≠ .varlength)
    (hmemo : pField.uiType.keepsMemo = false) :
    Shaped pField start (writeNumber f bType begun) := by
  obtain ⟨hn, hc, -, -, hf⟩ := writeNumber_descriptor f bType begun
  obtain ⟨-, hl, hlength⟩ := writeNumber_members f bType begun
  refine ⟨hn.trans hname, ?_, ?_, hl ▸ hlen, hlength.trans (decide_eq_false htype).symm, ?_⟩
  · rw [hc]
    exact hchar
  · rw [hf, hhidden]
  · simp [hmemo]

theorem shaped_plain {bDec : Nat} (hname : begun.bName = start.bName)
    (hhidden : has begun.bFieldFlags Flag.hidden = has start.bFieldFlags Flag.hidden)
    (hlen : f.uiLen < 65536) (hchar : bType ≠ '0') (htype : pField.uiType ≠ .varlength)
    (hmemo : pField.uiType.keepsMemo = false) : Shaped pField start (writeAs f bType bDec begun) :=
  ⟨hname, hchar, hhidden, hlen, (decide_eq_false htype).symm, by simp [hmemo]⟩

theorem shaped_memo (hname : begun.bName = start.bName)
    (hhidden : has begun.bFieldFlags Flag.hidden = has start.bFieldFlags Flag.hidden)
    (hchar : bType ≠ '0') (htype : pField.uiType ≠ .varlength) :
    Shaped pField start (writeMemo pArea f bType begun) := by
  refine ⟨hname, hchar, hhidden, ?_, (decide_eq_false htype).symm, fun _ => rfl⟩
  simp only [writeMemo, writeAs]
  split <;> omega

theorem shaped_text (hlen : uiLen < 65536) (hchar : bType ≠ '0')
    (htype : pField.uiType ≠ .varlength) (hmemo : pField.uiType.keepsMemo = false) :
    Shaped pField start (writeText f bType uiLen start) :=
  ⟨rfl, hchar, rfl, hlen, (decide_eq_false htype).symm, by simp [hmemo]⟩

theorem writeField_shaped (hwrite : writeField pArea pField start = .ok written)
    (hlen : pField.uiLen < 65536) : Shaped pField start written := by
  have hbinary := setBinary_hidden start
  have hinteger := integerLen_le pField.uiLen
  have hone : (1 : Nat) < 65536 := by decide
  have hfour : (4 : Nat) < 65536 := by decide
  have height : (8 : Nat) < 65536 := by decide
  cases htype : pField.uiType <;>
    simp only [writeField, htype, Except.ok.injEq, reduceCtorEq] at hwrite
  case string =>
    split at hwrite <;> obtain rfl := Except.ok.inj hwrite
    · exact shaped_text (by omega) (by decide) (by simp [htype]) (by rw [htype]; rfl)
    · exact shaped_text hlen (by decide) (by simp [htype]) (by rw [htype]; rfl)
  case any =>
    split at hwrite
    · cases hwrite
    · set uiLen := if pField.uiLen < 3 ∨ pField.uiLen = 5 then 6 else pField.uiLen with huiLen
      have hshort : uiLen < 65536 := by
        rw [huiLen]
        split <;> omega
      split at hwrite <;> obtain rfl := Except.ok.inj hwrite
      · exact ⟨rfl, by simp [writeText], rfl, hshort, by simp [writeText, writeAs, htype],
          by simp [htype, FieldType.keepsMemo]⟩
      · exact shaped_text hshort (by decide) (by simp [htype]) (by rw [htype]; rfl)
  case varlength =>
    split at hwrite <;> obtain rfl := Except.ok.inj hwrite
    · refine ⟨rfl, by simp [writeText], rfl, ?_, by simp [htype],
        by simp [htype, FieldType.keepsMemo]⟩
      simp only [writeText]
      omega
    · refine ⟨rfl, ?_, rfl, ?_, by simp [htype], by simp [htype, FieldType.keepsMemo]⟩
      · simp only [writeText]
        split <;> decide
      · simp only [writeText]
        omega
  case date =>
    split at hwrite <;> obtain rfl := Except.ok.inj hwrite
    · exact shaped_plain rfl hbinary hlen (by decide) (by simp [htype]) (by rw [htype]; rfl)
    · exact shaped_plain rfl rfl height (by decide) (by simp [htype]) (by rw [htype]; rfl)
  all_goals subst hwrite
  case memo => exact shaped_memo rfl rfl (by split <;> decide) (by simp [htype])
  case image | blob | ole => exact shaped_memo rfl hbinary (by decide) (by simp [htype])
  case long | float =>
    exact shaped_number rfl rfl hlen (by decide) (by simp [htype]) (by rw [htype]; rfl)
  case double | curdouble =>
    exact shaped_number rfl hbinary height (by decide) (by simp [htype]) (by rw [htype]; rfl)
  case integer | currency =>
    exact shaped_number rfl hbinary (Nat.lt_of_le_of_lt hinteger (by decide))
      (by split <;> decide) (by simp [htype]) (by rw [htype]; rfl)
  case timestamp =>
    exact shaped_plain rfl hbinary height (by split <;> decide) (by simp [htype])
      (by rw [htype]; rfl)
  case time =>
    exact shaped_plain rfl hbinary hfour (by decide) (by simp [htype]) (by rw [htype]; rfl)
  case logical =>
    exact ⟨rfl, by simp, rfl, hone, by simp [writeAs, htype],
      by simp [htype, FieldType.keepsMemo]⟩
  case modtime =>
    exact ⟨rfl, show '=' ≠ '0' by decide, hbinary, height, by simp [writeAs, htype],
      by simp [htype, FieldType.keepsMemo]⟩
  case rowver =>
    exact ⟨rfl, show '^' ≠ '0' by decide, hbinary, height, by simp [writeAs, htype],
      by simp [htype, FieldType.keepsMemo]⟩
  case autoinc =>
    refine ⟨(nextValueInit_members _ _).1, ?_, ?_, hfour, by simp [writeAs, htype],
      by simp [htype, FieldType.keepsMemo]⟩
    · change (nextValueInit _ _).bType ≠ '0'
      exact (show '+' ≠ '0' by decide)
    · change has (nextValueInit _ _).bFieldFlags Flag.hidden = _
      exact hbinary

theorem allocNullFlag_frame {uiField : Nat} (h : allocNullFlag a uiField fLength = .ok a')
    (hextent : b.uiFieldExtent = a.uiFieldExtent) (hbits : b.fieldBits = a.fieldBits)
    (hcount : b.uiNullCount = a.uiNullCount) :
    a' = { a with fieldBits := a'.fieldBits, uiNullCount := a'.uiNullCount } ∧
      a'.uiNullCount = (a.uiNullCount + 1) % 65536 ∧
      allocNullFlag b uiField fLength =
        .ok { b with fieldBits := a'.fieldBits, uiNullCount := a'.uiNullCount } := by
  simp only [allocNullFlag, hextent, hbits, hcount] at h ⊢
  split at h
  · cases h
  · rename_i hroom
    obtain rfl := Except.ok.inj h
    rw [if_neg hroom]
    exact ⟨rfl, rfl, rfl⟩

theorem allocBits_frame {uiCount : Nat} {fNull : Bool}
    (h : allocBits a uiCount fLength fNull = .ok a') (hextent : b.uiFieldExtent = a.uiFieldExtent)
    (hbits : b.fieldBits = a.fieldBits) (hcount : b.uiNullCount = a.uiNullCount)
    (hbound : a.uiNullCount < 65536) :
    a' = { a with fieldBits := a'.fieldBits, uiNullCount := a'.uiNullCount } ∧
      a'.uiNullCount = (a.uiNullCount + fLength.toNat + fNull.toNat) % 65536 ∧
      allocBits b uiCount fLength fNull =
        .ok { b with fieldBits := a'.fieldBits, uiNullCount := a'.uiNullCount } := by
  cases fLength with
  | false =>
    cases fNull with
    | false =>
      obtain rfl := Except.ok.inj h
      refine ⟨rfl, (Nat.mod_eq_of_lt hbound).symm, ?_⟩
      rw [← hbits, ← hcount]
      rfl
    | true => exact allocNullFlag_frame h hextent hbits hcount
  | true =>
    cases hfirst : allocNullFlag a uiCount true with
    | error fault => simp [allocBits, hfirst, bind, Except.bind] at h
    | ok mid =>
      obtain ⟨hmid, hone, hb⟩ := allocNullFlag_frame hfirst hextent hbits hcount
      have hsecond : (if fNull then allocNullFlag mid uiCount false else .ok mid) = .ok a' := by
        simpa [allocBits, hfirst, bind, Except.bind] using h
      have hgo : allocBits b uiCount true fNull =
          if fNull then
            allocNullFlag
              { b with fieldBits := mid.fieldBits, uiNullCount := mid.uiNullCount } uiCount false
          else .ok { b with fieldBits := mid.fieldBits, uiNullCount := mid.uiNullCount } := by
        simp [allocBits, hb, bind, Except.bind]
      rw [hgo]
      cases fNull with
      | false =>
        obtain rfl := Except.ok.inj hsecond
        exact ⟨hmid, hone, rfl⟩
      | true =>
        have hextent' : b.uiFieldExtent = mid.uiFieldExtent := by
          rw [hmid]
          exact hextent
        obtain ⟨ha', htwo, hb'⟩ := allocNullFlag_frame
          (b := { b with fieldBits := mid.fieldBits, uiNullCount := mid.uiNullCount })
          hsecond hextent' rfl rfl
        refine ⟨?_, ?_, ?_⟩
        · rw [ha', hmid]
        · rw [htwo, hone]
          simp only [Bool.toNat_true]
          omega
        · simpa using hb'

theorem addField_fits {info : DbFieldInfo} {name : FieldName}
    (hname : fieldName? info.atomName = some name)
    (hroom : pArea.fields.length < pArea.uiFieldExtent)
    (hlen : (memoInfo pArea.bMemoType info).uiLen + unicodeExtra (memoInfo pArea.bMemoType info) =
      uiLen) (hfits : pArea.uiRecordLen + uiLen < 65536) :
    ∃ pField : Field, pField.uiDec = info.uiDec % 65536 ∧
      addField pArea info =
        .ok { pArea with
          fields := pArea.fields ++ [pField],
          fieldOffset := pArea.fieldOffset ++ [pArea.uiRecordLen],
          uiRecordLen := pArea.uiRecordLen + uiLen } := by
  have hmemoName : (memoInfo pArea.bMemoType info).atomName = info.atomName := by
    rw [memoInfo]
    split <;> rfl
  have hmemoDec : (memoInfo pArea.bMemoType info).uiDec = info.uiDec := by
    rw [memoInfo]
    split <;> rfl
  have hrecord : ((pArea.uiRecordLen + (memoInfo pArea.bMemoType info).uiLen) % 65536 +
      unicodeExtra (memoInfo pArea.bMemoType info)) % 65536 = pArea.uiRecordLen + uiLen := by
    omega
  refine ⟨⟨name, (memoInfo pArea.bMemoType info).uiType,
    (memoInfo pArea.bMemoType info).uiLen % 65536, info.uiDec % 65536,
    (memoInfo pArea.bMemoType info).uiFlags⟩, rfl, ?_⟩
  simp only [addField, hrecord]
  rw [if_neg (by omega), if_neg (by omega), waAddField, hmemoName, hname]
  simp only [hmemoDec]

def fieldBitCount (pField : Field) : Nat :=
  (decide (pField.uiType = .varlength)).toNat + (has pField.uiFlags Flag.nullable).toNat

theorem createStep_cases (h : createStep a pField = .ok (a', d)) :
    ∃ written, writeField a pField (startField a pField) = .ok written ∧
      a.uiRecordLen ≤ (placeField a written).uiRecordLen ∧
      allocBits (placeField a written) a.fields.length written.fLength
        (has pField.uiFlags Flag.nullable) = .ok a' ∧ d = written.descriptor := by
  cases hwrite : writeField a pField (startField a pField) with
  | error fault => simp [createStep, hwrite, bind, Except.bind] at h
  | ok written =>
    simp only [createStep, hwrite, bind, Except.bind] at h
    split at h
    · cases h
    · rename_i hfits
      cases hbits : allocBits (placeField a written) a.fields.length written.fLength
          (has pField.uiFlags Flag.nullable) with
      | error fault => simp [hbits] at h
      | ok placed =>
        simp only [hbits, Except.ok.injEq, Prod.mk.injEq] at h
        obtain ⟨rfl, rfl⟩ := h
        exact ⟨written, rfl, Nat.le_of_not_lt hfits, hbits, rfl⟩

theorem createStep_effect (h : createStep a pField = .ok (a', d)) (hlen : pField.uiLen < 65536)
    (hrecord : a.uiRecordLen < 65536) (hcount : a.uiNullCount < 65536) :
    ∃ written, writeField a pField (startField a pField) = .ok written ∧
      allocBits (placeField a written) a.fields.length written.fLength
        (has pField.uiFlags Flag.nullable) = .ok a' ∧
      Shaped pField (startField a pField) written ∧ d = written.descriptor ∧
      a.uiRecordLen + written.uiLen < 65536 ∧
      a'.uiNullCount = (a.uiNullCount + fieldBitCount pField) % 65536 ∧
      a' = { placeField a written with
        uiRecordLen := a.uiRecordLen + written.uiLen
        fieldBits := a'.fieldBits
        uiNullCount := a'.uiNullCount } := by
  obtain ⟨written, hwrite, hfits, hbits, hd⟩ := createStep_cases h
  have hshaped := writeField_shaped hwrite hlen
  obtain ⟨ha', hnull, -⟩ := allocBits_frame (b := placeField a written) hbits rfl rfl rfl hcount
  have hroom : a.uiRecordLen + written.uiLen < 65536 := by
    have hwidth := hshaped.width
    simp only [placeField] at hfits
    omega
  refine ⟨written, hwrite, hbits, hshaped, hd, hroom, ?_, ?_⟩
  · rw [hnull, fieldBitCount, hshaped.length, Nat.add_assoc]
    rfl
  · rw [ha']
    simp only [placeField, Nat.mod_eq_of_lt hroom]

structure Alike (uiDecimals : Nat) (a b : DbfArea) : Prop where
  tableType : b.bTableType = a.bTableType
  extent : b.uiFieldExtent = a.uiFieldExtent
  offsets : b.fieldOffset = a.fieldOffset
  recordLen : b.uiRecordLen = a.uiRecordLen
  nullCount : b.uiNullCount = a.uiNullCount
  nullOffset : b.uiNullOffset = a.uiNullOffset
  bits : b.fieldBits = a.fieldBits
  decimals : b.fields.map Field.uiDec = a.fields.map (readDecimals uiDecimals)

theorem Alike.length (h : Alike uiDecimals a b) :
    b.fields.length = a.fields.length := by
  simpa using congrArg List.length h.decimals

theorem openHidden_of_field (h : d.bType ≠ '0') :
    openHidden pArea d = none := by
  rw [openHidden, if_neg (fun hcontra => h hcontra.1)]

theorem createStep_reopens {uiFlagsMask : Nat} (hab : Alike uiDecimals a b)
    (hstep : createStep a pField = .ok (a', d)) (hstore : Storable a.bTableType pField)
    (hlen : pField.uiLen < 65536) (hdec : pField.uiDec < 65536) (hdecimals : uiDecimals < 65536)
    (hrecord : a.uiRecordLen < 65536) (hcount : a.uiNullCount < 65536)
    (hmask : has pField.uiFlags Flag.nullable → uiFlagsMask.testBit 1)
    (hmemo : pField.uiType.keepsMemo → b.bMemoType = a.bMemoType)
    (hroom : a.fields.length < a.uiFieldExtent) :
    ∃ b', openStep uiDecimals uiFlagsMask a.fields.length b d = .ok b' ∧
      Alike uiDecimals a' b' ∧ b'.bMemoType = b.bMemoType := by
  obtain ⟨written, hwrite, hbits, hshaped, rfl, hroom', -, ha'⟩ :=
    createStep_effect hstep hlen hrecord hcount
  have hflags : FlagsOf pField uiFlagsMask (startField a pField).bFieldFlags :=
    startField_flags hmask
  obtain ⟨read, hread, hagrees⟩ :=
    writeField_reads ⟨hflags, hflags.binary⟩ hwrite hstore hlen hdec hdecimals hmemo
  let b₁ : DbfArea :=
    { b with
      fHasMemo := b.fHasMemo || read.fHasMemo
      fModStamp := b.fModStamp || read.fModStamp
      fAutoInc := b.fAutoInc || read.fAutoInc
      fMemoSix := b.fMemoSix || read.fMemoSix }
  obtain ⟨-, -, halloc⟩ :=
    allocBits_frame (b := b₁) hbits hab.extent hab.bits hab.nullCount hcount
  let b₂ : DbfArea := { b₁ with fieldBits := a'.fieldBits, uiNullCount := a'.uiNullCount }
  have hname : read.info.atomName = pField.name.bytes := by
    rw [hagrees.name, hshaped.name]
    exact take_of_length_le pField.name.short
  obtain ⟨name, haccepted⟩ := pField.name.accepted
  have hroom₂ : b₂.fields.length < b₂.uiFieldExtent := by
    rw [hab.length, hab.extent]
    exact hroom
  have hfits₂ : b₂.uiRecordLen + written.uiLen < 65536 := by
    rw [hab.recordLen]
    exact hroom'
  obtain ⟨added, hadded, hadd⟩ :=
    addField_fits (hname ▸ haccepted) hroom₂ hagrees.width hfits₂
  have hopen : openStep uiDecimals uiFlagsMask a.fields.length b written.descriptor =
      addField b₂ read.info := by
    rw [← hab.tableType] at hread
    simp only [openStep, openHidden_of_field hshaped.type, hread, bind, Except.bind,
      hagrees.length, hagrees.nulls]
    exact congrArg (fun r => Except.bind r fun placed => addField placed read.info) halloc
  refine ⟨_, hopen.trans hadd, ⟨?_, ?_, ?_, ?_, rfl, ?_, rfl, ?_⟩, rfl⟩
  · rw [ha']
    exact hab.tableType
  · rw [ha']
    exact hab.extent
  · rw [ha']
    change b.fieldOffset ++ [b.uiRecordLen] = a.fieldOffset ++ [a.uiRecordLen]
    rw [hab.offsets, hab.recordLen]
  · rw [ha']
    rw [hab.recordLen]
  · rw [ha']
    exact hab.nullOffset
  · rw [ha']
    change (b.fields ++ [added]).map Field.uiDec =
      (a.fields ++ [written.field]).map (readDecimals uiDecimals)
    rw [map_append, map_append, hab.decimals, map_singleton, map_singleton,
      hadded, hagrees.decimals]

/-- What some turns of the loop of `hb_dbfCreate` do, `bits` being the bits of their fields and
`memo` whether one of them is kept in a memo file. -/
structure Turned (bits : Nat) (memo : Bool) (a a' : DbfArea) : Prop where
  tableType : a'.bTableType = a.bTableType
  memoType : a'.bMemoType = a.bMemoType
  extent : a'.uiFieldExtent = a.uiFieldExtent
  nullOffset : a'.uiNullOffset = a.uiNullOffset
  grows : a.uiRecordLen ≤ a'.uiRecordLen
  recordLen : a'.uiRecordLen < 65536
  nullCount : a'.uiNullCount = (a.uiNullCount + bits) % 65536
  hasMemo : (a.fHasMemo || memo) = true → a'.fHasMemo = true

theorem createStep_turned (h : createStep a pField = .ok (a', d)) (hlen : pField.uiLen < 65536)
    (hrecord : a.uiRecordLen < 65536) (hcount : a.uiNullCount < 65536) :
    Turned (fieldBitCount pField) pField.uiType.keepsMemo a a' ∧
      a'.fields.length = a.fields.length + 1 := by
  obtain ⟨written, -, -, hshaped, -, hroom, hnull, ha'⟩ := createStep_effect h hlen hrecord hcount
  refine ⟨⟨?_, ?_, ?_, ?_, ?_, ?_, hnull, ?_⟩, ?_⟩ <;> rw [ha']
  · rfl
  · rfl
  · rfl
  · rfl
  · exact Nat.le_add_right _ _
  · exact hroom
  · intro hmemo
    change (a.fHasMemo || written.fHasMemo) = true
    rw [Bool.or_eq_true] at hmemo ⊢
    exact hmemo.imp id hshaped.memo
  · simp [placeField]

theorem Turned.trans {bits bits' : Nat} {memo memo' : Bool} {a'' : DbfArea}
    (h : Turned bits memo a a') (h' : Turned bits' memo' a' a'') :
    Turned (bits + bits') (memo || memo') a a'' where
  tableType := h'.tableType.trans h.tableType
  memoType := h'.memoType.trans h.memoType
  extent := h'.extent.trans h.extent
  nullOffset := h'.nullOffset.trans h.nullOffset
  grows := h.grows.trans h'.grows
  recordLen := h'.recordLen
  nullCount := by
    rw [h'.nullCount, h.nullCount]
    omega
  hasMemo := by
    intro hmemo
    apply h'.hasMemo
    rw [← Bool.or_assoc, Bool.or_eq_true] at hmemo
    rw [Bool.or_eq_true]
    exact hmemo.imp h.hasMemo id

theorem createStep_plain (h : createStep a pField = .ok (a', d)) (hlen : pField.uiLen < 65536)
    (hrecord : a.uiRecordLen < 65536) (hcount : a.uiNullCount < 65536)
    (hstore : Storable a.bTableType pField) :
    d.bName.head? ≠ some 13 ∧ skipped a.bTableType d = false := by
  obtain ⟨written, -, -, hshaped, rfl, -, -, -⟩ := createStep_effect h hlen hrecord hcount
  constructor
  · rw [hshaped.name]
    intro hcontra
    obtain ⟨c, hc, -, hspace⟩ := pField.name.visible
    have hbytes : (startField a pField).bName = pField.name.bytes := rfl
    rw [← hbytes, hcontra] at hc
    obtain rfl : 13 = c := by simpa using hc
    exact absurd hspace (by decide)
  · cases htable : a.bTableType with
    | std => simp [skipped, hshaped.type]
    | vfp =>
      have hone : Flag.stored.testBit 0 = true := by decide
      have hhidden : has written.descriptor.bFieldFlags Flag.hidden = false := by
        rw [hshaped.hidden, has_hidden, startField_testBit (by decide), hone, Bool.and_true,
          ← has_hidden]
        exact hstore.1 htable
      rw [skipped, hhidden, Bool.false_and]

theorem createLoop_cons (h : createLoop a (pField :: fields) = .ok (a', ds)) :
    ∃ mid d ds', createStep a pField = .ok (mid, d) ∧ createLoop mid fields = .ok (a', ds') ∧
      ds = d :: ds' := by
  cases hstep : createStep a pField with
  | error fault => simp [createLoop, hstep, bind, Except.bind] at h
  | ok stepped =>
    obtain ⟨mid, d⟩ := stepped
    cases hloop : createLoop mid fields with
    | error fault => simp [createLoop, hstep, hloop, bind, Except.bind] at h
    | ok looped =>
      obtain ⟨last, ds'⟩ := looped
      simp only [createLoop, hstep, hloop, bind, Except.bind, Except.ok.injEq,
        Prod.mk.injEq] at h
      obtain ⟨rfl, rfl⟩ := h
      exact ⟨mid, d, ds', rfl, hloop, rfl⟩

def Field.Short (pField : Field) : Prop := pField.uiLen < 65536 ∧ pField.uiDec < 65536

theorem createLoop_turned (h : createLoop a fields = .ok (a', ds)) (hshort : ∀ f ∈ fields, f.Short)
    (hstore : ∀ f ∈ fields, Storable a.bTableType f) (hrecord : a.uiRecordLen < 65536)
    (hcount : a.uiNullCount < 65536) :
    Turned (fields.map fieldBitCount).sum (fields.any fun f => f.uiType.keepsMemo) a a' ∧
      a'.fields.length = a.fields.length + fields.length ∧ ds.length = fields.length ∧
      ∀ d ∈ ds, d.bName.head? ≠ some 13 ∧ skipped a.bTableType d = false := by
  induction fields generalizing a ds with
  | nil =>
    obtain ⟨rfl, rfl⟩ : a = a' ∧ [] = ds := by simpa [createLoop] using h
    refine ⟨⟨rfl, rfl, rfl, rfl, le_rfl, hrecord, (Nat.mod_eq_of_lt hcount).symm, ?_⟩, rfl, rfl,
      ?_⟩
    · simp
    · simp
  | cons f fields ih =>
    obtain ⟨mid, d, ds', hstep, hloop, rfl⟩ := createLoop_cons h
    have hlen := (hshort f mem_cons_self).1
    obtain ⟨hturn, hone⟩ := createStep_turned hstep hlen hrecord hcount
    have hplain := createStep_plain hstep hlen hrecord hcount (hstore f mem_cons_self)
    have hcount' : mid.uiNullCount < 65536 := hturn.nullCount ▸ Nat.mod_lt _ (by decide)
    obtain ⟨hturns, hmany, hds, hplains⟩ := ih hloop (fun g hg => hshort g (by simp [hg]))
      (fun g hg => hturn.tableType ▸ hstore g (by simp [hg])) hturn.recordLen hcount'
    refine ⟨by simpa using hturn.trans hturns, ?_, by simp [hds], ?_⟩
    · rw [hmany, hone, length_cons]
      omega
    · rw [hturn.tableType] at hplains
      rintro e (_ | ⟨_, he⟩)
      · exact hplain
      · exact hplains e he

theorem createLoop_reopens {m : Nat} (hab : Alike uiDecimals a b)
    (h : createLoop a fields = .ok (a', ds)) (hshort : ∀ f ∈ fields, f.Short)
    (hstore : ∀ f ∈ fields, Storable a.bTableType f) (hdecimals : uiDecimals < 65536)
    (hrecord : a.uiRecordLen < 65536) (hcount : a.uiNullCount < 65536)
    (hmask : ∀ f ∈ fields, has f.uiFlags Flag.nullable → m.testBit 1)
    (hmemo : ∀ f ∈ fields, f.uiType.keepsMemo → b.bMemoType = a.bMemoType)
    (hroom : a.fields.length + fields.length ≤ a.uiFieldExtent) :
    ∃ b', openLoop uiDecimals m a.fields.length b ds = .ok b' ∧
      Alike uiDecimals a' b' := by
  induction fields generalizing a b ds with
  | nil =>
    obtain ⟨rfl, rfl⟩ : a = a' ∧ [] = ds := by simpa [createLoop] using h
    exact ⟨b, rfl, hab⟩
  | cons f fields ih =>
    obtain ⟨mid, d, ds', hstep, hloop, rfl⟩ := createLoop_cons h
    obtain ⟨hlen, hdec⟩ := hshort f mem_cons_self
    rw [length_cons] at hroom
    obtain ⟨hturn, hone⟩ := createStep_turned hstep hlen hrecord hcount
    obtain ⟨b₁, hopen, hab₁, hmemo₁⟩ := createStep_reopens hab hstep
      (hstore f mem_cons_self) hlen hdec hdecimals hrecord hcount
      (hmask f mem_cons_self) (hmemo f mem_cons_self) (by omega)
    have hcount' : mid.uiNullCount < 65536 := hturn.nullCount ▸ Nat.mod_lt _ (by decide)
    obtain ⟨b', hrest, hab'⟩ := ih hab₁ hloop (fun g hg => hshort g (by simp [hg]))
      (fun g hg => hturn.tableType ▸ hstore g (by simp [hg])) hturn.recordLen hcount'
      (fun g hg => hmask g (by simp [hg]))
      (fun g hg hkeeps => by rw [hmemo₁, hturn.memoType, hmemo g (by simp [hg]) hkeeps])
      (by rw [hone, hturn.extent]; omega)
    refine ⟨b', ?_, hab'⟩
    rw [hone] at hrest
    simp only [openLoop, hopen, bind, Except.bind]
    exact hrest

end Harbour.Rdd.DbfStructure
