import Harbour.Rdd.DbfOpen

/-!
A descriptor that was written for a field is read as a field of the same width.
-/

namespace Harbour.Rdd.DbfStructure

variable {pArea : DbfArea} {pField : Field} {written : Written} {uiDecimals uiFlagsMask : Nat}

/-- Fields that their descriptors can hold: lengths and decimals of one byte fit it, no field is a
hidden one of Visual FoxPro, and none is a Unicode text of variable length. -/
def Storable (bTableType : TableType) (pField : Field) : Prop :=
  (bTableType = .vfp → has pField.uiFlags Flag.hidden = false) ∧
    match pField.uiType with
    | .long | .float => pField.uiLen ≤ 255 ∧ pField.uiDec ≤ 255
    | .integer | .currency | .double | .curdouble => pField.uiDec ≤ 255
    | .any => pField.uiLen ≤ 255
    | .varlength => has pField.uiFlags Flag.unicode = false
    | _ => True

def readDecimals (uiDecimals : Nat) (pField : Field) : Nat :=
  match pField.uiType with
  | .long | .float | .integer | .currency => pField.uiDec
  | .double | .curdouble => if pField.uiDec = 0 then uiDecimals else pField.uiDec
  | _ => 0

def FieldType.keepsMemo : FieldType → Bool
  | .memo | .image | .blob | .ole => true
  | _ => false

structure FlagsOf (pField : Field) (uiFlagsMask bFieldFlags : Nat) : Prop where
  nulls : (bFieldFlags &&& uiFlagsMask).testBit 1 = pField.uiFlags.testBit 1
  narrow : bFieldFlags.testBit 6 = false

theorem startField_testBit {i : Nat} (hi : i < 8) :
    (startField pArea pField).bFieldFlags.testBit i =
      (pField.uiFlags.testBit i && Flag.stored.testBit i) := by
  change ((pField.uiFlags % 2 ^ 8) &&& Flag.stored).testBit i = _
  rw [Nat.testBit_and, Nat.testBit_mod_two_pow]
  simp [hi]

theorem startField_flags (hmask : has pField.uiFlags Flag.nullable → uiFlagsMask.testBit 1) :
    FlagsOf pField uiFlagsMask (startField pArea pField).bFieldFlags := by
  have hone : Flag.stored.testBit 1 = true := by decide
  have hsix : Flag.stored.testBit 6 = false := by decide
  constructor
  · rw [Nat.testBit_and, startField_testBit (by decide), hone, Bool.and_true]
    rw [has_nullable] at hmask
    cases hnull : pField.uiFlags.testBit 1 with
    | false => rfl
    | true => rw [hmask hnull]; rfl
  · rw [startField_testBit (by decide), hsix, Bool.and_false]

variable {bFieldFlags uiDec uiLen : Nat} {read : Read} {bType : Char} {uiType : FieldType}

theorem FlagsOf.binary (h : FlagsOf pField uiFlagsMask bFieldFlags) :
    FlagsOf pField uiFlagsMask (bFieldFlags ||| Flag.binary) := by
  have hone : Flag.binary.testBit 1 = false := by decide
  have hsix : Flag.binary.testBit 6 = false := by decide
  constructor
  · rw [← h.nulls, Nat.testBit_and, Nat.testBit_or, hone, Bool.or_false, Nat.testBit_and]
  · rw [Nat.testBit_or, h.narrow, hsix, Bool.or_false]

/-- What is read agrees with what was written; `bMemoType` is the memo format of the table that is
opened. -/
structure Agrees (bMemoType : MemoType) (uiDecimals : Nat) (pField : Field) (written : Written)
    (read : Read) : Prop where
  name : read.info.atomName = written.descriptor.bName.take 10
  length : read.fLength = written.fLength
  nulls : has read.info.uiFlags Flag.nullable = has pField.uiFlags Flag.nullable
  width : (memoInfo bMemoType read.info).uiLen + unicodeExtra (memoInfo bMemoType read.info) =
    written.uiLen
  decimals : read.info.uiDec % 65536 = readDecimals uiDecimals written.field

theorem memoInfo_of_not_keepsMemo {bMemoType : MemoType} {info : DbFieldInfo}
    (h : info.uiType.keepsMemo = false) : memoInfo bMemoType info = info := by
  cases info with
  | mk atomName uiType uiLen uiDec uiFlags =>
    cases uiType <;> first | rfl | cases h

section

variable {bMemoType : MemoType} {info : DbFieldInfo} (h : info.uiType.keepsMemo = true)

include h

theorem memoInfo_unicodeExtra : unicodeExtra (memoInfo bMemoType info) = 0 := by
  cases info with
  | mk atomName uiType uiLen uiDec uiFlags =>
    cases uiType <;> simp [FieldType.keepsMemo, memoInfo, unicodeExtra] at h ⊢

theorem memoInfo_uiLen :
    (memoInfo bMemoType info).uiLen = if bMemoType = .smt then 10 else info.uiLen := by
  cases info with
  | mk atomName uiType uiLen uiDec uiFlags =>
    cases uiType <;> first | rfl | cases h

end

theorem agrees_plain {bMemoType : MemoType}
    (hname : read.info.atomName = written.descriptor.bName.take 10)
    (hnulls : read.info.uiFlags.testBit 1 = pField.uiFlags.testBit 1)
    (hnarrow : read.info.uiFlags.testBit 6 = false ∨
      (read.info.uiType ≠ .string ∧ read.info.uiType ≠ .varlength))
    (htype : read.info.uiType.keepsMemo = false) (hlength : read.fLength = written.fLength)
    (hlen : read.info.uiLen = written.uiLen)
    (hdec : read.info.uiDec % 65536 = readDecimals uiDecimals written.field) :
    Agrees bMemoType uiDecimals pField written read where
  name := hname
  length := hlength
  nulls := by rw [has_nullable, has_nullable, hnulls]
  width := by
    have hextra : unicodeExtra read.info = 0 := by
      rcases hnarrow with hnarrow | ⟨hstring, hvar⟩
      · rw [unicodeExtra, has_unicode, hnarrow]
        rfl
      · rw [unicodeExtra]
        split
        · split
          · exact absurd ‹_› hstring
          · exact absurd ‹_› hvar
          · rfl
        · rfl
    rw [memoInfo_of_not_keepsMemo htype, hextra, hlen, Nat.add_zero]
  decimals := hdec

theorem agrees_memo {bMemoType : MemoType} {uiFlags : Nat} {start : DbfField}
    (hnulls : uiFlags.testBit 1 = pField.uiFlags.testBit 1) (htype : uiType.keepsMemo = true)
    (hfield : pField.uiType.keepsMemo = true) (hmemo : bMemoType = pArea.bMemoType) :
    Agrees bMemoType uiDecimals pField (writeMemo pArea pField bType start)
      (readMemo (writeMemo pArea pField bType start).descriptor uiFlags uiType) where
  name := rfl
  length := rfl
  nulls := by
    rw [has_nullable, has_nullable]
    exact hnulls
  width := by
    rw [memoInfo_unicodeExtra htype, memoInfo_uiLen htype, hmemo]
    simp only [readMemo, readAs, writeMemo, writeAs]
    split <;> rename_i hsmt
    · simp [hsmt]
    · simp only [hsmt, or_false, Nat.add_zero]
      split
      · rfl
      · omega
  decimals := by
    rw [readDecimals]
    split <;> simp_all [writeMemo, writeAs, readMemo, readAs, FieldType.keepsMemo]

theorem nextValueInit_members (d : DbfField) (f : Field) :
    (nextValueInit d f).bName = d.bName ∧ (nextValueInit d f).bType = d.bType ∧
      (nextValueInit d f).bLen = d.bLen ∧ (nextValueInit d f).bDec = d.bDec ∧
      (nextValueInit d f).bFieldFlags = d.bFieldFlags := by
  rw [nextValueInit]
  split <;> exact ⟨rfl, rfl, rfl, rfl, rfl⟩

theorem writeNumber_descriptor (f : Field) (bType : Char) (start : DbfField) :
    let d := (writeNumber f bType start).descriptor
    d.bName = start.bName ∧ d.bType = bType ∧ d.bLen = f.uiLen % 256 ∧
      d.bDec = f.uiDec % 256 ∧ d.bFieldFlags = start.bFieldFlags := by
  rw [writeNumber]
  split
  · exact nextValueInit_members _ f
  · exact ⟨rfl, rfl, rfl, rfl, rfl⟩

theorem writeNumber_members (f : Field) (bType : Char) (start : DbfField) :
    (writeNumber f bType start).field = f ∧
      (writeNumber f bType start).uiLen = f.uiLen ∧
      (writeNumber f bType start).fLength = false := by
  rw [writeNumber]
  split <;> exact ⟨rfl, rfl, rfl⟩

theorem agrees_number {bMemoType : MemoType} {start : DbfField}
    (hflags : FlagsOf pField uiFlagsMask start.bFieldFlags)
    (htype : uiType ≠ .string ∧ uiType ≠ .varlength) (hmemo : uiType.keepsMemo = false)
    (hdec : uiDec % 65536 = readDecimals uiDecimals pField) :
    let written := writeNumber { pField with uiLen := uiLen } bType start
    Agrees bMemoType uiDecimals pField written
      (readAs written.descriptor (written.descriptor.bFieldFlags &&& uiFlagsMask) uiType uiLen
        uiDec) := by
  intro written
  obtain ⟨-, -, -, -, hdescriptor⟩ :=
    writeNumber_descriptor { pField with uiLen := uiLen } bType start
  obtain ⟨hfield, hlen, hlength⟩ :=
    writeNumber_members { pField with uiLen := uiLen } bType start
  refine agrees_plain rfl ?_ (Or.inr htype) hmemo hlength.symm hlen.symm ?_
  · change (written.descriptor.bFieldFlags &&& uiFlagsMask).testBit 1 = _
    rw [hdescriptor, hflags.nulls]
  · change uiDec % 65536 = readDecimals uiDecimals written.field
    rw [hfield, hdec]
    rfl

theorem FlagsOf.narrow_masked (h : FlagsOf pField uiFlagsMask bFieldFlags) :
    (bFieldFlags &&& uiFlagsMask).testBit 6 = false := by
  rw [Nat.testBit_and, h.narrow, Bool.false_and]

theorem FlagsOf.nulls_or {more : Nat} (h : FlagsOf pField uiFlagsMask bFieldFlags)
    (hmore : more.testBit 1 = false) :
    ((bFieldFlags &&& uiFlagsMask) ||| more).testBit 1 = pField.uiFlags.testBit 1 := by
  rw [Nat.testBit_or, h.nulls, hmore, Bool.or_false]

/-- The flags of the descriptor that a field starts with, whether it is binary or not. -/
structure Start (pField : Field) (uiFlagsMask : Nat) (start : DbfField) : Prop where
  plain : FlagsOf pField uiFlagsMask start.bFieldFlags
  binary : FlagsOf pField uiFlagsMask (setBinary start).bFieldFlags

variable {bMemoType : MemoType} {start : DbfField}

theorem integerLen_le (uiLen : Nat) : integerLen uiLen ≤ 8 := by
  rw [integerLen]
  split <;> omega

theorem integerLen_integerLen (uiLen : Nat) : integerLen (integerLen uiLen) = integerLen uiLen := by
  simp only [integerLen]
  split_ifs <;> omega

def Reads (pArea : DbfArea) (bMemoType : MemoType) (uiDecimals uiFlagsMask : Nat) (pField : Field)
    (written : Written) : Prop :=
  ∃ read, readField pArea.bTableType uiDecimals uiFlagsMask written.descriptor = .ok read ∧
    Agrees bMemoType uiDecimals pField written read

theorem reads_number (uiType : FieldType) (uiDec : Nat)
    (hstart : FlagsOf pField uiFlagsMask start.bFieldFlags)
    (hread : ∀ d : DbfField, d.bType = bType → d.bLen = uiLen % 256 → d.bDec = pField.uiDec % 256 →
      readField pArea.bTableType uiDecimals uiFlagsMask d =
        .ok (readAs d (d.bFieldFlags &&& uiFlagsMask) uiType uiLen uiDec))
    (htype : uiType ≠ .string ∧ uiType ≠ .varlength) (hmemo : uiType.keepsMemo = false)
    (hdec : uiDec % 65536 = readDecimals uiDecimals pField)
    (hwrite : writeNumber { pField with uiLen := uiLen } bType start = written) :
    Reads pArea bMemoType uiDecimals uiFlagsMask pField written := by
  obtain ⟨-, hchar, hlen, hd, -⟩ :=
    writeNumber_descriptor { pField with uiLen := uiLen } bType start
  subst hwrite
  exact ⟨_, hread _ hchar hlen hd, agrees_number hstart htype hmemo hdec⟩

theorem reads_plain (hstart : FlagsOf pField uiFlagsMask written.descriptor.bFieldFlags)
    (hread : readField pArea.bTableType uiDecimals uiFlagsMask written.descriptor = .ok read)
    (hinfo : read.info = ⟨written.descriptor.bName.take 10, uiType, uiLen, uiDec,
      written.descriptor.bFieldFlags &&& uiFlagsMask⟩) (htype : uiType.keepsMemo = false)
    (hlength : read.fLength = written.fLength) (hlen : uiLen = written.uiLen)
    (hdec : uiDec % 65536 = readDecimals uiDecimals written.field) :
    Reads pArea bMemoType uiDecimals uiFlagsMask pField written := by
  refine ⟨read, hread, agrees_plain ?_ ?_ (Or.inl ?_) ?_ hlength ?_ ?_⟩ <;> rw [hinfo]
  · exact hstart.nulls
  · exact hstart.narrow_masked
  · exact htype
  · exact hlen
  · exact hdec

section Types

variable (hstart : Start pField uiFlagsMask start)
  (hwrite : writeField pArea pField start = .ok written)

include hstart hwrite

theorem reads_string (hlen : pField.uiLen < 65536) (htype : pField.uiType = .string) :
    Reads pArea bMemoType uiDecimals uiFlagsMask pField written := by
  simp only [writeField, htype] at hwrite
  split at hwrite
  · have hwide (n : Nat) (hn : n ≤ 32767) :
        2 * n % 256 + 2 * n / 256 % 256 * 256 = 2 * n := by omega
    have hunicode : Flag.unicode.testBit 1 = false := by decide
    have hset (uiFlags : Nat) : (uiFlags ||| Flag.unicode).testBit 6 = true := by
      rw [Nat.testBit_or]
      exact Bool.or_true _
    have hread : readField pArea.bTableType uiDecimals uiFlagsMask written.descriptor =
        .ok (readAs written.descriptor ((start.bFieldFlags &&& uiFlagsMask) ||| Flag.unicode)
          .string (min pField.uiLen 32767) 0) := by
      rw [← Except.ok.inj hwrite]
      simp only [readField, writeText, hwide _ (Nat.min_le_right pField.uiLen 32767)]
      rw [if_neg (by omega), Nat.mul_div_cancel_left _ (by decide)]
    refine ⟨_, hread, rfl, ?_, ?_, ?_, ?_⟩
    · rw [← Except.ok.inj hwrite]
      rfl
    · rw [has_nullable, has_nullable]
      exact hstart.plain.nulls_or hunicode
    · rw [← Except.ok.inj hwrite, memoInfo_of_not_keepsMemo rfl, unicodeExtra, has_unicode]
      simp only [readAs, hset, if_true, writeText]
      omega
    · rw [← Except.ok.inj hwrite]
      simp [readDecimals, readAs, writeText, writeAs]
  · obtain rfl := Except.ok.inj hwrite
    refine reads_plain hstart.plain rfl rfl rfl rfl ?_ ?_
    · simp only [writeText]
      omega
    · simp [readDecimals, writeText, writeAs, htype]

theorem reads_varlength (hunicode : has pField.uiFlags Flag.unicode = false)
    (htype : pField.uiType = .varlength) :
    Reads pArea bMemoType uiDecimals uiFlagsMask pField written := by
  have hbinary : Flag.binary.testBit 1 = false ∧ Flag.binary.testBit 6 = false := by decide
  simp only [writeField, htype, hunicode] at hwrite
  obtain rfl := Except.ok.inj hwrite
  set uiLen := min (if pField.uiLen = 0 then 1 else pField.uiLen) 255
  have hbyte : uiLen % 256 = uiLen := Nat.mod_eq_of_lt (by omega)
  split_ifs with hv
  · refine reads_plain hstart.plain (by simp only [readField, writeText, hv.1, if_true]; rfl) rfl
      rfl rfl hbyte (by simp [readDecimals, writeText, writeAs])
  · refine ⟨_, rfl, agrees_plain rfl ?_ (Or.inl ?_) rfl rfl hbyte
      (by simp [readDecimals, readAs, writeText, writeAs])⟩
    · refine hstart.plain.nulls_or ?_
      split
      · exact hbinary.1
      · rw [Nat.testBit_and, hbinary.1, Bool.false_and]
    · change ((start.bFieldFlags &&& uiFlagsMask) ||| _).testBit 6 = false
      rw [Nat.testBit_or, hstart.plain.narrow_masked, Bool.false_or]
      split
      · exact hbinary.2
      · rw [Nat.testBit_and, hbinary.2, Bool.false_and]

theorem reads_any (hlen : pField.uiLen ≤ 255) (htype : pField.uiType = .any) :
    Reads pArea bMemoType uiDecimals uiFlagsMask pField written := by
  simp only [writeField, htype] at hwrite
  split at hwrite
  · cases hwrite
  · rename_i htable
    set uiLen := if pField.uiLen < 3 ∨ pField.uiLen = 5 then 6 else pField.uiLen with huiLen
    have hbyte : uiLen % 256 = uiLen := Nat.mod_eq_of_lt (by rw [huiLen]; split <;> omega)
    split at hwrite <;> obtain rfl := Except.ok.inj hwrite
    · exact reads_plain hstart.plain (by simp only [readField, writeText, if_neg htable]; rfl) rfl
        rfl rfl hbyte (by simp [readDecimals, writeText, writeAs])
    · exact reads_plain hstart.plain (by simp only [readField, writeText, if_neg htable]; rfl) rfl
        rfl rfl hbyte (by simp [readDecimals, writeText, writeAs])

theorem reads_integer (hdec : pField.uiDec ≤ 255)
    (htype : pField.uiType = .integer ∨ pField.uiType = .currency) :
    Reads pArea bMemoType uiDecimals uiFlagsMask pField written := by
  have hwrite : writeNumber { pField with uiLen := integerLen pField.uiLen }
      (if pArea.bTableType = .vfp ∧ pField.uiLen = 8 ∧ pField.uiDec = 4 then 'Y' else 'I')
      (setBinary start) = written := by
    rcases htype with htype | htype <;>
      simpa only [writeField, htype, Except.ok.injEq] using hwrite
  have hread : pField.uiDec % 65536 = readDecimals uiDecimals pField := by
    rcases htype with htype | htype <;>
      simp [readDecimals, htype, Nat.mod_eq_of_lt (show pField.uiDec < 65536 by omega)]
  have hlen := integerLen_le pField.uiLen
  split_ifs at hwrite with hcurrency
  · refine reads_number .currency pField.uiDec hstart.binary (fun d hchar hl hd => ?_) (by decide)
      rfl hread hwrite
    have height : integerLen pField.uiLen = 8 := by
      rw [hcurrency.2.1]
      rfl
    rw [Nat.mod_eq_of_lt (by omega)] at hl hd
    simp only [readField, hchar, hl, hd, height]
    rfl
  · refine reads_number .integer pField.uiDec hstart.binary (fun d hchar hl hd => ?_) (by decide)
      rfl hread hwrite
    rw [Nat.mod_eq_of_lt (by omega)] at hl hd
    simp only [readField, hchar, hl, hd, integerLen_integerLen]

theorem reads_double (hdec : pField.uiDec ≤ 255) (hdecimals : uiDecimals < 65536)
    (htype : pField.uiType = .double ∨ pField.uiType = .curdouble) :
    Reads pArea bMemoType uiDecimals uiFlagsMask pField written := by
  have hwrite : writeNumber { pField with uiLen := 8 } 'B' (setBinary start) = written := by
    rcases htype with htype | htype <;>
      simpa only [writeField, htype, Except.ok.injEq] using hwrite
  have hread : (if pField.uiDec = 0 then uiDecimals else pField.uiDec) % 65536 =
      readDecimals uiDecimals pField := by
    rcases htype with htype | htype <;> simp only [readDecimals, htype] <;> split <;> omega
  refine reads_number .double _ hstart.binary (fun d hchar hl hd => ?_) (by decide) rfl hread hwrite
  rw [Nat.mod_eq_of_lt (by omega)] at hl hd
  simp only [readField, hchar, hl, hd, ne_eq, not_true_eq_false, if_false]

theorem reads_memo (htype : pField.uiType.keepsMemo = true) (hmemo : bMemoType = pArea.bMemoType) :
    Reads pArea bMemoType uiDecimals uiFlagsMask pField written := by
  have hbinary : Flag.binary.testBit 1 = false := by decide
  have hunicode : Flag.unicode.testBit 1 = false := by decide
  cases hcase : pField.uiType with
  | memo =>
    simp only [writeField, hcase, Except.ok.injEq] at hwrite
    subst hwrite
    split
    · exact ⟨_, rfl, agrees_memo (hstart.plain.nulls_or hunicode) rfl htype hmemo⟩
    · exact ⟨_, rfl, agrees_memo hstart.plain.nulls rfl htype hmemo⟩
  | image | blob | ole =>
    simp only [writeField, hcase, Except.ok.injEq] at hwrite
    subst hwrite
    exact ⟨_, rfl, agrees_memo (hstart.binary.nulls_or hbinary) rfl htype hmemo⟩
  | _ => simp [hcase, FieldType.keepsMemo] at htype

end Types

theorem writeField_reads (hstart : Start pField uiFlagsMask start)
    (hwrite : writeField pArea pField start = .ok written)
    (hstore : Storable pArea.bTableType pField) (hlen : pField.uiLen < 65536)
    (hdec : pField.uiDec < 65536) (hdecimals : uiDecimals < 65536)
    (hmemo : pField.uiType.keepsMemo → bMemoType = pArea.bMemoType) :
    Reads pArea bMemoType uiDecimals uiFlagsMask pField written := by
  obtain ⟨-, hstore⟩ := hstore
  cases htype : pField.uiType with
  | none => simp [writeField, htype] at hwrite
  | string => exact reads_string hstart hwrite hlen htype
  | varlength => exact reads_varlength hstart hwrite (by simpa [htype] using hstore) htype
  | any => exact reads_any hstart hwrite (by simpa [htype] using hstore) htype
  | integer => exact reads_integer hstart hwrite (by simpa [htype] using hstore) (Or.inl htype)
  | currency => exact reads_integer hstart hwrite (by simpa [htype] using hstore) (Or.inr htype)
  | double =>
    exact reads_double hstart hwrite (by simpa [htype] using hstore) hdecimals (Or.inl htype)
  | curdouble =>
    exact reads_double hstart hwrite (by simpa [htype] using hstore) hdecimals (Or.inr htype)
  | memo | image | blob | ole =>
    exact reads_memo hstart hwrite (by rw [htype]; rfl) (hmemo (by rw [htype]; rfl))
  | long =>
    simp only [writeField, htype, Except.ok.injEq] at hwrite hstore
    refine reads_number .long pField.uiDec hstart.plain (fun d hchar hl hd => ?_) (by decide) rfl
      (by simp [readDecimals, htype, Nat.mod_eq_of_lt hdec]) hwrite
    rw [Nat.mod_eq_of_lt (by omega)] at hl hd
    simp only [readField, hchar, hl, hd]
  | float =>
    simp only [writeField, htype, Except.ok.injEq] at hwrite hstore
    refine reads_number .float pField.uiDec hstart.plain (fun d hchar hl hd => ?_) (by decide) rfl
      (by simp [readDecimals, htype, Nat.mod_eq_of_lt hdec]) hwrite
    rw [Nat.mod_eq_of_lt (by omega)] at hl hd
    simp only [readField, hchar, hl, hd]
  | logical =>
    simp only [writeField, htype, Except.ok.injEq] at hwrite
    subst hwrite
    exact reads_plain hstart.plain rfl rfl rfl rfl rfl (by simp [readDecimals, writeAs, htype])
  | date =>
    simp only [writeField, htype] at hwrite
    split at hwrite <;> obtain rfl := Except.ok.inj hwrite
    · rename_i hshort
      refine reads_plain hstart.binary rfl rfl rfl rfl ?_
        (by simp [readDecimals, writeAs, htype])
      rcases hshort with hshort | hshort <;> simp [writeAs, setBinary, hshort]
    · exact reads_plain hstart.plain rfl rfl rfl rfl rfl (by simp [readDecimals, writeAs])
  | timestamp =>
    simp only [writeField, htype, Except.ok.injEq] at hwrite
    subst hwrite
    split <;> exact reads_plain hstart.binary rfl rfl rfl rfl rfl
      (by simp [readDecimals, writeAs])
  | time | modtime | rowver =>
    simp only [writeField, htype, Except.ok.injEq] at hwrite
    subst hwrite
    exact reads_plain hstart.binary rfl rfl rfl rfl rfl (by simp [readDecimals, writeAs])
  | autoinc =>
    simp only [writeField, htype, Except.ok.injEq] at hwrite
    subst hwrite
    have hread (d : DbfField) (hchar : d.bType = '+') (hl : d.bLen = 4) :
        readField pArea.bTableType uiDecimals uiFlagsMask d =
          .ok { readAs d (d.bFieldFlags &&& uiFlagsMask) .autoinc 4 0 with fAutoInc := true } := by
      simp only [readField, hchar, readWidth, hl]
      rfl
    refine reads_plain ?_ (hread _ (nextValueInit_members _ _).2.1
      (nextValueInit_members _ _).2.2.1) rfl rfl rfl rfl (by simp [readDecimals, writeAs])
    exact hstart.binary

end Harbour.Rdd.DbfStructure
