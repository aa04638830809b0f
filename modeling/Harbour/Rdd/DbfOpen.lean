import Harbour.Rdd.DbfCreate

/-!
How the header of a table is read: whether the field flags can be used is guessed from all
descriptors first, then each descriptor is added as a field.
-/

namespace Harbour.Rdd.DbfStructure

structure Guess where
  uiFlags : Nat
  uiFlagsMask : Nat
deriving DecidableEq, Repr

def beside (bFieldFlags known : Nat) : Bool := has bFieldFlags (0xFF ^^^ known)

/-- Types whose unused bytes have to be clear. -/
def guessPlain (uiCount : Nat) (pField : DbfField) (guess : Guess) : Guess :=
  if pField.bReserved1 ≠ 0 ∨ (uiCount > 0 ∧ pField.bReserved2 % 2 ^ 32 ≠ 0) ∨
      pField.bReserved2 / 2 ^ 32 ≠ 0 ∨ pField.bCounter ≠ 0 ∨ pField.bStep ≠ 0 ∨
      beside pField.bFieldFlags (Flag.nullable ||| Flag.binary) then
    { guess with uiFlags := 0 }
  else guess

def guessNumber (uiCount : Nat) (pField : DbfField) (guess : Guess) : Guess :=
  if beside pField.bFieldFlags (Flag.nullable ||| Flag.autoInc) then { guess with uiFlags := 0 }
  else if has pField.bFieldFlags Flag.autoInc then
    let fLong := pField.bLen > 9 + if pField.bDec = 0 then 0 else pField.bDec + 1
    if pField.bReserved1 ≠ 0 ∨
        (if fLong then pField.bCounter ≠ 0
         else (uiCount > 0 ∧ pField.bReserved2 % 2 ^ 32 ≠ 0) ∨ pField.bReserved2 / 2 ^ 32 ≠ 0) then
      { guess with uiFlags := 0 }
    else guess
  else guessPlain uiCount pField guess

def guessFlags (uiCount : Nat) (pField : DbfField) (guess : Guess) : Guess :=
  if guess.uiFlagsMask ≠ 0 then guess
  else
    match pField.bType with
    | 'L' | 'D' =>
      if beside pField.bFieldFlags Flag.nullable then { guess with uiFlags := 0 }
      else guessNumber uiCount pField guess
    | 'N' => guessNumber uiCount pField guess
    | 'C' | 'M' | 'V' => guessPlain uiCount pField guess
    | _ => { guess with uiFlagsMask := Flag.stored }

def skipped (bTableType : TableType) (pField : DbfField) : Bool :=
  has pField.bFieldFlags Flag.hidden && (pField.bType == '0' || bTableType == .vfp)

/-- The first loop of `hb_dbfOpen`: the guess, the descriptors before the end mark and how many of
them are skipped. -/
def scanFields (bTableType : TableType) : Nat → Guess → List DbfField → Guess × Nat × Nat
  | uiCount, guess, [] => (guess, uiCount, 0)
  | uiCount, guess, pField :: behind =>
    let guess := guessFlags uiCount pField guess
    if pField.bName.head? = some 13 then (guess, uiCount, 0)
    else
      let (guess, uiFields, uiSkip) := scanFields bTableType (uiCount + 1) guess behind
      (guess, uiFields, if skipped bTableType pField then uiSkip + 1 else uiSkip)

structure Read where
  info : DbFieldInfo
  fLength : Bool
  fHasMemo : Bool
  fModStamp : Bool
  fAutoInc : Bool
  fMemoSix : Bool
deriving DecidableEq, Repr

def readAs (pField : DbfField) (uiFlags : Nat) (uiType : FieldType) (uiLen uiDec : Nat) : Read where
  info := ⟨pField.bName.take 10, uiType, uiLen, uiDec, uiFlags⟩
  fLength := false
  fHasMemo := false
  fModStamp := false
  fAutoInc := false
  fMemoSix := false

def readWidth (pField : DbfField) (uiFlags : Nat) (uiType : FieldType) (uiLen : Nat) :
    Except Fault Read :=
  if pField.bLen = uiLen then .ok (readAs pField uiFlags uiType uiLen 0) else .error .failure

def readMemo (pField : DbfField) (uiFlags : Nat) (uiType : FieldType) : Read :=
  { readAs pField uiFlags uiType pField.bLen 0 with fHasMemo := true }

/-- The `switch` of `hb_dbfOpen` without the descriptor of the null flags. -/
def readField (bTableType : TableType) (uiDecimals uiFlagsMask : Nat) (pField : DbfField) :
    Except Fault Read :=
  let uiFlags := pField.bFieldFlags &&& uiFlagsMask
  let uiLen := pField.bLen + pField.bDec * 256
  match pField.bType with
  | 'C' => .ok (readAs pField uiFlags .string uiLen 0)
  | 'L' => .ok (readAs pField uiFlags .logical 1 0)
  | 'D' =>
    let uiLen := if pField.bLen ≠ 3 ∧ pField.bLen ≠ 4 then 8 else pField.bLen
    .ok (readAs pField uiFlags .date uiLen 0)
  | 'I' => .ok (readAs pField uiFlags .integer (integerLen pField.bLen) pField.bDec)
  | 'Y' =>
    let uiLen := if (pField.bLen > 4 ∧ pField.bLen ≠ 8) ∨ pField.bLen = 0 then 8 else pField.bLen
    .ok (readAs pField uiFlags .currency uiLen pField.bDec)
  | '2' => .ok (readAs pField uiFlags .integer 2 0)
  | '4' => .ok (readAs pField uiFlags .integer 4 0)
  | 'N' => .ok (readAs pField uiFlags .long pField.bLen pField.bDec)
  | 'F' => .ok (readAs pField uiFlags .float pField.bLen pField.bDec)
  | '8' | 'B' =>
    if pField.bLen ≠ 8 then .error .failure
    else
      let uiDec := if pField.bDec = 0 then uiDecimals else pField.bDec
      .ok (readAs pField uiFlags .double 8 uiDec)
  | 'T' =>
    if pField.bLen = 8 then .ok (readAs pField uiFlags .timestamp 8 0)
    else readWidth pField uiFlags .time 4
  | '@' => readWidth pField uiFlags .timestamp 8
  | '=' => do .ok { (← readWidth pField uiFlags .modtime 8) with fModStamp := true }
  | '^' => do .ok { (← readWidth pField uiFlags .rowver 8) with fModStamp := true }
  | '+' => do .ok { (← readWidth pField uiFlags .autoinc 4) with fAutoInc := true }
  | 'Q' =>
    let binary :=
      if bTableType = .vfp then Flag.binary else Flag.binary &&& pField.bFieldFlags
    .ok { readAs pField (uiFlags ||| binary) .varlength pField.bLen 0 with fLength := true }
  | 'V' =>
    if bTableType = .vfp then
      .ok { readAs pField uiFlags .varlength pField.bLen 0 with fLength := true }
    else
      let fMemo := decide (pField.bLen ≥ 6)
      .ok { readAs pField uiFlags .any pField.bLen 0 with fMemoSix := fMemo, fHasMemo := fMemo }
  | 'M' => .ok (readMemo pField uiFlags .memo)
  | 'P' => .ok (readMemo pField (uiFlags ||| Flag.binary) .image)
  | 'W' => .ok (readMemo pField (uiFlags ||| Flag.binary) .blob)
  | 'G' => .ok (readMemo pField (uiFlags ||| Flag.binary) .ole)
  | '\x1A' =>
    if uiLen % 2 = 1 then .error .failure
    else .ok (readAs pField (uiFlags ||| Flag.unicode) .string (uiLen / 2) 0)
  | '\x1B' =>
    -- no length bit here, unlike the two other types of this kind
    if uiLen % 2 = 1 ∨ uiLen < 2 then .error .failure
    else .ok (readAs pField (uiFlags ||| Flag.unicode) .varlength (uiLen / 2 - 1) 0)
  | '\x1C' => .ok (readMemo pField (uiFlags ||| Flag.unicode) .memo)
  | _ => .error .failure

/-- A column that takes room in a record and is no field; `none` when the descriptor is not one. -/
def openHidden (pArea : DbfArea) (pField : DbfField) : Option DbfArea :=
  if pField.bType = '0' ∧ has pField.bFieldFlags Flag.hidden then
    let uiRecordLen := (pArea.uiRecordLen + pField.bLen) % 65536
    if uiRecordLen ≥ pField.bLen then
      some
        { pArea with
          uiNullOffset :=
            if pField.bName = nullFlagsName then pArea.uiRecordLen else pArea.uiNullOffset
          uiRecordLen := uiRecordLen }
    else none
  else none

def openStep (uiDecimals uiFlagsMask uiCount : Nat) (pArea : DbfArea) (pField : DbfField) :
    Except Fault DbfArea :=
  match openHidden pArea pField with
  | some pArea => .ok pArea
  | none => do
    let read ← readField pArea.bTableType uiDecimals uiFlagsMask pField
    let pArea :=
      { pArea with
        fHasMemo := pArea.fHasMemo || read.fHasMemo
        fModStamp := pArea.fModStamp || read.fModStamp
        fAutoInc := pArea.fAutoInc || read.fAutoInc
        fMemoSix := pArea.fMemoSix || read.fMemoSix }
    let pArea ← allocBits pArea uiCount read.fLength (has read.info.uiFlags Flag.nullable)
    addField pArea read.info

def openLoop (uiDecimals uiFlagsMask : Nat) :
    Nat → DbfArea → List DbfField → Except Fault DbfArea
  | _, pArea, [] => .ok pArea
  | uiCount, pArea, pField :: behind => do
    let pArea ← openStep uiDecimals uiFlagsMask uiCount pArea pField
    openLoop uiDecimals uiFlagsMask (uiCount + 1) pArea behind

/-- `hb_dbfReadDBHeader`: the kind of the table and of its memo file, whether it has one and whether
it counts. -/
def readDBHeader (header : Header) : Except Fault (TableType × MemoType × Bool × Bool) :=
  let fMemo := has header.bHasTags 0x02
  let vfpMemo : MemoType := if fMemo then .fpt else .none
  match header.bVersion with
  | 0x31 => .ok (.vfp, vfpMemo, fMemo, true)
  | 0x30 | 0x32 => .ok (.vfp, vfpMemo, fMemo, false)
  | 0x03 | 0x07 | 0x06 => .ok (.std, .none, false, false)
  | 0x83 | 0x87 | 0x86 => .ok (.std, .dbt, true, false)
  | 0xE5 | 0xE6 => .ok (.std, .smt, true, false)
  | 0xF5 | 0xF6 => .ok (.std, .fpt, true, false)
  | _ => .error .corrupt

def startOpen (bTableType : TableType) (bMemoType : MemoType) (fHasMemo fAutoInc : Bool)
    (uiFields : Nat) : DbfArea :=
  { setFieldExtent bTableType bMemoType uiFields with
    fHasMemo := fHasMemo, fAutoInc := fAutoInc, uiRecordLen := 1 }

def endOpen (pArea : DbfArea) : Except Fault DbfArea :=
  if pArea.uiNullCount > 0 ∧ pArea.uiNullOffset = 0 then .error .corrupt else .ok pArea

/-- `hb_dbfOpen` up to the end of its loops; `decimals` is what `RDDI_DECIMALS` tells. -/
def dbfOpen (header : Header) (decimals : Nat) : Except Fault DbfArea := do
  let (bTableType, bMemoType, fHasMemo, fAutoInc) ← readDBHeader header
  let uiFields := (header.uiHeaderLen - 32) / 32
  if header.descriptors.length < uiFields then .error .corrupt
  else
    let buffer := header.descriptors.take uiFields
    let start : Guess := ⟨Flag.stored, if bTableType = .vfp then Flag.stored else 0⟩
    let (guess, uiFields, uiSkip) := scanFields bTableType 0 start buffer
    let pArea ← openLoop (decimals % 65536) (guess.uiFlagsMask ||| guess.uiFlags) 0
      (startOpen bTableType bMemoType fHasMemo fAutoInc (uiFields - uiSkip)) (buffer.take uiFields)
    endOpen pArea

end Harbour.Rdd.DbfStructure
