import Harbour.Rdd.DbfFields

/-!
How the header of a table is written: one descriptor for each field and one for the null flags.
-/

namespace Harbour.Rdd.DbfStructure

inductive AutoInc where
  | none
  | std
  | long
deriving DecidableEq, Repr

def isAutoIncField (pField : Field) : AutoInc :=
  let whole : AutoInc := if pField.uiLen > pField.uiDec + 4 then .long else .std
  match pField.uiType with
  | .autoinc => whole
  | .rowver => .long
  | uiType =>
    if has pField.uiFlags Flag.autoInc then
      match uiType with
      | .double => .long
      | .long | .float =>
        if pField.uiLen > 9 + (if pField.uiDec = 0 then 0 else pField.uiDec + 1) then .long
        else .std
      | .integer => whole
      | _ => .none
    else .none

def nextValueInit (pDbField : DbfField) (pField : Field) : DbfField :=
  match isAutoIncField pField with
  | .long => { pDbField with bReserved2 := 1, bStep := 1 }
  | _ => { pDbField with bCounter := 1, bStep := 1 }

/-- What one turn of the loop of `hb_dbfCreate` makes of a field: the field with the length that is
used, its descriptor and the bytes it takes in a record. `fLength` tells that it needs a length bit,
the other members tell which members of the work area are set. -/
structure Written where
  field : Field
  descriptor : DbfField
  uiLen : Nat
  fLength : Bool
  fHasMemo : Bool
  fModStamp : Bool
  fAutoInc : Bool
  fMemoSix : Bool

/-- A field of `uiLen` bytes whose length and decimals are written as they are. -/
def writeAs (pField : Field) (bType : Char) (bDec : Nat) (pThisField : DbfField) : Written where
  field := pField
  descriptor :=
    { pThisField with bType := bType, bLen := pField.uiLen % 256, bDec := bDec % 256 }
  uiLen := pField.uiLen
  fLength := false
  fHasMemo := false
  fModStamp := false
  fAutoInc := false
  fMemoSix := false

def writeMemo (pArea : DbfArea) (pField : Field) (bType : Char) (pThisField : DbfField) : Written :=
  let uiLen := if pField.uiLen ≠ 4 ∨ pArea.bMemoType = .smt then 10 else pField.uiLen
  { writeAs { pField with uiLen := uiLen } bType 0 pThisField with fHasMemo := true }

def writeNumber (pField : Field) (bType : Char) (pThisField : DbfField) : Written :=
  let written := writeAs pField bType pField.uiDec pThisField
  if has pField.uiFlags Flag.autoInc then
    { written with descriptor := nextValueInit written.descriptor pField }
  else written

def writeText (pField : Field) (bType : Char) (uiLen : Nat) (pThisField : DbfField) : Written :=
  { writeAs pField bType 0 pThisField with
    descriptor :=
      { pThisField with bType := bType, bLen := uiLen % 256, bDec := uiLen / 256 % 256 }
    uiLen := uiLen }

def setBinary (pThisField : DbfField) : DbfField :=
  { pThisField with bFieldFlags := pThisField.bFieldFlags ||| Flag.binary }

/-- The length that both `hb_dbfCreate` and `hb_dbfOpen` give to integers. -/
def integerLen (uiLen : Nat) : Nat :=
  if (uiLen > 4 ∧ uiLen ≠ 8) ∨ uiLen = 0 then 4 else uiLen

def writeField (pArea : DbfArea) (pField : Field) (pThisField : DbfField) : Except Fault Written :=
  match pField.uiType with
  | .string =>
    if has pField.uiFlags Flag.unicode then
      let pField := { pField with uiLen := min pField.uiLen 32767 }
      .ok (writeText pField '\x1A' (2 * pField.uiLen) pThisField)
    else .ok (writeText pField 'C' pField.uiLen pThisField)
  | .logical =>
    .ok { writeAs pField 'L' 0 pThisField with
      descriptor := { pThisField with bType := 'L', bLen := 1 }
      uiLen := 1 }
  | .memo =>
    let bType := if has pField.uiFlags Flag.unicode then '\x1C' else 'M'
    .ok (writeMemo pArea pField bType pThisField)
  | .blob => .ok (writeMemo pArea pField 'W' (setBinary pThisField))
  | .image => .ok (writeMemo pArea pField 'P' (setBinary pThisField))
  | .ole => .ok (writeMemo pArea pField 'G' (setBinary pThisField))
  | .any =>
    if pArea.bTableType = .vfp then .error .dataType
    else
      let uiLen := if pField.uiLen < 3 ∨ pField.uiLen = 5 then 6 else pField.uiLen
      let written := writeText { pField with uiLen := uiLen } 'V' uiLen pThisField
      if written.descriptor.bLen ≥ 6 then
        .ok { written with fMemoSix := true, fHasMemo := true }
      else .ok written
  | .date =>
    if pField.uiLen = 3 ∨ pField.uiLen = 4 then
      .ok (writeAs pField 'D' 0 (setBinary pThisField))
    else .ok (writeAs { pField with uiLen := 8 } 'D' 0 pThisField)
  | .long => .ok (writeNumber pField 'N' pThisField)
  | .float => .ok (writeNumber pField 'F' pThisField)
  | .double | .curdouble =>
    .ok (writeNumber { pField with uiLen := 8 } 'B' (setBinary pThisField))
  | .integer | .currency =>
    let bType :=
      if pArea.bTableType = .vfp ∧ pField.uiLen = 8 ∧ pField.uiDec = 4 then 'Y' else 'I'
    .ok (writeNumber { pField with uiLen := integerLen pField.uiLen } bType
      (setBinary pThisField))
  | .varlength =>
    let uiLen := if pField.uiLen = 0 then 1 else pField.uiLen
    if has pField.uiFlags Flag.unicode then
      let pField := { pField with uiLen := min uiLen 32766 }
      .ok { writeText pField '\x1B' (2 * (pField.uiLen + 1)) pThisField with fLength := true }
    else
      let pField := { pField with uiLen := min uiLen 255 }
      let bType :=
        if pArea.bTableType = .vfp ∧ has pField.uiFlags Flag.binary = false then 'V' else 'Q'
      .ok { writeText pField bType pField.uiLen pThisField with fLength := true }
  | .time => .ok (writeAs { pField with uiLen := 4 } 'T' 0 (setBinary pThisField))
  | .timestamp =>
    let bType := if pArea.bTableType = .vfp then 'T' else '@'
    .ok (writeAs { pField with uiLen := 8 } bType 0 (setBinary pThisField))
  | .modtime =>
    .ok { writeAs { pField with uiLen := 8 } '=' 0 (setBinary pThisField) with
      fModStamp := true }
  | .rowver =>
    .ok { writeAs { pField with uiLen := 8 } '^' 0 (setBinary pThisField) with
      fModStamp := true }
  | .autoinc =>
    let written := writeAs { pField with uiLen := 4 } '+' 0 (setBinary pThisField)
    .ok { written with
      descriptor := nextValueInit written.descriptor written.field, fAutoInc := true }
  | .none => .error .dataType

def blankField : DbfField where
  bName := []
  bType := '\x00'
  bReserved1 := 0
  bLen := 0
  bDec := 0
  bFieldFlags := 0
  bCounter := 0
  bStep := 0
  bReserved2 := 0

def startField (pArea : DbfArea) (pField : Field) : DbfField :=
  { blankField with
    bName := pField.name.bytes
    bReserved1 := if pArea.bTableType = .vfp then pArea.uiRecordLen else 0
    bFieldFlags := pField.uiFlags % 256 &&& Flag.stored }

def placeField (pArea : DbfArea) (written : Written) : DbfArea :=
  { pArea with
    fields := pArea.fields ++ [written.field]
    fieldOffset := pArea.fieldOffset ++ [pArea.uiRecordLen]
    uiRecordLen := (pArea.uiRecordLen + written.uiLen) % 65536
    fHasMemo := pArea.fHasMemo || written.fHasMemo
    fModStamp := pArea.fModStamp || written.fModStamp
    fAutoInc := pArea.fAutoInc || written.fAutoInc
    fMemoSix := pArea.fMemoSix || written.fMemoSix }

def allocBits (pArea : DbfArea) (uiCount : Nat) (fLength fNull : Bool) : Except Fault DbfArea := do
  let pArea ← if fLength then allocNullFlag pArea uiCount true else .ok pArea
  if fNull then allocNullFlag pArea uiCount false else .ok pArea

def createStep (pArea : DbfArea) (pField : Field) : Except Fault (DbfArea × DbfField) := do
  let written ← writeField pArea pField (startField pArea pField)
  let placed := placeField pArea written
  if pArea.uiRecordLen > placed.uiRecordLen then .error .dataWidth
  else
    let placed ← allocBits placed pArea.fields.length written.fLength
      (has pField.uiFlags Flag.nullable)
    .ok (placed, written.descriptor)

def createLoop (pArea : DbfArea) : List Field → Except Fault (DbfArea × List DbfField)
  | [] => .ok (pArea, [])
  | pField :: fields => do
    let (pArea, descriptor) ← createStep pArea pField
    let (pArea, descriptors) ← createLoop pArea fields
    .ok (pArea, descriptor :: descriptors)

def nullFlagsName : List UInt8 := [95, 78, 117, 108, 108, 70, 108, 97, 103, 115]

def nullFlagsField (pArea : DbfArea) (uiCount : Nat) : DbfField :=
  { blankField with
    bName := nullFlagsName
    bReserved1 := pArea.uiRecordLen
    bType := '0'
    bFieldFlags := Flag.hidden
    bLen := uiCount % 256
    bDec := uiCount / 256 % 256 }

def nullFlagsLen (pArea : DbfArea) : Nat := (pArea.uiNullCount + 7) / 8

def createNullFlags (pArea : DbfArea) (nSize : Nat) :
    Except Fault (DbfArea × List DbfField × Nat) :=
  if pArea.uiNullCount = 0 then .ok (pArea, [], nSize)
  else
    let uiCount := nullFlagsLen pArea
    let uiRecordLen := (pArea.uiRecordLen + uiCount) % 65536
    if nSize + 32 + 32 > 65535 ∨ pArea.uiRecordLen > uiRecordLen then .error .dataWidth
    else
      .ok ({ pArea with uiNullOffset := pArea.uiRecordLen, uiRecordLen := uiRecordLen },
        [nullFlagsField pArea uiCount], nSize + 32)

/-- The version that `hb_dbfWriteDBHeader` writes; `fEncrypted` tells of a password. -/
def headerVersion (pArea : DbfArea) (fEncrypted : Bool) : Nat :=
  match pArea.bTableType with
  | .vfp => if pArea.fAutoInc then 0x31 else 0x30
  | .std =>
    let bVersion :=
      if pArea.fHasMemo then
        match pArea.bMemoType with
        | .dbt => 0x83
        | .fpt => 0xF5
        | .smt => 0xE5
        | .none => 0x03
      else 0x03
    if fEncrypted then (bVersion &&& 0xF0) ||| 0x06 else bVersion

/-- What can be read as descriptors behind the last one: the end mark and the 263 bytes that follow
it in a table of Visual FoxPro. -/
def fieldsEnd (bTableType : TableType) : List DbfField :=
  match bTableType with
  | .std => []
  | .vfp => { blankField with bName := [13] } :: List.replicate 7 blankField

def startCreate (pArea : DbfArea) : DbfArea :=
  { pArea with
    bMemoType := if pArea.bTableType = .vfp then .fpt else pArea.bMemoType
    fields := []
    fieldOffset := []
    fHasMemo := false
    uiRecordLen := 1
    uiNullCount := 0 }

def endCreate (pArea : DbfArea) (fEncrypted : Bool) (nSize : Nat) (descriptors : List DbfField) :
    DbfArea × Header :=
  let pArea := if pArea.fHasMemo then pArea else { pArea with bMemoType := .none }
  (pArea,
    { bVersion := headerVersion pArea fEncrypted
      bHasTags :=
        if pArea.bTableType = .vfp ∧ pArea.fHasMemo ∧ pArea.bMemoType = .fpt then 0x02 else 0
      uiHeaderLen := 32 + nSize
      descriptors := descriptors ++ fieldsEnd pArea.bTableType })

def headerSize (bTableType : TableType) (fields : Nat) : Nat :=
  fields * 32 + if bTableType = .vfp then 264 else 2

def dbfCreate (pArea : DbfArea) (fEncrypted : Bool) : Except Fault (DbfArea × Header) := do
  let nSize := headerSize pArea.bTableType pArea.fields.length
  if nSize + 32 > 65535 then .error .dataWidth
  else
    let (started, descriptors) ← createLoop (startCreate pArea) pArea.fields
    let (ended, nullFlags, nSize) ← createNullFlags started nSize
    .ok (endCreate ended fEncrypted nSize (descriptors ++ nullFlags))

end Harbour.Rdd.DbfStructure
