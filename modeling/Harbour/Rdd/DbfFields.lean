import Harbour.Common.CharClass
import Harbour.Common.StrToNum
import Mathlib.Data.List.DropRight
import Mathlib.Data.Nat.Bitwise

/-!
The fields of a work area and their descriptors in the header of a table.
-/

namespace Harbour.Rdd.DbfStructure

open List Common.CharClass Common.StrToNum

/-- The field types `HB_FT_*`; `none` stands for every number without a type. -/
inductive FieldType where
  | none
  | string
  | logical
  | date
  | long
  | float
  | integer
  | double
  | time
  | timestamp
  | modtime
  | rowver
  | autoinc
  | currency
  | curdouble
  | varlength
  | memo
  | any
  | image
  | blob
  | ole
deriving DecidableEq, Repr

inductive TableType where
  | std
  | vfp
deriving DecidableEq, Repr

inductive MemoType where
  | none
  | dbt
  | fpt
  | smt
deriving DecidableEq, Repr

namespace Flag

/-! The field flags `HB_FF_*`. -/

def hidden : Nat := 0x0001
def nullable : Nat := 0x0002
def binary : Nat := 0x0004
def autoInc : Nat := 0x0008
def compressed : Nat := 0x0010
def unicode : Nat := 0x0040

def stored : Nat := hidden ||| nullable ||| binary ||| autoInc

end Flag

def has (uiFlags flag : Nat) : Bool := uiFlags &&& flag != 0

theorem has_two_pow (uiFlags i : Nat) : has uiFlags (2 ^ i) = uiFlags.testBit i := by
  rw [has, Nat.and_two_pow]
  cases uiFlags.testBit i <;> simp

theorem has_hidden (uiFlags : Nat) : has uiFlags Flag.hidden = uiFlags.testBit 0 :=
  has_two_pow uiFlags 0

theorem has_nullable (uiFlags : Nat) : has uiFlags Flag.nullable = uiFlags.testBit 1 :=
  has_two_pow uiFlags 1

theorem has_unicode (uiFlags : Nat) : has uiFlags Flag.unicode = uiFlags.testBit 6 :=
  has_two_pow uiFlags 6

def strncpyUpperTrim (source : List UInt8) (nLen : Nat) : List UInt8 :=
  (((source.takeWhile (· != 0)).take nLen).rdropWhile (· == 32)).map HB_TOUPPER

structure FieldName where
  bytes : List UInt8
  short : bytes.length ≤ 10
  visible : ∃ c ∈ bytes.head?, c ≠ 0 ∧ HB_ISSPACE c = false

theorem toUpper_visible (c : UInt8) (hzero : c ≠ 0) (hspace : HB_ISSPACE c = false) :
    HB_TOUPPER c ≠ 0 ∧ HB_ISSPACE (HB_TOUPPER c) = false := by
  rw [HB_TOUPPER]
  split
  case isTrue h =>
    have hcode : (c - 32).toNat = c.toNat - 32 :=
      UInt8.toNat_sub_of_le c 32 (UInt8.le_trans (by decide) h.1)
    have hlow : 97 ≤ c.toNat := h.1
    simp only [HB_ISSPACE, Bool.or_eq_false_iff, decide_eq_false_iff_not, ne_eq,
      ← UInt8.toNat_inj, hcode]
    refine ⟨?_, ⟨⟨?_, ?_⟩, ?_⟩, ?_⟩ <;> intro hcontra <;> simp at hcontra <;> omega
  case isFalse h => exact ⟨hzero, hspace⟩

theorem strncpyUpperTrim_length (source : List UInt8) (nLen : Nat) :
    (strncpyUpperTrim source nLen).length ≤ nLen := by
  have hstarts := rdropWhile_prefix (· == 32) ((source.takeWhile (· != 0)).take nLen)
  calc (strncpyUpperTrim source nLen).length
      ≤ ((source.takeWhile (· != 0)).take nLen).length := by
        rw [strncpyUpperTrim, length_map]
        exact hstarts.length_le
    _ ≤ nLen := length_take_le _ _

theorem strncpyUpperTrim_visible {source : List UInt8} {nLen : Nat}
    (hsource : ∀ c ∈ source.head?, HB_ISSPACE c = false) (hne : strncpyUpperTrim source nLen ≠ []) :
    ∃ c ∈ (strncpyUpperTrim source nLen).head?, c ≠ 0 ∧ HB_ISSPACE c = false := by
  have hstarts := rdropWhile_prefix (· == 32) ((source.takeWhile (· != 0)).take nLen)
  cases htrim : ((source.takeWhile (· != 0)).take nLen).rdropWhile (· == 32) with
  | nil => exact absurd (by simp [strncpyUpperTrim, htrim]) hne
  | cons c rest =>
    rw [htrim] at hstarts
    obtain ⟨behind, hbehind⟩ := hstarts.trans ( take_prefix _ _)
    have hhead : (source.takeWhile (· != 0)).head? = some c := by
      rw [← hbehind]
      rfl
    cases source with
    | nil => simp at hhead
    | cons first tail =>
      rw [takeWhile_cons] at hhead
      split at hhead
      · rename_i hzero
        obtain rfl : first = c := by simpa using hhead
        exact ⟨HB_TOUPPER first, by simp [strncpyUpperTrim, htrim],
          toUpper_visible first (by simpa using hzero) (hsource first rfl)⟩
      · simp at hhead

theorem dropWhile_isSpace_head (atomName : List UInt8) :
    ∀ c ∈ (atomName.dropWhile HB_ISSPACE).head?, HB_ISSPACE c = false := by
  intro c hc
  have hne : atomName.dropWhile HB_ISSPACE ≠ [] := by
    rintro hnil
    simp [hnil] at hc
  have hhead := head_dropWhile_not HB_ISSPACE hne
  rw [head?_eq_some_head hne] at hc
  simpa [Option.mem_def] using (Option.some.inj hc) ▸ hhead

def maxFieldNameLength : Nat := 10

def fieldName? (atomName : List UInt8) : Option FieldName :=
  if h : strncpyUpperTrim (atomName.dropWhile HB_ISSPACE) maxFieldNameLength = [] then none
  else some ⟨_, strncpyUpperTrim_length _ _,
    strncpyUpperTrim_visible (dropWhile_isSpace_head atomName) h⟩

theorem FieldName.accepted (name : FieldName) : ∃ read, fieldName? name.bytes = some read := by
  obtain ⟨c, hc, hzero, hspace⟩ := name.visible
  obtain ⟨tail, htail⟩ : ∃ tail, name.bytes = c :: tail := by
    cases hbytes : name.bytes with
    | nil => simp [hbytes] at hc
    | cons first tail => exact ⟨tail, by simpa [hbytes] using hc⟩
  have hblank : c ≠ 32 := by
    rintro rfl
    exact absurd hspace (by decide)
  have hne : strncpyUpperTrim (name.bytes.dropWhile HB_ISSPACE) maxFieldNameLength ≠ [] := by
    rw [htail, dropWhile_cons_of_neg (by simp [hspace]), strncpyUpperTrim,
      takeWhile_cons_of_pos (by simpa using hzero), maxFieldNameLength, take_succ_cons]
    simp [rdropWhile_eq_nil_iff, hblank]
  exact ⟨_, dif_neg hne⟩

structure DbFieldInfo where
  atomName : List UInt8
  uiType : FieldType
  uiLen : Nat
  uiDec : Nat
  uiFlags : Nat
deriving DecidableEq, Repr

structure Field where
  name : FieldName
  uiType : FieldType
  uiLen : Nat
  uiDec : Nat
  uiFlags : Nat

structure FieldBits where
  uiNullBit : Nat
  uiLengthBit : Nat
deriving DecidableEq, Repr

/-- The members of `DBFAREA` that the structure of a table sets. `fields` and `fieldOffset` hold
the entries used of `lpFields` and `pFieldOffset`; `fMemoSix` tells that `uiMemoVersion` was set to
`DB_MEMOVER_SIX`. -/
structure DbfArea where
  bTableType : TableType
  bMemoType : MemoType
  uiFieldExtent : Nat
  fields : List Field
  fieldOffset : List Nat
  uiRecordLen : Nat
  uiNullCount : Nat
  uiNullOffset : Nat
  fieldBits : Option (List FieldBits)
  fHasMemo : Bool
  fModStamp : Bool
  fAutoInc : Bool
  fMemoSix : Bool

/-- How a call ends that does not succeed; `overrun` is a write behind the end of an array. -/
inductive Fault where
  | failure
  | overrun
  | dataType
  | dataWidth
  | corrupt
deriving DecidableEq, Repr

def setFieldExtent (bTableType : TableType) (bMemoType : MemoType) (uiFieldExtent : Nat) :
    DbfArea where
  bTableType := bTableType
  bMemoType := bMemoType
  uiFieldExtent := uiFieldExtent
  fields := []
  fieldOffset := []
  uiRecordLen := 0
  uiNullCount := 0
  uiNullOffset := 0
  fieldBits := none
  fHasMemo := false
  fModStamp := false
  fAutoInc := false
  fMemoSix := false

def waAddField (pArea : DbfArea) (pFieldInfo : DbFieldInfo) : Except Fault DbfArea :=
  match fieldName? pFieldInfo.atomName with
  | none => .error .failure
  | some name =>
    .ok { pArea with
      fields := pArea.fields ++
        [⟨name, pFieldInfo.uiType, pFieldInfo.uiLen % 65536, pFieldInfo.uiDec % 65536,
          pFieldInfo.uiFlags⟩] }

def memoInfo (bMemoType : MemoType) (pFieldInfo : DbFieldInfo) : DbFieldInfo :=
  let uiLen := if bMemoType = .smt then 10 else pFieldInfo.uiLen
  match pFieldInfo.uiType with
  | .image | .blob | .ole =>
    { pFieldInfo with uiFlags := pFieldInfo.uiFlags ||| Flag.binary, uiLen := uiLen }
  | .memo => { pFieldInfo with uiLen := uiLen }
  | _ => pFieldInfo

/-- The bytes that a Unicode field takes in addition to its length. -/
def unicodeExtra (info : DbFieldInfo) : Nat :=
  if has info.uiFlags Flag.unicode then
    match info.uiType with
    | .string => info.uiLen
    | .varlength => info.uiLen + 2
    | _ => 0
  else 0

def addField (pArea : DbfArea) (pFieldInfo : DbFieldInfo) : Except Fault DbfArea :=
  let info := memoInfo pArea.bMemoType pFieldInfo
  if pArea.uiFieldExtent ≤ pArea.fields.length then .error .overrun
  else
    let uiRecordLen := ((pArea.uiRecordLen + info.uiLen) % 65536 + unicodeExtra info) % 65536
    if pArea.uiRecordLen > uiRecordLen then .error .failure
    else
      waAddField
        { pArea with
          fieldOffset := pArea.fieldOffset ++ [pArea.uiRecordLen], uiRecordLen := uiRecordLen }
        info

def allocNullFlag (pArea : DbfArea) (uiField : Nat) (fLength : Bool) : Except Fault DbfArea :=
  let bits := pArea.fieldBits.getD (replicate pArea.uiFieldExtent ⟨0, 0⟩)
  if bits.length ≤ uiField then .error .overrun
  else
    let bits := bits.modify uiField fun b =>
      if fLength then { b with uiLengthBit := pArea.uiNullCount }
      else { b with uiNullBit := pArea.uiNullCount }
    .ok { pArea with fieldBits := some bits, uiNullCount := (pArea.uiNullCount + 1) % 65536 }

/-- A work area with the fields of a list of definitions, as `hb_waCreateFields` sets it up. -/
def createFields (bTableType : TableType) (bMemoType : MemoType) (infos : List DbFieldInfo) :
    Except Fault DbfArea :=
  infos.foldlM addField (setFieldExtent bTableType bMemoType infos.length)

structure DbfField where
  bName : List UInt8
  bType : Char
  bReserved1 : Nat
  bLen : Nat
  bDec : Nat
  bFieldFlags : Nat
  bCounter : Nat
  bStep : Nat
  bReserved2 : Nat
deriving DecidableEq, Repr

/-- The parts of a table's header that carry its structure: two bytes of `DBFHEADER` and the whole
descriptors behind it. -/
structure Header where
  bVersion : Nat
  bHasTags : Nat
  uiHeaderLen : Nat
  descriptors : List DbfField
deriving DecidableEq, Repr

end Harbour.Rdd.DbfStructure
