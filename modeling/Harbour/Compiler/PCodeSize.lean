import Harbour.Library.Bytes

/-!
The instructions of a compiled function: their codes, their sizes and their operands.
-/

namespace Harbour.Compiler.PCodeSize

open Library.Bytes

/-- `HB_PCODE`: the codes that the optimiser of jumps or the sizes tell apart. -/
inductive PCode where
  | jumpNear
  | jump
  | jumpFar
  | jumpFalseNear
  | jumpFalse
  | jumpFalseFar
  | jumpTrueNear
  | jumpTrue
  | jumpTrueFar
  | localName
  | moduleName
  | noop
  | pop
  | pushBlock
  | pushBlockShort
  | pushStr
  | pushStrShort
  | seqBegin
  | seqEnd
  | staticName
  | pushStrHidden
  | pushBlockLarge
  | pushStrLarge
  | seqAlways
  | alwaysBegin
  | threadStatics
  | other (code : UInt8)
deriving DecidableEq, Repr

def PCode.ofByte (code : UInt8) : PCode :=
  match code.toNat with
  | 25 => .jumpNear
  | 26 => .jump
  | 27 => .jumpFar
  | 28 => .jumpFalseNear
  | 29 => .jumpFalse
  | 30 => .jumpFalseFar
  | 31 => .jumpTrueNear
  | 32 => .jumpTrue
  | 33 => .jumpTrueFar
  | 37 => .localName
  | 51 => .moduleName
  | 67 => .noop
  | 73 => .pop
  | 89 => .pushBlock
  | 90 => .pushBlockShort
  | 105 => .pushStr
  | 106 => .pushStrShort
  | 113 => .seqBegin
  | 114 => .seqEnd
  | 118 => .staticName
  | 152 => .pushStrHidden
  | 161 => .pushBlockLarge
  | 162 => .pushStrLarge
  | 166 => .seqAlways
  | 167 => .alwaysBegin
  | 179 => .threadStatics
  | _ => .other code

def PCode.byte : PCode → UInt8
  | .jumpNear => 25
  | .jump => 26
  | .jumpFar => 27
  | .jumpFalseNear => 28
  | .jumpFalse => 29
  | .jumpFalseFar => 30
  | .jumpTrueNear => 31
  | .jumpTrue => 32
  | .jumpTrueFar => 33
  | .localName => 37
  | .moduleName => 51
  | .noop => 67
  | .pop => 73
  | .pushBlock => 89
  | .pushBlockShort => 90
  | .pushStr => 105
  | .pushStrShort => 106
  | .seqBegin => 113
  | .seqEnd => 114
  | .staticName => 118
  | .pushStrHidden => 152
  | .pushBlockLarge => 161
  | .pushStrLarge => 162
  | .seqAlways => 166
  | .alwaysBegin => 167
  | .threadStatics => 179
  | .other code => code

def code (pCode : Bytes) : PCode := PCode.ofByte (pCode.headD 0)

def pcodeLen : List Nat := [
  1, 1, 1, 3, 3, 1, 1, 1, 1, 1, 1, 3, 2, 3, 1, 1, 1, 1, 1, 3,
  2, 1, 9, 1, 1, 2, 3, 4, 2, 3, 4, 2, 3, 4, 1, 1, 3, 0, 2, 2,
  2, 3, 2, 1, 2, 2, 1, 1, 3, 1, 1, 0, 3, 3, 3, 3, 3, 3, 3, 0,
  3, 3, 3, 3, 3, 1, 1, 1, 1, 1, 1, 4, 1, 1, 1, 3, 2, 3, 3, 3,
  2, 3, 3, 3, 1, 1, 3, 2, 3, 0, 0, 3, 2, 3, 3, 2, 3, 5, 3, 3,
  1, 11, 1, 3, 3, 0, 0, 3, 2, 3, 1, 3, 2, 4, 4, 1, 3, 5, 0, 1,
  1, 1, 1, 3, 3, 0, 4, 1, 9, 3, 1, 1, 1, 3, 5, 1, 1, 1, 1, 1,
  1, 1, 1, 1, 3, 1, 3, 1, 1, 3, 4, 4, 0, 5, 1, 1, 1, 1, 1, 0,
  0, 0, 0, 2, 1, 1, 4, 4, 1, 1, 1, 1, 1, 3, 3, 3, 3, 3, 1, 0,
  1]

/-- `HB_PCODE_MKUSHORT` and `HB_PCODE_MKUINT24`, of the width that is asked for. -/
def mkUnsigned (width : Nat) (p : Bytes) : Nat := leValue (p.take width)

/-- A signed byte, `HB_PCODE_MKSHORT` and `HB_PCODE_MKINT24`, of the width that is asked for. -/
def mkSigned (width : Nat) (p : Bytes) : Int := signed (8 * width) (leValue (p.take width))

/-- A name with the NUL behind it, after `nSkip` bytes. -/
def nameSize (nSkip : Nat) (pCode : Bytes) : Nat :=
  nSkip + ((pCode.drop nSkip).takeWhile (· ≠ 0)).length + 1

/-- The functions of `s_psize_table`. -/
def psize (pCode : Bytes) : Nat :=
  match code pCode with
  | .localName => nameSize 3 pCode
  | .moduleName => nameSize 1 pCode
  | .staticName => nameSize 4 pCode
  | .pushBlock => mkUnsigned 2 (pCode.drop 1)
  | .pushBlockShort => mkUnsigned 1 (pCode.drop 1)
  | .pushBlockLarge => mkUnsigned 3 (pCode.drop 1)
  | .pushStr => 3 + mkUnsigned 2 (pCode.drop 1)
  | .pushStrShort => 2 + mkUnsigned 1 (pCode.drop 1)
  | .pushStrLarge => 4 + mkUnsigned 3 (pCode.drop 1)
  | .pushStrHidden => 4 + mkUnsigned 2 (pCode.drop 2)
  | .threadStatics => 3 + 2 * mkUnsigned 2 (pCode.drop 1)
  | _ => 0

def compPCodeSize (pCode : Bytes) : Nat :=
  match pcodeLen[(pCode.headD 0).toNat]? with
  | some 0 => psize pCode
  | some nSize => nSize
  | none => 0

/-- The bytes of one instruction, whatever stands behind them. -/
def Complete (pCode : Bytes) : Prop :=
  0 < pCode.length ∧ ∀ behind, compPCodeSize (pCode ++ behind) = pCode.length

def PCode.offsetWidth : PCode → Option Nat
  | .jumpNear | .jumpFalseNear | .jumpTrueNear => some 1
  | .jump | .jumpFalse | .jumpTrue => some 2
  | .jumpFar | .jumpFalseFar | .jumpTrueFar => some 3
  | .alwaysBegin | .seqAlways | .seqBegin | .seqEnd => some 3
  | _ => none

def jumpOffset (pCode : Bytes) : Option Int :=
  (code pCode).offsetWidth.map fun width => mkSigned width (pCode.drop 1)

/-- When a jump is taken, or which part of a sequence it belongs to. -/
inductive JumpKind where
  | always
  | onFalse
  | onTrue
  | seqBegin
  | seqEnd
  | seqAlways
  | alwaysBegin
deriving DecidableEq

/-- Jumps of one kind differ in the bytes of their offsets only. -/
def PCode.kind : PCode → Option JumpKind
  | .jumpNear | .jump | .jumpFar => some .always
  | .jumpFalseNear | .jumpFalse | .jumpFalseFar => some .onFalse
  | .jumpTrueNear | .jumpTrue | .jumpTrueFar => some .onTrue
  | .seqBegin => some .seqBegin
  | .seqEnd => some .seqEnd
  | .seqAlways => some .seqAlways
  | .alwaysBegin => some .alwaysBegin
  | _ => none

def IsJump (pCode : Bytes) : Prop := (code pCode).kind ≠ none

theorem kind_isSome (pcode : PCode) : pcode.kind.isSome = pcode.offsetWidth.isSome := by
  cases pcode <;> rfl

variable {p pCode : Bytes} {width : Nat}

theorem isJump_width (h : IsJump pCode) :
    ∃ width, (code pCode).offsetWidth = some width := by
  have hsome := kind_isSome (code pCode)
  rw [Option.isSome_iff_ne_none.mpr h] at hsome
  exact Option.isSome_iff_exists.mp hsome.symm

theorem isJump_of_width (h : (code pCode).offsetWidth = some width) :
    IsJump pCode := by
  have hsome := kind_isSome (code pCode)
  rw [h] at hsome
  exact Option.isSome_iff_ne_none.mp hsome

theorem isJump_offset (h : IsJump pCode) : ∃ nOffset, jumpOffset pCode = some nOffset := by
  obtain ⟨width, hwidth⟩ := isJump_width h
  rw [jumpOffset, hwidth]
  exact ⟨_, rfl⟩

theorem width_bounds {pcode : PCode} (h : pcode.offsetWidth = some width) :
    0 < width ∧ width ≤ 3 := by
  cases pcode <;> cases h <;> decide

section

variable {b : UInt8} (h : (PCode.ofByte b).offsetWidth = some width)

include h

theorem size_of_width : pcodeLen[b.toNat]? = some (1 + width) := by
  unfold PCode.ofByte at h
  split at h <;> rename_i hb <;> cases h <;> rw [hb] <;> rfl

theorem compPCodeSize_jump (bytes : Bytes) : compPCodeSize (b :: bytes) = 1 + width := by
  rw [compPCodeSize, List.headD_cons, size_of_width h, Nat.add_comm]
  rfl

end

section

variable (h : (code pCode).offsetWidth = some width)

include h

theorem complete_of_width (hlength : pCode.length = 1 + width) : Complete pCode := by
  obtain ⟨b, bytes, rfl⟩ := List.exists_cons_of_length_eq_add_one (hlength.trans (Nat.add_comm _ _))
  refine ⟨Nat.succ_pos _, fun behind => ?_⟩
  have hb : (PCode.ofByte b).offsetWidth = some width := h
  rw [List.cons_append, compPCodeSize_jump hb, hlength]

theorem width_of_complete (hcomplete : Complete pCode) : pCode.length = 1 + width := by
  obtain ⟨hpos, hsize⟩ := hcomplete
  obtain ⟨b, bytes, rfl⟩ := List.exists_cons_of_length_pos hpos
  have hb : (PCode.ofByte b).offsetWidth = some width := h
  rw [← hsize [], List.cons_append, compPCodeSize_jump hb]

end

theorem complete_noop : Complete [PCode.noop.byte] := ⟨Nat.one_pos, fun _ => rfl⟩

theorem complete_pop : Complete [PCode.pop.byte] := ⟨Nat.one_pos, fun _ => rfl⟩

theorem code_append (h : pCode ≠ []) (behind : Bytes) :
    code (pCode ++ behind) = code pCode := by
  obtain ⟨b, bytes, rfl⟩ := List.exists_cons_of_ne_nil h
  rfl

theorem mkSigned_append (h : width ≤ p.length) (behind : Bytes) :
    mkSigned width (p ++ behind) = mkSigned width p := by
  unfold mkSigned
  rw [List.take_append_of_le_length h]

theorem mkSigned_narrow {width' : Nat} (hpos : 0 < width) (hle : width ≤ width')
    (hlength : width' ≤ p.length) (hlow : -2 ^ (8 * width - 1) ≤ mkSigned width' p)
    (hhigh : mkSigned width' p < 2 ^ (8 * width - 1)) : mkSigned width p = mkSigned width' p := by
  have hsplit : p.take width' = p.take width ++ (p.drop width).take (width' - width) := by
    rw [← List.take_add, Nat.add_sub_cancel' hle]
  have hbase : (256 : Nat) ^ width = 2 ^ (8 * width) := (Nat.pow_mul 2 8 width).symm
  have hlow' : leValue (p.take width) < 2 ^ (8 * width) := by
    have hlt := leValue_lt (p.take width)
    rwa [List.length_take_of_le (hle.trans hlength), hbase] at hlt
  have hvalue : leValue (p.take width') = leValue (p.take width) +
      2 ^ (8 * width) * leValue ((p.drop width).take (width' - width)) := by
    rw [hsplit, leValue_append, List.length_take_of_le (hle.trans hlength), hbase]
  -- both readings are the same modulo the narrow width
  have hcongr : ∃ q : Int, mkSigned width' p = leValue (p.take width) + 2 ^ (8 * width) * q := by
    unfold mkSigned signed
    rw [hvalue]
    split
    · exact ⟨leValue ((p.drop width).take (width' - width)), by push_cast; rfl⟩
    · refine ⟨leValue ((p.drop width).take (width' - width)) - 2 ^ (8 * (width' - width)), ?_⟩
      have hpow : (2 : Int) ^ (8 * width') = 2 ^ (8 * width) * 2 ^ (8 * (width' - width)) := by
        rw [← pow_add]
        congr 1
        omega
      push_cast
      rw [hpow]
      ring
  obtain ⟨q, hq⟩ := hcongr
  have hunsigned : unsigned (8 * width) (mkSigned width' p) = leValue (p.take width) := by
    rw [hq, unsigned, Int.add_mul_emod_self_left,
      Int.emod_eq_of_lt (by positivity) (by exact_mod_cast hlow')]
    rfl
  rw [← signed_unsigned (by omega) hlow hhigh, hunsigned]
  rfl

end Harbour.Compiler.PCodeSize
