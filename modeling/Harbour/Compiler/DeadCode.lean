import Harbour.Compiler.Jumps
import Mathlib.Logic.Function.Basic
import Mathlib.Logic.Relation

/-!
The marking of dead code: the code of a function is traced from its start along jumps, and what
has not been met is replaced.
-/

namespace Harbour.Compiler.PCodeSize

/-! Codes that the trace tells apart and the sizes do not. -/

@[match_pattern] def PCode.endBlock : PCode := .other 6
@[match_pattern] def PCode.endProc : PCode := .other 7
@[match_pattern] def PCode.pushByte : PCode := .other 92
@[match_pattern] def PCode.pushInt : PCode := .other 93
@[match_pattern] def PCode.pushLong : PCode := .other 97
@[match_pattern] def PCode.pushNil : PCode := .other 100
@[match_pattern] def PCode.pushLongLong : PCode := .other 128
@[match_pattern] def PCode.switch : PCode := .other 133
@[match_pattern] def PCode.pushDate : PCode := .other 134

end Harbour.Compiler.PCodeSize

namespace Harbour.Compiler.DeadCode

open Library.Bytes PCodeSize Jumps

structure TraceInfo where
  pCodeMark : Nat → Nat
  pnJumps : List Nat
  nJumpPos : Nat
  fFinished : Bool

inductive TraceError where
  | badOpCode
  | outside
  | endless
  deriving DecidableEq, Repr

section Trace

variable (pFunc : Func) (info : TraceInfo) (nPCodePos : Nat)

def codeTraceAddJump : Except TraceError TraceInfo :=
  if nPCodePos < pFunc.pCode.length then
    if info.pCodeMark nPCodePos = 0 then
      .ok { info with
        pnJumps := info.pnJumps ++ [nPCodePos]
        pCodeMark := Function.update info.pCodeMark nPCodePos 1 }
    else .ok info
  else .error .outside

/-- The loop over the jumps not looked at yet: the next position, and where to look for more. -/
def nextJump (pCodeMark : Nat → Nat) : List Nat → (nJumpPos : Nat) → Option (Nat × Nat)
  | [], _ => none
  | nPCodePos :: rest, nJumpPos =>
    if pCodeMark nPCodePos = 1 then some (nPCodePos, nJumpPos + 1)
    else nextJump pCodeMark rest (nJumpPos + 1)

def codeTraceNextPos : TraceInfo × Nat :=
  if nPCodePos < pFunc.pCode.length ∧ info.pCodeMark nPCodePos = 0 then (info, nPCodePos)
  else
    match nextJump info.pCodeMark (info.pnJumps.drop info.nJumpPos) info.nJumpPos with
    | some (nPCodePos, nJumpPos) => ({ info with nJumpPos := nJumpPos }, nPCodePos)
    | none =>
      ({ info with nJumpPos := info.pnJumps.length, fFinished := true }, pFunc.pCode.length)

def codeTraceMark (nSize : Nat) : Except TraceError TraceInfo :=
  if nPCodePos + nSize ≤ pFunc.pCode.length then
    .ok { info with
      pCodeMark := fun n => if nPCodePos ≤ n ∧ n < nPCodePos + nSize then 2 else info.pCodeMark n }
  else .error .outside

def jumpTarget (width : Nat) : Nat :=
  size (nPCodePos + mkSigned width (pFunc.pCode.drop (nPCodePos + 1)))

def p_default : Except TraceError (TraceInfo × Nat) := do
  let nSize := compPCodeSize (pFunc.pCode.drop nPCodePos)
  let info ← codeTraceMark pFunc info nPCodePos nSize
  return codeTraceNextPos pFunc info (nPCodePos + nSize)

def traceJump (width : Nat) : Except TraceError (TraceInfo × Nat) := do
  let nNewPos := jumpTarget pFunc nPCodePos width
  let info ← codeTraceMark pFunc info nPCodePos (1 + width)
  return codeTraceNextPos pFunc info nNewPos

/-- A jump that may be taken: tracing goes on behind it. -/
def traceBranch (width : Nat) : Except TraceError (TraceInfo × Nat) := do
  let nNewPos := jumpTarget pFunc nPCodePos width
  let info ← codeTraceMark pFunc info nPCodePos (1 + width)
  let info ← codeTraceAddJump pFunc info nNewPos
  return codeTraceNextPos pFunc info (nPCodePos + (1 + width))

def p_jumpnear := traceJump pFunc info nPCodePos 1
def p_jump := traceJump pFunc info nPCodePos 2
def p_jumpfar := traceJump pFunc info nPCodePos 3
def p_jumpfalsenear := traceBranch pFunc info nPCodePos 1
def p_jumpfalse := traceBranch pFunc info nPCodePos 2
def p_jumpfalsefar := traceBranch pFunc info nPCodePos 3
def p_jumptruenear := traceBranch pFunc info nPCodePos 1
def p_jumptrue := traceBranch pFunc info nPCodePos 2
def p_jumptruefar := traceBranch pFunc info nPCodePos 3
def p_seqalways := traceBranch pFunc info nPCodePos 3
def p_alwaysbegin := traceBranch pFunc info nPCodePos 3
def p_seqend := traceJump pFunc info nPCodePos 3

/-- The code of the end of a sequence in front of its RECOVER is traced too. -/
def addSeqEnd (nRecoverPos : Nat) : Except TraceError TraceInfo :=
  match pFunc.pCode[nRecoverPos]? with
  | none => .error .outside
  | some byte =>
    if byte ≠ PCode.seqEnd.byte then
      match pFunc.pCode[size (nRecoverPos - 4)]? with
      | none => .error .outside
      | some byte =>
        if byte = PCode.seqEnd.byte then codeTraceAddJump pFunc info (size (nRecoverPos - 4))
        else .ok info
    else .ok info

def p_seqbegin : Except TraceError (TraceInfo × Nat) := do
  let nRecoverPos := jumpTarget pFunc nPCodePos 3
  let info ← addSeqEnd pFunc info nRecoverPos
  let info ← codeTraceMark pFunc info nPCodePos 4
  let info ← codeTraceAddJump pFunc info nRecoverPos
  return codeTraceNextPos pFunc info (nPCodePos + 4)

def switchValue (pCode : Bytes) : Nat :=
  match code pCode with
  | .pushByte => 2
  | .pushInt => 3
  | .pushLong | .pushDate => 5
  | .pushLongLong => 9
  | .pushStrShort => 2 + mkUnsigned 1 (pCode.drop 1)
  | .pushStr => 3 + mkUnsigned 2 (pCode.drop 1)
  | .pushStrLarge => 4 + mkUnsigned 3 (pCode.drop 1)
  | .pushNil => 1
  | _ => 0

def switchJump (pCode : Bytes) : Nat :=
  match code pCode with
  | .jumpNear => 1
  | .jump => 2
  | _ => 3

/-- The loop over the arms; `us` counts in 16 bits, and the default arm ends it. The first
argument bounds its rounds: each takes bytes of the code. -/
def switchArms (usCases : Nat) : (rounds us : Nat) → TraceInfo → (nPCodePos : Nat) →
    Except TraceError (TraceInfo × Nat × Nat)
  | 0, _, _, _ => .error .outside
  | rounds + 1, us, info, nPCodePos =>
    if us < usCases then
      let pCode := pFunc.pCode.drop nPCodePos
      let us := if code pCode = .pushNil then usCases else us
      let nPCodePos := nPCodePos + switchValue pCode
      let width := switchJump (pFunc.pCode.drop nPCodePos)
      if nPCodePos + (1 + width) ≤ pFunc.pCode.length then do
        let info ← codeTraceAddJump pFunc info (jumpTarget pFunc nPCodePos width)
        switchArms usCases rounds ((us + 1) % 2 ^ 16) info (nPCodePos + (1 + width))
      else .error .outside
    else .ok (info, nPCodePos, us)

def p_switch : Except TraceError (TraceInfo × Nat) := do
  let usCases := mkUnsigned 2 (pFunc.pCode.drop (nPCodePos + 1))
  let nStart := nPCodePos
  let (info, nPCodePos, us) ←
    switchArms pFunc usCases (pFunc.pCode.length + 1) 0 info (nPCodePos + 3)
  let info ← codeTraceMark pFunc info nStart (nPCodePos - nStart)
  return codeTraceNextPos pFunc info (if us > usCases then pFunc.pCode.length else nPCodePos)

def traceEnd : Except TraceError (TraceInfo × Nat) := do
  let info ← codeTraceMark pFunc info nPCodePos 1
  return codeTraceNextPos pFunc info pFunc.pCode.length

def p_endblock := traceEnd pFunc info nPCodePos
def p_endproc := traceEnd pFunc info nPCodePos

def codeTraceFunc : Except TraceError (TraceInfo × Nat) :=
  match code (pFunc.pCode.drop nPCodePos) with
  | .jumpNear => p_jumpnear pFunc info nPCodePos
  | .jump => p_jump pFunc info nPCodePos
  | .jumpFar => p_jumpfar pFunc info nPCodePos
  | .jumpFalseNear => p_jumpfalsenear pFunc info nPCodePos
  | .jumpFalse => p_jumpfalse pFunc info nPCodePos
  | .jumpFalseFar => p_jumpfalsefar pFunc info nPCodePos
  | .jumpTrueNear => p_jumptruenear pFunc info nPCodePos
  | .jumpTrue => p_jumptrue pFunc info nPCodePos
  | .jumpTrueFar => p_jumptruefar pFunc info nPCodePos
  | .seqBegin => p_seqbegin pFunc info nPCodePos
  | .seqEnd => p_seqend pFunc info nPCodePos
  | .seqAlways => p_seqalways pFunc info nPCodePos
  | .alwaysBegin => p_alwaysbegin pFunc info nPCodePos
  | .endBlock => p_endblock pFunc info nPCodePos
  | .endProc => p_endproc pFunc info nPCodePos
  | .switch => p_switch pFunc info nPCodePos
  | _ => p_default pFunc info nPCodePos

def lastPCode : UInt8 := 181

/-- `hb_compPCodeTrace`; the second argument bounds its rounds. -/
def compPCodeTrace (pFunc : Func) : (rounds : Nat) → TraceInfo → (nPos : Nat) →
    Except TraceError TraceInfo
  | 0, _, _ => .error .endless
  | rounds + 1, info, nPos =>
    if nPos < pFunc.pCode.length then
      if (pFunc.pCode.drop nPos).headD 0 < lastPCode then do
        let (info, nPos) ← codeTraceFunc pFunc info nPos
        compPCodeTrace pFunc rounds info nPos
      else .error .badOpCode
    else .ok info

end Trace

/-- The loop over the marks, from `nPos` on: the function, how many bytes in front of the end have
not been met, and the last byte that has. -/
def fillDead (pCodeMark : Nat → Nat) : (left nPos nCount : Nat) → (bLastCode : UInt8) → Func →
    Func × Nat × UInt8
  | 0, _, nCount, bLastCode, pFunc => (pFunc, nCount, bLastCode)
  | left + 1, nPos, nCount, bLastCode, pFunc =>
    if pCodeMark nPos = 0 then fillDead pCodeMark left (nPos + 1) (nCount + 1) bLastCode pFunc
    else
      let bLastCode := (pFunc.pCode.drop nPos).headD 0
      let pFunc := if nCount ≠ 0 then compNOOPfill pFunc (nPos - nCount)
        nCount false true else pFunc
      fillDead pCodeMark left (nPos + 1) 0 bLastCode pFunc

def endCode (named : Bool) : UInt8 := if named then PCode.endProc.byte else PCode.endBlock.byte

def removeDead (named : Bool) (pCodeMark : Nat → Nat) (pFunc : Func) : Func :=
  let nPos := pFunc.pCode.length
  let (pFunc, nCount, bLastCode) := fillDead pCodeMark nPos 0 0 lastPCode pFunc
  if nCount > 0 ∧ bLastCode ≠ endCode named then
    compNOOPfill pFunc (nPos - 1 - (nCount - 1)) (nCount - 1) false true
  else compNOOPfill pFunc (nPos - nCount) nCount false true

def compCodeTraceMarkDead (rounds : Nat) (fOptJump named : Bool) (pFunc : Func) :
    Except TraceError Func :=
  if fOptJump = false ∨ pFunc.pCode.length < 2 then .ok pFunc
  else do
    let info ← compPCodeTrace pFunc rounds ⟨fun _ => 0, [], 0, false⟩ 0
    return if info.fFinished then removeDead named info.pCodeMark pFunc else pFunc

end Harbour.Compiler.DeadCode

/-!
The paths of control through the code of a function, and the bodies for which they make sense.
-/

namespace Harbour.Compiler.DeadCode

open Library.Bytes Library.Chunks PCodeSize Jumps

def caseValues : List PCode :=
  [.pushByte, .pushInt, .pushLong, .pushDate, .pushLongLong, .pushStrShort, .pushStr, .pushStrLarge,
    .pushNil]

structure Arm where
  value : Bytes
  jump : Bytes
  isValue : code value ∈ caseValues
  valueComplete : Complete value
  always : (code jump).kind = some .always
  jumpComplete : Complete jump

namespace Arm

def bytes (arm : Arm) : Bytes := arm.value ++ arm.jump

def isDefault (arm : Arm) : Prop := code arm.value = .pushNil

end Arm

def armBytes (arms : List Arm) : Bytes := (arms.map Arm.bytes).flatten

def switchBytes (arms : List Arm) : Bytes :=
  PCode.switch.byte :: (leBytes 2 arms.length ++ armBytes arms)

/-- One instruction, a `switch` with all of its arms among them. -/
inductive Shape (i : Bytes) : Prop
  | plain : Complete i → code i ≠ .switch → Shape i
  | switch (arms : List Arm) : i = switchBytes arms → arms.length < 2 ^ 16 →
      (∀ arm ∈ arms.dropLast, ¬ arm.isDefault) → Shape i

structure FallsThrough (i : Bytes) : Prop where
  always : (code i).kind ≠ some .always
  seqEnd : (code i).kind ≠ some .seqEnd
  endBlock : code i ≠ .endBlock
  endProc : code i ≠ .endProc
  switch : ∀ arms, i = switchBytes arms → ∀ arm ∈ arms, ¬ arm.isDefault

def armPos (before : List Arm) (arm : Arm) : Nat := 3 + (armBytes before).length + arm.value.length

/-- One step of control, from the start of an instruction to the start of another: a jump, be it
taken or not, the beginning or the end of a part of a sequence, an arm, or what stands behind. -/
inductive Flows (instrs : List Bytes) (a b : Nat) : Prop
  | jump {i : Bytes} {nOffset : Int} : (a, i) ∈ starts 0 instrs → jumpOffset i = some nOffset →
      (b : Int) = a + nOffset → Flows instrs a b
  | arm {before after : List Arm} {arm : Arm} {nOffset : Int} :
      (a, switchBytes (before ++ arm :: after)) ∈ starts 0 instrs →
      jumpOffset arm.jump = some nOffset → (b : Int) = a + armPos before arm + nOffset →
      Flows instrs a b
  | next {i j : Bytes} : (a, i) ∈ starts 0 instrs → FallsThrough i → (b, j) ∈ starts 0 instrs →
      b = a + i.length → Flows instrs a b

def Reaches (instrs : List Bytes) (a : Nat) : Prop := Relation.ReflTransGen (Flows instrs) 0 a

/-- The trace also goes to the end of a sequence that stands in front of its RECOVER; a sequence
that leads to an end leads to its own. -/
inductive Meets (instrs : List Bytes) (a b : Nat) : Prop
  | flows : Flows instrs a b → Meets instrs a b
  | seqEnd {i j k : Bytes} {nOffset : Int} {nRecoverPos : Nat} : (a, i) ∈ starts 0 instrs →
      code i = .seqBegin → jumpOffset i = some nOffset → (nRecoverPos : Int) = a + nOffset →
      (nRecoverPos, k) ∈ starts 0 instrs → code k ≠ .seqEnd → (b, j) ∈ starts 0 instrs →
      code j = .seqEnd → b + 4 = nRecoverPos → Meets instrs a b

/-- A body is a sequence of instructions that ends the function, and all jumps lead to
instructions. A sequence leads to its end, or to the RECOVER behind it. Removed bytes are listed
once. -/
structure Body (named : Bool) (pFunc : Func) (instrs : List Bytes) : Prop where
  code : pFunc.pCode = instrs.flatten
  shape : ∀ i ∈ instrs, Shape i
  fits : pFunc.pCode.length < 2 ^ 63
  lands : ∀ a i nOffset, (a, i) ∈ starts 0 instrs → jumpOffset i = some nOffset →
    ∃ b j, (b, j) ∈ starts 0 instrs ∧ (b : Int) = a + nOffset
  armsLand : ∀ a before arm after nOffset,
    (a, switchBytes (before ++ arm :: after)) ∈ starts 0 instrs →
    jumpOffset arm.jump = some nOffset →
    ∃ b j, (b, j) ∈ starts 0 instrs ∧ (b : Int) = a + armPos before arm + nOffset
  recover : ∀ a i nOffset, (a, i) ∈ starts 0 instrs → PCodeSize.code i = .seqBegin →
    jumpOffset i = some nOffset → ∃ b j, (b, j) ∈ starts 0 instrs ∧ PCodeSize.code j = .seqEnd ∧
      ((b : Int) = a + nOffset ∨ (b : Int) = a + nOffset - 4)
  last : ∃ before, instrs = before ++ [[endCode named]]
  noops : ∀ n ∈ pFunc.pNOOPs, pFunc.pCode[n]? = some PCode.noop.byte
  once : pFunc.pNOOPs.Nodup

/-- No `switch` that the trace meets counts to the limit of its counter and has a default arm. -/
def Countable (instrs : List Bytes) : Prop :=
  ∀ a arms, Relation.ReflTransGen (Meets instrs) 0 a → (a, switchBytes arms) ∈ starts 0 instrs →
    arms.length = 2 ^ 16 - 1 → ∀ arm ∈ arms, ¬ arm.isDefault

theorem ofByte_byte (b : UInt8) : (PCode.ofByte b).byte = b := by
  unfold PCode.ofByte
  split <;> first | rfl | exact (UInt8.toNat_inj.mp ‹b.toNat = _›).symm

theorem byte_of_code {b : UInt8} {pcode : PCode} (h : PCode.ofByte b = pcode) : b = pcode.byte := by
  rw [← h, ofByte_byte]

theorem code_cons (b : UInt8) (bytes : Bytes) : code (b :: bytes) = PCode.ofByte b := rfl

theorem switchValue_complete {value : Bytes} (hvalue : code value ∈ caseValues)
    (hcomplete : Complete value) (behind : Bytes) :
    switchValue (value ++ behind) = value.length := by
  obtain ⟨hpos, hsize⟩ := hcomplete
  obtain ⟨b, bytes, rfl⟩ := List.exists_cons_of_length_pos hpos
  have hsize' := hsize behind
  rw [code_cons] at hvalue
  rw [List.cons_append] at hsize' ⊢
  unfold switchValue
  rw [code_cons]
  simp only [caseValues, List.mem_cons, List.not_mem_nil, or_false] at hvalue
  rcases hvalue with h | h | h | h | h | h | h | h | h <;>
    · have hb := byte_of_code h
      rw [h, ← hsize', hb]
      rfl

theorem complete_append_inj {i i' behind behind' : Bytes} (h : Complete i) (h' : Complete i')
    (heq : i ++ behind = i' ++ behind') : i = i' ∧ behind = behind' := by
  refine List.append_inj heq ?_
  rw [← h.2 behind, ← h'.2 behind', heq]

theorem Arm.bytes_append_inj {arm arm' : Arm} {behind behind' : Bytes}
    (heq : arm.bytes ++ behind = arm'.bytes ++ behind') : arm = arm' ∧ behind = behind' := by
  unfold Arm.bytes at heq
  rw [List.append_assoc, List.append_assoc] at heq
  obtain ⟨hvalue, heq⟩ := complete_append_inj arm.valueComplete arm'.valueComplete heq
  obtain ⟨hjump, hbehind⟩ := complete_append_inj arm.jumpComplete arm'.jumpComplete heq
  cases arm
  subst hvalue hjump
  exact ⟨rfl, hbehind⟩

theorem Arm.bytes_ne_nil (arm : Arm) : arm.bytes ≠ [] :=
  List.append_ne_nil_of_left_ne_nil (List.length_pos_iff.mp arm.valueComplete.1) _

theorem armBytes_inj {arms arms' : List Arm} (heq : armBytes arms = armBytes arms') :
    arms = arms' := by
  induction arms generalizing arms' with
  | nil =>
    cases arms' with
    | nil => rfl
    | cons arm' arms' =>
      exact absurd heq.symm (List.append_ne_nil_of_left_ne_nil arm'.bytes_ne_nil _)
  | cons arm arms ih =>
    cases arms' with
    | nil => exact absurd heq (List.append_ne_nil_of_left_ne_nil arm.bytes_ne_nil _)
    | cons arm' arms' =>
      obtain ⟨harm, hrest⟩ := Arm.bytes_append_inj heq
      rw [harm, ih hrest]

theorem switchBytes_count (arms : List Arm) (h : arms.length < 2 ^ 16) (behind : Bytes) :
    mkUnsigned 2 ((switchBytes arms ++ behind).drop 1) = arms.length := by
  unfold mkUnsigned switchBytes
  rw [List.cons_append, List.drop_succ_cons, List.drop_zero, List.append_assoc,
    List.take_left' (leBytes_length 2 _), leValue_leBytes]
  exact Nat.mod_eq_of_lt h

theorem switchBytes_inj {arms arms' : List Arm} (heq : switchBytes arms = switchBytes arms') :
    arms = arms' := by
  have hlength : (leBytes 2 arms.length).length = (leBytes 2 arms'.length).length := by
    rw [leBytes_length, leBytes_length]
  exact armBytes_inj (List.append_inj (List.cons.inj heq).2 hlength).2

end Harbour.Compiler.DeadCode
