import Harbour.Compiler.SwitchTable

/-!
Where a `SWITCH` statement goes on: the code that is emitted for it, and the arm that this code
leads to.
-/

namespace Harbour.Compiler.Switch

open Library.Bytes PCodeSize Jumps JumpShorten JumpAdjust Vm.Switch List PCode

variable {α : Type*}

def jumpBytes (nOffset : Int) : Bytes := jumpFar.byte :: leBytes 3 (unsigned 64 nOffset)

def tableBytes : (nPos : Nat) → List (Option Expr × Nat) → Bytes
  | _, [] => []
  | nPos, (label, target) :: entries =>
    let nJump := nPos + (pushBytes label).length
    pushBytes label ++ (jumpBytes ((target : Int) - nJump) ++ tableBytes (nJump + 4) entries)

def InRange : (nPos : Nat) → List (Option Expr × Nat) → Prop
  | _, [] => True
  | nPos, (label, target) :: entries =>
    let nJump := nPos + (pushBytes label).length
    limInt 24 ((target : Int) - nJump) = true ∧ InRange (nJump + 4) entries

theorem jumpBytes_length (nOffset : Int) : (jumpBytes nOffset).length = 4 := by
  unfold jumpBytes
  rw [length_cons, leBytes_length]

theorem complete_jumpBytes (nOffset : Int) : Complete (jumpBytes nOffset) :=
  complete_of_width (show (PCodeSize.code (jumpBytes nOffset)).offsetWidth = some 3 from rfl)
    (jumpBytes_length nOffset)

variable {nOffset : Int} {code rest : Bytes} {iCount nPos nTo : Nat} {pCases : List SwitchCase}

theorem mkSigned_three (h : limInt 24 nOffset = true) (rest : Bytes) :
    mkSigned 3 (leBytes 3 (unsigned 64 nOffset) ++ rest) = nOffset := by
  obtain ⟨hlow, hhigh⟩ := of_decide_eq_true h
  exact mkSigned_leBytes (by decide) (by decide) hlow hhigh

theorem jumpOffset_jumpBytes (h : limInt 24 nOffset = true) :
    jumpOffset (jumpBytes nOffset) = some nOffset := by
  have hbytes := mkSigned_three h []
  exact congrArg some hbytes

theorem laid_tableBytes {entries : List (Option Expr × Nat)}
    (hcode : code.drop nPos = tableBytes nPos entries ++ rest) (hrange : InRange nPos entries)
    (hlabels : ∀ entry ∈ entries, labelled entry.1 = true) :
    Laid code nPos entries (nPos + (tableBytes nPos entries).length) := by
  induction entries generalizing nPos with
  | nil => exact .nil nPos
  | cons entry entries ih =>
    obtain ⟨label, target⟩ := entry
    obtain ⟨hlabel, hlabels⟩ := forall_mem_cons.mp hlabels
    have hbytes : code.drop nPos = pushBytes label ++
        (jumpBytes ((target : Int) - (nPos + (pushBytes label).length : Nat)) ++
          (tableBytes (nPos + (pushBytes label).length + 4) entries ++ rest)) := by
      rw [hcode, tableBytes, append_assoc, append_assoc]
    have hnext : code.drop (nPos + (pushBytes label).length + 4) =
        tableBytes (nPos + (pushBytes label).length + 4) entries ++ rest := by
      have hlength : (pushBytes label ++
          jumpBytes ((target : Int) - (nPos + (pushBytes label).length : Nat))).length =
            (pushBytes label).length + 4 := by
        rw [length_append, jumpBytes_length]
      rw [Nat.add_assoc, ← drop_drop, hbytes, ← append_assoc, Nat.add_assoc]
      exact drop_left' hlength
    have hstop : nPos + (tableBytes nPos ((label, target) :: entries)).length =
        nPos + (pushBytes label).length + 4 +
          (tableBytes (nPos + (pushBytes label).length + 4) entries).length := by
      rw [tableBytes, length_append, length_append, jumpBytes_length]
      omega
    rw [hstop]
    refine .cons hlabel hbytes rfl (complete_jumpBytes _) (jumpOffset_jumpBytes hrange.1) ?_
    exact ih hnext hrange.2 hlabels

theorem tableBytes_append {entries more : List (Option Expr × Nat)} :
    tableBytes nPos (entries ++ more) = tableBytes nPos entries ++
      tableBytes (nPos + (tableBytes nPos entries).length) more := by
  induction entries generalizing nPos with
  | nil => rfl
  | cons entry entries ih =>
    rw [cons_append, tableBytes, ih, tableBytes, append_assoc, append_assoc,
      length_append, length_append, jumpBytes_length, ← Nat.add_assoc, ← Nat.add_assoc]

theorem inRange_append {entries more : List (Option Expr × Nat)} :
    InRange nPos (entries ++ more) ↔ InRange nPos entries ∧
      InRange (nPos + (tableBytes nPos entries).length) more := by
  induction entries generalizing nPos with
  | nil => exact (and_iff_right trivial).symm
  | cons entry entries ih =>
    rw [cons_append, InRange, ih, InRange, and_assoc, tableBytes, length_append,
      length_append, jumpBytes_length, ← Nat.add_assoc, ← Nat.add_assoc]

def starts : (nPos : Nat) → List Arm → List (Option Expr × Nat)
  | _, [] => []
  | nPos, arm :: arms => (arm.pExpr, nPos) :: starts (nPos + arm.body.length) arms

/-- Where a value leads to: the case that equals it, or else `OTHERWISE`, or else the end. -/
def selected (pSwitch : Item α) (labels : List (Option Expr × Nat)) (stop : Nat) : Nat :=
  match labels.find? fun label => label.1.isSome ∧ answers pSwitch label.1 with
  | some label => label.2
  | none =>
    match labels.find? fun label => label.1.isNone with
    | some label => label.2
    | none => stop

def tableLabels (arms : List Arm) : List (Option Expr) :=
  (arms.map Arm.pExpr).filter Option.isSome ++ (arms.map Arm.pExpr).filter Option.isNone

def tableEntries (labels : List (Option Expr × Nat)) : List (Option Expr × Nat) :=
  labels.filter (fun label => label.1.isSome) ++ labels.filter fun label => label.1.isNone

theorem destination_tableEntries (pSwitch : Item α) (labels : List (Option Expr × Nat))
    (stop : Nat) :
    destination pSwitch (tableEntries labels) stop = selected pSwitch labels stop := by
  have hdefault : (labels.filter fun label => label.1.isNone).find?
      (fun entry => answers pSwitch entry.1) = labels.find? fun label => label.1.isNone := by
    rw [find?_filter]
    congr 1
    funext label
    rcases label.1 with _ | pExpr
    · rfl
    · rfl
  unfold destination selected tableEntries
  rw [find?_append, find?_filter, hdefault]
  cases labels.find? fun label => label.1.isSome ∧ answers pSwitch label.1 with
  | some label => rfl
  | none => rfl

theorem starts_labels (nPos : Nat) (arms : List Arm) :
    (starts nPos arms).map Prod.fst = arms.map Arm.pExpr := by
  induction arms generalizing nPos with
  | nil => rfl
  | cons arm arms ih => rw [starts, map_cons, ih, map_cons]

theorem tableEntries_labels (nPos : Nat) (arms : List Arm) :
    (tableEntries (starts nPos arms)).map Prod.fst = tableLabels arms := by
  unfold tableEntries tableLabels
  rw [map_append, ← starts_labels nPos arms, filter_map, filter_map]
  rfl

theorem starts_bounds {arms : List Arm} {label : Option Expr × Nat} (h : label ∈ starts nPos arms) :
    nPos ≤ label.2 ∧ label.2 ≤ nPos + (arms.flatMap Arm.body).length := by
  induction arms generalizing nPos with
  | nil => exact nomatch h
  | cons arm arms ih =>
    rw [flatMap_cons, length_append]
    rcases mem_cons.mp h with rfl | h
    · exact ⟨Nat.le_refl _, Nat.le_add_right _ _⟩
    · have hbounds := ih h
      omega

/-- What follows the arms: for a literal the jump to an arm, if there is one for it; and for any
other expression its code, the instruction and the table. -/
def Tail (α : Type*) (nPos : Nat) (entries : List (Option Expr × Nat)) (tail : Bytes) : Expr → Prop
  | .other push =>
    InRange (nPos + push.length + 3) entries ∧
      tail = push ++ (switch.byte ::
        (leBytes 2 entries.length ++ tableBytes (nPos + push.length + 3) entries))
  | pExpr =>
    ∀ value : Item α, answers value (some pExpr) = true →
      match entries.find? fun entry => answers value entry.1 with
      | some entry =>
        limInt 24 ((entry.2 : Int) - nPos) = true ∧ tail = jumpBytes ((entry.2 : Int) - nPos)
      | none => tail = []

namespace Func

variable {pFunc : Func}

theorem genJump_zero :
    pFunc.genJump 0 = (pFunc.genPCode (jumpBytes 0), pFunc.pCode.length + 1) := by
  refine Prod.ext rfl ?_
  show (pFunc.pCode ++ (jumpFar.byte :: leBytes 3 (unsigned 64 0))).length - 3 = _
  rw [length_append]
  rfl

theorem genJumpThere_spec (pFunc : Func) (hcode : pFunc.pCode = code ++ (jumpBytes nOffset ++ rest))
    (haccepted : (pFunc.genJumpThere (code.length + 1) nTo).errors = []) :
    pFunc.errors = [] ∧ limInt 24 ((nTo : Int) - code.length) = true ∧
      pFunc.genJumpThere (code.length + 1) nTo =
        { pFunc with pCode := code ++ (jumpBytes ((nTo : Int) - code.length) ++ rest) } := by
  have hoffset : (nTo : Int) - (code.length + 1 : Nat) + 1 = (nTo : Int) - code.length := by omega
  unfold genJumpThere at haccepted ⊢
  rw [hoffset] at haccepted ⊢
  rcases Bool.eq_false_or_eq_true (limInt 24 ((nTo : Int) - code.length)) with hlim | hlim
  · simp only [hlim, if_true] at haccepted ⊢
    refine ⟨haccepted, trivial, ?_⟩
    have hput : putBytes pFunc.pCode (code.length + 1)
        (leBytes 3 (unsigned 64 ((nTo : Int) - code.length))) =
        code ++ (jumpBytes ((nTo : Int) - code.length) ++ rest) := by
      rw [hcode, putBytes_within _ (by rw [leBytes_length, jumpBytes_length])]
      have hbehind := @putBytes_behind [jumpFar.byte] (leBytes 3 (unsigned 64 nOffset))
        (leBytes 3 (unsigned 64 ((nTo : Int) - code.length)))
        (by rw [leBytes_length, leBytes_length])
      exact congrArg (fun bytes => code ++ (bytes ++ rest)) hbehind
    rw [hput]
  · simp only [hlim, Bool.false_eq_true, if_false] at haccepted
    exact absurd haccepted (append_ne_nil_of_right_ne_nil _ (cons_ne_nil _ _))

theorem genJumpHere_spec {nFrom : Nat} (hcode : pFunc.pCode = code ++ (jumpBytes nOffset ++ rest))
    (hfrom : nFrom = code.length + 1) (haccepted : (pFunc.genJumpHere nFrom).errors = []) :
    pFunc.errors = [] ∧ limInt 24 ((pFunc.pCode.length : Int) - code.length) = true ∧
      pFunc.genJumpHere nFrom =
        { pFunc with
          pCode := code ++ (jumpBytes ((pFunc.pCode.length : Int) - code.length) ++ rest) } := by
  subst hfrom
  exact genJumpThere_spec pFunc hcode haccepted

theorem genJumpTo_spec (haccepted : (pFunc.genJumpTo nTo).errors = []) :
    pFunc.errors = [] ∧ limInt 24 ((nTo : Int) - pFunc.pCode.length) = true ∧
      pFunc.genJumpTo nTo =
        pFunc.genPCode (jumpBytes ((nTo : Int) - pFunc.pCode.length)) := by
  unfold genJumpTo at haccepted ⊢
  rw [genJump_zero] at haccepted ⊢
  obtain ⟨herrors, hlim, heq⟩ := genJumpThere_spec (pFunc.genPCode (jumpBytes 0))
    (show _ = pFunc.pCode ++ (jumpBytes 0 ++ []) by rw [append_nil]; rfl) haccepted
  refine ⟨herrors, hlim, heq.trans ?_⟩
  rfl

theorem exprGenPush_spec {pExpr : Expr} (haccepted : (pFunc.exprGenPush pExpr).errors = []) :
    pFunc.errors = [] ∧ pFunc.exprGenPush pExpr = pFunc.genPCode (pushBytes (some pExpr)) := by
  cases pExpr with
  | long n =>
    change (pFunc.genPushLong n).errors = [] at haccepted
    show _ ∧ pFunc.genPushLong n = pFunc.genPCode (longBytes n)
    unfold genPushLong at haccepted ⊢
    unfold longBytes
    rcases Bool.eq_false_or_eq_true (limInt 32 n) with hlim | hlim
    · rw [if_pos hlim] at haccepted ⊢
      rw [if_pos hlim]
      exact ⟨haccepted, rfl⟩
    · rw [if_neg (Bool.eq_false_iff.mp hlim)] at haccepted ⊢
      rw [if_neg (Bool.eq_false_iff.mp hlim)]
      exact ⟨haccepted, rfl⟩
  | string s =>
    change (pFunc.genPushString s).errors = [] at haccepted
    show _ ∧ pFunc.genPushString s = pFunc.genPCode (stringBytes s)
    unfold genPushString at haccepted ⊢
    simp only at haccepted ⊢
    split at haccepted
    · exact absurd haccepted (append_ne_nil_of_right_ne_nil _ (cons_ne_nil _ _))
    · rename_i hsmall
      refine ⟨haccepted, ?_⟩
      rw [if_neg hsmall]
      unfold genPCode
      rw [append_assoc]
      rfl
  | other push => exact ⟨haccepted, rfl⟩

def caseEntries (pCases : List SwitchCase) : List (Option Expr × Nat) :=
  pCases.map fun pCase => (some pCase.pExpr, pCase.nOffset)

def defaultEntries (nDefault : Nat) : List (Option Expr × Nat) :=
  if nDefault ≠ 0 then [(none, nDefault)] else []

theorem genCases_spec (hliteral : ∀ pCase ∈ pCases, pCase.pExpr.isLiteral = true)
    (haccepted : (genCases pCases iCount pFunc).2.errors = []) :
    pFunc.errors = [] ∧ InRange pFunc.pCode.length (caseEntries pCases) ∧
      genCases pCases iCount pFunc = (iCount + pCases.length,
        pFunc.genPCode (tableBytes pFunc.pCode.length (caseEntries pCases))) := by
  induction pCases generalizing pFunc iCount with
  | nil =>
    refine ⟨haccepted, trivial, ?_⟩
    show (iCount, pFunc) = (iCount, { pFunc with pCode := pFunc.pCode ++ [] })
    rw [append_nil]
  | cons pCase pCases ih =>
    obtain ⟨hcase, hliteral⟩ := forall_mem_cons.mp hliteral
    unfold genCases at haccepted ⊢
    rw [if_pos hcase] at haccepted ⊢
    obtain ⟨herrors, hrange, heq⟩ := ih hliteral haccepted
    obtain ⟨herrors, hlim, hjump⟩ := genJumpTo_spec herrors
    obtain ⟨herrors, hpush⟩ := exprGenPush_spec herrors
    rw [hpush] at hjump hlim
    have hlength : (pFunc.genPCode (pushBytes (some pCase.pExpr))).pCode.length =
        pFunc.pCode.length + (pushBytes (some pCase.pExpr)).length := length_append
    rw [hlength] at hlim hjump
    rw [hpush] at hrange heq ⊢
    have hnext : ((pFunc.genPCode (pushBytes (some pCase.pExpr))).genJumpTo
        pCase.nOffset).pCode.length =
          pFunc.pCode.length + (pushBytes (some pCase.pExpr)).length + 4 := by
      rw [hjump]
      show (_ ++ jumpBytes _).length = _
      rw [length_append, jumpBytes_length, hlength]
    rw [hnext] at hrange heq
    refine ⟨herrors, ⟨hlim, hrange⟩, heq.trans ?_⟩
    rw [hjump]
    refine Prod.ext ?_ ?_
    · show iCount + 1 + pCases.length = iCount + (pCases.length + 1)
      omega
    · unfold genPCode
      simp only [append_assoc]
      rfl

theorem genDefault_spec (haccepted : (pFunc.genDefault iCount).2.errors = []) :
    pFunc.errors = [] ∧ InRange pFunc.pCode.length (defaultEntries pFunc.pSwitch.nDefault) ∧
      pFunc.genDefault iCount = (iCount + (defaultEntries pFunc.pSwitch.nDefault).length,
        pFunc.genPCode (tableBytes pFunc.pCode.length
          (defaultEntries pFunc.pSwitch.nDefault))) := by
  unfold genDefault at haccepted ⊢
  unfold defaultEntries
  split at haccepted
  · rename_i hdefault
    rw [if_pos hdefault, if_pos hdefault]
    obtain ⟨herrors, hlim, hjump⟩ := genJumpTo_spec haccepted
    have hlength : (pFunc.genPCode [pushNil.byte]).pCode.length =
        pFunc.pCode.length + 1 := length_append
    rw [hlength] at hlim hjump
    refine ⟨herrors, ⟨hlim, trivial⟩, Prod.ext rfl (hjump.trans ?_)⟩
    unfold genPCode tableBytes tableBytes
    simp only [append_assoc, append_nil]
    rfl
  · rename_i hdefault
    rw [if_neg hdefault, if_neg hdefault]
    refine ⟨haccepted, trivial, ?_⟩
    show (iCount, pFunc) = (iCount, { pFunc with pCode := pFunc.pCode ++ [] })
    rw [append_nil]

def entries (pSwitch : SwitchCmd) : List (Option Expr × Nat) :=
  caseEntries pSwitch.pCases ++ defaultEntries pSwitch.nDefault

theorem genEntries_spec (pFunc : Func)
    (hliteral : ∀ pCase ∈ pFunc.pSwitch.pCases, pCase.pExpr.isLiteral = true)
    (haccepted : pFunc.genEntries.2.errors = []) :
    pFunc.errors = [] ∧ InRange pFunc.pCode.length (entries pFunc.pSwitch) ∧
      pFunc.genEntries = ((entries pFunc.pSwitch).length,
        pFunc.genPCode (tableBytes pFunc.pCode.length (entries pFunc.pSwitch))) := by
  unfold genEntries at haccepted ⊢
  obtain ⟨herrors, hdefault, hend⟩ := genDefault_spec haccepted
  obtain ⟨herrors, hcases, hgen⟩ := genCases_spec hliteral herrors
  rw [hgen] at hdefault hend ⊢
  have hlength : (pFunc.genPCode (tableBytes pFunc.pCode.length
      (caseEntries pFunc.pSwitch.pCases))).pCode.length = pFunc.pCode.length +
        (tableBytes pFunc.pCode.length (caseEntries pFunc.pSwitch.pCases)).length :=
    length_append
  rw [hlength] at hdefault hend
  refine ⟨herrors, inRange_append.mpr ⟨hcases, hdefault⟩, hend.trans (Prod.ext ?_ ?_)⟩
  · unfold entries caseEntries
    rw [length_append, length_map, Nat.zero_add]
    rfl
  · unfold entries genPCode
    rw [tableBytes_append, ← append_assoc]

theorem genTable_spec {push : Bytes}
    (hliteral : ∀ pCase ∈ pFunc.pSwitch.pCases, pCase.pExpr.isLiteral = true)
    (haccepted : (pFunc.genTable (.other push)).errors = []) :
    pFunc.errors = [] ∧
      InRange (pFunc.pCode.length + push.length + 3) (entries pFunc.pSwitch) ∧
      pFunc.genTable (.other push) = pFunc.genPCode (push ++ (switch.byte ::
        (leBytes 2 (entries pFunc.pSwitch).length ++
          tableBytes (pFunc.pCode.length + push.length + 3) (entries pFunc.pSwitch)))) := by
  let pTable := (pFunc.genPCode push).genPCode [switch.byte, 0, 0]
  have hpos : pTable.pCode.length = pFunc.pCode.length + push.length + 3 := by
    show (pFunc.pCode ++ push ++ [switch.byte, 0, 0]).length = _
    rw [length_append, length_append]
    rfl
  have hgen : pFunc.genTable (.other push) =
      { pTable.genEntries.2 with
        pCode := putBytes pTable.genEntries.2.pCode ((pFunc.pCode ++ push).length + 1)
          (leBytes 2 pTable.genEntries.1) } := rfl
  obtain ⟨herrors, hrange, hentries⟩ := genEntries_spec pTable hliteral haccepted
  have hsame : pTable.pSwitch = pFunc.pSwitch := rfl
  rw [hpos, hsame] at hrange hentries
  refine ⟨herrors, hrange, ?_⟩
  rw [hgen, hentries]
  have hsplit : pTable.pCode ++ tableBytes (pFunc.pCode.length + push.length + 3)
      (entries pFunc.pSwitch) = (pFunc.pCode ++ push) ++ ([switch.byte, 0, 0] ++
        tableBytes (pFunc.pCode.length + push.length + 3) (entries pFunc.pSwitch)) :=
    append_assoc ..
  have hput := @putBytes_behind [switch.byte] [0, 0]
    (leBytes 2 (entries pFunc.pSwitch).length) (leBytes_length _ _)
  have hwithin := @putBytes_within (pFunc.pCode ++ push)
    (tableBytes (pFunc.pCode.length + push.length + 3) (entries pFunc.pSwitch))
    [switch.byte, 0, 0] 1 (leBytes 2 (entries pFunc.pSwitch).length)
    (by rw [leBytes_length]; decide)
  unfold genPCode
  refine congrArg (fun code => ({ pFunc with pCode := code } : Func)) ?_
  rw [hsplit]
  refine hwithin.trans ?_
  rw [append_assoc]
  exact congrArg (fun bytes => pFunc.pCode ++ (push ++ (bytes ++ _))) hput

theorem genEqual_spec {pExpr : Expr} (haccepted : (pFunc.genEqual pExpr pCases).2.errors = []) :
    pFunc.errors = [] ∧
      match pCases.find? fun pCase => pExpr.equal pCase.pExpr with
      | some pCase =>
        limInt 24 ((pCase.nOffset : Int) - pFunc.pCode.length) = true ∧
          pFunc.genEqual pExpr pCases =
            (true, pFunc.genPCode (jumpBytes ((pCase.nOffset : Int) - pFunc.pCode.length)))
      | none => pFunc.genEqual pExpr pCases = (false, pFunc) := by
  induction pCases with
  | nil => exact ⟨haccepted, rfl⟩
  | cons pCase pCases ih =>
    unfold genEqual at haccepted ⊢
    rw [find?_cons]
    split at haccepted
    · rename_i hequal
      obtain ⟨herrors, hlim, heq⟩ := genJumpTo_spec haccepted
      rw [hequal, if_pos rfl, heq]
      exact ⟨herrors, hlim, rfl⟩
    · rename_i hequal
      rw [Bool.eq_false_iff.mpr hequal, if_neg (by decide)]
      exact ih haccepted

/-- What the arms leave behind: their code, and the entries for their labels. -/
structure ArmsDone (pFunc : Func) (arms : List Arm) (done : Func) : Prop where
  errors : pFunc.errors = []
  pCode : done.pCode = pFunc.pCode ++ arms.flatMap Arm.body
  nOffset : done.pSwitch.nOffset = pFunc.pSwitch.nOffset
  pExpr : done.pSwitch.pExpr = pFunc.pSwitch.pExpr
  cases : caseEntries done.pSwitch.pCases = caseEntries pFunc.pSwitch.pCases ++
    (starts pFunc.pCode.length arms).filter fun label => label.1.isSome
  default : defaultEntries done.pSwitch.nDefault = defaultEntries pFunc.pSwitch.nDefault ++
    (starts pFunc.pCode.length arms).filter fun label => label.1.isNone
  literal : (∀ pCase ∈ pFunc.pSwitch.pCases, pCase.pExpr.isLiteral = true) →
    ∀ pCase ∈ done.pSwitch.pCases, pCase.pExpr.isLiteral = true
  distinct : pFunc.pSwitch.pCases.Pairwise (fun earlier later =>
      later.pExpr.equal earlier.pExpr = false) →
    done.pSwitch.pCases.Pairwise fun earlier later => later.pExpr.equal earlier.pExpr = false

theorem caseErrors_nil {pExpr : Expr} (h : pFunc.caseErrors pExpr = []) :
    pExpr.isLiteral = true ∧
      ∀ pCase ∈ pFunc.pSwitch.pCases, pExpr.equal pCase.pExpr = false := by
  have hfirst := (append_eq_nil_iff.mp h).1
  rcases Bool.eq_false_or_eq_true pExpr.isLiteral with hliteral | hliteral
  · rw [if_pos hliteral] at hfirst
    refine ⟨hliteral, fun pCase hmem => Bool.eq_false_iff.mpr fun hequal => ?_⟩
    exact not_mem_nil (map_eq_nil_iff.mp hfirst ▸ mem_filter.mpr ⟨hmem, hequal⟩)
  · rw [if_neg (Bool.eq_false_iff.mp hliteral)] at hfirst
    exact absurd hfirst (cons_ne_nil _ _)

theorem switchAdd_none : pFunc.switchAdd none =
    if pFunc.pSwitch.nDefault ≠ 0 then pFunc.genError .mayhemInCase else pFunc.setDefault := rfl

theorem arms_spec (pFunc : Func) {arms : List Arm} (hpos : 0 < pFunc.pCode.length)
    (haccepted : (arms.foldl (fun pFunc arm => (pFunc.switchAdd arm.pExpr).genPCode arm.body)
      pFunc).errors = []) :
    ArmsDone pFunc arms
      (arms.foldl (fun pFunc arm => (pFunc.switchAdd arm.pExpr).genPCode arm.body) pFunc) := by
  induction arms generalizing pFunc with
  | nil =>
    exact ⟨haccepted, (append_nil _).symm, rfl, rfl, (append_nil _).symm,
      (append_nil _).symm, id, id⟩
  | cons arm arms ih =>
    obtain ⟨label, body⟩ := arm
    rw [foldl_cons] at haccepted ⊢
    cases label with
    | some pExpr =>
      have hlength : 0 < ((pFunc.switchAdd (some pExpr)).genPCode body).pCode.length := by
        show 0 < (pFunc.pCode ++ body).length
        rw [length_append]
        omega
      have hdone := ih _ hlength haccepted
      obtain ⟨herrors, hcase⟩ := append_eq_nil_iff.mp hdone.errors
      obtain ⟨hliteral, hequal⟩ := caseErrors_nil hcase
      refine ⟨herrors, ?_, hdone.nOffset, hdone.pExpr, ?_, ?_, ?_, ?_⟩
      · rw [hdone.pCode, flatMap_cons, ← append_assoc]
        rfl
      · rw [hdone.cases]
        show caseEntries (pFunc.pSwitch.pCases ++ [⟨pFunc.pCode.length, pExpr⟩]) ++
          (starts (pFunc.pCode ++ body).length arms).filter _ = _
        unfold caseEntries
        rw [map_append, append_assoc, length_append]
        rfl
      · rw [hdone.default]
        show defaultEntries pFunc.pSwitch.nDefault ++
          (starts (pFunc.pCode ++ body).length arms).filter _ = _
        rw [length_append]
        rfl
      · intro hold
        refine hdone.literal ?_
        intro pCase hmem
        rcases mem_append.mp hmem with hmem | hmem
        · exact hold pCase hmem
        · rw [mem_singleton.mp hmem]
          exact hliteral
      · intro hold
        refine hdone.distinct (pairwise_append.mpr ⟨hold, pairwise_singleton _ _, ?_⟩)
        intro earlier hearlier later hlater
        rw [mem_singleton.mp hlater]
        exact hequal earlier hearlier
    | none =>
      have hlength : 0 < ((pFunc.switchAdd none).genPCode body).pCode.length := by
        have hle : pFunc.pCode.length ≤ (pFunc.switchAdd none).pCode.length := by
          rw [switchAdd_none]
          split
          · exact Nat.le_refl _
          · exact Nat.le_refl _
        show 0 < ((pFunc.switchAdd none).pCode ++ body).length
        rw [length_append]
        omega
      have hdone := ih _ hlength haccepted
      have hadd : pFunc.pSwitch.nDefault = 0 ∧ pFunc.switchAdd none = pFunc.setDefault := by
        have herrors : (pFunc.switchAdd none).errors = [] := hdone.errors
        rw [switchAdd_none] at herrors ⊢
        split at herrors
        · exact absurd herrors (append_ne_nil_of_right_ne_nil _ (cons_ne_nil _ _))
        · rename_i hzero
          exact ⟨not_not.mp hzero, if_neg hzero⟩
      rw [hadd.2] at hdone ⊢
      refine ⟨hdone.errors, ?_, hdone.nOffset, hdone.pExpr, ?_, ?_, hdone.literal,
        hdone.distinct⟩
      · rw [hdone.pCode, flatMap_cons, ← append_assoc]
        rfl
      · rw [hdone.cases]
        show caseEntries pFunc.pSwitch.pCases ++
          (starts (pFunc.pCode ++ body).length arms).filter _ = _
        rw [length_append]
        rfl
      · rw [hdone.default]
        show defaultEntries pFunc.pCode.length ++
          (starts (pFunc.pCode ++ body).length arms).filter _ = _
        unfold defaultEntries
        rw [hadd.1, if_pos (Nat.pos_iff_ne_zero.mp hpos), if_neg (not_not.mpr rfl),
          length_append]
        rfl

theorem answers_equal {value : Item α} {pExpr : Expr} (h : answers value (some pExpr) = true)
    (other : Expr) : answers value (some other) = pExpr.equal other := by
  cases pExpr with
  | long n =>
    have hvalue : value.numInt = some n := of_decide_eq_true h
    cases other with
    | long m =>
      refine decide_eq_decide.mpr ?_
      rw [hvalue, Option.some.injEq]
    | string t =>
      refine decide_eq_false ?_
      cases value with
      | string s => exact nomatch hvalue
      | _ => exact nofun
    | other push => rfl
  | string s =>
    have hvalue : value.str = some s := of_decide_eq_true h
    cases other with
    | long m =>
      refine decide_eq_false ?_
      cases value with
      | string s => exact nofun
      | _ => exact nomatch hvalue
    | string t =>
      refine decide_eq_decide.mpr ?_
      rw [hvalue, Option.some.injEq]
    | other push => rfl
  | other push => exact nomatch h

theorem genLiteral_spec (value : Item α) (pExpr : Expr) (hvalue : answers value (some pExpr) = true)
    (haccepted : (pFunc.genLiteral pExpr).errors = []) :
    pFunc.errors = [] ∧
      match (entries pFunc.pSwitch).find? fun entry => answers value entry.1 with
      | some entry =>
        limInt 24 ((entry.2 : Int) - pFunc.pCode.length) = true ∧
          pFunc.genLiteral pExpr =
            pFunc.genPCode (jumpBytes ((entry.2 : Int) - pFunc.pCode.length))
      | none => pFunc.genLiteral pExpr = pFunc := by
  have hcases : (caseEntries pFunc.pSwitch.pCases).find? (fun entry => answers value entry.1) =
      (pFunc.pSwitch.pCases.find? fun pCase => pExpr.equal pCase.pExpr).map
        fun pCase => (some pCase.pExpr, pCase.nOffset) := by
    unfold caseEntries
    rw [find?_map]
    congr 2
    funext pCase
    exact answers_equal hvalue pCase.pExpr
  have hgen : pFunc.genLiteral pExpr =
      if (pFunc.genEqual pExpr pFunc.pSwitch.pCases).2.pSwitch.nDefault ≠ 0 ∧
          (pFunc.genEqual pExpr pFunc.pSwitch.pCases).1 = false then
        (pFunc.genEqual pExpr pFunc.pSwitch.pCases).2.genJumpTo
          (pFunc.genEqual pExpr pFunc.pSwitch.pCases).2.pSwitch.nDefault
      else (pFunc.genEqual pExpr pFunc.pSwitch.pCases).2 := rfl
  have hequal : (pFunc.genEqual pExpr pFunc.pSwitch.pCases).2.errors = [] := by
    rw [hgen] at haccepted
    split at haccepted
    · exact (genJumpTo_spec haccepted).1
    · exact haccepted
  obtain ⟨herrors, hspec⟩ := genEqual_spec hequal
  refine ⟨herrors, ?_⟩
  unfold entries
  rw [find?_append, hcases]
  cases hfind : pFunc.pSwitch.pCases.find? fun pCase => pExpr.equal pCase.pExpr with
  | some pCase =>
    rw [hfind] at hspec
    rw [hgen, hspec.2]
    refine ⟨hspec.1, if_neg ?_⟩
    exact fun hboth => nomatch hboth.2
  | none =>
    rw [hfind] at hspec
    rw [hgen, hspec] at haccepted ⊢
    unfold defaultEntries
    split at haccepted
    · rename_i hdefault
      obtain ⟨-, hlim, hjump⟩ := genJumpTo_spec haccepted
      rw [if_pos hdefault.1, if_pos hdefault]
      exact ⟨hlim, hjump⟩
    · rename_i hdefault
      rw [if_neg (fun hne => hdefault ⟨hne, rfl⟩), if_neg hdefault]
      exact rfl

theorem genJumpThere_errors (pFunc : Func) {nFrom : Nat}
    (haccepted : (pFunc.genJumpThere nFrom nTo).errors = []) : pFunc.errors = [] := by
  unfold genJumpThere at haccepted
  simp only at haccepted
  split at haccepted
  · exact haccepted
  · exact (append_eq_nil_iff.mp haccepted).1

theorem genSelect_literal (value : Item α) {pExpr : Expr}
    (hvalue : answers value (some pExpr) = true)
    (haccepted : (pFunc.genLiteral pExpr).errors = []) :
    pFunc.errors = [] ∧ ∃ tail, pFunc.genLiteral pExpr = pFunc.genPCode tail ∧
      ∀ other : Item α, answers other (some pExpr) = true →
        match (entries pFunc.pSwitch).find? fun entry => answers other entry.1 with
        | some entry => limInt 24 ((entry.2 : Int) - pFunc.pCode.length) = true ∧
            tail = jumpBytes ((entry.2 : Int) - pFunc.pCode.length)
        | none => tail = [] := by
  obtain ⟨herrors, hspec⟩ := genLiteral_spec value pExpr hvalue haccepted
  have hsame : ∀ other : Item α, answers other (some pExpr) = true →
      (fun entry : Option Expr × Nat => answers other entry.1) =
        fun entry => answers value entry.1 := by
    intro other hother
    funext entry
    cases entry.1 with
    | none => rfl
    | some label => rw [answers_equal hother, answers_equal hvalue]
  refine ⟨herrors, ?_⟩
  cases hfind : (entries pFunc.pSwitch).find? fun entry => answers value entry.1 with
  | some entry =>
    rw [hfind] at hspec
    refine ⟨_, hspec.2, fun other hother => ?_⟩
    rw [hsame other hother, hfind]
    exact ⟨hspec.1, rfl⟩
  | none =>
    rw [hfind] at hspec
    refine ⟨[], ?_, fun other hother => ?_⟩
    · rw [hspec]
      unfold genPCode
      rw [append_nil]
    · rw [hsame other hother, hfind]

theorem genSelect_spec (α : Type*)
    (hliteral : ∀ pCase ∈ pFunc.pSwitch.pCases, pCase.pExpr.isLiteral = true)
    (haccepted : pFunc.genSelect.errors = []) :
    pFunc.errors = [] ∧ ∃ tail, pFunc.genSelect = pFunc.genPCode tail ∧
      Tail α pFunc.pCode.length (entries pFunc.pSwitch) tail pFunc.pSwitch.pExpr := by
  unfold genSelect at haccepted ⊢
  cases hexpr : pFunc.pSwitch.pExpr with
  | long n =>
    rw [hexpr] at haccepted
    exact genSelect_literal (.long n : Item α) (decide_eq_true rfl) haccepted
  | string s =>
    rw [hexpr] at haccepted
    exact genSelect_literal (.string s : Item α) (decide_eq_true rfl) haccepted
  | other push =>
    rw [hexpr, if_neg nofun] at haccepted
    obtain ⟨herrors, hrange, heq⟩ := genTable_spec hliteral haccepted
    exact ⟨herrors, _, heq, hrange, rfl⟩

theorem genCases_errors (haccepted : (genCases pCases iCount pFunc).2.errors = []) :
    pFunc.errors = [] := by
  induction pCases generalizing pFunc iCount with
  | nil => exact haccepted
  | cons pCase pCases ih =>
    unfold genCases at haccepted
    split at haccepted
    · exact (exprGenPush_spec (genJumpTo_spec (ih haccepted)).1).1
    · exact ih haccepted

theorem genSelect_errors (haccepted : pFunc.genSelect.errors = []) : pFunc.errors = [] := by
  unfold genSelect at haccepted
  cases hexpr : pFunc.pSwitch.pExpr with
  | long n =>
    rw [hexpr] at haccepted
    exact (genLiteral_spec (.long n : Item Unit) (.long n) (decide_eq_true rfl) haccepted).1
  | string s =>
    rw [hexpr] at haccepted
    exact (genLiteral_spec (.string s : Item Unit) (.string s) (decide_eq_true rfl) haccepted).1
  | other push =>
    rw [hexpr] at haccepted
    let pTable := (pFunc.genPCode push).genPCode [switch.byte, 0, 0]
    have htable : ((genCases pTable.pSwitch.pCases 0 pTable).2.genDefault
      (genCases pTable.pSwitch.pCases 0 pTable).1).2.errors = [] := haccepted
    have herrors : pTable.errors = [] := genCases_errors (genDefault_spec htable).1
    exact herrors

theorem switchEnd_errors (haccepted : pFunc.switchEnd.errors = []) : pFunc.errors = [] := by
  exact genJumpThere_errors (pFunc.genPCode (jumpBytes 0))
    (genSelect_errors (genJumpThere_errors _ haccepted))

theorem switchEnd_spec (α : Type*) {before bodies : Bytes}
    (hcode : pFunc.pCode = before ++ (jumpBytes 0 ++ bodies))
    (hoffset : pFunc.pSwitch.nOffset = before.length)
    (hliteral : ∀ pCase ∈ pFunc.pSwitch.pCases, pCase.pExpr.isLiteral = true)
    (haccepted : pFunc.switchEnd.errors = []) :
    pFunc.errors = [] ∧
      limInt 24 ((pFunc.pCode.length + 4 : Nat) - (before.length : Int)) = true ∧
      ∃ nExit tail, pFunc.switchEnd.pCode = before ++
          (jumpBytes ((pFunc.pCode.length + 4 : Nat) - (before.length : Int)) ++
            (bodies ++ (jumpBytes nExit ++ tail))) ∧
        Tail α (pFunc.pCode.length + 4) (entries pFunc.pSwitch) tail pFunc.pSwitch.pExpr := by
  let pExit := pFunc.genPCode (jumpBytes 0)
  have hend : pFunc.switchEnd =
      (pExit.genJumpHere (pFunc.pSwitch.nOffset + 1)).genSelect.genJumpHere
        (pFunc.pCode.length + 1) := by
    unfold switchEnd
    rw [genJump_zero]
    rfl
  have hexit : pExit.pCode = before ++ (jumpBytes 0 ++ (bodies ++ jumpBytes 0)) := by
    show pFunc.pCode ++ jumpBytes 0 = _
    rw [hcode, append_assoc, append_assoc]
  have hlength : pExit.pCode.length = pFunc.pCode.length + 4 := length_append
  rw [hend] at haccepted ⊢
  have hselect := genJumpThere_errors _ haccepted
  have hsame : (pExit.genJumpHere (pFunc.pSwitch.nOffset + 1)).pSwitch = pFunc.pSwitch := by
    unfold genJumpHere genJumpThere
    simp only
    split
    · rfl
    · rfl
  obtain ⟨herrors, tail, htail, hspec⟩ := genSelect_spec α (by rw [hsame]; exact hliteral) hselect
  obtain ⟨herrors, hlim, heq⟩ := genJumpHere_spec hexit (by rw [hoffset]) herrors
  rw [htail, heq] at haccepted ⊢
  rw [heq] at hspec
  rw [hlength] at hlim haccepted hspec ⊢
  have hfront : pFunc.pCode.length = (before ++
      (jumpBytes ((pFunc.pCode.length + 4 : Nat) - (before.length : Int)) ++ bodies)).length := by
    rw [hcode, length_append, length_append, length_append, length_append,
      jumpBytes_length, jumpBytes_length]
  have hlast : (Func.genPCode { pExit with
      pCode := before ++ (jumpBytes ((pFunc.pCode.length + 4 : Nat) - (before.length : Int)) ++
        (bodies ++ jumpBytes 0)) } tail).pCode =
      (before ++ (jumpBytes ((pFunc.pCode.length + 4 : Nat) - (before.length : Int)) ++ bodies)) ++
        (jumpBytes 0 ++ tail) := by
    unfold genPCode
    simp only [append_assoc]
  obtain ⟨-, -, hpatched⟩ := genJumpHere_spec hlast (congrArg Nat.succ hfront) haccepted
  rw [hpatched]
  have hcat : ∀ nExit, (before ++
      (jumpBytes ((pFunc.pCode.length + 4 : Nat) - (before.length : Int)) ++ bodies)) ++
        (jumpBytes nExit ++ tail) = before ++
        (jumpBytes ((pFunc.pCode.length + 4 : Nat) - (before.length : Int)) ++
          (bodies ++ (jumpBytes nExit ++ tail))) := by
    intro nExit
    rw [append_assoc, append_assoc]
  have hfour : (before ++ (jumpBytes ((pFunc.pCode.length + 4 : Nat) - (before.length : Int)) ++
      (bodies ++ jumpBytes 0))).length = pFunc.pCode.length + 4 := by
    rw [← append_assoc _ bodies, ← append_assoc, length_append, ← hfront,
      jumpBytes_length]
  simp only [hfour] at hspec
  exact ⟨herrors, hlim, _, tail, hcat _, hspec⟩

end Func

section Statement

variable {before : Bytes} {pExpr : Expr} {arms : List Arm}

def behindArms (before : Bytes) (arms : List Arm) : Nat :=
  before.length + 4 + (arms.flatMap Arm.body).length + 4

theorem starts_cases (nPos : Nat) (arms : List Arm) :
    ((starts nPos arms).filter fun label => label.1.isSome).filterMap Prod.fst =
      arms.filterMap Arm.pExpr := by
  induction arms generalizing nPos with
  | nil => rfl
  | cons arm arms ih =>
    obtain ⟨_ | pExpr, body⟩ := arm
    · exact ih (nPos + body.length)
    · exact congrArg (pExpr :: ·) (ih (nPos + body.length))

theorem caseEntries_labels (pCases : List SwitchCase) :
    (Func.caseEntries pCases).filterMap Prod.fst = pCases.map SwitchCase.pExpr := by
  unfold Func.caseEntries
  rw [filterMap_map]
  exact filterMap_eq_map'.symm ▸ rfl

theorem doSwitch_spec (α : Type*) (haccepted : (doSwitch before pExpr arms).errors = []) :
    limInt 24 ((behindArms before arms : Int) - before.length) = true ∧
      ((arms.filterMap Arm.pExpr).Pairwise fun earlier later => later.equal earlier = false) ∧
      (∀ entry ∈ tableEntries (starts (before.length + 4) arms), labelled entry.1 = true) ∧
      ∃ nExit tail, (doSwitch before pExpr arms).pCode = before ++
          (jumpBytes ((behindArms before arms : Int) - before.length) ++
            (arms.flatMap Arm.body ++ (jumpBytes nExit ++ tail))) ∧
        Tail α (behindArms before arms) (tableEntries (starts (before.length + 4) arms)) tail
          pExpr := by
  let pStart : Func := ⟨before ++ jumpBytes 0, ⟨[], 0, before.length, pExpr⟩, []⟩
  have hlength : pStart.pCode.length = before.length + 4 := length_append
  have hdone := Func.arms_spec pStart (by rw [hlength]; exact Nat.succ_pos _)
    (Func.switchEnd_errors haccepted)
  have hcode := hdone.pCode.trans (append_assoc ..)
  obtain ⟨-, hlim, nExit, tail, hend, hspec⟩ :=
    Func.switchEnd_spec α hcode hdone.nOffset (hdone.literal nofun) haccepted
  have hbehind : (arms.foldl (fun pFunc arm => (pFunc.switchAdd arm.pExpr).genPCode arm.body)
      pStart).pCode.length + 4 = behindArms before arms := by
    rw [hdone.pCode, length_append, hlength]
    rfl
  have hentries : Func.entries (arms.foldl
      (fun pFunc arm => (pFunc.switchAdd arm.pExpr).genPCode arm.body) pStart).pSwitch =
        tableEntries (starts (before.length + 4) arms) := by
    unfold Func.entries
    rw [hdone.cases, hdone.default, hlength]
    rfl
  rw [hbehind] at hlim hend hspec
  rw [hentries, hdone.pExpr] at hspec
  refine ⟨hlim, ?_, fun entry hentry => ?_, nExit, tail, hend, hspec⟩
  · rw [← starts_cases (before.length + 4), ← hlength]
    have hcases := congrArg (filterMap Prod.fst) hdone.cases
    rw [caseEntries_labels] at hcases
    rw [← nil_append (filterMap _ _), ← show filterMap Prod.fst
      (Func.caseEntries pStart.pSwitch.pCases) = [] from rfl, ← filterMap_append, ← hcases]
    exact pairwise_map.mpr (hdone.distinct .nil)
  rw [← hentries] at hentry
  rcases mem_append.mp hentry with hcase | hdefault
  · obtain ⟨pCase, hmem, rfl⟩ := mem_map.mp hcase
    exact hdone.literal nofun pCase hmem
  · unfold Func.defaultEntries at hdefault
    split at hdefault
    · rw [mem_singleton.mp hdefault]
      rfl
    · exact nomatch hdefault

theorem vmExecute_jump {handler : RtError α → Option (Item α)} {target : Nat}
    {stack : List (Item α)} (hcode : code.drop nPos = jumpBytes nOffset ++ rest)
    (hlim : limInt 24 nOffset = true) (htarget : (target : Int) = nPos + nOffset) :
    vmExecute code handler ⟨nPos, stack, []⟩ = some ⟨target, stack, []⟩ := by
  have hbehind : code.drop (nPos + 1) = leBytes 3 (unsigned 64 nOffset) ++ rest := by
    rw [← drop_drop, hcode]
    rfl
  have hjump : jumpTo code 3 nPos = target := by
    unfold jumpTo
    rw [hbehind, mkSigned_three hlim, ← htarget, Int.toNat_natCast]
  unfold vmExecute
  rw [hcode]
  show some _ = _
  rw [hjump]

theorem vmExecute_switch {handler : RtError α → Option (Item α)} {n : Nat} {s : Vm.Switch.State α}
    (hpos : s.pCode = nPos) (hcode : code.drop nPos = switch.byte :: (leBytes 2 n ++ rest)) :
    vmExecute code handler s =
      some (vmSwitch code handler (n % 2 ^ 16) { s with pCode := nPos + 3 }) := by
  have hcount : mkUnsigned 2 (code.drop (nPos + 1)) = n % 2 ^ 16 := by
    rw [← drop_drop, hcode, drop_succ_cons, drop_zero]
    unfold mkUnsigned
    rw [take_append_of_le_length (Nat.le_of_eq (leBytes_length _ _).symm),
      take_of_length_le (Nat.le_of_eq (leBytes_length _ _)), leValue_leBytes]
    rfl
  unfold vmExecute
  rw [hpos, hcode]
  show some _ = _
  rw [hcount]

theorem selected_bounds (value : Item α) (arms : List Arm) (nPos stop : Nat) :
    selected value (starts nPos arms) stop = stop ∨
      selected value (starts nPos arms) stop ≤ nPos + (arms.flatMap Arm.body).length := by
  unfold selected
  split
  · rename_i label hfind
    exact .inr (starts_bounds (mem_of_find?_eq_some hfind)).2
  · split
    · rename_i label hfind
      exact .inr (starts_bounds (mem_of_find?_eq_some hfind)).2
    · exact .inl rfl

theorem Tail.literal {entries : List (Option Expr × Nat)} {tail : Bytes}
    (h : Tail α nPos entries tail pExpr) {value : Item α}
    (hvalue : answers value (some pExpr) = true) :
    match entries.find? fun entry => answers value entry.1 with
    | some entry =>
      limInt 24 ((entry.2 : Int) - nPos) = true ∧ tail = jumpBytes ((entry.2 : Int) - nPos)
    | none => tail = [] := by
  cases pExpr with
  | long n => exact h value hvalue
  | string s => exact h value hvalue
  | other push => exact nomatch hvalue

theorem switchLoop_arms (value : Item α) {after : Bytes} {start : Nat}
    (hcode : code.drop start = tableBytes start (tableEntries (starts nPos arms)) ++ after)
    (hrange : InRange start (tableEntries (starts nPos arms)))
    (hlabels : ∀ entry ∈ tableEntries (starts nPos arms), labelled entry.1 = true)
    (hbehind : nPos + (arms.flatMap Arm.body).length < start) :
    switchLoop code value ((tableEntries (starts nPos arms)).length % 2 ^ 16) start =
        selected value (starts nPos arms)
          (start + (tableBytes start (tableEntries (starts nPos arms))).length) ↔
      Selectable value (tableLabels arms) := by
  obtain ⟨hyes, hno⟩ := switchLoop_laid (laid_tableBytes hcode hrange hlabels)
    (Nat.mod_le (tableEntries (starts nPos arms)).length (2 ^ 16))
  rw [destination_tableEntries, tableEntries_labels] at hyes
  rw [tableEntries_labels] at hno
  have hlength : (tableEntries (starts nPos arms)).length = (tableLabels arms).length := by
    rw [← tableEntries_labels nPos arms, length_map]
  rw [selectable_iff, ← hlength]
  refine ⟨fun heq => ?_, hyes⟩
  by_contra hnot
  obtain ⟨hle, hlt⟩ := hno hnot
  rcases selected_bounds value arms nPos
    (start + (tableBytes start (tableEntries (starts nPos arms))).length) with hstop | hwithin
  · omega
  · omega

/-- No two cases are equal. The statement leads from its start to the place behind the arms. There a
literal leads to its arm; and the instruction leads the value of any other expression to its arm,
with the stack as it was before, if and only if the table is one that can be read so far. A value
that is neither an integer nor a string is an error. -/
theorem switch_selects_iff (haccepted : (doSwitch before pExpr arms).errors = []) (after : Bytes)
    (handler : RtError α → Option (Item α)) (stack : List (Item α)) :
    let code := (doSwitch before pExpr arms).pCode ++ after
    let stop := (doSwitch before pExpr arms).pCode.length
    let labels := starts (before.length + 4) arms
    let nPos := behindArms before arms
    ((arms.filterMap Arm.pExpr).Pairwise fun earlier later => later.equal earlier = false) ∧
      vmExecute code handler ⟨before.length, stack, []⟩ = some ⟨nPos, stack, []⟩ ∧
      (∀ value : Item α, answers value (some pExpr) = true →
        if nPos = stop then selected value labels stop = stop
        else vmExecute code handler ⟨nPos, stack, []⟩ =
          some ⟨selected value labels stop, stack, []⟩) ∧
      ∀ push, pExpr = .other push → push <+: code.drop nPos ∧ ∀ value : Item α,
        (value.switchable = true →
          (vmExecute code handler ⟨nPos + push.length, value :: stack, []⟩ =
              some ⟨selected value labels stop, stack, []⟩ ↔
            Selectable value (tableLabels arms))) ∧
        (value.switchable = false →
          ∃ s, vmExecute code handler ⟨nPos + push.length, value :: stack, []⟩ = some s ∧
            s.errors = [switchError value]) := by
  intro code stop labels nPos
  obtain ⟨hlim, hdistinct, hlabels, nExit, tail, hcode, htail⟩ := doSwitch_spec α haccepted
  have hcode' : code = before ++ (jumpBytes ((nPos : Int) - before.length) ++
      (arms.flatMap Arm.body ++ (jumpBytes nExit ++ (tail ++ after)))) := by
    show (doSwitch before pExpr arms).pCode ++ after = _
    rw [hcode]
    simp only [append_assoc]
    rfl
  have hfront : (before ++ (jumpBytes ((nPos : Int) - before.length) ++
      (arms.flatMap Arm.body ++ jumpBytes nExit))).length = nPos := by
    rw [length_append, length_append, length_append, jumpBytes_length,
      jumpBytes_length, ← Nat.add_assoc, ← Nat.add_assoc]
    rfl
  have hdrop : code.drop nPos = tail ++ after := by
    have hsplit : code = (before ++ (jumpBytes ((nPos : Int) - before.length) ++
        (arms.flatMap Arm.body ++ jumpBytes nExit))) ++ (tail ++ after) := by
      rw [hcode']
      simp only [append_assoc]
    rw [hsplit]
    exact drop_left' hfront
  have hstop : stop = nPos + tail.length := by
    have hlength := congrArg length hcode
    rw [length_append, length_append, length_append, length_append,
      jumpBytes_length, jumpBytes_length] at hlength
    show (doSwitch before pExpr arms).pCode.length = before.length + 4 + _ + 4 + _
    omega
  refine ⟨hdistinct, ?_, fun value hvalue => ?_, fun push hpush => ?_⟩
  · have hinitial : code.drop before.length = jumpBytes ((nPos : Int) - before.length) ++
        (arms.flatMap Arm.body ++ (jumpBytes nExit ++ (tail ++ after))) := by
      rw [hcode', drop_left]
    exact vmExecute_jump hinitial hlim (by omega)
  · have hliteral := htail.literal hvalue
    have hselected := destination_tableEntries value labels stop
    unfold destination at hselected
    cases hfind : (tableEntries labels).find? fun entry => answers value entry.1 with
    | none =>
      rw [hfind] at hliteral hselected
      have hnil : tail = [] := hliteral
      rw [hnil, length_nil, Nat.add_zero] at hstop
      rw [if_pos hstop.symm]
      exact hselected.symm
    | some entry =>
      rw [hfind] at hliteral hselected
      obtain ⟨hlimit, hjump⟩ := hliteral
      change entry.2 = selected value labels stop at hselected
      rw [hjump] at hdrop
      rw [if_neg (by rw [hstop, hjump, jumpBytes_length]; omega), ← hselected]
      exact vmExecute_jump hdrop hlimit (by omega)
  · subst hpush
    obtain ⟨hrange, htable⟩ := htail
    change tail = push ++ (switch.byte :: (leBytes 2 (tableEntries labels).length ++
      tableBytes (nPos + push.length + 3) (tableEntries labels))) at htable
    refine ⟨?_, fun value => ?_⟩
    · rw [hdrop, htable, append_assoc]
      exact prefix_append ..
    · have hat : code.drop (nPos + push.length) = switch.byte ::
          (leBytes 2 (tableEntries labels).length ++
            (tableBytes (nPos + push.length + 3) (tableEntries labels) ++ after)) := by
        rw [← drop_drop, hdrop, htable, append_assoc, drop_left, cons_append,
          append_assoc]
      have htab : code.drop (nPos + push.length + 3) =
          tableBytes (nPos + push.length + 3) (tableEntries labels) ++ after := by
        rw [← drop_drop, hat, drop_succ_cons]
        exact drop_left' (leBytes_length _ _)
      have hend : stop = nPos + push.length + 3 +
          (tableBytes (nPos + push.length + 3) (tableEntries labels)).length := by
        rw [hstop, htable, length_append, length_cons, length_append, leBytes_length]
        omega
      rw [vmExecute_switch rfl hat]
      refine ⟨fun hswitchable => ?_, fun hother => ⟨_, rfl, ?_⟩⟩
      · have hbehind : nPos = before.length + 4 + (arms.flatMap Arm.body).length + 4 := rfl
        have hloop := switchLoop_arms value htab hrange hlabels (by omega)
        rw [← hloop, ← hend]
        unfold vmSwitch switchGet
        simp only [hswitchable, if_true, Option.some.injEq, State.mk.injEq, and_true]
        rfl
      · unfold vmSwitch
        simp only [hother, Bool.false_eq_true, if_false, nil_append]

def letterArms : List Arm := [⟨some (.long 1), [67]⟩, ⟨some (.string [65]), [67, 67]⟩, ⟨none, [67]⟩]

theorem switch_selects_letter :
    (doSwitch [] (.other [95, 1]) letterArms).errors = [] ∧
      vmExecute (doSwitch [] (.other [95, 1]) letterArms).pCode
        (fun _ : RtError Unit => none) ⟨14, [.string [65]], []⟩ = some ⟨5, [], []⟩ := by
  have haccepted : (doSwitch [] (.other [95, 1]) letterArms).errors = [] := by decide +kernel
  obtain ⟨-, -, -, htable⟩ := switch_selects_iff haccepted [] (fun _ : RtError Unit => none) []
  refine ⟨haccepted, (((htable [95, 1] rfl).2 (.string [65])).1 rfl).mpr (.inl ?_)⟩
  exact ⟨by decide, by decide⟩

def longArms : List Arm := [⟨some (.long 5000000000), [67]⟩, ⟨some (.long 1), [67]⟩]

/-- The value 1 does not lead to its arm, which starts at 5, but to the table. -/
theorem long_case_derails :
    (doSwitch [] (.other [95, 1]) longArms).errors = [] ∧
      selected (.integer 1 : Item Unit) (starts 4 longArms)
        (doSwitch [] (.other [95, 1]) longArms).pCode.length = 5 ∧
      vmExecute (doSwitch [] (.other [95, 1]) longArms).pCode (fun _ : RtError Unit => none)
        ⟨12, [.integer 1], []⟩ = some ⟨15, [], []⟩ := by
  decide +kernel

end Statement

end Harbour.Compiler.Switch
