import Harbour.Pp.CalcParse

/-!
The evaluator computes what the reader reads.
-/

namespace Harbour.Pp.Calculate

open Tokens Option

/-- The state after what has been read, from the flags before. -/
structure Computes (fUndef fTrap : Bool) (r : Tree × List Token) (out : List Token × Calc) :
    Prop where
  trap : out.2.fTrap = (fTrap || r.1.traps)
  fails : r.1.evaluates = false → out.2.fError = true
  gives : r.1.evaluates = true →
    out = (r.2, ⟨r.1.value, false, fUndef || r.1.undefined, fTrap || r.1.traps⟩)

variable {lValue : MaxInt} {fuel level : Nat} {pHead : Token} {s : Calc}
  {value : List Token → Nat → Calc → Option (List Token × Calc)}

section Operand

variable {fUndef fTrap : Bool} {e : Tree} {pToken rest : List Token}
  {out : List Token × Calc}

theorem computes_gap (herror : out.2.fError = true) :
    Computes fUndef out.2.fTrap (.gap, pToken) out where
  trap := by simp [Tree.traps]
  fails := fun _ => herror
  gives := fun heval => by simp [Tree.evaluates, Tree.complete] at heval

theorem Computes.unary (h : Computes fUndef fTrap (e, rest) out) (pHead : Token) :
    Computes fUndef fTrap (.unary pHead e, rest)
      (out.1, { out.2 with lValue := unaryValue out.2.lValue pHead.type }) where
  trap := h.trap
  fails := h.fails
  gives := fun heval => by rw [h.gives heval]; rfl

theorem Computes.paren (h : Computes fUndef fTrap (e, rest) out) (pLeft : Token) :
    Computes fUndef fTrap
      (if e.complete && isRightPb rest then (.paren pLeft e rest.head?, rest.tail)
        else (.paren pLeft e none, rest))
      (if out.2.fError = false ∧ isEoc out.1 = false ∧ isRightPb out.1 = true then
        (out.1.tail, out.2) else (out.1, { out.2 with fError := true })) := by
  cases heval : e.evaluates with
  | false =>
    have herror : ¬(out.2.fError = false ∧ isEoc out.1 = false ∧ isRightPb out.1 = true) := by
      simp [h.fails heval]
    have hpart (pRight : Option Token) : (Tree.paren pLeft e pRight).evaluates = false := by
      simp only [Tree.evaluates, Bool.and_eq_false_iff] at heval
      rcases heval with heval | heval <;>
        simp [Tree.evaluates, Tree.complete, Tree.divides, heval]
    split
    · exact ⟨h.trap, fun _ => rfl, fun heval' => by rw [hpart] at heval'; cases heval'⟩
    · exact ⟨h.trap, fun _ => rfl, fun heval' => by rw [hpart] at heval'; cases heval'⟩
  | true =>
    rw [h.gives heval]
    have hcomplete : e.complete = true := (Bool.and_eq_true_iff.mp heval).1
    cases hright : isRightPb rest with
    | false =>
      rw [if_neg (by simp), if_neg (by simp)]
      exact ⟨rfl, fun _ => rfl, fun heval' => by simp [Tree.evaluates, Tree.complete] at heval'⟩
    | true =>
      cases rest with
      | nil => cases hright
      | cons pRight rest =>
        have hopen : isEoc (pRight :: rest) = false := by
          have htype : pRight.type = .rightPb := by simpa [isRightPb] using hright
          simp [isEoc, htype]
        rw [if_pos (by simp [hcomplete]), if_pos ⟨rfl, hopen, rfl⟩]
        exact ⟨rfl, fun hfail => by simp_all [Tree.evaluates, Tree.complete, Tree.divides],
          fun _ => rfl⟩

theorem computes_leaf {undef : Bool} (hleaf : leafValue pHead = some (lValue, undef)) :
    Computes s.fUndef s.fTrap (.leaf pHead, rest)
      (rest, ⟨lValue, false, s.fUndef || undef, s.fTrap⟩) where
  trap := by simp [Tree.traps]
  fails := fun hfail => by simp [Tree.evaluates, Tree.complete, Tree.divides] at hfail
  gives := fun _ => by simp [Tree.value, Tree.undefined, Tree.traps, hleaf]

theorem calcOperand_gap {pNext : List Token} (hunary : isUnary pHead.type = false)
    (hleft : pHead.type ≠ .leftPb) (hleaf : leafValue pHead = none) (herror : s.fError = true) :
    ∃ out, calcOperand value level s (pHead :: pNext) = some out ∧
      out.2.fError = true ∧ out.2.fTrap = s.fTrap := by
  rw [calcOperand]
  cases heoc : isEoc (pHead :: pNext) with
  | true => exact ⟨_, if_pos rfl, rfl, rfl⟩
  | false =>
    rw [if_neg Bool.false_ne_true]
    split
    case h_1 htype => simp [isUnary, htype] at hunary
    case h_2 htype => simp [isUnary, htype] at hunary
    case h_3 htype => simp [isUnary, htype] at hunary
    case h_4 htype => exact (hleft htype).elim
    case h_5 => exact ⟨_, rfl, herror, rfl⟩
    case h_6 htype =>
      cases hvalue : strValInt pHead.value with
      | none => exact ⟨_, rfl, rfl, rfl⟩
      | some lValue => simp [leafValue, htype, hvalue] at hleaf
    case h_7 htype => simp [leafValue, htype] at hleaf
    case h_8 htype => simp [leafValue, htype] at hleaf
    case h_9 => exact ⟨_, rfl, rfl, rfl⟩

theorem calcOperand_computes {parse' : Nat → List Token → Tree × List Token}
    (hvalue : ∀ pNext level s, pNext.length < pToken.length → s.fError = true →
      ∃ out, value pNext level s = some out ∧ Computes s.fUndef s.fTrap (parse' level pNext) out)
    (level : Nat) (herror : s.fError = true) :
    ∃ out, calcOperand value level s pToken = some out ∧
      Computes s.fUndef s.fTrap (parseOperand parse' level pToken) out := by
  cases pToken with
  | nil =>
    have herror' : (([] : List Token), { s with fError := true }).2.fError = true := rfl
    exact ⟨_, rfl, computes_gap herror'⟩
  | cons pHead pNext =>
    have hnext (level : Nat) {s : Calc} (herror : s.fError = true) :=
      hvalue pNext level s (Nat.lt_succ_self _) herror
    cases hunary : isUnary pHead.type with
    | true =>
      obtain ⟨out, hout, hcomputes⟩ := hnext (unaryLevel level pHead.type) herror
      rw [parseOperand_unary hunary]
      refine ⟨_, ?_, hcomputes.unary pHead⟩
      rcases isUnary_type hunary with htype | htype | htype <;>
        · rw [htype] at hout
          simp only [unaryLevel] at hout
          simp [calcOperand, isEoc, htype, hout, unaryValue]
    | false =>
      by_cases hleft : pHead.type = .leftPb
      · obtain ⟨out, hout, hcomputes⟩ := hnext (s := { s with fError := true }) precNul rfl
        rw [parseOperand_paren hleft]
        exact ⟨_, by simp [calcOperand, isEoc, hleft, hout], hcomputes.paren pHead⟩
      · cases hleaf : leafValue pHead with
        | some r =>
          rw [parseOperand_leaf (by rw [hleaf]; rfl)]
          refine ⟨_, ?_, computes_leaf hleaf⟩
          have htype := leafValue_type (by rw [hleaf]; rfl)
          unfold leafValue at hleaf
          rcases htype with htype | htype | htype <;> rw [htype] at hleaf
          · obtain ⟨lValue, hvalue, rfl⟩ := Option.map_eq_some_iff.mp hleaf
            simp [calcOperand, isEoc, htype, hvalue]
          · cases hleaf
            simp [calcOperand, isEoc, htype]
          · cases hleaf
            simp [calcOperand, isEoc, htype]
        | none =>
          rw [parseOperand_gap hunary hleft (by rw [hleaf]; rfl)]
          obtain ⟨out, hout, herror', htrap⟩ :
              ∃ out, calcOperand value level s (pHead :: pNext) = some out ∧
                out.2.fError = true ∧ out.2.fTrap = s.fTrap :=
            calcOperand_gap hunary hleft hleaf herror
          exact ⟨out, hout, htrap ▸ computes_gap herror'⟩

end Operand

variable {e : Tree} {fTrap fUndef : Bool} {rest : List Token}

theorem calcOperation_reduce (lValue lValueRight : MaxInt) (iOperation : TokenType) :
    calcOperation (calcReduce lValue iOperation).1 lValueRight iOperation =
      calcOperation lValue lValueRight iOperation := by
  unfold calcReduce
  split
  · rfl
  · split
    · rename_i hne
      have hbit : decide (lValue = 0#64) = false := decide_eq_false hne
      simp [calcOperation, hbit]
    · rfl
  · rfl

theorem isUndefined_reduce (lValue lValueRight : MaxInt) (iOperation : TokenType) :
    isUndefined (calcReduce lValue iOperation).1 lValueRight iOperation =
      isUndefined lValue lValueRight iOperation := by
  unfold calcReduce
  split
  · rfl
  · split
    · simp [isUndefined]
    · rfl
  · rfl

theorem evaluates_binary (left : Tree) (op : List Token) (right : Tree) :
    (Tree.binary left op right).evaluates =
      (left.evaluates && (right.evaluates &&
        !dividesByZero right.value (operator op).1)) := by
  simp only [Tree.evaluates, Tree.complete, Tree.divides, Bool.not_or]
  cases left.complete <;> cases right.complete <;> simp [Bool.and_assoc]

theorem calcMerge_fTrap (s : Calc) (iOperation : TokenType) (r : Calc) :
    (calcMerge s iOperation r).fTrap =
      (r.fTrap || (!r.fError && isUndefined s.lValue r.lValue iOperation)) := by
  cases hundef : s.fUndef with
  | true => simp [calcMerge, hundef]
  | false => simp [calcMerge, hundef, isUndefined_reduce]

theorem calcMerge_done {lValueRight : MaxInt} {fUndefRight fTrapRight : Bool}
    {iOperation : TokenType} (hzero : dividesByZero lValueRight iOperation = false) :
    calcMerge ⟨lValue, false, fUndef, fTrap⟩ iOperation
        ⟨lValueRight, false, fUndef || fUndefRight, fTrapRight⟩ =
      ⟨calcOperation lValue lValueRight iOperation, false,
        fUndef || (!(calcReduce lValue iOperation).2 && fUndefRight),
        fTrapRight || isUndefined lValue lValueRight iOperation⟩ := by
  cases fUndef with
  | true => simp [calcMerge, hzero]
  | false =>
    cases hdecided : (calcReduce lValue iOperation).2 <;>
      simp [calcMerge, hzero, hdecided, calcOperation_reduce, isUndefined_reduce]

theorem calcMerge_computes {left right : Tree} (op : List Token) {out : List Token × Calc}
    (hleft : left.evaluates = true)
    (h : Computes (fUndef || left.undefined) (fTrap || left.traps) (right, rest) out) :
    Computes fUndef fTrap (.binary left op right, rest)
      (out.1, calcMerge ⟨left.value, false, fUndef || left.undefined, fTrap || left.traps⟩
        (operator op).1 out.2) := by
  cases hright : right.evaluates with
  | false =>
    have herror := h.fails hright
    refine ⟨?_, fun _ => by simp [calcMerge, herror], fun heval => ?_⟩
    · simp [calcMerge_fTrap, h.trap, herror, Tree.traps, hleft, hright, Bool.or_assoc]
    · rw [evaluates_binary, hright, Bool.false_and, Bool.and_false] at heval
      cases heval
  | true =>
    rw [h.gives hright]
    refine ⟨?_, fun hfail => ?_, fun heval => ?_⟩
    · simp [calcMerge_fTrap, Tree.traps, hleft, hright, Bool.or_assoc]
    · rw [evaluates_binary, hleft, hright] at hfail
      have hzero : dividesByZero right.value (operator op).1 = true := by simpa using hfail
      simp [calcMerge, hzero]
    · rw [evaluates_binary, hleft, hright] at heval
      have hzero : dividesByZero right.value (operator op).1 = false := by simpa using heval
      rw [calcMerge_done hzero]
      simp [Tree.value, Tree.undefined, Tree.traps, hleft, hright, Bool.or_assoc]

theorem parseLoop_cons (hcomplete : e.complete = true)
    (hopen : (isEoc (pHead :: rest) || isRightPb (pHead :: rest)) = false) :
    parseLoop (fuel + 1) level e (pHead :: rest) =
      if levelOf (pHead :: rest) < precLog then (.binary e [] .gap, pHead :: rest)
      else if level < levelOf (pHead :: rest) then
        let r := parse fuel (levelOf (pHead :: rest)) (calcPrecedence pHead rest).1
        parseLoop fuel level (.binary e (operTokens pHead rest) r.1) r.2
      else (e, pHead :: rest) := by
  rw [Bool.or_eq_false_iff] at hopen
  rw [parseLoop, hcomplete, hopen.1, hopen.2]
  rfl

theorem calcLoop_cons (herror : s.fError = false)
    (hopen : (isEoc (pHead :: rest) || isRightPb (pHead :: rest)) = false) :
    calcLoop (fuel + 1) level (pHead :: rest) s =
      if levelOf (pHead :: rest) < precLog then some (pHead :: rest, { s with fError := true })
      else if level < levelOf (pHead :: rest) then
        (calcValue fuel (calcPrecedence pHead rest).1 (levelOf (pHead :: rest))
          { s with lValue := 0, fError := true }).bind fun r =>
            calcLoop fuel level r.1 (calcMerge s (calcPrecedence pHead rest).2.1 r.2)
      else some (pHead :: rest, s) := by
  rw [Bool.or_eq_false_iff] at hopen
  rw [calcLoop, herror, hopen.1, hopen.2]
  rfl

theorem parseLoop_fails (level : Nat) {pToken : List Token} (hfuel : 2 * pToken.length + 1 ≤ fuel)
    (hfail : e.evaluates = false) :
    (parseLoop fuel level e pToken).1.evaluates = false ∧
      (parseLoop fuel level e pToken).1.traps = e.traps := by
  induction fuel generalizing e pToken with
  | zero => omega
  | succ fuel ih =>
    have hbinary (op : List Token) (right : Tree) :
        (Tree.binary e op right).evaluates = false ∧
          (Tree.binary e op right).traps = e.traps := by
      constructor
      · rw [evaluates_binary, hfail, Bool.false_and]
      · rw [Tree.traps, hfail, Bool.false_and, Bool.or_false]
    unfold parseLoop
    split
    · exact ⟨hfail, rfl⟩
    · cases pToken with
      | nil => exact ⟨hfail, rfl⟩
      | cons pHead rest =>
        simp only
        split_ifs
        · exact hbinary _ _
        · have hnext := calcPrecedence_length pHead rest
          have hlength := (parse_length fuel).1 (calcPrecedence pHead rest).2.2
            (calcPrecedence pHead rest).1
          have hrest : 2 * (parse fuel (calcPrecedence pHead rest).2.2
              (calcPrecedence pHead rest).1).2.length + 1 ≤ fuel := by
            rw [List.length_cons] at hfuel
            omega
          obtain ⟨heval, htraps⟩ := ih hrest (hbinary _ _).1
          exact ⟨heval, htraps.trans (hbinary _ _).2⟩
        · exact ⟨hfail, rfl⟩

theorem calcValue_computes (fuel : Nat) :
    (∀ pToken level s, 2 * pToken.length + 2 ≤ fuel → s.fError = true →
      ∃ out, calcValue fuel pToken level s = some out ∧
        Computes s.fUndef s.fTrap (parse fuel level pToken) out) ∧
    ∀ fUndef fTrap level e pToken out, 2 * pToken.length + 1 ≤ fuel →
      Computes fUndef fTrap (e, pToken) out →
      ∃ out', calcLoop fuel level out.1 out.2 = some out' ∧
        Computes fUndef fTrap (parseLoop fuel level e pToken) out' := by
  induction fuel with
  | zero => exact ⟨fun _ _ _ hfuel => by omega, fun _ _ _ _ _ _ hfuel => by omega⟩
  | succ fuel ih =>
    constructor
    · intro pToken level s hfuel herror
      obtain ⟨out, hout, hcomputes⟩ :
          ∃ out, calcOperand (calcValue fuel) level s pToken = some out ∧
            Computes s.fUndef s.fTrap (parseOperand (parse fuel) level pToken) out :=
        calcOperand_computes
          (fun pNext level s hlength herror => ih.1 pNext level s (by omega) herror) level herror
      have hlength := parseOperand_length (parse_length fuel).1 level pToken
      have hrest : 2 * (parseOperand (parse fuel) level pToken).2.length + 1 ≤ fuel := by omega
      obtain ⟨out', hout', hcomputes'⟩ := ih.2 _ _ level _ _ out hrest hcomputes
      exact ⟨out', by rw [calcValue, hout, bind_some, hout'], hcomputes'⟩
    · intro fUndef fTrap level e pToken out hfuel hcomputes
      cases heval : e.evaluates with
      | false =>
        obtain ⟨hfail, htraps⟩ := parseLoop_fails level hfuel heval
        exact ⟨out, by simp [calcLoop, hcomputes.fails heval], by rw [htraps, hcomputes.trap],
          fun _ => hcomputes.fails heval, fun h => by rw [hfail] at h; cases h⟩
      | true =>
        have hcomplete : e.complete = true := (Bool.and_eq_true_iff.mp heval).1
        have hgives := hcomputes.gives heval
        cases hstop : isEoc pToken || isRightPb pToken with
        | true =>
          have hend : parseLoop (fuel + 1) level e pToken = (e, pToken) := by
            unfold parseLoop
            rw [if_pos (by rw [Bool.or_assoc, hstop, Bool.or_true])]
          rw [hend]
          refine ⟨out, ?_, hcomputes⟩
          unfold calcLoop
          rw [hgives, if_pos (by rw [Bool.or_assoc, hstop, Bool.or_true])]
        | false =>
          cases pToken with
          | nil => cases hstop
          | cons pHead rest =>
            rw [hgives]
            rw [parseLoop_cons hcomplete hstop, calcLoop_cons rfl hstop]
            split_ifs with hjunk hlevel
            · refine ⟨_, rfl, ?_, fun _ => rfl, fun h => ?_⟩
              · simp [Tree.traps, Tree.evaluates, Tree.complete]
              · simp [Tree.evaluates, Tree.complete] at h
            · -- the right operand is computed with the flags of the left one
              have hnext := calcPrecedence_length pHead rest
              have hlength := (parse_length fuel).1 (levelOf (pHead :: rest))
                (calcPrecedence pHead rest).1
              rw [List.length_cons] at hfuel
              obtain ⟨right, hright, hcomputes'⟩ :=
                ih.1 (calcPrecedence pHead rest).1 (levelOf (pHead :: rest))
                  ⟨0, true, fUndef || e.undefined, fTrap || e.traps⟩ (by omega) rfl
              have hmerge := calcMerge_computes (operTokens pHead rest) heval hcomputes'
              rw [(operTokens_spec pHead rest).2] at hmerge
              obtain ⟨out', hout', hcomputes''⟩ :=
                ih.2 _ _ level _ _ _ (by omega) hmerge
              exact ⟨out', by rw [hright]; exact hout', hcomputes''⟩
            · rw [← hgives]
              exact ⟨out, rfl, hcomputes⟩

/-- The evaluator gives what it is given the value of: no undefined operation is computed, and
there is no error exactly where the tokens are an expression without a division by zero and without
an undefined name that matters, whose value is the result. -/
def Correct (pToken : List Token) : Prop :=
  ∃ r, calculateValue pToken = some r ∧ r.fTrap = false ∧
    ∀ lValue, (r.fError = false ∧ r.lValue = lValue) ↔
      ∃ e, Parses pToken e ∧ e.infixNot = false ∧ e.divides = false ∧ e.undefined = false ∧
        e.value = lValue

theorem calculateValue_read (pToken : List Token) :
    ∃ r, calculateValue pToken = some r ∧ r.fTrap = (read pToken).1.traps ∧
      ∀ lValue, (r.fError = false ∧ r.lValue = lValue) ↔
        (read pToken).1.evaluates = true ∧ isEoc (read pToken).2 = true ∧
          (read pToken).1.undefined = false ∧ (read pToken).1.value = lValue := by
  obtain ⟨out, hout, hcomputes⟩ :=
    (calcValue_computes (2 * pToken.length + 2)).1 pToken precNul ⟨0, true, false, false⟩
      (Nat.le_refl _) rfl
  change Computes false false (read pToken) out at hcomputes
  refine ⟨_, by rw [calculateValue, hout, map_some], ?_, ?_⟩
  · simpa using hcomputes.trap
  · intro lValue
    cases heval : (read pToken).1.evaluates with
    | false => simp [hcomputes.fails heval]
    | true =>
      rw [hcomputes.gives heval]
      cases isEoc (read pToken).2 <;> cases (read pToken).1.undefined <;> simp

theorem exists_parses_iff (pToken : List Token) (P : Tree → Prop) :
    (∃ e, Parses pToken e ∧ P e) ↔
      (read pToken).1.complete = true ∧ isEoc (read pToken).2 = true ∧ P (read pToken).1 := by
  constructor
  · rintro ⟨e, hparses, hP⟩
    obtain ⟨rfl, heoc⟩ := read_parses hparses
    obtain ⟨rest, -, -, hfits⟩ := hparses
    exact ⟨hfits.complete, heoc, hP⟩
  · rintro ⟨hcomplete, heoc, hP⟩
    exact ⟨_, parses_read hcomplete heoc, hP⟩

/-- The evaluator computes the expression it is given exactly where no undefined operation is met
from the left to the right up to the first error, and no expression that has a value has a `!`
between two operands. -/
theorem calculateValue_correct_iff (pToken : List Token) :
    Correct pToken ↔
      (read pToken).1.traps = false ∧
        ∀ e, Parses pToken e → e.divides = false → e.undefined = false → e.infixNot = false := by
  obtain ⟨r, hr, htrap, hvalue⟩ := calculateValue_read pToken
  constructor
  · rintro ⟨r', hr', htrap', hcorrect⟩
    obtain rfl : r = r' := some_injective _ (hr.symm.trans hr')
    refine ⟨htrap ▸ htrap', fun e hparses hdivides hundef => ?_⟩
    obtain ⟨rfl, heoc⟩ := read_parses hparses
    obtain ⟨rest, -, -, hfits⟩ := hparses
    have heval : (read pToken).1.evaluates = true := by
      rw [Tree.evaluates, hfits.complete, hdivides]
      rfl
    obtain ⟨e', hparses', hnot, -⟩ :=
      (hcorrect _).mp ((hvalue _).mpr ⟨heval, heoc, hundef, rfl⟩)
    rw [(read_parses hparses').1]
    exact hnot
  · rintro ⟨htraps, hnot⟩
    refine ⟨r, hr, htrap.trans htraps, fun lValue => ?_⟩
    rw [hvalue, exists_parses_iff]
    constructor
    · rintro ⟨heval, heoc, hundef, hlValue⟩
      obtain ⟨hcomplete, hdivides⟩ := Bool.and_eq_true_iff.mp heval
      rw [Bool.not_eq_true'] at hdivides
      exact ⟨hcomplete, heoc, hnot _ (parses_read hcomplete heoc) hdivides hundef, hdivides, hundef,
        hlValue⟩
    · rintro ⟨hcomplete, heoc, -, hdivides, hundef, hlValue⟩
      exact ⟨by rw [Tree.evaluates, hcomplete, hdivides]; rfl, heoc, hundef, hlValue⟩

def leastOverMinusOne : List Token :=
  [⟨[0x30, 0x78, 0x38, 0x30, 0x30, 0x30, 0x30, 0x30, 0x30, 0x30, 0x30, 0x30, 0x30, 0x30, 0x30,
      0x30, 0x30, 0x30], .number, 1⟩, ⟨[0x2F], .div, 1⟩, ⟨[0x2D], .minus, 1⟩,
    ⟨[0x31], .number, 0⟩]

def oneNotTwo : List Token :=
  [⟨[0x31], .number, 1⟩, ⟨[0x21], .not, 1⟩, ⟨[0x32], .number, 1⟩]

/-- One division traps, and one `!` between two operands is no error. -/
theorem calculateValue_least_over_minus_one :
    ¬Correct leastOverMinusOne ∧ ¬Correct oneNotTwo := by
  constructor
  · rintro ⟨r, hr, htrap, -⟩
    have htraps : (calculateValue leastOverMinusOne).map (·.fTrap) = some true := by decide +kernel
    rw [hr, map_some, htrap] at htraps
    cases htraps
  · rintro ⟨r, hr, -, hcorrect⟩
    have hresult : calculateValue oneNotTwo = some ⟨1, false, false⟩ := by decide +kernel
    obtain rfl : r = ⟨1, false, false⟩ := some_injective _ (hr.symm.trans hresult)
    obtain ⟨e, hparses, hnot, -⟩ := (hcorrect 1).mp ⟨rfl, rfl⟩
    obtain ⟨rfl, -⟩ := read_parses hparses
    exact Bool.noConfusion (hnot.symm.trans
      (by decide +kernel : (read oneNotTwo).1.infixNot = true))

end Harbour.Pp.Calculate
