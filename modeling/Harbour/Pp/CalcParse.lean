import Harbour.Pp.Calculate

/-!
The reader finds the expressions of the grammar, and no other ones.
-/

namespace Harbour.Pp.Calculate

open Tokens List Option

variable {op pNext pToken : List Token} {e right : Tree}
  {parse' : Nat → List Token → Tree × List Token} {fuel level level' : Nat}

theorem isDouble_none {pToken : Token} (h : doubleOper pToken.type = none) :
    isDouble pToken pNext = false := by
  simp [isDouble, h]

theorem singlePrec_le (type : TokenType) : singlePrec type ≤ precNeg := by
  unfold singlePrec
  split <;> decide

theorem doubleOper_le {type : TokenType} {r : TokenType × Nat} (h : doubleOper type = some r) :
    r.2 ≤ precNeg := by
  unfold doubleOper at h
  split at h <;> cases h <;> decide

theorem levelOf_le (pToken : List Token) : levelOf pToken ≤ precNeg := by
  cases pToken with
  | nil => exact Nat.zero_le _
  | cons pToken pNext =>
    rw [levelOf, calcPrecedence]
    split
    · rename_i hdouble
      cases hoper : doubleOper pToken.type with
      | none => rw [isDouble_none hoper] at hdouble; cases hdouble
      | some r => exact doubleOper_le hoper
    · exact singlePrec_le pToken.type

theorem open_of_levelOf (h : precLog ≤ levelOf pToken) :
    isEoc pToken = false ∧ isRightPb pToken = false := by
  cases pToken with
  | nil => simp [levelOf, precLog, precNul] at h
  | cons pToken pNext =>
    have hopen : pToken.type ≠ .eol ∧ pToken.type ≠ .eoc ∧ pToken.type ≠ .rightPb := by
      refine ⟨?_, ?_, ?_⟩ <;>
        · intro htype
          simp [levelOf, calcPrecedence, isDouble, doubleOper, htype, singlePrec, precLog,
            precNul] at h
    simp [isEoc, isRightPb, hopen]

theorem operTokens_spec (pToken : Token) (pNext : List Token) :
    operTokens pToken pNext ++ (calcPrecedence pToken pNext).1 = pToken :: pNext ∧
      operator (operTokens pToken pNext) = (calcPrecedence pToken pNext).2 := by
  cases hdouble : isDouble pToken pNext with
  | false => simp [operTokens, calcPrecedence, hdouble, operator]
  | true =>
    cases pNext with
    | nil => simp [isDouble] at hdouble
    | cons pNext rest =>
      have htwo : isDouble pToken [pNext] = true := hdouble
      cases hoper : doubleOper pToken.type with
      | none => rw [isDouble_none hoper] at hdouble; cases hdouble
      | some r => simp [operTokens, calcPrecedence, hdouble, operator, htwo, hoper]

theorem operTokens_append (hop : precLog ≤ (operator op).2)
    (hnext : ∀ pToken ∈ pNext.head?, doubleOper pToken.type = none) :
    ∃ pToken rest, op ++ pNext = pToken :: rest ∧ operTokens pToken rest = op ∧
      calcPrecedence pToken rest = (pNext, operator op) := by
  match op, hop with
  | [], hop => simp [operator, precLog, precNul] at hop
  | [pToken], hop =>
    have hsingle : isDouble pToken pNext = false := by
      cases pNext with
      | nil => simp [isDouble]
      | cons pNext rest =>
        have hnone := hnext pNext rfl
        by_cases htype : pNext.type = pToken.type
        · exact isDouble_none (htype ▸ hnone)
        · simp [isDouble, htype]
    exact ⟨pToken, pNext, rfl, by simp [operTokens, hsingle],
      by simp [calcPrecedence, hsingle, operator]⟩
  | [pToken, pSecond], hop =>
    cases hdouble : isDouble pToken [pSecond] with
    | false => simp [operator, hdouble, precLog, precNul] at hop
    | true =>
      have hall : isDouble pToken (pSecond :: pNext) = true := hdouble
      cases hoper : doubleOper pToken.type with
      | none => rw [isDouble_none hoper] at hdouble; cases hdouble
      | some r =>
        exact ⟨pToken, pSecond :: pNext, rfl, by simp [operTokens, hall],
          by simp [calcPrecedence, hall, operator, hdouble, hoper]⟩
  | _ :: _ :: _ :: _, hop => simp [operator, precLog, precNul] at hop

section Operand

variable {pToken : Token}

theorem leafValue_type (h : (leafValue pToken).isSome = true) :
    pToken.type = .number ∨ pToken.type = .logical ∨ pToken.type = .keyword := by
  unfold leafValue at h
  split at h
  case h_1 htype => exact .inl htype
  case h_2 htype => exact .inr (.inl htype)
  case h_3 htype => exact .inr (.inr htype)
  case h_4 => cases h

theorem isUnary_type (h : isUnary pToken.type = true) :
    pToken.type = .minus ∨ pToken.type = .plus ∨ pToken.type = .not := by
  simpa [isUnary] using h

theorem parseOperand_leaf (h : (leafValue pToken).isSome = true) :
    parseOperand parse' level (pToken :: pNext) = (.leaf pToken, pNext) := by
  rcases leafValue_type h with htype | htype | htype <;>
    simp [parseOperand, isEoc, isUnary, htype, h]

theorem parseOperand_unary (h : isUnary pToken.type = true) :
    parseOperand parse' level (pToken :: pNext) =
      (.unary pToken (parse' (unaryLevel level pToken.type) pNext).1,
        (parse' (unaryLevel level pToken.type) pNext).2) := by
  have hopen : isEoc (pToken :: pNext) = false := by
    rcases isUnary_type h with htype | htype | htype <;> simp [isEoc, htype]
  simp [parseOperand, hopen, h]

theorem parseOperand_paren (h : pToken.type = .leftPb) :
    parseOperand parse' level (pToken :: pNext) =
      if (parse' precNul pNext).1.complete && isRightPb (parse' precNul pNext).2 then
        (.paren pToken (parse' precNul pNext).1 (parse' precNul pNext).2.head?,
          (parse' precNul pNext).2.tail)
      else (.paren pToken (parse' precNul pNext).1 none, (parse' precNul pNext).2) := by
  simp [parseOperand, isEoc, isUnary, h]

theorem parseOperand_gap (hunary : isUnary pToken.type = false) (hleft : pToken.type ≠ .leftPb)
    (hleaf : (leafValue pToken).isSome = false) :
    parseOperand parse' level (pToken :: pNext) = (.gap, pToken :: pNext) := by
  simp [parseOperand, hunary, hleft, hleaf]

theorem Tree.Fits.head (h : e.Fits level) :
    ∃ pToken rest, e.tokens = pToken :: rest ∧ doubleOper pToken.type = none := by
  induction e generalizing level with
  | gap => exact h.elim
  | leaf pToken =>
    refine ⟨pToken, [], rfl, ?_⟩
    rcases leafValue_type h with htype | htype | htype <;> simp [doubleOper, htype]
  | paren pLeft inner pRight ih => exact ⟨pLeft, _, rfl, by simp [doubleOper, h.1]⟩
  | unary pToken inner ih =>
    refine ⟨pToken, _, rfl, ?_⟩
    rcases isUnary_type h.1 with htype | htype | htype <;> simp [doubleOper, htype]
  | binary left op right ihl ihr =>
    obtain ⟨pToken, rest, htokens, hnone⟩ := ihl h.2.1
    exact ⟨pToken, rest ++ (op ++ right.tokens), by simp [Tree.tokens, htokens], hnone⟩

end Operand

theorem calcPrecedence_length (pToken : Token) (pNext : List Token) :
    (calcPrecedence pToken pNext).1.length ≤ pNext.length := by
  unfold calcPrecedence
  split
  · simp
  · exact Nat.le_refl _

theorem parseOperand_length
    (hparse : ∀ level pToken, (parse' level pToken).2.length ≤ pToken.length) (level : Nat)
    (pToken : List Token) : (parseOperand parse' level pToken).2.length ≤ pToken.length := by
  cases pToken with
  | nil => exact Nat.le_refl _
  | cons pToken pNext =>
    have htail (level : Nat) : (parse' level pNext).2.length ≤ pNext.length := hparse level pNext
    unfold parseOperand
    simp only
    split_ifs
    · simp
    · exact Nat.le_succ_of_le (htail _)
    · have hinner := htail precNul
      simp only [length_tail, length_cons]
      omega
    · exact Nat.le_succ_of_le (htail _)
    · simp
    · simp

theorem parse_length (fuel : Nat) :
    (∀ level pToken, (parse fuel level pToken).2.length ≤ pToken.length) ∧
      ∀ level e pToken, (parseLoop fuel level e pToken).2.length ≤ pToken.length := by
  induction fuel with
  | zero => exact ⟨fun _ _ => Nat.le_refl _, fun _ _ _ => Nat.le_refl _⟩
  | succ fuel ih =>
    constructor
    · intro level pToken
      exact (ih.2 _ _ _).trans (parseOperand_length ih.1 level pToken)
    · intro level e pToken
      unfold parseLoop
      split
      · exact Nat.le_refl _
      · cases pToken with
        | nil => exact Nat.le_refl _
        | cons pToken rest =>
          simp only
          split_ifs
          · exact Nat.le_refl _
          · have hright := ih.1 (calcPrecedence pToken rest).2.2 (calcPrecedence pToken rest).1
            have hnext := calcPrecedence_length pToken rest
            exact (ih.2 _ _ _).trans (by simpa using by omega)
          · exact Nat.le_refl _

def Bounded (level : Nat) (pToken : List Token) : Prop :=
  isEoc pToken = true ∨ isRightPb pToken = true ∨ levelOf pToken ≤ level

theorem Bounded.min (h : Bounded level pToken) (h' : Bounded level' pToken) :
    Bounded (min level level') pToken := by
  rcases Nat.le_total level level' with hle | hle
  · rwa [Nat.min_eq_left hle]
  · rwa [Nat.min_eq_right hle]

theorem Bounded.levelOf_le (h : Bounded level pToken) (heoc : isEoc pToken = false)
    (hright : isRightPb pToken = false) : levelOf pToken ≤ level := by
  rcases h with h | h | h
  · rw [heoc] at h; cases h
  · rw [hright] at h; cases h
  · exact h

theorem bounded_precNeg (pToken : List Token) : Bounded precNeg pToken :=
  .inr (.inr (levelOf_le pToken))

/-- What has been read is an expression of the tokens, unless something is missing. -/
def Sound (level : Nat) (pToken : List Token) (r : Tree × List Token) : Prop :=
  r.1.complete = true →
    r.1.tokens ++ r.2 = pToken ∧ r.1.Fits level ∧ Bounded (r.1.edge level) r.2

theorem parseOperand_sound (hparse : ∀ level pToken, Sound level pToken (parse' level pToken) ∧
      ((parse' level pToken).1.complete = true → Bounded level (parse' level pToken).2))
    (level : Nat) (pToken : List Token) :
    Sound level pToken (parseOperand parse' level pToken) := by
  intro hcomplete
  cases pToken with
  | nil => simp [parseOperand, Tree.complete] at hcomplete
  | cons pToken pNext =>
    cases hunary : isUnary pToken.type with
    | true =>
      rw [parseOperand_unary hunary] at hcomplete ⊢
      obtain ⟨hsound, hbounded⟩ := hparse (unaryLevel level pToken.type) pNext
      obtain ⟨htokens, hfits, hedge⟩ := hsound hcomplete
      exact ⟨congrArg (pToken :: ·) htokens, ⟨hunary, hfits⟩, (hbounded hcomplete).min hedge⟩
    | false =>
      by_cases hleft : pToken.type = .leftPb
      · rw [parseOperand_paren hleft] at hcomplete ⊢
        split at hcomplete
        · rename_i hclosed
          rw [if_pos hclosed]
          rw [Bool.and_eq_true] at hclosed
          obtain ⟨htokens, hfits, -⟩ := (hparse precNul pNext).1 hclosed.1
          obtain ⟨pRight, rest, hrest⟩ :
              ∃ pRight rest, (parse' precNul pNext).2 = pRight :: rest := by
            cases hrest : (parse' precNul pNext).2 with
            | nil => rw [hrest] at hclosed; simp [isRightPb] at hclosed
            | cons pRight rest => exact ⟨pRight, rest, rfl⟩
          rw [hrest] at hclosed htokens ⊢
          refine ⟨?_, ⟨hleft, hfits, ?_⟩, bounded_precNeg _⟩
          · simpa [Tree.tokens] using htokens
          · simpa [isRightPb] using hclosed.2
        · simp [Tree.complete] at hcomplete
      · cases hleaf : (leafValue pToken).isSome with
        | true =>
          rw [parseOperand_leaf hleaf]
          refine ⟨rfl, hleaf, bounded_precNeg _⟩
        | false =>
          rw [parseOperand_gap hunary hleft hleaf] at hcomplete
          cases hcomplete

theorem parse_sound_all (fuel : Nat) :
    (∀ level pToken, Sound level pToken (parse fuel level pToken) ∧
      ((parse fuel level pToken).1.complete = true → Bounded level (parse fuel level pToken).2)) ∧
    ∀ level whole e pToken, Sound level whole (e, pToken) →
      Sound level whole (parseLoop fuel level e pToken) ∧
        ((parseLoop fuel level e pToken).1.complete = true →
          Bounded level (parseLoop fuel level e pToken).2) := by
  induction fuel with
  | zero =>
    constructor
    · intro level pToken
      exact ⟨fun hcomplete => (Bool.false_ne_true hcomplete).elim,
        fun hcomplete => (Bool.false_ne_true hcomplete).elim⟩
    · intro level whole e pToken hsound
      exact ⟨fun hcomplete => (Bool.false_ne_true hcomplete).elim,
        fun hcomplete => (Bool.false_ne_true hcomplete).elim⟩
  | succ fuel ih =>
    constructor
    · intro level pToken
      exact ih.2 _ _ _ _ (parseOperand_sound ih.1 level pToken)
    · intro level whole e pToken hsound
      unfold parseLoop
      split
      · rename_i hstop
        refine ⟨hsound, fun hcomplete => ?_⟩
        rw [show e.complete = true from hcomplete, Bool.not_true, Bool.false_or,
          Bool.or_eq_true] at hstop
        exact hstop.imp_right .inl
      · rename_i hopen
        simp only [Bool.or_eq_true, Bool.not_eq_true', not_or, Bool.not_eq_true,
          Bool.not_eq_false] at hopen
        obtain ⟨⟨hcomplete, heoc⟩, hright⟩ := hopen
        obtain ⟨htokens, hfits, hedge⟩ := hsound hcomplete
        cases pToken with
        | nil => exact ⟨hsound, fun _ => .inl rfl⟩
        | cons pToken rest =>
          simp only
          split_ifs with hjunk hlevel
          · exact ⟨fun h => by simp [Tree.complete] at h, fun h => by simp [Tree.complete] at h⟩
          · -- the operator belongs to what has been read so far
            apply ih.2
            intro hboth
            obtain ⟨hsplit, hoper⟩ := operTokens_spec pToken rest
            have hlast := (Bool.and_eq_true_iff.mp hboth).2
            obtain ⟨hsound', hbounded⟩ :=
              ih.1 (calcPrecedence pToken rest).2.2 (calcPrecedence pToken rest).1
            obtain ⟨hbehind, hinside, hend⟩ := hsound' hlast
            refine ⟨?_, ⟨?_, hfits, ?_, ?_⟩, ?_⟩
            · simp only [Tree.tokens, append_assoc]
              rw [hbehind, hsplit]
              exact htokens
            · rwa [hoper]
            · rw [hoper]
              exact hedge.levelOf_le heoc hright
            · rwa [hoper]
            · rw [Tree.edge, hoper]
              exact (hbounded hlast).min hend
          · exact ⟨hsound, fun _ => .inr (.inr (by simpa [levelOf] using hlevel))⟩

theorem read_sound (h : (read pToken).1.complete = true) :
    (read pToken).1.tokens ++ (read pToken).2 = pToken ∧ (read pToken).1.Fits precNul :=
  have hsound := ((parse_sound_all _).1 precNul pToken).1 h
  ⟨hsound.1, hsound.2.1⟩

def Stops (level : Nat) (pToken : List Token) : Prop :=
  isEoc pToken = true ∨ isRightPb pToken = true ∨
    (precLog ≤ levelOf pToken ∧ levelOf pToken ≤ level)

theorem Stops.mono (h : Stops level pToken) (hle : level ≤ level') : Stops level' pToken :=
  h.imp_right (Or.imp_right fun hlevel => ⟨hlevel.1, hlevel.2.trans hle⟩)

theorem parseLoop_stops (hfuel : 0 < fuel) (hcomplete : e.complete = true)
    (hstops : Stops level pToken) :
    parseLoop fuel level e pToken = (e, pToken) := by
  rcases fuel with _ | fuel
  · omega
  unfold parseLoop
  rw [hcomplete]
  rcases hstops with heoc | hright | ⟨hlog, hlevel⟩
  · rw [if_pos (by simp [heoc])]
  · rw [if_pos (by simp [hright])]
  · obtain ⟨heoc, hright⟩ := open_of_levelOf hlog
    rw [if_neg (by simp [heoc, hright])]
    cases pToken with
    | nil => rfl
    | cons pToken rest =>
      simp only [levelOf] at hlog hlevel
      simp only
      rw [if_neg (Nat.not_lt.mpr hlog), if_neg (Nat.not_lt.mpr hlevel)]

theorem operator_head (hlog : precLog ≤ (operator op).2) (hright : right.Fits (operator op).2)
    (rest : List Token) :
    ∃ pToken pNext, op ++ (right.tokens ++ rest) = pToken :: pNext ∧
      operTokens pToken pNext = op ∧
      calcPrecedence pToken pNext = (right.tokens ++ rest, operator op) := by
  obtain ⟨pFirst, tail, hfirst, hnone⟩ := hright.head
  apply operTokens_append hlog
  intro pHead hhead
  rw [hfirst, cons_append, head?_cons, mem_some_iff] at hhead
  exact hhead ▸ hnone

theorem parseLoop_operator {rest : List Token} (hcomplete : e.complete = true)
    (hlevel : level < (operator op).2) (hright : right.Fits (operator op).2)
    (hparse : parse fuel (operator op).2 (right.tokens ++ rest) = (right, rest)) :
    parseLoop (fuel + 1) level e (op ++ (right.tokens ++ rest)) =
      parseLoop fuel level (.binary e op right) rest := by
  have hlog : precLog ≤ (operator op).2 := Nat.succ_le_of_lt (Nat.zero_lt_of_lt hlevel)
  obtain ⟨pToken, pNext, hsplit, hoper, hnext⟩ := operator_head hlog hright rest
  have hopen : isEoc (pToken :: pNext) = false ∧ isRightPb (pToken :: pNext) = false := by
    apply open_of_levelOf
    rwa [levelOf, hnext]
  rw [hsplit, parseLoop, hcomplete, hopen.1, hopen.2]
  simp only [Bool.not_true, Bool.or_self, Bool.false_eq_true, if_false, hnext, hoper, hparse]
  rw [if_neg (Nat.not_lt.mpr hlog), if_pos hlevel]

theorem parse_tokens (e : Tree) :
    ∀ (fuel level : Nat) (rest : List Token), e.Fits level → Stops (e.edge level) rest →
      2 * (e.tokens ++ rest).length + 2 ≤ fuel →
      ∃ fuel', 2 * rest.length + 1 ≤ fuel' ∧
        parse fuel level (e.tokens ++ rest) = parseLoop fuel' level e rest := by
  induction e with
  | gap =>
    rintro fuel level rest hfits
    exact hfits.elim
  | leaf pToken =>
    intro fuel level rest hfits hstops hfuel
    rcases fuel with _ | fuel
    · omega
    simp only [Tree.tokens, length_append, length_cons, length_nil] at hfuel
    exact ⟨fuel, by omega, by simp [Tree.tokens, parse, parseOperand_leaf hfits]⟩
  | paren pLeft inner pRight ih =>
    intro fuel level rest hfits hstops hfuel
    obtain ⟨hleft, hinner, hright⟩ := hfits
    obtain ⟨pRight, rfl, htype⟩ := (any_eq_true _ _).mp hright
    rcases fuel with _ | fuel
    · omega
    simp only [Tree.tokens, toList_some, length_append, length_cons,
      length_nil] at hfuel
    have hclose : isRightPb (pRight :: rest) = true := by simp [isRightPb, htype]
    obtain ⟨fuel', hfuel', hparse⟩ :=
      ih fuel precNul (pRight :: rest) hinner (.inr (.inl hclose))
        (by simp only [length_append, length_cons]; omega)
    rw [parseLoop_stops (by omega) hinner.complete (.inr (.inl hclose))] at hparse
    refine ⟨fuel, by omega, ?_⟩
    simp [Tree.tokens, parse, parseOperand_paren hleft, hparse, hinner.complete, hclose]
  | unary pToken inner ih =>
    intro fuel level rest hfits hstops hfuel
    rcases fuel with _ | fuel
    · omega
    simp only [Tree.tokens, length_append, length_cons] at hfuel
    obtain ⟨fuel', hfuel', hparse⟩ :=
      ih fuel (unaryLevel level pToken.type) rest hfits.2 (hstops.mono (Nat.min_le_right _ _))
        (by simp only [length_append]; omega)
    rw [parseLoop_stops (by omega) hfits.2.complete (hstops.mono (Nat.min_le_left _ _))]
      at hparse
    refine ⟨fuel, by omega, ?_⟩
    simp [Tree.tokens, parse, parseOperand_unary hfits.1, hparse]
  | binary left op right ihl ihr =>
    intro fuel level rest hfits hstops hfuel
    obtain ⟨hlevel, hleft, hedge, hright⟩ := hfits
    have hlog : precLog ≤ (operator op).2 := Nat.succ_le_of_lt (Nat.zero_lt_of_lt hlevel)
    obtain ⟨pToken, pNext, hsplit, -, hnext⟩ := operator_head hlog hright rest
    have hlevelOf : levelOf (op ++ (right.tokens ++ rest)) = (operator op).2 := by
      rw [hsplit, levelOf, hnext]
    have hop : 0 < op.length := by
      cases op with
      | nil => simp [operator, precLog, precNul] at hlog
      | cons pToken op => exact Nat.succ_pos _
    simp only [Tree.tokens, length_append] at hfuel
    -- the left operand ends at the operator
    obtain ⟨fuel', hfuel', hparse⟩ :=
      ihl fuel level (op ++ (right.tokens ++ rest)) hleft
        (.inr (.inr (by rw [hlevelOf]; exact ⟨hlog, hedge⟩)))
        (by simp only [length_append]; omega)
    simp only [length_append] at hfuel'
    rcases fuel' with _ | fuel'
    · omega
    obtain ⟨fuel'', hfuel'', hparse'⟩ :=
      ihr fuel' (operator op).2 rest hright (hstops.mono (Nat.min_le_right _ _))
        (by simp only [length_append]; omega)
    rw [parseLoop_stops (by omega) hright.complete (hstops.mono (Nat.min_le_left _ _))]
      at hparse'
    refine ⟨fuel', by omega, ?_⟩
    rw [← parseLoop_operator hleft.complete hlevel hright hparse', ← hparse]
    simp [Tree.tokens]

theorem read_parses (h : Parses pToken e) :
    (read pToken).1 = e ∧ isEoc (read pToken).2 = true := by
  obtain ⟨rest, rfl, heoc, hfits⟩ := h
  obtain ⟨fuel, hfuel, hparse⟩ := parse_tokens e _ _ rest hfits (.inl heoc) (Nat.le_refl _)
  rw [read, hparse, parseLoop_stops (by omega) hfits.complete (.inl heoc)]
  exact ⟨rfl, heoc⟩

theorem parses_read (hcomplete : (read pToken).1.complete = true)
    (heoc : isEoc (read pToken).2 = true) : Parses pToken (read pToken).1 :=
  ⟨(read pToken).2, (read_sound hcomplete).1, heoc, (read_sound hcomplete).2⟩

end Harbour.Pp.Calculate
