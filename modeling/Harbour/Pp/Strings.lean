import Harbour.Pp.Tokens

/-!
How strings are written as text, and how they are read from it, outside of multi-line strings.
-/

namespace Harbour.Pp.Strings

open Tokens List

/-- Whether a string can stand in each kind of quotes. -/
structure Quotes where
  double : Bool
  single : Bool
  bracket : Bool
deriving DecidableEq

def Quotes.none : Quotes := ⟨false, false, false⟩

def Quotes.next (iq : Quotes) (ch : UInt8) : Quotes :=
  if ch = 0x22 then { iq with double := false }
  else if ch = 0x27 then { iq with single := false }
  else if ch = 0x5D then { iq with bracket := false }
  else if ch = 0x0A ∨ ch = 0x0D ∨ ch = 0 then .none
  else iq

def quotes (iq : Quotes) : Bytes → Quotes
  | [] => iq
  | ch :: value => if iq = .none then iq else quotes (iq.next ch) value

def escape (ch : UInt8) : Bytes :=
  if ch = 0x0D then [0x5C, 0x72]
  else if ch = 0x0A then [0x5C, 0x6E]
  else if ch = 0x09 then [0x5C, 0x74]
  else if ch = 0x08 then [0x5C, 0x62]
  else if ch = 0x0C then [0x5C, 0x66]
  else if ch = 0x0B then [0x5C, 0x76]
  else if ch = 0x07 then [0x5C, 0x61]
  else if ch = 0 then [0x5C, 0x30]
  else if ch = 0x22 ∨ ch = 0x5C then [0x5C, ch]
  else [ch]

def tokenText (value : Bytes) (fQuote : Bool) : Bytes :=
  let iq := quotes ⟨true, true, true⟩ value
  if iq = .none ∧ fQuote then [0x65, 0x22] ++ value.flatMap escape ++ [0x22]
  else if iq.double then [0x22] ++ value ++ [0x22]
  else if iq.single then [0x27] ++ value ++ [0x27]
  else [0x5B] ++ value ++ [0x5D]

def tokenStr (value : Bytes) (spaces : Nat) (fSpaces fQuote : Bool) : Bytes :=
  replicate (if fSpaces then spaces else 0) 0x20 ++ tokenText value fQuote

variable {fuel n : Nat} {pBuffer value : Bytes} {iq : Quotes}

def isOctal (ch : UInt8) : Bool := 0x30 ≤ ch ∧ ch ≤ 0x37

def octalDigit (ch : UInt8) : Bytes → UInt8 × Bytes
  | ch' :: rest => if isOctal ch' then (ch <<< 3 ||| (ch' - 0x30), rest) else (ch, ch' :: rest)
  | [] => (ch, [])

/-- There are two more digits at most, the second one behind the first. -/
def octalDigits (ch : UInt8) (source : Bytes) : UInt8 × Bytes :=
  if (source.head?.map isOctal).getD false then
    octalDigit (octalDigit ch source).1 (octalDigit ch source).2
  else (ch, source)

def hexDigits (ch : UInt8) : Bytes → UInt8 × Bytes
  | [] => (ch, [])
  | ch' :: rest =>
    if 0x30 ≤ ch' ∧ ch' ≤ 0x39 then hexDigits (ch <<< 4 ||| (ch' - 0x30)) rest
    else if 0x41 ≤ ch' ∧ ch' ≤ 0x46 then hexDigits (ch <<< 4 ||| (ch' - 0x41 + 10)) rest
    else if 0x61 ≤ ch' ∧ ch' ≤ 0x66 then hexDigits (ch <<< 4 ||| (ch' - 0x61 + 10)) rest
    else (ch, ch' :: rest)

/-- What follows a backslash. -/
def unescape (ch : UInt8) (rest : Bytes) : UInt8 × Bytes :=
  if ch = 0x72 then (0x0D, rest)
  else if ch = 0x6E then (0x0A, rest)
  else if ch = 0x74 then (0x09, rest)
  else if ch = 0x62 then (0x08, rest)
  else if ch = 0x66 then (0x0C, rest)
  else if ch = 0x76 then (0x0B, rest)
  else if ch = 0x61 then (0x07, rest)
  else if isOctal ch then octalDigits (ch - 0x30) rest
  else if ch = 0x78 then hexDigits 0 rest
  else (ch, rest)

section

variable (ch : UInt8) (source : Bytes)

include ch source

theorem octalDigit_length : (octalDigit ch source).2.length ≤ source.length := by
  cases source with
  | nil => exact Nat.le_refl _
  | cons ch' rest =>
    rw [octalDigit]
    split_ifs
    · exact Nat.le_succ _
    · exact Nat.le_refl _

theorem octalDigits_length : (octalDigits ch source).2.length ≤ source.length := by
  unfold octalDigits
  split_ifs
  · exact (octalDigit_length _ _).trans (octalDigit_length _ _)
  · exact Nat.le_refl _

theorem hexDigits_length : (hexDigits ch source).2.length ≤ source.length := by
  induction source generalizing ch with
  | nil => exact Nat.le_refl _
  | cons ch' rest ih =>
    unfold hexDigits
    split_ifs
    · exact (ih _).trans (Nat.le_succ _)
    · exact (ih _).trans (Nat.le_succ _)
    · exact (ih _).trans (Nat.le_succ _)
    · exact Nat.le_refl _

end

theorem ite_snd_length {c : Prop} [Decidable c] {a b : UInt8 × Bytes} (ha : a.2.length ≤ n)
    (hb : b.2.length ≤ n) : (if c then a else b).2.length ≤ n := by
  split
  · exact ha
  · exact hb

theorem unescape_length (ch : UInt8) (rest : Bytes) :
    (unescape ch rest).2.length ≤ rest.length := by
  iterate 7 refine ite_snd_length (Nat.le_refl _) ?_
  refine ite_snd_length (octalDigits_length _ _) ?_
  exact ite_snd_length (hexDigits_length _ _) (Nat.le_refl _)

/-- A backslash at the end is dropped. -/
def strRemEscSeq : Bytes → Bytes
  | [] => []
  | [ch] => if ch = 0x5C then [] else [ch]
  | ch :: ch' :: rest =>
    if ch = 0x5C then (unescape ch' rest).1 :: strRemEscSeq (unescape ch' rest).2
    else ch :: strRemEscSeq (ch' :: rest)
termination_by str => str.length
decreasing_by
  · have := unescape_length ch' rest
    simp
    omega
  · simp

/-- `\n` and `^Z` end a line, and `\r` is not part of it. -/
def readLine (source : Bytes) : Bytes :=
  (source.takeWhile fun ch => ch ≠ 0x0A ∧ ch ≠ 0x1A).filter fun ch => ch ≠ 0x0D

structure Lexer where
  fEscStr : Bool
  fDirective : Bool
  fCanNextLine : Bool
  fNewStatement : Bool
  usLastType : TokenType
  nSpaces : Nat

def tokenCanQuote : TokenType → Bool
  | .keyword | .macroVar | .macroText | .rightPb | .rightSb | .rightCb | .string | .number
  | .date | .timestamp | .logical => false
  | _ => true

def isIllegal (ch : UInt8) : Bool := ch < 32 ∨ ch = 127

def bracketEnd (pBuffer : Bytes) (n : Nat) : Option Nat :=
  if (pBuffer.drop n).contains 0x5D then some (n + (pBuffer.drop n).idxOf 0x5D) else none

/-- The quote that is open at the end, or zero. The first argument bounds the steps. -/
def openQuote (pBuffer : Bytes) : Nat → Nat → UInt8 → UInt8
  | 0, _, cQuote => cQuote
  | fuel + 1, u, cQuote =>
    match pBuffer[u]? with
    | none => cQuote
    | some ch =>
      if cQuote ≠ 0 then openQuote pBuffer fuel (u + 1) (if ch = cQuote then 0 else cQuote)
      else if ch = 0x60 then openQuote pBuffer fuel (u + 1) 0x27
      else if ch = 0x27 ∨ ch = 0x22 then openQuote pBuffer fuel (u + 1) ch
      else if ch = 0x5B then
        openQuote pBuffer fuel ((bracketEnd pBuffer (u + 1)).getD u + 1) 0
      else openQuote pBuffer fuel (u + 1) 0

/-- `hb_pp_canQuote`, where a quote `cQuote` may be open. -/
def canQuote (pBuffer : Bytes) : Nat → Bool → UInt8 → Nat → Option Nat
  | 0, _, _, _ => none
  | fuel + 1, fQuote, cQuote, n =>
    match pBuffer[n]? with
    | none => none
    | some ch =>
      if ch = 0x5D then
        if cQuote ≠ 0 ∧ fQuote = false then
          if openQuote pBuffer fuel (n + 1) 0 = 0 then some n else none
        else if fQuote then some n
        else none
      else if fQuote then canQuote pBuffer fuel fQuote cQuote (n + 1)
      else if cQuote ≠ 0 then
        canQuote pBuffer fuel fQuote (if ch = cQuote then 0 else cQuote) (n + 1)
      else if ch = 0x60 then canQuote pBuffer fuel fQuote 0x27 (n + 1)
      else if ch = 0x27 ∨ ch = 0x22 then canQuote pBuffer fuel fQuote ch (n + 1)
      else canQuote pBuffer fuel (isIllegal ch) 0 (n + 1)

def escapedLength : Bytes → Nat
  | [] => 0
  | [ch] => if ch = 0x22 then 0 else 1
  | ch :: ch' :: rest =>
    if ch = 0x22 then 0
    else if ch = 0x5C then escapedLength rest + 2
    else escapedLength (ch' :: rest) + 1

/-- The first token of a statement is that of a directive when it is a `#`, also one that was
written as a string. A line break that is open adds a separator, behind which a statement starts. -/
def tokenAddNext (s : Lexer) (value : Bytes) (type : TokenType) : Token where
  value := value
  type :=
    if s.fDirective = false ∧ (s.fCanNextLine || s.fNewStatement) = true ∧ value = [0x23] then
      .directive
    else type
  spaces := s.nSpaces

structure Read where
  token : Token
  fError : Bool
  rest : Bytes
deriving DecidableEq

def readString (s : Lexer) (pBuffer : Bytes) (start nLen : Nat) (decode : Bytes → Bytes) :
    Read where
  token := tokenAddNext s (decode ((pBuffer.drop start).take nLen)) .string
  fError := decide (pBuffer.length ≤ start + nLen)
  rest := pBuffer.drop (start + nLen + 1)

def getString (s : Lexer) (pBuffer : Bytes) : Option Read :=
  match pBuffer with
  | [] => none
  | ch :: rest =>
    if (ch = 0x65 ∨ ch = 0x45) ∧ rest.head? = some 0x22 then
      some (readString s pBuffer 2 (escapedLength rest.tail) strRemEscSeq)
    else if ch = 0x22 ∧ s.fEscStr then
      some (readString s pBuffer 1 (escapedLength rest) strRemEscSeq)
    else if ch = 0x22 ∨ ch = 0x27 then some (readString s pBuffer 1 (rest.idxOf ch) id)
    else if ch = 0x60 then some (readString s pBuffer 1 (rest.idxOf 0x27) id)
    else if ch = 0x5B ∧ s.fDirective = false then
      (canQuote pBuffer pBuffer.length (s.fCanNextLine || tokenCanQuote s.usLastType) 0 1).map
        fun n => readString s pBuffer 1 (n - 1) id
    else none

def isBlank (ch : UInt8) : Bool := ch = 0x20 ∨ ch = 0x09

def getLine (s : Lexer) : Bytes → Option Read
  | [] => none
  | ch :: pBuffer =>
    if isBlank ch then
      getLine { s with nSpaces := s.nSpaces + if ch = 0x20 then 1 else 4 } pBuffer
    else getString s (ch :: pBuffer)

variable {ch close start : UInt8} {text : Bytes}

theorem Quotes.next_eq_and (ch : UInt8) : ∃ double single bracket : Bool, ∀ iq : Quotes,
    iq.next ch = ⟨iq.double && double, iq.single && single, iq.bracket && bracket⟩ := by
  unfold Quotes.next
  by_cases hdouble : ch = 0x22
  · refine ⟨false, true, true, fun iq => ?_⟩
    rw [if_pos hdouble, Bool.and_false, Bool.and_true, Bool.and_true]
  by_cases hsingle : ch = 0x27
  · refine ⟨true, false, true, fun iq => ?_⟩
    rw [if_neg hdouble, if_pos hsingle, Bool.and_false, Bool.and_true, Bool.and_true]
  by_cases hbracket : ch = 0x5D
  · refine ⟨true, true, false, fun iq => ?_⟩
    rw [if_neg hdouble, if_neg hsingle, if_pos hbracket, Bool.and_false, Bool.and_true,
      Bool.and_true]
  by_cases hline : ch = 0x0A ∨ ch = 0x0D ∨ ch = 0
  · refine ⟨false, false, false, fun iq => ?_⟩
    rw [if_neg hdouble, if_neg hsingle, if_neg hbracket, if_pos hline, Bool.and_false,
      Bool.and_false, Bool.and_false, Quotes.none]
  · refine ⟨true, true, true, fun iq => ?_⟩
    rw [if_neg hdouble, if_neg hsingle, if_neg hbracket, if_neg hline, Bool.and_true,
      Bool.and_true, Bool.and_true]

theorem Quotes.next_next (iq : Quotes) (ch : UInt8) : (iq.next ch).next ch = iq.next ch := by
  obtain ⟨double, single, bracket, hnext⟩ := Quotes.next_eq_and ch
  simp only [hnext, Bool.and_assoc, Bool.and_self]

theorem Quotes.next_comm (iq : Quotes) (ch ch' : UInt8) :
    (iq.next ch).next ch' = (iq.next ch').next ch := by
  obtain ⟨double, single, bracket, hnext⟩ := Quotes.next_eq_and ch
  obtain ⟨double', single', bracket', hnext'⟩ := Quotes.next_eq_and ch'
  simp only [hnext, hnext', Bool.and_right_comm]

theorem Quotes.none_next (ch : UInt8) : Quotes.none.next ch = .none := by
  obtain ⟨double, single, bracket, hnext⟩ := Quotes.next_eq_and ch
  rw [hnext]
  rfl

theorem quotes_stable (value : Bytes) (h : iq.next ch = iq) :
    (quotes iq value).next ch = quotes iq value := by
  induction value generalizing iq with
  | nil => exact h
  | cons ch' value ih =>
    rw [quotes]
    split_ifs
    · exact h
    · apply ih
      rw [Quotes.next_comm, h]

theorem quotes_next (iq : Quotes) (h : ch ∈ value) :
    (quotes iq value).next ch = quotes iq value := by
  induction value generalizing iq with
  | nil => cases h
  | cons ch' value ih =>
    rw [quotes]
    split_ifs with hnone
    · rw [hnone, Quotes.none_next]
    · rcases mem_cons.mp h with rfl | h
      · exact quotes_stable value (Quotes.next_next iq ch)
      · exact ih _ h

theorem Quotes.next_eq (h : iq.next ch = iq) :
    (iq.double = true → ch ≠ 0x22) ∧ (iq.single = true → ch ≠ 0x27) ∧
      (iq.bracket = true → ch ≠ 0x5D) ∧
      (iq ≠ .none → ch ≠ 0x0A ∧ ch ≠ 0x0D ∧ ch ≠ 0) := by
  obtain ⟨double, single, bracket⟩ := iq
  refine ⟨?_, ?_, ?_, ?_⟩
  · rintro rfl rfl
    simp [Quotes.next] at h
  · rintro rfl rfl
    simp [Quotes.next] at h
  · rintro rfl rfl
    simp [Quotes.next] at h
  · intro hne
    refine ⟨?_, ?_, ?_⟩
    all_goals
      rintro rfl
      exact hne (by simpa [Quotes.next] using h.symm)

def isInLine (ch : UInt8) : Prop := ch ≠ 0x0A ∧ ch ≠ 0x0D ∧ ch ≠ 0x1A

instance (ch : UInt8) : Decidable (isInLine ch) :=
  inferInstanceAs (Decidable (ch ≠ 0x0A ∧ ch ≠ 0x0D ∧ ch ≠ 0x1A))

theorem readLine_append (h : ∀ ch ∈ text, isInLine ch) (source : Bytes) :
    readLine (text ++ source) = text ++ readLine source := by
  induction text with
  | nil => rfl
  | cons ch text ih =>
    obtain ⟨hlf, hcr, heof⟩ := h ch mem_cons_self
    have ih := ih fun ch' h' => h ch' (mem_cons_of_mem _ h')
    simpa [readLine, hlf, hcr, heof] using ih

theorem readLine_head (h : isInLine ch) (source : Bytes) :
    (readLine (ch :: source)).head? = some ch := by
  have hline := readLine_append (forall_mem_singleton.mpr h) source
  rw [singleton_append] at hline
  rw [hline]
  rfl

theorem readLine_eof (h : ∀ ch ∈ text, isInLine ch) (source : Bytes) :
    readLine (text ++ 0x1A :: source) = text := by
  rw [readLine_append h]
  simp [readLine]

theorem readString_append (s : Lexer) (start text line : Bytes) (close : UInt8)
    (decode : Bytes → Bytes) :
    readString s (start ++ (text ++ close :: line)) start.length text.length decode =
      ⟨tokenAddNext s (decode text) .string, false, line⟩ := by
  have hrest : (start ++ (text ++ close :: line)).drop (start.length + text.length + 1) = line := by
    have hsplit : start ++ (text ++ close :: line) = (start ++ text ++ [close]) ++ line := by simp
    rw [hsplit]
    exact drop_left' (by simp; omega)
  simp [readString, hrest]

theorem readString_end (s : Lexer) (start text : Bytes) (decode : Bytes → Bytes) :
    (readString s (start ++ text) start.length text.length decode).fError = true := by
  simp [readString]

theorem idxOf_append (h : close ∉ text) (line : Bytes) :
    (text ++ close :: line).idxOf close = text.length := by
  simp [List.idxOf_append, h]

theorem canQuote_append {line : Bytes} (hdrop : pBuffer.drop n = text ++ 0x5D :: line)
    (h : 0x5D ∉ text) (hfuel : text.length < fuel) :
    canQuote pBuffer fuel true 0 n = some (n + text.length) := by
  induction text generalizing n fuel with
  | nil =>
    rcases fuel with _ | fuel
    · simp at hfuel
    have hat : pBuffer[n]? = some 0x5D := by
      simpa using congrArg head? hdrop
    simp [canQuote, hat]
  | cons ch text ih =>
    rcases fuel with _ | fuel
    · simp at hfuel
    have hat : pBuffer[n]? = some ch := by
      simpa using congrArg head? hdrop
    have hrest : pBuffer.drop (n + 1) = text ++ 0x5D :: line := by
      simpa [drop_drop] using congrArg tail hdrop
    obtain ⟨hch, h⟩ := not_or.mp (mt mem_cons.mpr h)
    have ih : canQuote pBuffer fuel true 0 (n + 1) = _ :=
      ih hrest h (by simp at hfuel; omega)
    simp only [canQuote, hat, if_neg (Ne.symm hch), if_true, ih]
    simp
    omega

theorem canQuote_end (h : 0x5D ∉ pBuffer.drop n) :
    canQuote pBuffer fuel true 0 n = none := by
  induction fuel generalizing n with
  | zero => rfl
  | succ fuel ih =>
    cases hat : pBuffer[n]? with
    | none => simp [canQuote, hat]
    | some ch =>
      have hdrop : pBuffer.drop n = ch :: pBuffer.drop (n + 1) := by
        obtain ⟨hn, rfl⟩ := List.getElem?_eq_some_iff.mp hat
        exact drop_eq_getElem_cons hn
      rw [hdrop] at h
      obtain ⟨hch, h⟩ := not_or.mp (mt mem_cons.mpr h)
      simp only [canQuote, hat, if_neg (Ne.symm hch), if_true, ih h]

theorem getLine_spaces (s : Lexer) (spaces : Nat) (h : ∀ ch ∈ pBuffer.head?, isBlank ch = false) :
    getLine s (replicate spaces 0x20 ++ pBuffer) =
      getString { s with nSpaces := s.nSpaces + spaces } pBuffer := by
  induction spaces generalizing s with
  | zero =>
    cases pBuffer with
    | nil => rfl
    | cons ch pBuffer => simp [getLine, h ch rfl]
  | succ spaces ih =>
    have ih := ih { s with nSpaces := s.nSpaces + 1 }
    simp only [Nat.add_assoc, Nat.add_comm 1] at ih
    simpa [replicate_succ, getLine, isBlank] using ih

section Plain

/-- How a string starts and ends where nothing is escaped. -/
inductive Plain : UInt8 → UInt8 → Prop where
  | double : Plain 0x22 0x22
  | single : Plain 0x27 0x27
  | bracket : Plain 0x5B 0x5D

theorem Plain.isInLine (h : Plain start close) :
    isInLine start ∧ isInLine close := by
  cases h <;> simp [Strings.isInLine]

theorem Plain.not_isBlank (h : Plain start close) :
    isBlank start = false := by
  cases h <;> rfl

theorem tokenText_cases (value : Bytes) :
    tokenText value true = [0x65, 0x22] ++ value.flatMap escape ++ [0x22] ∨
      ∃ start close, Plain start close ∧ close ∉ value ∧
        (∀ ch ∈ value, ch ≠ 0x0A ∧ ch ≠ 0x0D ∧ ch ≠ 0) ∧
        tokenText value true = [start] ++ value ++ [close] := by
  have hnext : ∀ ch ∈ value, _ := fun ch h => Quotes.next_eq (quotes_next ⟨true, true, true⟩ h)
  generalize hiq : quotes ⟨true, true, true⟩ value = iq at hnext
  by_cases hnone : iq = .none
  · left
    simp [tokenText, hiq, hnone]
  · right
    have hcontrol : ∀ ch ∈ value, ch ≠ 0x0A ∧ ch ≠ 0x0D ∧ ch ≠ 0 := fun ch h =>
      (hnext ch h).2.2.2 hnone
    obtain ⟨double, single, bracket⟩ := iq
    cases double with
    | true =>
      refine ⟨0x22, 0x22, .double, fun h => (hnext _ h).1 rfl rfl, hcontrol, ?_⟩
      simp [tokenText, hiq, hnone]
    | false =>
      cases single with
      | true =>
        refine ⟨0x27, 0x27, .single, fun h => (hnext _ h).2.1 rfl rfl, hcontrol, ?_⟩
        simp [tokenText, hiq, hnone]
      | false =>
        cases bracket with
        | true =>
          refine ⟨0x5B, 0x5D, .bracket, fun h => (hnext _ h).2.2.1 rfl rfl, hcontrol, ?_⟩
          simp [tokenText, hiq, hnone]
        | false => exact absurd rfl hnone

variable {s : Lexer} (hesc : s.fEscStr = false) (hdir : s.fDirective = false)
  (hquote : (s.fCanNextLine || tokenCanQuote s.usLastType) = true)

include hdir hquote in
theorem getString_bracket (text : Bytes) :
    getString s (0x5B :: text) = (canQuote (0x5B :: text) (text.length + 1) true 0 1).map
      fun n => readString s (0x5B :: text) 1 (n - 1) id := by
  rw [← hquote]
  simp [getString, hdir]

include hesc hdir hquote

section

variable (hplain : Plain start close) (h : close ∉ text)

include hplain h

theorem getString_plain (line : Bytes) :
    getString s (start :: (text ++ close :: line)) =
      some ⟨tokenAddNext s text .string, false, line⟩ := by
  have hread : readString s (start :: (text ++ close :: line)) 1 text.length id =
      ⟨tokenAddNext s text .string, false, line⟩ := readString_append s [start] text line close id
  cases hplain with
  | double => simp [getString, hesc, idxOf_append h, hread]
  | single => simp [getString, idxOf_append h, hread]
  | bracket =>
    have hend : canQuote (0x5B :: (text ++ 0x5D :: line))
        ((text ++ 0x5D :: line).length + 1) true 0 1 = some (1 + text.length) :=
      canQuote_append rfl h (by rw [length_append, length_cons]; omega)
    rw [getString_bracket hdir hquote, hend, Option.map_some, Nat.add_sub_cancel_left,
      hread]

theorem getString_plain_end : ∀ read ∈ getString s (start :: text), read.fError = true := by
  have hread : (readString s (start :: text) 1 text.length id).fError = true :=
    readString_end s [start] text id
  cases hplain with
  | double => simpa [getString, hesc, idxOf_eq_length h] using hread
  | single => simpa [getString, idxOf_eq_length h] using hread
  | bracket =>
    have hend : canQuote (0x5B :: text) (text.length + 1) true 0 1 = none := canQuote_end h
    rw [getString_bracket hdir hquote, hend]
    rintro read ⟨⟩

end

end Plain

def startsOctal (text : Bytes) : Bool := (text.head?.map isOctal).getD false

theorem unescape_zero (h : startsOctal text = false) :
    unescape 0x30 text = (0, text) := by
  unfold startsOctal at h
  simp [unescape, isOctal, octalDigits, h]

theorem escape_cases (ch : UInt8) :
    (∃ code, escape ch = [0x5C, code] ∧ isOctal ch = false ∧ isInLine code ∧
      ∀ text, (ch = 0 → startsOctal text = false) → unescape code text = (ch, text)) ∨
    (escape ch = [ch] ∧ ch ≠ 0x22 ∧ ch ≠ 0x5C ∧ ch ≠ 0x0A ∧ ch ≠ 0x0D) := by
  unfold escape
  by_cases hcr : ch = 0x0D
  · subst hcr; exact .inl ⟨_, rfl, rfl, by decide, fun _ _ => rfl⟩
  by_cases hlf : ch = 0x0A
  · subst hlf; exact .inl ⟨_, rfl, rfl, by decide, fun _ _ => rfl⟩
  rw [if_neg hcr, if_neg hlf]
  repeat' split
  · subst ch; exact .inl ⟨_, rfl, rfl, by decide, fun _ _ => rfl⟩
  · subst ch; exact .inl ⟨_, rfl, rfl, by decide, fun _ _ => rfl⟩
  · subst ch; exact .inl ⟨_, rfl, rfl, by decide, fun _ _ => rfl⟩
  · subst ch; exact .inl ⟨_, rfl, rfl, by decide, fun _ _ => rfl⟩
  · subst ch; exact .inl ⟨_, rfl, rfl, by decide, fun _ _ => rfl⟩
  · next hzero =>
    subst hzero; exact .inl ⟨_, rfl, rfl, by decide, fun _ h => unescape_zero (h rfl)⟩
  · next hquote =>
    rcases hquote with rfl | rfl
    · exact .inl ⟨_, rfl, rfl, by decide, fun _ _ => rfl⟩
    · exact .inl ⟨_, rfl, rfl, by decide, fun _ _ => rfl⟩
  · next hquote => exact .inr ⟨rfl, (not_or.mp hquote).1, (not_or.mp hquote).2, hlf, hcr⟩

theorem escape_isInLine (h : ch ≠ 0x1A) : ∀ ch' ∈ escape ch, isInLine ch' := by
  rcases escape_cases ch with ⟨code, heq, _, hcode, _⟩ | ⟨heq, _, _, hlf, hcr⟩
  · rw [heq]
    simpa [isInLine] using hcode
  · rw [heq]
    simpa [isInLine] using ⟨hlf, hcr, h⟩

theorem escapedLength_escape (ch : UInt8) (text : Bytes) :
    escapedLength (escape ch ++ text) = (escape ch).length + escapedLength text := by
  rcases escape_cases ch with ⟨code, heq, _⟩ | ⟨heq, hquote, hslash, _⟩
  · rw [heq]
    simp [escapedLength, Nat.add_comm]
  · rw [heq]
    cases text with
    | nil => simp [escapedLength, hquote]
    | cons ch' text => simp [escapedLength, hquote, hslash, Nat.add_comm]

theorem escapedLength_flatMap (value text : Bytes) :
    escapedLength (value.flatMap escape ++ text) =
      (value.flatMap escape).length + escapedLength text := by
  induction value with
  | nil => simp
  | cons ch value ih =>
    rw [flatMap_cons, append_assoc, escapedLength_escape, ih, length_append]
    omega

theorem startsOctal_flatMap (value : Bytes) :
    startsOctal (value.flatMap escape) = startsOctal value := by
  cases value with
  | nil => rfl
  | cons ch value =>
    rw [flatMap_cons]
    rcases escape_cases ch with ⟨code, heq, hoctal, _⟩ | ⟨heq, _⟩
    · rw [heq]
      exact hoctal.symm
    · rw [heq]
      rfl

theorem strRemEscSeq_backslash (ch : UInt8) (text : Bytes) :
    strRemEscSeq (0x5C :: ch :: text) =
      (unescape ch text).1 :: strRemEscSeq (unescape ch text).2 := by
  rw [strRemEscSeq]
  rfl

theorem strRemEscSeq_plain (h : ch ≠ 0x5C) (text : Bytes) :
    strRemEscSeq (ch :: text) = ch :: strRemEscSeq text := by
  cases text with
  | nil => simp [strRemEscSeq, h]
  | cons ch' text => rw [strRemEscSeq, if_neg h]

theorem strRemEscSeq_escape (h : ch = 0 → startsOctal text = false) :
    strRemEscSeq (escape ch ++ text) = ch :: strRemEscSeq text := by
  rcases escape_cases ch with ⟨code, heq, _, _, hcode⟩ | ⟨heq, _, hslash, _⟩
  · rw [heq]
    exact (strRemEscSeq_backslash code text).trans (by rw [hcode text h])
  · rw [heq]
    exact strRemEscSeq_plain hslash text

theorem escape_octal (h : isOctal ch = true) : escape ch = [ch] := by
  rcases escape_cases ch with ⟨_, _, hoctal, _⟩ | ⟨heq, _⟩
  · simp [h] at hoctal
  · exact heq

theorem octalDigit_flatMap (ch : UInt8) (value : Bytes) :
    ∃ value' : Bytes, value'.length ≤ value.length ∧
      (octalDigit ch (value.flatMap escape)).2 = value'.flatMap escape := by
  cases value with
  | nil => exact ⟨[], Nat.le_refl _, rfl⟩
  | cons ch' value =>
    rcases hoctal : isOctal ch' with _ | _
    · refine ⟨ch' :: value, Nat.le_refl _, ?_⟩
      have hstart : startsOctal ((ch' :: value).flatMap escape) = false := by
        rw [startsOctal_flatMap]
        exact hoctal
      cases htext : (ch' :: value).flatMap escape with
      | nil => rfl
      | cons first text =>
        have hfirst : isOctal first = false := by
          rw [htext] at hstart
          exact hstart
        simp [octalDigit, hfirst]
    · refine ⟨value, Nat.le_succ _, ?_⟩
      simp [escape_octal hoctal, octalDigit, hoctal]

theorem strRemEscSeq_octal (h : isOctal ch = true) (value : Bytes) :
    ∃ (first : UInt8) (value' : Bytes), value'.length ≤ value.length ∧
      strRemEscSeq ((0 :: ch :: value).flatMap escape) =
        first :: strRemEscSeq (value'.flatMap escape) := by
  obtain ⟨value', hlen, hrest⟩ := octalDigit_flatMap (octalDigit 0 [ch]).1 value
  refine ⟨(unescape 0x30 (ch :: value.flatMap escape)).1, value', hlen, ?_⟩
  have hescape :
      (0 :: ch :: value).flatMap escape = 0x5C :: 0x30 :: ch :: value.flatMap escape := by
    rw [flatMap_cons, flatMap_cons, escape_octal h]
    rfl
  have hdigits : (unescape 0x30 (ch :: value.flatMap escape)).2 = value'.flatMap escape := by
    have hbounds : 0x30 ≤ ch ∧ ch ≤ 0x37 := by simpa [isOctal] using h
    rw [← hrest]
    simp [unescape, isOctal, octalDigits, octalDigit, hbounds]
  rw [hescape, strRemEscSeq_backslash, hdigits]

/-- A NUL directly in front of an octal digit. -/
def ShortEscape (value : Bytes) : Prop := ∃ digit, isOctal digit = true ∧ [0, digit] <:+: value

theorem shortEscape_cons (ch : UInt8) (value : Bytes) :
    ShortEscape (ch :: value) ↔ (ch = 0 ∧ startsOctal value = true) ∨ ShortEscape value := by
  constructor
  · rintro ⟨digit, hdigit, hin⟩
    rcases infix_cons_iff.mp hin with hstarts | hin
    · obtain ⟨hzero, rest, hvalue⟩ := cons_prefix_cons.mp hstarts
      subst hvalue
      exact .inl ⟨hzero.symm, hdigit⟩
    · exact .inr ⟨digit, hdigit, hin⟩
  · rintro (⟨rfl, hstart⟩ | ⟨digit, hdigit, hin⟩)
    · cases value with
      | nil => cases hstart
      | cons digit value => exact ⟨digit, hstart, [], value, rfl⟩
    · exact ⟨digit, hdigit, infix_cons_iff.mpr (.inr hin)⟩

theorem strRemEscSeq_lost (hstart : startsOctal value = true) :
    ∃ value' : Bytes, value'.length < value.length ∧
      (strRemEscSeq ((0 :: value).flatMap escape)).length =
        (strRemEscSeq (value'.flatMap escape)).length + 1 := by
  cases value with
  | nil => cases hstart
  | cons digit value =>
    obtain ⟨first, value', hlen, hread⟩ := strRemEscSeq_octal hstart value
    exact ⟨value', Nat.lt_succ_of_le hlen, by rw [hread, length_cons]⟩

theorem startsOctal_escaped (hkept : ¬(ch = 0 ∧ startsOctal value = true)) (hzero : ch = 0) :
    startsOctal (value.flatMap escape) = false := by
  rw [startsOctal_flatMap]
  exact Bool.eq_false_iff.mpr fun h => hkept ⟨hzero, h⟩

theorem strRemEscSeq_length (value : Bytes) :
    (strRemEscSeq (value.flatMap escape)).length ≤ value.length := by
  induction hn : value.length using Nat.strong_induction_on generalizing value with
  | _ n ih =>
    cases value with
    | nil => simp [strRemEscSeq]
    | cons ch value =>
      subst hn
      by_cases hlost : ch = 0 ∧ startsOctal value = true
      · obtain ⟨rfl, hstart⟩ := hlost
        obtain ⟨value', hlen, hread⟩ := strRemEscSeq_lost hstart
        have hle := ih _ (hlen.trans (Nat.lt_succ_self _)) value' rfl
        rw [hread, length_cons]
        omega
      · rw [flatMap_cons, strRemEscSeq_escape (startsOctal_escaped hlost)]
        exact Nat.succ_le_succ (ih _ (Nat.lt_succ_self _) value rfl)

theorem strRemEscSeq_eq_iff (value : Bytes) :
    strRemEscSeq (value.flatMap escape) = value ↔ ¬ShortEscape value := by
  induction value with
  | nil => simp [strRemEscSeq, ShortEscape]
  | cons ch value ih =>
    rw [shortEscape_cons]
    by_cases hlost : ch = 0 ∧ startsOctal value = true
    · refine iff_of_false ?_ (not_not.mpr (.inl hlost))
      obtain ⟨rfl, hstart⟩ := hlost
      obtain ⟨value', hlen, hread⟩ := strRemEscSeq_lost hstart
      have hle := strRemEscSeq_length value'
      intro heq
      rw [heq, length_cons] at hread
      omega
    · rw [flatMap_cons, strRemEscSeq_escape (startsOctal_escaped hlost), List.cons.injEq, ih]
      tauto

section ReadBack

theorem escapedLength_quote (line : Bytes) : escapedLength (0x22 :: line) = 0 := by
  cases line with
  | nil => rfl
  | cons => simp [escapedLength]

theorem getString_escaped (s : Lexer) (value line : Bytes) :
    getString s (0x65 :: 0x22 :: (value.flatMap escape ++ 0x22 :: line)) =
      some ⟨tokenAddNext s (strRemEscSeq (value.flatMap escape)) .string, false, line⟩ := by
  have hlen := escapedLength_flatMap value (0x22 :: line)
  rw [escapedLength_quote, Nat.add_zero] at hlen
  have hread : readString s (0x65 :: 0x22 :: (value.flatMap escape ++ 0x22 :: line)) 2
      (value.flatMap escape).length strRemEscSeq = _ :=
    readString_append s [0x65, 0x22] (value.flatMap escape) line 0x22 strRemEscSeq
  simp only [getString, true_or, head?_cons, and_self, if_true, tail_cons, hlen, hread]

theorem getString_escaped_end (s : Lexer) (value : Bytes) :
    ∀ read ∈ getString s (0x65 :: 0x22 :: value.flatMap escape), read.fError = true := by
  have hlen := escapedLength_flatMap value []
  rw [append_nil, escapedLength, Nat.add_zero] at hlen
  have hread : (readString s (0x65 :: 0x22 :: value.flatMap escape) 2
      (value.flatMap escape).length strRemEscSeq).fError = true :=
    readString_end s [0x65, 0x22] (value.flatMap escape) strRemEscSeq
  simpa [getString, hlen] using hread

variable {s : Lexer} (hesc : s.fEscStr = false) (hdir : s.fDirective = false)
  (hquote : (s.fCanNextLine || tokenCanQuote s.usLastType) = true)

include hesc hdir hquote

theorem getString_tokenText (heof : 0x1A ∉ value) (line : Bytes) :
    ∃ value', getString s (readLine (tokenText value true ++ line)) =
      some ⟨tokenAddNext s value' .string, false, readLine line⟩ ∧
        (value' = value ↔ ¬ShortEscape value) := by
  have hin : ∀ ch ∈ value, ch ≠ 0x1A := fun ch h heq => heof (heq ▸ h)
  rcases tokenText_cases value with htext | ⟨start, close, hplain, hclose, hcontrol, htext⟩
  · refine ⟨strRemEscSeq (value.flatMap escape), ?_, strRemEscSeq_eq_iff value⟩
    have hline : ∀ ch ∈ tokenText value true, isInLine ch := by
      rw [htext]
      intro ch h
      simp only [mem_append, mem_flatMap, mem_cons, not_mem_nil, or_false] at h
      rcases h with ((rfl | rfl) | ⟨ch', h', h⟩) | rfl
      · decide
      · decide
      · exact escape_isInLine (hin ch' h') ch h
      · decide
    rw [readLine_append hline, htext]
    simpa using getString_escaped s value (readLine line)
  · refine ⟨value, ?_, iff_of_true rfl ?_⟩
    · have hline : ∀ ch ∈ tokenText value true, isInLine ch := by
        rw [htext]
        intro ch h
        simp only [mem_append, mem_cons, not_mem_nil, or_false] at h
        rcases h with (rfl | h) | rfl
        · exact hplain.isInLine.1
        · exact ⟨(hcontrol ch h).1, (hcontrol ch h).2.1, hin ch h⟩
        · exact hplain.isInLine.2
      rw [readLine_append hline, htext]
      simpa using getString_plain hesc hdir hquote hplain hclose (readLine line)
    · rintro ⟨digit, _, hshort⟩
      exact (hcontrol 0 (hshort.subset mem_cons_self)).2.2 rfl

theorem getString_tokenText_eof (heof : 0x1A ∈ value) (line : Bytes) :
    ∀ read ∈ getString s (readLine (tokenText value true ++ line)), read.fError = true := by
  obtain ⟨before, after, hvalue, hbefore⟩ := eq_append_cons_of_mem heof
  have hin : ∀ ch ∈ before, ch ≠ 0x1A := fun ch h heq => hbefore (heq ▸ h)
  rcases tokenText_cases value with htext | ⟨start, close, hplain, hclose, hcontrol, htext⟩
  · have hline : ∀ ch ∈ 0x65 :: 0x22 :: before.flatMap escape, isInLine ch := by
      intro ch h
      simp only [mem_cons, mem_flatMap] at h
      rcases h with rfl | rfl | ⟨ch', h', h⟩
      · decide
      · decide
      · exact escape_isInLine (hin ch' h') ch h
    have hsplit : tokenText value true ++ line = (0x65 :: 0x22 :: before.flatMap escape) ++
        0x1A :: (after.flatMap escape ++ 0x22 :: line) := by
      rw [htext, hvalue]
      simp [escape]
    rw [hsplit, readLine_eof hline]
    exact getString_escaped_end s before
  · subst hvalue
    have hline : ∀ ch ∈ start :: before, isInLine ch := by
      rintro ch h
      rcases mem_cons.mp h with rfl | h
      · exact hplain.isInLine.1
      · obtain ⟨hlf, hcr, _⟩ := hcontrol ch (mem_append_left _ h)
        exact ⟨hlf, hcr, hin ch h⟩
    have hsplit : tokenText (before ++ 0x1A :: after) true ++ line = (start :: before) ++
        0x1A :: (after ++ close :: line) := by
      rw [htext]
      simp
    rw [hsplit, readLine_eof hline]
    exact getString_plain_end hesc hdir hquote hplain fun h =>
      hclose (mem_append_left _ h)

omit hesc hdir hquote in
theorem getLine_tokenStr (value : Bytes) (spaces : Nat) (fSpaces : Bool) (line : Bytes) :
    getLine s (readLine (tokenStr value spaces fSpaces true ++ line)) =
      getString { s with nSpaces := s.nSpaces + if fSpaces then spaces else 0 }
        (readLine (tokenText value true ++ line)) := by
  have hline : ∀ n : Nat, ∀ ch ∈ replicate n (0x20 : UInt8), isInLine ch := by
    intro n ch h
    rw [eq_of_mem_replicate h]
    decide
  have hblank : ∀ ch ∈ (readLine (tokenText value true ++ line)).head?, isBlank ch = false := by
    rcases tokenText_cases value with htext | ⟨start, close, hplain, _, _, htext⟩
    · have hhead := readLine_head (by decide : isInLine 0x65)
      rintro ch h
      simp [htext, hhead] at h
      subst h
      rfl
    · have hhead := readLine_head hplain.isInLine.1 (value ++ close :: line)
      rintro ch h
      simp [htext, hhead] at h
      subst h
      exact hplain.not_isBlank
  rw [tokenStr, append_assoc, readLine_append (hline _), getLine_spaces s _ hblank]

/-- A string is read back as it was written, unless it has a `^Z`, which ends its line, or a NUL
whose escape takes the digit behind it, or is a `#` at the start of a statement. -/
theorem getLine_tokenStr_iff (value : Bytes) (spaces : Nat) (fSpaces : Bool) (line : Bytes) :
    getLine s (readLine (tokenStr value spaces fSpaces true ++ line)) =
        some ⟨⟨value, .string, s.nSpaces + if fSpaces then spaces else 0⟩, false, readLine line⟩ ↔
      0x1A ∉ value ∧ ¬ShortEscape value ∧
        ¬((s.fCanNextLine || s.fNewStatement) = true ∧ value = [0x23]) := by
  rw [getLine_tokenStr]
  by_cases heof : 0x1A ∈ value
  · refine iff_of_false ?_ fun h => h.1 heof
    intro hread
    have herror := getString_tokenText_eof
      (s := { s with nSpaces := s.nSpaces + if fSpaces then spaces else 0 })
      hesc hdir hquote heof line _ hread
    exact absurd herror Bool.false_ne_true
  · obtain ⟨value', hread, hvalue⟩ := getString_tokenText
      (s := { s with nSpaces := s.nSpaces + if fSpaces then spaces else 0 })
      hesc hdir hquote heof line
    rw [hread, ← hvalue]
    by_cases hsame : value' = value
    · subst hsame
      simp [tokenAddNext, hdir, heof]
    · simp [tokenAddNext, hsame]

omit hesc hdir hquote

def lexerStart : Lexer := ⟨false, false, false, true, .nul, 0⟩

theorem getLine_tokenStr_iff_bell :
    getLine lexerStart (readLine (tokenStr [0x22, 0x0A, 0x07] 1 true true ++ [0x20, 0x29])) =
      some ⟨⟨[0x22, 0x0A, 0x07], .string, 1⟩, false, [0x20, 0x29]⟩ :=
  (getLine_tokenStr_iff (s := lexerStart) rfl rfl rfl _ 1 true [0x20, 0x29]).mpr
    ⟨by decide, fun ⟨_, _, hin⟩ => absurd (hin.subset mem_cons_self) (by decide), by decide⟩

/-- `Chr( 0 ) + "1"` is written as `e"\01"`, which is `Chr( 1 )`, and `"#"` at the start of a
statement is read as the token of a directive. -/
theorem getLine_nul_one :
    getLine lexerStart (readLine (tokenStr [0x00, 0x31] 0 true true ++ [0x20, 0x29])) =
        some ⟨⟨[0x01], .string, 0⟩, false, [0x20, 0x29]⟩ ∧
      getLine lexerStart (readLine (tokenStr [0x23] 0 true true ++ [0x20, 0x29])) =
        some ⟨⟨[0x23], .directive, 0⟩, false, [0x20, 0x29]⟩ := by
  refine ⟨?_, by decide⟩
  exact (getString_escaped lexerStart [0x00, 0x31] [0x20, 0x29]).trans
    (by simp [escape, strRemEscSeq, unescape, isOctal, octalDigits, octalDigit, tokenAddNext,
      lexerStart])

end ReadBack

end Harbour.Pp.Strings
