import Harbour.Common.CharClass
import Harbour.Library.Bytes

/-!
The tokens of the preprocessor and the comparisons of their values.
-/

namespace Harbour.Pp.Tokens

open Common.CharClass List

/-- The types a token of a line can have, and that of no token, at the start of a line; the types
of the markers of a pattern are constructors of the patterns. -/
inductive TokenType where
  | nul
  | rmarkerReference
  | keyword | macroVar | macroText | text | other | backslash | pipe | dot | comma | eoc | eol
  | hash | directive
  | string | number | date | timestamp | logical
  | leftPb | rightPb | leftSb | rightSb | leftCb | rightCb | reference | ampersand | send | alias
  | assign | plusEq | minusEq | multEq | divEq | modEq | expEq
  | inc | dec | not | or | and | equal | eq | lt | gt | le | ge | ne | in | plus | minus | mult
  | div | mod | power | epsilon | shiftL | shiftR | bitXor
  deriving DecidableEq, Repr

structure Token where
  value : Bytes
  type : TokenType
  spaces : Nat
  deriving DecidableEq, Repr

/-- The modes of comparison that look at the values of tokens. -/
inductive CmpMode where
  | std
  | dbase
  | case
  deriving DecidableEq, Repr

def cString (value : Bytes) : Bytes := value.takeWhile (· ≠ 0)

def stricmp (s₁ s₂ : Bytes) : Bool := (cString s₁).map HB_TOUPPER = (cString s₂).map HB_TOUPPER

def strnicmp (s₁ s₂ : Bytes) (count : Nat) : Bool :=
  ((cString s₁).take count).map HB_TOUPPER = ((cString s₂).take count).map HB_TOUPPER

def memcmp (szValue value : Bytes) : Bool := (szValue ++ [0]).take value.length = value

namespace Token

def hashId (pToken : Token) : UInt8 := HB_TOUPPER (pToken.value.headD 0)

def valueCmp (pToken : Token) (szValue : Bytes) (mode : CmpMode) : Bool :=
  if pToken.value.length = 0 then
    false
  else if mode = .case then
    memcmp szValue pToken.value
  else if mode = .dbase ∧ 4 ≤ pToken.value.length ∧
      (pToken.type = .keyword ∨ pToken.type = .string ∨ pToken.type = .text) then
    strnicmp szValue pToken.value pToken.value.length
  else
    stricmp szValue pToken.value

/-- `hb_pp_tokenEqual` of a token of a line and a token of a pattern, which are never the
same token. -/
def equal (pToken pMatch : Token) (mode : CmpMode) : Bool :=
  decide (pToken.type = pMatch.type) &&
    (decide (pToken.value.length = pMatch.value.length) ||
      decide (mode = .dbase ∧ 4 < pMatch.value.length ∧ 4 ≤ pToken.value.length ∧
        pToken.value.length < pMatch.value.length)) &&
    pToken.valueCmp pMatch.value mode

end Token

def isEoc : List Token → Bool
  | [] => true
  | pToken :: _ => pToken.type = .eol ∨ pToken.type = .eoc

def isEos : List Token → Bool
  | [] => true
  | [pToken] => pToken.type = .eol
  | pToken :: pNext :: _ =>
    pToken.type = .eol ∨
      pToken.type = .eoc ∧ (pNext.type = .hash ∨ pNext.type = .directive)

def openBr (type : TokenType) : Bool := type = .leftPb ∨ type = .leftSb ∨ type = .leftCb

def closeBr (type : TokenType) : Bool := type = .rightPb ∨ type = .rightSb ∨ type = .rightCb

def canJoin (type : TokenType) : Bool :=
  !(closeBr type ||
    decide (type ∈ [.keyword, .macroVar, .macroText, .text, .string, .number, .date,
      .timestamp, .logical]))

def isNeutral (type : TokenType) : Bool := type = .dec ∨ type = .inc

def needLeft : List Token → Bool
  | [] => false
  | pToken :: rest =>
    decide (pToken.type ∈
      [.assign, .plusEq, .minusEq, .multEq, .divEq, .modEq, .expEq, .equal, .eq]) ||
    (decide (pToken.type = .send ∧ pToken.spaces = 0) &&
      match rest with
      | [] => false
      | pNext :: _ => decide (pNext.type ∈ [.keyword, .macroVar, .macroText]))

theorem cString_take_head {a b : Bytes} {count : Nat} (hcount : 0 < count)
    (h : ((cString a).take count).map HB_TOUPPER = ((cString b).take count).map HB_TOUPPER)
    (ha : a ≠ []) (hb : b ≠ []) : HB_TOUPPER (a.headD 0) = HB_TOUPPER (b.headD 0) := by
  obtain ⟨count, rfl⟩ := Nat.exists_eq_add_of_lt hcount
  obtain ⟨x, a, rfl⟩ := exists_cons_of_ne_nil ha
  obtain ⟨y, b, rfl⟩ := exists_cons_of_ne_nil hb
  by_cases hx : x = 0
  · subst hx
    by_cases hy : y = 0
    · rw [hy]
      rfl
    · simp [cString, hy] at h
  · by_cases hy : y = 0
    · subst hy
      simp [cString, hx] at h
    · simp [cString, hx, hy] at h
      simpa using h.1

theorem Token.hashId_of_equal {pToken pMatch : Token} {mode : CmpMode}
    (h : pToken.equal pMatch mode = true) : pToken.hashId = pMatch.hashId := by
  simp only [Token.equal, Bool.and_eq_true, Bool.or_eq_true, decide_eq_true_eq] at h
  obtain ⟨⟨-, hlength⟩, hvalue⟩ := h
  unfold Token.valueCmp at hvalue
  split at hvalue
  case isTrue => simp at hvalue
  rename_i hpos
  have htoken : pToken.value ≠ [] := by simpa using hpos
  have hmatch : pMatch.value ≠ [] := by
    rintro hnil
    rw [hnil, length_nil] at hlength
    omega
  unfold Token.hashId
  split at hvalue
  · -- the values are the same up to the length of the token
    obtain ⟨y, tail, hy⟩ := exists_cons_of_ne_nil hmatch
    obtain ⟨x, tail', hx⟩ := exists_cons_of_ne_nil htoken
    rw [memcmp, hx, hy] at hvalue
    simp at hvalue
    rw [hx, hy]
    simp [hvalue.1]
  · split at hvalue
    · rename_i hdbase
      exact (cString_take_head (by omega) (of_decide_eq_true hvalue) hmatch htoken).symm
    · have hequal := of_decide_eq_true hvalue
      refine (cString_take_head (a := pMatch.value) (b := pToken.value) Nat.zero_lt_one ?_
        hmatch htoken).symm
      rw [map_take, map_take, hequal]

end Harbour.Pp.Tokens
