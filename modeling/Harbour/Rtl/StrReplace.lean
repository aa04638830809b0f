import Harbour.Library.Bytes
import Harbour.Library.Loops
import Mathlib.Data.List.Induction

/-!
`hb_StrReplace` of `strrepl.c`, with and without its table of first bytes.
-/

namespace Harbour.Rtl.StrReplace

open Library.Loops Library.Bytes List

/-- The strings that are looked for; an item that is not a string is empty. -/
inductive Source
  | string (value : Bytes)
  | array (items : List Bytes)
  | hash (pairs : List (Bytes × Bytes))

inductive Dest
  | nil
  | string (value : Bytes)
  | array (items : List Bytes)
  | other

def Source.keys : Source → List Bytes
  | string value => value.map fun c => [c]
  | array items => items
  | hash pairs => pairs.map Prod.fst

def Source.isString : Source → Bool
  | string _ => true
  | _ => false

def values : Source → Dest → List Bytes
  | .hash pairs, _ => pairs.map Prod.snd
  | _, .string value => value.map fun c => [c]
  | _, .array items => items
  | _, _ => []

/-- The table of the first bytes, how many strings it is made of, and if two of them are alike. -/
structure Table where
  nAt : Nat
  ptrOpt : UInt8 → Nat
  fNext : Bool

def addKey (fString : Bool) (table : Table) : Bytes → Table
  | [] => { table with nAt := table.nAt + 1 }
  | uc :: _ =>
    if table.ptrOpt uc = 0 then
      { table with nAt := table.nAt + 1,
                   ptrOpt := fun c => if c = uc then table.nAt + 1 else table.ptrOpt c }
    else { table with nAt := table.nAt + 1, fNext := table.fNext || !fString }

def makeTable (fString : Bool) (keys : List Bytes) : Table :=
  keys.foldl (addKey fString) ⟨0, fun _ => 0, false⟩

/-- The loop over the strings from the one at `nAt` on: `nAt` and `nSkip`. -/
def searchFrom (fNext : Bool) (szText : Bytes) : (nAt : Nat) → List Bytes → Nat × Nat
  | _, [] => (0, 1)
  | nAt, key :: keys =>
    if 0 < key.length ∧ key.length ≤ szText.length ∧ szText.take key.length = key then
      (nAt, key.length)
    else if fNext then searchFrom fNext szText (nAt + 1) keys
    else (0, 1)

/-- What is found at the byte `c` before the rest of a text. -/
def search (pSrc : Source) (ptrOpt : Option Table) (c : UInt8) (szRest : Bytes) : Nat × Nat :=
  match ptrOpt with
  | some table =>
    let nAt := table.ptrOpt c
    if nAt = 0 ∨ pSrc.isString then (nAt, 1)
    else searchFrom table.fNext (c :: szRest) nAt (pSrc.keys.drop (nAt - 1))
  | none =>
    match pSrc with
    | .string szSrc => (((szSrc.findIdx? (· == c)).map (· + 1)).getD 0, 1)
    | _ => searchFrom true (c :: szRest) 1 pSrc.keys

def sized (values : List Bytes) (nAt : Nat) : Nat :=
  if nAt ≠ 0 then if nAt ≤ values.length then (values.getD (nAt - 1) []).length else 0 else 1

def emitted (values : List Bytes) (nAt : Nat) (c : UInt8) : Bytes :=
  if nAt ≠ 0 then if nAt ≤ values.length then values.getD (nAt - 1) [] else [] else [c]

structure Buffer where
  allocated : Nat
  written : Bytes

structure Scan where
  nSize : Nat
  nPos : Nat
  pszResult : Option Buffer

def turn (szText : Bytes) (pSrc : Source) (values : List Bytes) (ptrOpt : Option Table) (s : Scan) :
    Option Buffer ⊕ Scan :=
  match szText.drop s.nPos with
  | [] => .inl s.pszResult
  | c :: szRest =>
    let (nAt, nSkip) := search pSrc ptrOpt c szRest
    let nPos := s.nPos + nSkip
    match s.pszResult with
    | some buffer =>
      let bytes := emitted values nAt c
      .inr ⟨(s.nSize + bytes.length) % 2 ^ 64, nPos,
        some { buffer with written := buffer.written ++ bytes }⟩
    | none =>
      let nSize := (s.nSize + sized values nAt) % 2 ^ 64
      if nPos = szText.length then .inr ⟨0, 0, some ⟨(nSize + 1) % 2 ^ 64, []⟩⟩
      else .inr ⟨nSize, nPos, none⟩

/-- The function past its parameters, with the table that it makes for texts of more than 1024
bytes, or without it. -/
def strReplace (fTable : Bool) (szText : Bytes) (pSrc : Source) (pDst : Dest) : Option Buffer :=
  if 0 < szText.length ∧ 0 < pSrc.keys.length then
    let ptrOpt := if fTable then some (makeTable pSrc.isString pSrc.keys) else none
    (loop (turn szText pSrc (values pSrc pDst) ptrOpt) (2 * szText.length + 2) ⟨0, 0, none⟩).join
  else some ⟨szText.length + 1, szText⟩

/-- Each string that is looked for with what stands for it. -/
def rules : List Bytes → List Bytes → List (Bytes × Bytes)
  | [], _ => []
  | key :: keys, values => (key, values.headD []) :: rules keys values.tail

/-- The text after `skip` bytes, with the first rule applied at each place that has one. -/
def replaced (rules : List (Bytes × Bytes)) : (skip : Nat) → Bytes → Bytes
  | _, [] => []
  | skip + 1, _ :: text => replaced rules skip text
  | 0, c :: text =>
    match rules.find? fun rule => rule.1 ≠ [] ∧ rule.1 <+: c :: text with
    | some (key, value) => value ++ replaced rules (key.length - 1) text
    | none => c :: replaced rules 0 text

/-- What the function does to a text. -/
def specified (szText : Bytes) (pSrc : Source) (pDst : Dest) : Bytes :=
  replaced (rules pSrc.keys (values pSrc pDst)) 0 szText

section Searches

variable {szText szRest : Bytes} {c : UInt8} {key : Bytes} {keys : List Bytes} {n : Nat}

abbrev Hits (szText key : Bytes) : Prop := key ≠ [] ∧ key <+: szText

theorem hits_iff : 0 < key.length ∧ key.length ≤ szText.length ∧ szText.take key.length = key ↔
    Hits szText key := by
  rw [Hits, prefix_iff_eq_take, eq_comm, length_pos_iff]
  constructor
  · rintro ⟨hne, -, htake⟩
    exact ⟨hne, htake⟩
  · rintro ⟨hne, htake⟩
    have hlength := congrArg length htake
    rw [length_take] at hlength
    exact ⟨hne, by omega, htake⟩

theorem not_hits (h : key.head? ≠ some c) : ¬ Hits (c :: szRest) key := by
  rintro ⟨hne, hpre⟩
  obtain ⟨d, key, rfl⟩ := exists_cons_of_ne_nil hne
  exact h (congrArg some (cons_prefix_cons.mp hpre).1)

theorem searchFrom_none (fNext : Bool) (h : ∀ key ∈ keys, ¬ Hits szText key) :
    searchFrom fNext szText n keys = (0, 1) := by
  induction keys generalizing n with
  | nil => rfl
  | cons key keys ih =>
    obtain ⟨hkey, hkeys⟩ := forall_mem_cons.mp h
    rw [searchFrom, if_neg (mt hits_iff.mp hkey), ih hkeys, ite_self]

theorem searchFrom_append {pre : List Bytes} (h : ∀ key ∈ pre, ¬ Hits szText key) :
    searchFrom true szText n (pre ++ keys) = searchFrom true szText (n + pre.length) keys := by
  induction pre generalizing n with
  | nil => rfl
  | cons key pre ih =>
    obtain ⟨hkey, hpre⟩ := forall_mem_cons.mp h
    rw [cons_append, searchFrom, if_neg (mt hits_iff.mp hkey), if_pos rfl, ih hpre, length_cons,
      Nat.add_right_comm, Nat.add_assoc]

theorem searchFrom_chain {fNext : Bool} (h : fNext = false → ∀ key ∈ keys, ¬ Hits szText key) :
    searchFrom fNext szText n (key :: keys) = searchFrom true szText n (key :: keys) := by
  cases fNext with
  | true => rfl
  | false =>
    rw [searchFrom, searchFrom, searchFrom_none true (h rfl), if_neg Bool.false_ne_true, if_pos rfl]

/-- The first byte `c` as the table has it. -/
def Indexed (fString : Bool) (keys : List Bytes) (table : Table) (c : UInt8) : Prop :=
  (table.ptrOpt c = 0 ∧ ∀ key ∈ keys, key.head? ≠ some c) ∨
    ∃ pre key rest, keys = pre ++ key :: rest ∧ table.ptrOpt c = pre.length + 1 ∧
      (∀ key ∈ pre, key.head? ≠ some c) ∧ key.head? = some c ∧
      (fString = false → table.fNext = false → ∀ key ∈ rest, key.head? ≠ some c)

theorem Indexed.more {fString : Bool} {table : Table} (h : Indexed fString keys table c)
    {table' : Table} (hptrOpt : table'.ptrOpt c = table.ptrOpt c)
    (hnew : table.ptrOpt c = 0 → key.head? ≠ some c)
    (hnext : fString = false → table'.fNext = false → table.fNext = false ∧
      (table.ptrOpt c ≠ 0 → key.head? ≠ some c)) :
    Indexed fString (keys ++ [key]) table' c := by
  rcases h with ⟨hzero, hall⟩ | ⟨pre, first, rest, rfl, hat, hpre, hfirst, hrest⟩
  · refine .inl ⟨hptrOpt.trans hzero, ?_⟩
    exact forall_mem_append.mpr ⟨hall, forall_mem_singleton.mpr (hnew hzero)⟩
  · refine .inr ⟨pre, first, rest ++ [key], by simp, hptrOpt.trans hat, hpre, hfirst, ?_⟩
    intro hstring hfalse
    obtain ⟨hfNext, hkey⟩ := hnext hstring hfalse
    exact forall_mem_append.mpr ⟨hrest hstring hfNext,
      forall_mem_singleton.mpr (hkey (hat ▸ Nat.succ_ne_zero _))⟩

theorem makeTable_indexed (fString : Bool) (keys : List Bytes) :
    (makeTable fString keys).nAt = keys.length ∧
      ∀ c, Indexed fString keys (makeTable fString keys) c := by
  induction keys using reverseRecOn with
  | nil => exact ⟨rfl, fun c => .inl ⟨rfl, by simp⟩⟩
  | append_singleton keys key ih =>
    obtain ⟨hnAt, hall⟩ := ih
    rw [makeTable, foldl_append, ← makeTable, foldl_cons, foldl_nil]
    cases key with
    | nil => exact ⟨by simp [addKey, hnAt], fun c => (hall c).more rfl (by simp) (by simp [addKey])⟩
    | cons uc key =>
      rw [addKey]
      split
      case isTrue hzero =>
        refine ⟨by simp [hnAt], fun c => ?_⟩
        by_cases hc : c = uc
        · subst hc
          rcases hall c with ⟨-, hnone⟩ | ⟨pre, first, rest, -, hat, -⟩
          · exact .inr ⟨keys, _, [], rfl, by simp [hnAt], hnone, rfl, by simp⟩
          · exact absurd (hat.symm.trans hzero) (Nat.succ_ne_zero _)
        · have hhead : (uc :: key).head? ≠ some c := fun h => hc (Option.some.inj h).symm
          exact (hall c).more (if_neg hc) (fun _ => hhead) fun _ h => ⟨h, fun _ => hhead⟩
      case isFalse hsome =>
        refine ⟨by simp [hnAt], fun c => (hall c).more rfl ?_ ?_⟩
        · rintro hzero hhead
          exact hsome (Option.some.inj hhead ▸ hzero)
        · rintro rfl hnot
          simp at hnot

theorem searchFrom_string (szSrc : Bytes) : searchFrom true (c :: szRest) (n + 1)
    (szSrc.map fun c => [c]) = (((szSrc.findIdx? (· == c)).map (· + (n + 1))).getD 0, 1) := by
  induction szSrc generalizing n with
  | nil => rfl
  | cons d szSrc ih =>
    rw [map_cons, searchFrom, findIdx?_cons, ih]
    by_cases hd : d = c
    · simp [hd]
    · simp [hd, Ne.symm hd, Function.comp_def, Nat.add_comm, Nat.add_left_comm]

/-- Both ways to search find the first of the strings. -/
theorem search_eq (pSrc : Source) (fTable : Bool) :
    search pSrc (if fTable then some (makeTable pSrc.isString pSrc.keys) else none) c szRest =
      searchFrom true (c :: szRest) 1 pSrc.keys := by
  cases fTable with
  | false =>
    cases pSrc with
    | string szSrc => exact (searchFrom_string szSrc).symm
    | array => rfl
    | hash => rfl
  | true =>
    have hmiss {keys : List Bytes} (h : ∀ key ∈ keys, key.head? ≠ some c) :
        ∀ key ∈ keys, ¬ Hits (c :: szRest) key := fun key hkey => not_hits (h key hkey)
    rw [if_pos rfl, search]
    rcases (makeTable_indexed pSrc.isString pSrc.keys).2 c with
      ⟨hzero, hnone⟩ | ⟨pre, key, rest, hkeys, hat, hpre, hkey, hrest⟩
    · rw [if_pos (.inl hzero), hzero, searchFrom_none true (hmiss hnone)]
    · have hfirst : searchFrom true (c :: szRest) 1 pSrc.keys =
          searchFrom true (c :: szRest) (pre.length + 1) (key :: rest) := by
        rw [hkeys, searchFrom_append (hmiss hpre), Nat.add_comm]
      rw [hfirst, hat]
      split
      case isTrue hstring =>
        cases pSrc with
        | string szSrc =>
          have hmem : key ∈ (Source.string szSrc).keys := hkeys ▸ mem_append_right pre mem_cons_self
          obtain ⟨d, -, rfl⟩ := mem_map.mp hmem
          obtain rfl : d = c := Option.some.inj hkey
          rw [searchFrom, if_pos (by simp)]
          rfl
        | _ => simp [Source.isString] at hstring
      case isFalse hother =>
        have hstring : pSrc.isString = false := by simpa using hother
        rw [hkeys, Nat.add_sub_cancel, drop_left]
        exact searchFrom_chain fun hnext => hmiss (hrest hstring (hkeys ▸ hnext))

theorem searchFrom_rules (keys values : List Bytes) (n : Nat) :
    (∃ nAt key, searchFrom true szText (n + 1) keys = (nAt + 1, key.length) ∧ Hits szText key ∧
      (rules keys (values.drop n)).find? (fun rule => Hits szText rule.1) =
        some (key, values.getD nAt [])) ∨
    searchFrom true szText (n + 1) keys = (0, 1) ∧
      (rules keys (values.drop n)).find? (fun rule => Hits szText rule.1) = none := by
  induction keys generalizing n with
  | nil => exact .inr ⟨rfl, rfl⟩
  | cons key keys ih =>
    rw [searchFrom, rules, tail_drop]
    by_cases hkey : Hits szText key
    · refine .inl ⟨n, key, if_pos (hits_iff.mpr hkey), hkey, ?_⟩
      rw [find?_cons_of_pos (by simpa using hkey), headD_eq_head?_getD, head?_drop,
        getD_eq_getElem?_getD]
    · rw [if_neg (mt hits_iff.mp hkey), if_pos rfl, find?_cons_of_neg (by simpa using hkey)]
      exact ih (n + 1)

theorem sized_eq (values : List Bytes) (nAt : Nat) :
    sized values nAt = (emitted values nAt c).length := by
  unfold sized emitted
  split_ifs <;> rfl

theorem replaced_skip (list : List (Bytes × Bytes)) (skip : Nat) (text : Bytes) :
    replaced list skip text = replaced list 0 (text.drop skip) := by
  induction skip generalizing text with
  | zero => rfl
  | succ skip ih =>
    cases text with
    | nil => rfl
    | cons c text => exact ih text

theorem replaced_place (keys values : List Bytes) {nAt nSkip : Nat}
    (h : searchFrom true (c :: szRest) 1 keys = (nAt, nSkip)) :
    0 < nSkip ∧ nSkip ≤ szRest.length + 1 ∧ replaced (rules keys values) 0 (c :: szRest) =
      emitted values nAt c ++ replaced (rules keys values) 0 ((c :: szRest).drop nSkip) := by
  rcases searchFrom_rules keys values 0 with ⟨at', key, hat, hkey, hfind⟩ | ⟨hat, hfind⟩
  · obtain ⟨rfl, rfl⟩ := Prod.mk.inj (h.symm.trans hat)
    have hpos := length_pos_iff.mpr hkey.1
    refine ⟨hpos, hkey.2.length_le, ?_⟩
    have hvalue : emitted values (at' + 1) c = values.getD at' [] := by
      rw [emitted, if_pos (Nat.succ_ne_zero _), Nat.add_sub_cancel]
      split
      · rfl
      · next hover => rw [getD_eq_getElem?_getD, getElem?_eq_none (by omega), Option.getD_none]
    rw [drop_zero] at hfind
    rw [replaced, hfind, hvalue]
    simp only
    rw [replaced_skip, ← drop_succ_cons, Nat.sub_add_cancel hpos]
  · obtain ⟨rfl, rfl⟩ := Prod.mk.inj (h.symm.trans hat)
    rw [drop_zero] at hfind
    rw [replaced, hfind]
    exact ⟨Nat.one_pos, Nat.succ_le_succ (Nat.zero_le _), rfl⟩

end Searches

section Scans

variable {szText : Bytes} {pSrc : Source} {pDst : Dest} {fTable : Bool} {s s' : Scan}

/-- What the loop knows: the length of what is left, or the bytes of it. -/
def Scans (szText : Bytes) (list : List (Bytes × Bytes)) (s : Scan) : Prop :=
  match s.pszResult with
  | none => s.nPos < szText.length ∧
      (s.nSize + (replaced list 0 (szText.drop s.nPos)).length) % 2 ^ 64 =
        (replaced list 0 szText).length % 2 ^ 64
  | some buffer => buffer.allocated = ((replaced list 0 szText).length + 1) % 2 ^ 64 ∧
      buffer.written ++ replaced list 0 (szText.drop s.nPos) = replaced list 0 szText

def Scan.left (szText : Bytes) (s : Scan) : Nat :=
  szText.length - s.nPos + if s.pszResult.isNone then szText.length + 1 else 0

def chosen (fTable : Bool) (pSrc : Source) : Option Table :=
  if fTable then some (makeTable pSrc.isString pSrc.keys) else none

theorem Scans.goes (h : Scans szText (rules pSrc.keys (values pSrc pDst)) s)
    (hgoes : turn szText pSrc (values pSrc pDst) (chosen fTable pSrc) s = .inr s') :
    Scans szText (rules pSrc.keys (values pSrc pDst)) s' ∧
      s'.left szText < s.left szText := by
  obtain ⟨nSize, nPos, pszResult⟩ := s
  unfold turn at hgoes
  split at hgoes
  case h_1 => exact absurd hgoes (by simp)
  case h_2 c szRest hdrop =>
    rw [chosen, search_eq] at hgoes
    rcases hsearch : searchFrom true (c :: szRest) 1 pSrc.keys with ⟨nAt, nSkip⟩
    obtain ⟨hpos, hle, hplace⟩ := replaced_place pSrc.keys (values pSrc pDst) hsearch
    have hlength := congrArg length hdrop
    rw [length_drop, length_cons] at hlength
    rw [← hdrop, drop_drop] at hplace
    rw [hsearch] at hgoes
    cases pszResult with
    | some buffer =>
      cases hgoes
      obtain ⟨hallocated, hwritten⟩ := h
      rw [hplace, ← append_assoc] at hwritten
      refine ⟨⟨hallocated, hwritten⟩, ?_⟩
      simp only at hlength
      simp only [Scan.left, Option.isNone_some, Bool.false_eq_true, if_false]
      omega
    | none =>
      obtain ⟨hmore, hsize⟩ := h
      rw [hplace, length_append, ← sized_eq] at hsize
      simp only at hgoes hsize hmore hlength
      split at hgoes
      case isTrue hend =>
        cases hgoes
        rw [hend, drop_length, replaced, length_nil, Nat.add_zero] at hsize
        refine ⟨⟨?_, ?_⟩, ?_⟩
        · simp only
          omega
        · rfl
        · simp [Scan.left]
          omega
      case isFalse hmore =>
        cases hgoes
        refine ⟨⟨?_, ?_⟩, ?_⟩
        · simp only
          omega
        · simp only
          omega
        · simp only [Scan.left]
          omega

theorem Scans.ends {result : Option Buffer}
    (h : Scans szText (rules pSrc.keys (values pSrc pDst)) s)
    (hends : turn szText pSrc (values pSrc pDst) (chosen fTable pSrc) s = .inl result) :
    result = some ⟨((specified szText pSrc pDst).length + 1) % 2 ^ 64,
      specified szText pSrc pDst⟩ := by
  obtain ⟨nSize, nPos, pszResult⟩ := s
  unfold turn at hends
  split at hends
  case h_1 hdrop =>
    cases hends
    cases pszResult with
    | none => exact absurd (drop_eq_nil_iff.mp hdrop) h.1.not_ge
    | some buffer =>
      obtain ⟨hallocated, hwritten⟩ := h
      rw [hdrop, replaced, append_nil] at hwritten
      exact congrArg some (congrArg₂ Buffer.mk hallocated hwritten)
  case h_2 =>
    cases pszResult with
    | some buffer => exact absurd hends (by simp)
    | none =>
      simp only at hends
      split at hends <;> exact absurd hends (by simp)

theorem strReplace_eq (fTable : Bool) (htext : szText ≠ []) (hkeys : pSrc.keys ≠ []) :
    strReplace fTable szText pSrc pDst = some ⟨((specified szText pSrc pDst).length + 1) % 2 ^ 64,
      specified szText pSrc pDst⟩ := by
  have hpos := length_pos_iff.mpr htext
  obtain ⟨result, hresult, rfl⟩ := loop_ends (fun s r => Scans.ends) (fun s s' => Scans.goes)
    (show Scans szText (rules pSrc.keys (values pSrc pDst)) ⟨0, 0, none⟩ from ⟨hpos, by simp⟩)
    (show Scan.left szText ⟨0, 0, none⟩ < 2 * szText.length + 2 by simp [Scan.left]; omega)
  rw [strReplace, if_pos ⟨hpos, length_pos_iff.mpr hkeys⟩]
  exact congrArg Option.join hresult

end Scans

theorem specified_nil {pSrc : Source} (hkeys : pSrc.keys = []) (szText : Bytes) (pDst : Dest) :
    specified szText pSrc pDst = szText := by
  rw [specified, hkeys]
  induction szText with
  | nil => rfl
  | cons c szText ih => exact congrArg (c :: ·) ih

theorem strReplace_specified_iff (fTable : Bool) (szText : Bytes) (pSrc : Source) (pDst : Dest) :
    (∃ buffer, strReplace fTable szText pSrc pDst = some buffer ∧
      buffer.written = specified szText pSrc pDst ∧
      buffer.allocated = buffer.written.length + 1) ↔
    pSrc.keys = [] ∨ (specified szText pSrc pDst).length + 1 < 2 ^ 64 := by
  by_cases hkeys : pSrc.keys = []
  · refine iff_of_true ⟨⟨szText.length + 1, szText⟩, ?_, ?_, rfl⟩ (.inl hkeys)
    · rw [strReplace, hkeys, if_neg (fun h => absurd h.2 (Nat.lt_irrefl 0))]
    · exact (specified_nil hkeys szText pDst).symm
  by_cases htext : szText = []
  · subst htext
    exact iff_of_true ⟨⟨1, []⟩, rfl, rfl, rfl⟩ (.inr (by rw [specified, replaced]; decide))
  · rw [strReplace_eq fTable htext hkeys]
    constructor
    · rintro ⟨buffer, hbuffer, -, hallocated⟩
      cases hbuffer
      exact .inr (hallocated ▸ Nat.mod_lt _ (by decide))
    · rintro (hnone | hfits)
      · exact absurd hnone hkeys
      · exact ⟨_, rfl, rfl, Nat.mod_eq_of_lt hfits⟩

theorem strReplace_repeated {n : Nat} (hn : n ≠ 0) (value : Bytes) :
    (strReplace true (replicate n 97) (.string [97]) (.array [value])).map
        (fun buffer => (buffer.allocated, buffer.written.length)) =
      some ((n * value.length + 1) % 2 ^ 64, n * value.length) := by
  have hlength (n : Nat) : (specified (replicate n 97) (.string [97]) (.array [value])).length =
      n * value.length := by
    induction n with
    | zero => simp [specified, replaced]
    | succ n ih =>
      rw [specified] at ih ⊢
      rw [replicate_succ, replaced]
      simp [rules, Source.keys, values] at ih ⊢
      rw [ih, Nat.succ_mul, Nat.add_comm]
  rw [strReplace_eq true (by simpa using hn) (by simp [Source.keys]), Option.map_some,
    hlength]

/-- Replacements of 2 ^ 31 bytes at 2 ^ 33 places go past the end of a buffer of one byte. -/
theorem strReplace_overruns :
    (strReplace true (replicate (2 ^ 33) 97) (.string [97]) (.array [replicate (2 ^ 31) 98])).map
      (fun buffer => (buffer.allocated, buffer.written.length)) = some (1, 2 ^ 64) := by
  rw [strReplace_repeated (by decide), length_replicate]
  rfl

end Harbour.Rtl.StrReplace
