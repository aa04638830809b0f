import Harbour.Library.RestartSearch
import Harbour.Rtl.Utf8Agree
import Mathlib.Data.List.GetD

/-!
`hb_cdpUTF8StringAt` of `cdpapi.c`.
-/

namespace Harbour.Rtl.Utf8StringAt

open Cdpapi Utf8Strings Library.Loops Library.RestartSearch List

def charLoop (pSrc : Bytes) (c : Cursor) : Cursor :=
  if _h : c.nPos < pSrc.length then
    if (c.next pSrc).n = 0 then c.next pSrc else charLoop pSrc (c.next pSrc)
  else c
termination_by c.weight pSrc
decreasing_by exact Cursor.next_weight _h

structure At where
  nPosN : Nat
  nPosH : Nat
  nPosX : Nat
  nPos : Nat
  nRAt : Nat
  nAt : Nat
  wcN : UInt16
  wcH : UInt16
  nN : Nat
  nH : Nat

def atTurn (szNeedle szHaystack : Bytes) (nStart nEnd : Nat) (fReverse : Bool) (s : At) :
    Nat ⊕ At :=
  if s.nPosH < szHaystack.length ∧ s.nPosN < szNeedle.length ∧ s.nPos < nEnd then
    let cH := charLoop szHaystack ⟨s.nPosH, s.nH, s.wcH⟩
    let s := { s with nPosH := cH.nPos, nH := cH.n, wcH := cH.wc, nPos := s.nPos + 1 }
    if s.nPos < nStart then .inr s
    else
      let cN := charLoop szNeedle ⟨s.nPosN, s.nN, s.wcN⟩
      let s := { s with nPosN := cN.nPos, nN := cN.n, wcN := cN.wc }
      if s.wcH = s.wcN then
        let s := if s.nAt = 0 then { s with nAt := s.nPos, nPosX := s.nPosH } else s
        if s.nPosN = szNeedle.length then
          if fReverse then
            .inr { s with
              nRAt := s.nAt, nPos := s.nAt, nAt := 0, nPosH := s.nPosX, nPosX := 0, nPosN := 0 }
          else .inl s.nAt
        else .inr s
      else if s.nAt ≠ 0 then
        .inr { s with nPos := s.nAt, nAt := 0, nPosH := s.nPosX, nPosX := 0, nPosN := 0 }
      else .inr { s with nPosN := 0 }
  else .inl s.nRAt

/-- `hb_cdpUTF8StringAt`, none where `fuel` turns of its loop are not enough. -/
def hb_cdpUTF8StringAt (fuel : Nat) (szNeedle szHaystack : Bytes) (nStart nEnd : Nat)
    (fReverse : Bool) : Option Nat :=
  loop (atTurn szNeedle szHaystack nStart nEnd fReverse) fuel ⟨0, 0, 0, 0, 0, 0, 0, 0, 0, 0⟩

section Characters

variable {pSrc : Bytes} {c : Cursor}

theorem charLoop_get {v : UInt16} {q : Nat} (h : getLoop pSrc c = some (v, q)) :
    charLoop pSrc c = ⟨q, missing pSrc c, v⟩ := by
  fun_induction getLoop pSrc c with
  | case1 c hlt hn =>
    obtain ⟨rfl, rfl⟩ := Prod.mk.inj (Option.some.inj h)
    rw [charLoop, dif_pos hlt, if_pos hn, missing, dif_pos hlt, if_pos hn, ← hn]
  | case2 c hlt hn ih =>
    rw [charLoop, dif_pos hlt, if_neg hn, missing, dif_pos hlt, if_neg hn]
    exact ih h
  | case3 c hlt hn =>
    obtain ⟨rfl, rfl⟩ := Prod.mk.inj (Option.some.inj h)
    rw [charLoop, dif_neg hlt, missing, dif_neg hlt]
  | case4 c hlt hn => exact absurd h (by simp)

/-- A concatenation of whole sequences: a byte where a character begins, and the bytes inside the
character that it asks for. -/
def WellFormed (pSrc : Bytes) : Prop :=
  ∃ sequences : List (UInt8 × Bytes), pSrc = sequences.flatMap (fun q => q.1 :: q.2) ∧
    ∀ q ∈ sequences, q.2.length = needed q.1 ∧ ∀ uc ∈ q.2, Inside uc

theorem WellFormed.whole (h : WellFormed pSrc) (nPos : Nat) (hlt : nPos < pSrc.length) :
    ¬ BrokenAt pSrc nPos := by
  rintro ⟨-, hfew⟩
  obtain ⟨sequences, rfl, hsequences⟩ := h
  induction sequences generalizing nPos with
  | nil => exact absurd hlt (Nat.not_lt_zero _)
  | cons q rest ih =>
    obtain ⟨⟨hlength, hinside⟩, hrest⟩ := forall_mem_cons.mp hsequences
    rw [flatMap_cons] at hlt hfew
    rw [length_append] at hlt
    rcases Nat.lt_or_ge nPos (q.1 :: q.2).length with hfirst | hlater
    · rw [getD_append _ _ _ _ hfirst, length_append, length_cons] at hfew
      cases nPos with
      | zero =>
        rw [getD_cons_zero] at hfew
        omega
      | succ k =>
        have hmem : q.2.getD k 0 ∈ q.2 := by
          rw [getD_eq_getElem _ _ (Nat.lt_of_succ_lt_succ hfirst)]
          exact getElem_mem _
        rw [getD_cons_succ, needed_of_inside (hinside _ hmem)] at hfew
        exact absurd hfew (Nat.not_lt_zero _)
    · rw [getD_append_right _ _ _ _ hlater, length_append] at hfew
      exact ih (nPos - (q.1 :: q.2).length) hrest (by omega) (by omega)

theorem charLoop_place (h : WellFormed pSrc) {i : Nat} (hi : i < (characters pSrc).length)
    (wc : UInt16) :
    charLoop pSrc ⟨placeFrom pSrc 0 i, 0, wc⟩ =
      ⟨placeFrom pSrc 0 (i + 1), 0, (characters pSrc).getD i 0⟩ := by
  have hlt := placeFrom_lt.mpr hi
  obtain ⟨v, q, hget⟩ := hb_cdpUTF8_get_of_lt hlt
  have hnext : placeFrom pSrc 0 (i + 1) = q := by
    rw [← placeFrom_add, placeFrom_succ hget, placeFrom_zero]
  have hmissing : missing pSrc ⟨placeFrom pSrc 0 i, 0, 0⟩ = 0 := by
    by_contra hne
    exact h.whole _ hlt ((missing_ne_zero_iff_brokenAt hlt).mp hne)
  rw [charLoop_get ((getLoop_start _ wc).trans hget), missing_start, hmissing, hnext,
    getD_eq_getElem?_getD, getElem?_characters, hget]
  rfl

end Characters

section Search

variable {szNeedle szHaystack : Bytes} {nStart nEnd : Nat} {fReverse : Bool}

structure Reads (szNeedle szHaystack : Bytes) (s : At) (t : State) : Prop where
  nPosH_eq : s.nPosH = placeFrom szHaystack 0 t.pos
  nPosN_eq : s.nPosN = placeFrom szNeedle 0 t.matched
  nPosX_eq : s.nPosX = placeFrom szHaystack 0 t.start
  nPos_eq : s.nPos = t.pos
  nRAt_eq : s.nRAt = t.found
  nAt_eq : s.nAt = t.start
  nH_eq : s.nH = 0
  nN_eq : s.nN = 0

theorem getD_eq_iff {l l' : List UInt16} {i j : Nat} (hi : i < l.length) (hj : j < l'.length) :
    l.getD i 0 = l'.getD j 0 ↔ l[i]? = l'[j]? := by
  rw [getD_eq_getElem _ _ hi, getD_eq_getElem _ _ hj, getElem?_eq_getElem hi,
    getElem?_eq_getElem hj, Option.some_inj]

theorem placeFrom_eq_length_iff {pSrc : Bytes} {i : Nat} (hi : i < (characters pSrc).length) :
    placeFrom pSrc 0 (i + 1) = pSrc.length ↔ i + 1 = (characters pSrc).length := by
  have hle : placeFrom pSrc 0 (i + 1) ≤ pSrc.length := placeFrom_le (Nat.zero_le _) _
  have hlt : placeFrom pSrc 0 (i + 1) < pSrc.length ↔ i + 1 < (characters pSrc).length :=
    placeFrom_lt
  omega

theorem atTurn_follows (hneedle : WellFormed szNeedle) (hhaystack : WellFormed szHaystack)
    {s : At} {t : State} (h : Reads szNeedle szHaystack s t) :
    Follows (Reads szNeedle szHaystack) (atTurn szNeedle szHaystack nStart nEnd fReverse s)
      (turn (characters szNeedle) (characters szHaystack) nStart nEnd fReverse t) := by
  obtain ⟨nPosN, nPosH, nPosX, nPos, nRAt, nAt, wcN, wcH, nN, nH⟩ := s
  obtain ⟨rfl, rfl, rfl, rfl, rfl, rfl, rfl, rfl⟩ := h
  unfold atTurn turn
  simp only [placeFrom_lt]
  split
  · next hmore =>
    obtain ⟨hposH, hposN, hend⟩ := hmore
    simp only [charLoop_place hhaystack hposH]
    split
    · exact ⟨rfl, rfl, rfl, rfl, rfl, rfl, rfl, rfl⟩
    · simp only [charLoop_place hneedle hposN, getD_eq_iff hposH hposN]
      split
      · rcases Nat.eq_zero_or_pos t.start with hzero | hpos
        · simp only [if_pos hzero, placeFrom_eq_length_iff hposN]
          split
          · split
            · exact ⟨rfl, rfl, rfl, rfl, rfl, rfl, rfl, rfl⟩
            · rfl
          · exact ⟨rfl, rfl, rfl, rfl, rfl, rfl, rfl, rfl⟩
        · simp only [if_neg (Nat.ne_of_gt hpos), placeFrom_eq_length_iff hposN]
          split
          · split
            · exact ⟨rfl, rfl, rfl, rfl, rfl, rfl, rfl, rfl⟩
            · rfl
          · exact ⟨rfl, rfl, rfl, rfl, rfl, rfl, rfl, rfl⟩
      · rcases Nat.eq_zero_or_pos t.start with hzero | hpos
        · rw [if_neg (not_not.mpr hzero), if_pos hzero]
          exact ⟨rfl, rfl, rfl, rfl, rfl, rfl, rfl, rfl⟩
        · rw [if_pos (Nat.ne_of_gt hpos), if_neg (Nat.ne_of_gt hpos)]
          exact ⟨rfl, rfl, rfl, rfl, rfl, rfl, rfl, rfl⟩
  · rfl

theorem hb_cdpUTF8StringAt_characters (hneedle : WellFormed szNeedle)
    (hhaystack : WellFormed szHaystack) (hne : characters szNeedle ≠ []) (nStart nEnd : Nat)
    (fReverse : Bool) : ∃ r,
    Best (characters szNeedle) (characters szHaystack) (max nStart 1) nEnd fReverse r ∧
    ∃ enough, ∀ fuel ≥ enough,
      hb_cdpUTF8StringAt fuel szNeedle szHaystack nStart nEnd fReverse = some r := by
  obtain ⟨r, hbest, enough, hloop⟩ := search_best (characters szHaystack) nStart nEnd fReverse hne
  refine ⟨r, best_max hbest, enough, fun fuel hfuel => ?_⟩
  refine (loop_follows (fun s t => atTurn_follows hneedle hhaystack) ?_ fuel).trans
    (hloop fuel hfuel)
  exact ⟨rfl, rfl, rfl, rfl, rfl, rfl, rfl, rfl⟩

end Search

section Scalars

/-- The UTF-8 text of Unicode characters. -/
def utf8 (text : List Char) : Bytes := text.flatMap String.utf8EncodeChar

/-- The 16 bits of a character that an `HB_WCHAR` keeps. -/
def wchar (char : Char) : UInt16 := UInt16.ofNat char.toNat

def leadValue (uc : UInt8) : UInt16 := (cdpUTF8ToU16NextChar uc 0 0).2.2

theorem nextChar_first (uc : UInt8) :
    cdpUTF8ToU16NextChar uc 0 0 = (true, needed uc, leadValue uc) := by
  rw [← nextChar_needed uc 0]
  rcases nextChar_cases uc 0 0 with hused | ⟨hn, -⟩
  · rw [← hused]
    rfl
  · exact absurd hn (Nat.lt_irrefl 0)

theorem getLoop_whole (before rest : Bytes) {tail : Bytes} (hinside : ∀ uc ∈ tail, Inside uc)
    (hne : tail ≠ []) (wc : UInt16) :
    getLoop (before ++ (tail ++ rest)) ⟨before.length, tail.length, wc⟩ =
      some (gathered wc tail, before.length + tail.length) := by
  induction tail generalizing before wc with
  | nil => exact absurd rfl hne
  | cons uc tail ih =>
    obtain ⟨hfirst, hrest⟩ := forall_mem_cons.mp hinside
    rw [cons_append, length_cons, getLoop_used (nextChar_inside (Nat.succ_pos _) hfirst wc),
      Nat.succ_sub_one]
    split
    · next hend =>
      rw [length_eq_zero_iff.mp hend]
      rfl
    · next hmore =>
      rw [ih (before ++ [uc]) hrest (ne_nil_of_length_pos (Nat.pos_of_ne_zero hmore)),
        length_append, length_singleton, Nat.add_assoc, Nat.add_comm 1]
      rfl

theorem get_sequence (before rest : Bytes) {lead : UInt8} {tail : Bytes}
    (hlength : tail.length = needed lead) (hinside : ∀ uc ∈ tail, Inside uc) :
    hb_cdpUTF8_get (before ++ (lead :: tail ++ rest)) before.length =
      some (gathered (leadValue lead) tail, (before ++ lead :: tail).length) := by
  unfold hb_cdpUTF8_get
  rw [cons_append, getLoop_used (nextChar_first lead), ← hlength]
  split
  · next hend =>
    rw [length_eq_zero_iff.mp hend, length_append]
    rfl
  · next hmore =>
    rw [getLoop_whole _ rest hinside (ne_nil_of_length_pos (Nat.pos_of_ne_zero hmore)),
      ← length_append, append_assoc, singleton_append]

def part (b : Nat) : UInt8 := UInt8.ofNat (b % 64 + 0x80)

theorem part_bits (b : Nat) :
    Inside (part b) ∧ (part b &&& 0x3f).toUInt16 = UInt16.ofNat (b % 64) := by
  have hall : ∀ k : Fin 64, Inside (UInt8.ofNat (k + 0x80)) ∧
      (UInt8.ofNat (k + 0x80) &&& 0x3f).toUInt16 = UInt16.ofNat k := by
    decide
  exact hall ⟨b % 64, Nat.mod_lt _ (by decide)⟩

theorem parts_inside (places : List Nat) : ∀ uc ∈ places.map part, Inside uc := fun uc huc => by
  obtain ⟨b, -, rfl⟩ := mem_map.mp huc
  exact (part_bits b).1

theorem joined_part (a : Nat) :
    (UInt16.ofNat (a / 64) <<< 6) ||| (part a &&& 0x3f).toUInt16 = UInt16.ofNat a := by
  rw [(part_bits a).2]
  apply UInt16.toNat.inj
  calc ((UInt16.ofNat (a / 64) <<< 6) ||| UInt16.ofNat (a % 64)).toNat
      = (a / 64 % 65536) <<< 6 % 65536 ||| a % 64 % 65536 := rfl
    _ = (a / 64 % 1024) <<< 6 ||| a % 64 := by
        rw [Nat.shiftLeft_eq, Nat.shiftLeft_eq]
        congr 1 <;> omega
    _ = (a / 64 % 1024) <<< 6 + a % 64 :=
        (Nat.shiftLeft_add_eq_or_of_lt (Nat.mod_lt _ (by decide)) _).symm
    _ = a % 65536 := by
        rw [Nat.shiftLeft_eq]
        omega

theorem gathered_part (a : Nat) (tail : Bytes) :
    gathered (UInt16.ofNat (a / 64)) (part a :: tail) = gathered (UInt16.ofNat a) tail :=
  congrArg (gathered · tail) (joined_part a)

theorem lead_bytes :
    (∀ k : Fin 128, needed (UInt8.ofNat k) = 0 ∧ leadValue (UInt8.ofNat k) = UInt16.ofNat k) ∧
    (∀ k : Fin 32, needed (UInt8.ofNat (k + 0xc0)) = 1 ∧
      leadValue (UInt8.ofNat (k + 0xc0)) = UInt16.ofNat k) ∧
    (∀ k : Fin 16, needed (UInt8.ofNat (k + 0xe0)) = 2 ∧
      leadValue (UInt8.ofNat (k + 0xe0)) = UInt16.ofNat k) ∧
    ∀ k : Fin 8, needed (UInt8.ofNat (k + 0xf0)) = 3 ∧
      leadValue (UInt8.ofNat (k + 0xf0)) = UInt16.ofNat k := by
  decide

theorem char_sequence (char : Char) : ∃ lead tail, String.utf8EncodeChar char = lead :: tail ∧
    tail.length = needed lead ∧ (∀ uc ∈ tail, Inside uc) ∧
    gathered (leadValue lead) tail = wchar char := by
  obtain ⟨hone, htwo, hthree, hfour⟩ := lead_bytes
  have hlt : char.val.toNat < 0x110000 := by
    rcases char.valid with hlow | ⟨-, hhigh⟩ <;> omega
  unfold String.utf8EncodeChar wchar Char.toNat
  generalize char.val.toNat = v at hlt
  simp only
  split_ifs with h1 h2 h3
  · obtain ⟨hneeded, hvalue⟩ := hone ⟨v, by omega⟩
    exact ⟨_, [], rfl, hneeded.symm, fun uc huc => absurd huc not_mem_nil, hvalue⟩
  · obtain ⟨hneeded, hvalue⟩ := htwo ⟨v / 64 % 32, Nat.mod_lt _ (by decide)⟩
    have hlead : leadValue (UInt8.ofNat (v / 64 % 32 + 0xc0)) = UInt16.ofNat (v / 64) :=
      hvalue.trans (congrArg UInt16.ofNat (Nat.mod_eq_of_lt (by omega)))
    refine ⟨_, [part v], rfl, hneeded.symm, parts_inside [v], ?_⟩
    rw [hlead, gathered_part]
    rfl
  · obtain ⟨hneeded, hvalue⟩ := hthree ⟨v / 4096 % 16, Nat.mod_lt _ (by decide)⟩
    have hlead : leadValue (UInt8.ofNat (v / 4096 % 16 + 0xe0)) = UInt16.ofNat (v / 4096) :=
      hvalue.trans (congrArg UInt16.ofNat (Nat.mod_eq_of_lt (by omega)))
    refine ⟨_, [part (v / 64), part v], rfl, hneeded.symm, parts_inside [v / 64, v], ?_⟩
    rw [hlead, show v / 4096 = v / 64 / 64 by omega,
      gathered_part, gathered_part]
    rfl
  · obtain ⟨hneeded, hvalue⟩ := hfour ⟨v / 262144 % 8, Nat.mod_lt _ (by decide)⟩
    have hlead : leadValue (UInt8.ofNat (v / 262144 % 8 + 0xf0)) = UInt16.ofNat (v / 262144) :=
      hvalue.trans (congrArg UInt16.ofNat (Nat.mod_eq_of_lt (by omega)))
    refine ⟨_, [part (v / 4096), part (v / 64), part v], rfl, hneeded.symm,
      parts_inside [v / 4096, v / 64, v], ?_⟩
    rw [hlead, show v / 262144 = v / 4096 / 64 by omega,
      gathered_part, show v / 4096 = v / 64 / 64 by omega, gathered_part, gathered_part]
    rfl

theorem wellFormed_utf8 (text : List Char) : WellFormed (utf8 text) := by
  induction text with
  | nil => exact ⟨[], rfl, fun q hq => absurd hq not_mem_nil⟩
  | cons char text ih =>
    obtain ⟨lead, tail, hchar, hlength, hinside, -⟩ := char_sequence char
    obtain ⟨sequences, hrest, hsequences⟩ := ih
    refine ⟨(lead, tail) :: sequences, ?_,
      forall_mem_cons.mpr ⟨⟨hlength, hinside⟩, hsequences⟩⟩
    rw [flatMap_cons, ← hchar, ← hrest]
    rfl

theorem delivered_utf8 (before : Bytes) (text : List Char) :
    (delivered (before ++ utf8 text) before.length).map Prod.fst = text.map wchar := by
  induction text generalizing before with
  | nil =>
    rw [delivered_end (by rw [length_append]; rfl)]
    rfl
  | cons char text ih =>
    obtain ⟨lead, tail, hchar, hlength, hinside, hvalue⟩ := char_sequence char
    have hget := get_sequence before (utf8 text) hlength hinside
    have htext : utf8 (char :: text) = lead :: tail ++ utf8 text := by
      rw [← hchar]
      rfl
    rw [htext, delivered_of_get hget, map_cons, ← append_assoc, ih, hvalue, map_cons]

theorem characters_utf8 (text : List Char) : characters (utf8 text) = text.map wchar :=
  delivered_utf8 [] text

theorem wchar_inj {char char' : Char} (h : char.toNat < 65536) (h' : char'.toNat < 65536)
    (heq : wchar char = wchar char') : char = char' := by
  have hnat := congrArg UInt16.toNat heq
  change char.toNat % 65536 = char'.toNat % 65536 at hnat
  rw [Nat.mod_eq_of_lt h, Nat.mod_eq_of_lt h'] at hnat
  exact Char.toNat_inj.mp hnat

/-- `hb_cdpUTF8StringAt` ends, with the first or the last position in the range where the text has
characters with the 16 bits of the needle's, 0 where there is none; these are the needle itself
where no character is past 16 bits. -/
theorem hb_cdpUTF8StringAt_best (needle haystack : List Char) (hne : needle ≠ [])
    (nStart nEnd : Nat) (fReverse : Bool) : ∃ r,
    Best (needle.map wchar) (haystack.map wchar) (max nStart 1) nEnd fReverse r ∧
    ((∀ char ∈ needle ++ haystack, char.toNat < 65536) →
      Best needle haystack (max nStart 1) nEnd fReverse r) ∧
    ∃ enough, ∀ fuel ≥ enough,
      hb_cdpUTF8StringAt fuel (utf8 needle) (utf8 haystack) nStart nEnd fReverse = some r := by
  have hcharacters : characters (utf8 needle) ≠ [] := by
    rw [characters_utf8]
    exact fun hnil => hne (map_eq_nil_iff.mp hnil)
  obtain ⟨r, hbest, hends⟩ := hb_cdpUTF8StringAt_characters (wellFormed_utf8 needle)
    (wellFormed_utf8 haystack) hcharacters nStart nEnd fReverse
  rw [characters_utf8, characters_utf8] at hbest
  refine ⟨r, hbest, fun hsmall => ?_, hends⟩
  refine (best_map fun char hchar char' hchar' => wchar_inj ?_ ?_).mp hbest
  · exact hsmall char (mem_append_left _ hchar)
  · exact hsmall char' (mem_append_right _ hchar')

theorem hb_cdpUTF8StringAt_best_overlap : ∃ r,
    Best ['a', 'é'] ['a', 'a', 'é', '€'] (max 0 1) 4 false r ∧
    ∃ enough, ∀ fuel ≥ enough,
      hb_cdpUTF8StringAt fuel (utf8 ['a', 'é']) (utf8 ['a', 'a', 'é', '€']) 0 4 false =
        some r := by
  obtain ⟨r, -, hbest, hends⟩ := hb_cdpUTF8StringAt_best ['a', 'é'] ['a', 'a', 'é', '€']
    (cons_ne_nil _ _) 0 4 false
  exact ⟨r, hbest (by simp), hends⟩

/-- A character past 16 bits is taken for the one with its low bits. -/
theorem low_bits_found : ¬ ∀ needle haystack : List Char, needle ≠ [] →
    ∀ nStart nEnd fReverse, ∃ r, Best needle haystack (max nStart 1) nEnd fReverse r ∧
      ∃ enough, ∀ fuel ≥ enough,
        hb_cdpUTF8StringAt fuel (utf8 needle) (utf8 haystack) nStart nEnd fReverse = some r := by
  intro h
  obtain ⟨r, hbest, enough, hends⟩ := h ['A'] [Char.ofNat 0x10041] (cons_ne_nil _ _) 0 1 false
  have hfound : hb_cdpUTF8StringAt 2 (utf8 ['A']) (utf8 [Char.ofNat 0x10041]) 0 1 false =
      some 1 := by
    decide +kernel
  have hr := (loop_mono hfound (le_max_right enough 2)).symm.trans (hends _ (le_max_left _ _))
  obtain rfl := Option.some.inj hr
  rcases hbest with ⟨hzero, -⟩ | ⟨⟨-, -, -, hprefix⟩, -⟩
  · exact absurd hzero Nat.one_ne_zero
  · exact absurd hprefix (by decide)

end Scalars

end Harbour.Rtl.Utf8StringAt
