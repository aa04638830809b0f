import Harbour.Rtl.Cdpapi

/-!
Code pages with characters of two bytes: how strings are read and how they are written.
-/

namespace Harbour.Rtl.CdpMulti

open Cdpapi List

/-- A character of two bytes in upper and in lower case; it is missing where its code is zero. -/
structure MultiChar where
  cFirst : UInt8 × UInt8
  cLast : UInt8 × UInt8
  wcUp : UInt16
  wcLo : UInt16

/-- `fSigned` tells whether the type `char` is signed. -/
structure CodePage where
  uniCodes : List UInt16
  multi : List MultiChar
  fSigned : Bool

namespace CodePage

variable (cdp : CodePage)

def multi1 (uc : UInt8) : Bool :=
  cdp.multi.any fun m =>
    (m.cFirst.1 ≠ 0x20 ∧ m.cFirst.1 = uc) ∨ (m.cFirst.2 ≠ 0x20 ∧ m.cFirst.2 = uc)

def multi2 (uc : UInt8) : Bool :=
  cdp.multi.any fun m =>
    (m.cFirst.1 ≠ 0x20 ∧ m.cLast.1 = uc) ∨ (m.cFirst.2 ≠ 0x20 ∧ m.cLast.2 = uc)

def sameChar (uc c : UInt8) : Bool := uc = c ∧ ¬(cdp.fSigned = true ∧ 0x80 ≤ c)

def multiCode (uc uc2 : UInt8) : List MultiChar → UInt16
  | [] => 0
  | m :: multi =>
    if cdp.sameChar uc2 m.cLast.1 ∨ cdp.sameChar uc2 m.cLast.2 then
      if cdp.sameChar uc m.cFirst.1 then m.wcUp
      else if cdp.sameChar uc m.cFirst.2 then m.wcLo
      else multiCode uc uc2 multi
    else multiCode uc uc2 multi

def seen (uc uc2 : UInt8) : UInt16 :=
  if cdp.multi2 uc2 then cdp.multiCode uc uc2 cdp.multi else 0

/-- Whether a byte makes `hb_cdpMulti_get` look for a second one. -/
def starts (uc : UInt8) : Bool := cdp.uniCodes.getD uc.toNat 0 ≠ 0 ∧ cdp.multi1 uc = true

end CodePage

/-- What a call returns: no character, a character with the new index, or nothing, as it reads
behind the string. -/
inductive Get where
  | finished
  | outside
  | char (wc : UInt16) (nIndex : Nat)
deriving DecidableEq

def cdpMulti_get (cdp : CodePage) (pSrc : Bytes) (nIndex : Nat) : Get :=
  match pSrc[nIndex]? with
  | none => .finished
  | some uc =>
    if cdp.starts uc ∧ nIndex + 1 < pSrc.length then
      match pSrc[nIndex + 1 + 1]? with
      | none => .outside
      | some uc2 =>
        if cdp.seen uc uc2 ≠ 0 then .char (cdp.seen uc uc2) (nIndex + 2)
        else .char (tableChar cdp.uniCodes uc) (nIndex + 1)
    else .char (tableChar cdp.uniCodes uc) (nIndex + 1)

/-- The characters that repeated calls return, unless one of them reads behind the string. The
first argument bounds the number of calls. -/
def getAll (cdp : CodePage) (pSrc : Bytes) : Nat → Nat → Option (List UInt16)
  | 0, _ => none
  | fuel + 1, nIndex =>
    match cdpMulti_get cdp pSrc nIndex with
    | .finished => some []
    | .outside => none
    | .char wc nIndex' => (getAll cdp pSrc fuel nIndex').map (wc :: ·)

/-- `hb_cdpMulti_put`, where `pDst` is what the buffer of `nLen` bytes holds so far. -/
def cdpMulti_put (cdp : CodePage) (nLen : Nat) (pDst : Bytes) (wc : UInt16) : Bytes :=
  if pDst.length < nLen then
    if uniTrans cdp.uniCodes wc ≠ 0 then pDst ++ [uniTrans cdp.uniCodes wc]
    else if wc = 0 then pDst ++ [0]
    else
      match cdp.multi.find? fun m => wc = m.wcUp ∨ wc = m.wcLo with
      | some m =>
        let cFirst := if wc = m.wcUp then m.cFirst.1 else m.cFirst.2
        let cLast := if wc = m.wcUp then m.cLast.1 else m.cLast.2
        if pDst.length + 1 < nLen then pDst ++ [cFirst, cLast] else pDst ++ [cFirst]
      | none => pDst ++ [if 0x100 ≤ wc then 0x3F else wc.toUInt8]
  else pDst

def putAll (cdp : CodePage) (nLen : Nat) (chars : List UInt16) : Bytes :=
  chars.foldl (cdpMulti_put cdp nLen) []

def cdpMulti_len (cdp : CodePage) (wc : UInt16) : Nat :=
  if wc ≠ 0 ∧ (cdp.multi.any fun m => wc = m.wcUp ∨ wc = m.wcLo) = true then 2 else 1

/-- Whether the code is that of a pair, and whether a byte has it. -/
def CodePage.isMulti (cdp : CodePage) (wc : UInt16) : Bool :=
  wc ≠ 0 ∧ (cdp.multi.any fun m => wc = m.wcUp ∨ wc = m.wcLo) = true

def CodePage.hasByte (cdp : CodePage) (wc : UInt16) : Bool := uniTrans cdp.uniCodes wc ≠ 0

section Meaning

variable (cdp : CodePage)

/-- The two bytes are those of the character, each in one of the two cases. -/
def isPair (uc uc2 : UInt8) (m : MultiChar) : Bool :=
  (uc = m.cFirst.1 ∨ uc = m.cFirst.2) ∧ (uc2 = m.cLast.1 ∨ uc2 = m.cLast.2)

def CodePage.listed (uc uc2 : UInt8) : UInt16 :=
  match cdp.multi.find? (isPair uc uc2) with
  | some m => if uc = m.cFirst.1 then m.wcUp else m.wcLo
  | none => 0

/-- The characters of a string: two bytes that are listed are one character. -/
def meaning : Bytes → List UInt16
  | [] => []
  | [uc] => [tableChar cdp.uniCodes uc]
  | uc :: uc2 :: pSrc =>
    if cdp.listed uc uc2 = 0 then tableChar cdp.uniCodes uc :: meaning (uc2 :: pSrc)
    else cdp.listed uc uc2 :: meaning pSrc

/-- The second byte is flagged as a last one, and no byte is negative as a `char`. -/
def CodePage.readable (uc uc2 : UInt8) : Bool :=
  cdp.multi2 uc2 = true ∧ ¬(cdp.fSigned = true ∧ (0x80 ≤ uc ∨ 0x80 ≤ uc2))

/-- Wherever a character starts with the first byte of a pair, two more bytes follow, and the
second of them makes the same pair with it as the first one, or none where that makes none. No
other byte starts a pair. -/
def Foretold : Bytes → Prop
  | [] => True
  | [_] => True
  | uc :: uc2 :: pSrc =>
    (if cdp.starts uc then ∃ uc3 ∈ pSrc.head?,
        if cdp.readable uc uc3 then cdp.listed uc uc3 = cdp.listed uc uc2
        else cdp.listed uc uc2 = 0
      else cdp.listed uc uc2 = 0) ∧
    if cdp.listed uc uc2 = 0 then Foretold (uc2 :: pSrc) else Foretold pSrc

def charBytes (wc : UInt16) : Bytes := cdpMulti_put cdp 2 [] wc

/-- No two characters that follow each other are written as a pair that is listed. -/
def NoAccident : List UInt16 → Prop
  | [] => True
  | wc :: chars =>
    (∀ uc, charBytes cdp wc = [uc] → ∀ uc2 ∈ (chars.flatMap (charBytes cdp)).head?,
      cdp.listed uc uc2 = 0) ∧ NoAccident chars

def CodePage.Has (wc : UInt16) : Prop :=
  (∃ uc, tableChar cdp.uniCodes uc = wc) ∨
    wc ≠ 0 ∧ ∃ m ∈ cdp.multi, wc = m.wcUp ∨ wc = m.wcLo

/-- Each pair of bytes has a value of its own, that no byte has. The first byte of the tables of
the code pages is zero. -/
structure CodePage.Distinct : Prop where
  zero : cdp.uniCodes.getD 0 0 = 0
  up : ∀ m ∈ cdp.multi, m.wcUp ≠ 0 → cdp.listed m.cFirst.1 m.cLast.1 = m.wcUp
  lo : ∀ m ∈ cdp.multi, m.wcLo ≠ 0 → cdp.listed m.cFirst.2 m.cLast.2 = m.wcLo
  single : ∀ m ∈ cdp.multi, ∀ uc wc, wc ≠ 0 → wc = m.wcUp ∨ wc = m.wcLo →
    tableChar cdp.uniCodes uc ≠ wc

end Meaning

variable {nIndex nLen : Nat} {pDst pSrc rest : Bytes} {uc uc2 : UInt8} {wc : UInt16}
  {chars uniCodes : List UInt16}

section Read

variable {cdp : CodePage}

theorem multiCode_mem {multi : List MultiChar} (h : cdp.multiCode uc uc2 multi ≠ 0) :
    ∃ m ∈ multi, cdp.multiCode uc uc2 multi = m.wcUp ∨ cdp.multiCode uc uc2 multi = m.wcLo := by
  induction multi with
  | nil => exact absurd rfl h
  | cons m multi ih =>
    rw [CodePage.multiCode] at h ⊢
    split_ifs at h ⊢
    · exact ⟨m, mem_cons_self, .inl rfl⟩
    · exact ⟨m, mem_cons_self, .inr rfl⟩
    all_goals
      obtain ⟨m', hm', hcode⟩ := ih h
      exact ⟨m', mem_cons_of_mem _ hm', hcode⟩

theorem sameChar_iff {c : UInt8} :
    cdp.sameChar uc c = true ↔ uc = c ∧ ¬(cdp.fSigned = true ∧ 0x80 ≤ uc) := by
  rw [CodePage.sameChar, decide_eq_true_iff]
  exact and_congr_right fun heq => by rw [heq]

/-- Where no byte is negative, the look-up takes the first pair that is listed. -/
theorem multiCode_eq (hsign : ¬(cdp.fSigned = true ∧ (0x80 ≤ uc ∨ 0x80 ≤ uc2)))
    (multi : List MultiChar) :
    cdp.multiCode uc uc2 multi = match multi.find? (isPair uc uc2) with
      | some m => if uc = m.cFirst.1 then m.wcUp else m.wcLo
      | none => 0 := by
  have hsame : ∀ c, cdp.sameChar uc c = true ↔ uc = c :=
    fun c => sameChar_iff.trans (and_iff_left fun h => hsign ⟨h.1, .inl h.2⟩)
  have hsame2 : ∀ c, cdp.sameChar uc2 c = true ↔ uc2 = c :=
    fun c => sameChar_iff.trans (and_iff_left fun h => hsign ⟨h.1, .inr h.2⟩)
  induction multi with
  | nil => rfl
  | cons m multi ih =>
    rw [CodePage.multiCode, find?_cons]
    simp only [hsame, hsame2, isPair, Bool.decide_and]
    by_cases hlast : uc2 = m.cLast.1 ∨ uc2 = m.cLast.2
    · by_cases hup : uc = m.cFirst.1
      · simp [hlast, hup]
      · by_cases hlo : uc = m.cFirst.2
        · simp [hlast, hlo]
        · simp [hlast, hup, hlo, ih]
    · simp [hlast, ih]

theorem multiCode_signed (hsign : cdp.fSigned = true ∧ (0x80 ≤ uc ∨ 0x80 ≤ uc2))
    (multi : List MultiChar) : cdp.multiCode uc uc2 multi = 0 := by
  have hsame : ∀ b c, 0x80 ≤ b → cdp.sameChar b c = false := fun b c hb =>
    Bool.eq_false_iff.mpr fun h => (sameChar_iff.mp h).2 ⟨hsign.1, hb⟩
  induction multi with
  | nil => rfl
  | cons m multi ih =>
    rw [CodePage.multiCode]
    rcases hsign.2 with hb | hb
    · simp [hsame uc _ hb, ih]
    · simp [hsame uc2 _ hb, ih]

theorem seen_eq (uc uc2 : UInt8) :
    cdp.seen uc uc2 = if cdp.readable uc uc2 then cdp.listed uc uc2 else 0 := by
  unfold CodePage.seen
  by_cases hflag : cdp.multi2 uc2 = true
  · by_cases hsign : cdp.fSigned = true ∧ (0x80 ≤ uc ∨ 0x80 ≤ uc2)
    · rw [if_pos hflag, if_neg fun h => (of_decide_eq_true h).2 hsign, multiCode_signed hsign]
    · have hreadable : cdp.readable uc uc2 = true := decide_eq_true ⟨hflag, hsign⟩
      rw [if_pos hflag, if_pos hreadable, multiCode_eq hsign]
      rfl
  · rw [if_neg hflag, if_neg fun h => hflag (of_decide_eq_true h).1]

theorem foretold_pair {uc3 : UInt8} :
    (if cdp.readable uc uc3 then cdp.listed uc uc3 = cdp.listed uc uc2
      else cdp.listed uc uc2 = 0) ↔ cdp.seen uc uc3 = cdp.listed uc uc2 := by
  rw [seen_eq]
  split
  · rfl
  · exact eq_comm

theorem CodePage.Distinct.seen_ne (h : cdp.Distinct) (hseen : cdp.seen uc uc2 ≠ 0) (b : UInt8) :
    tableChar cdp.uniCodes b ≠ cdp.seen uc uc2 := by
  unfold CodePage.seen at hseen ⊢
  split_ifs at hseen ⊢
  · obtain ⟨m, hm, hcode⟩ := multiCode_mem hseen
    exact h.single m hm b _ hseen hcode
  · exact absurd rfl hseen

theorem CodePage.Distinct.listed_ne (h : cdp.Distinct) (hlisted : cdp.listed uc uc2 ≠ 0)
    (b : UInt8) : tableChar cdp.uniCodes b ≠ cdp.listed uc uc2 := by
  unfold CodePage.listed at hlisted ⊢
  cases hfind : cdp.multi.find? (isPair uc uc2) with
  | none => simp [hfind] at hlisted
  | some m =>
    simp only [hfind] at hlisted ⊢
    refine h.single m (mem_of_find?_eq_some hfind) b _ hlisted ?_
    split_ifs
    · exact .inl rfl
    · exact .inr rfl

theorem get_of_drop (hdrop : pSrc.drop nIndex = uc :: rest) :
    cdpMulti_get cdp pSrc nIndex =
      if cdp.starts uc ∧ rest ≠ [] then
        match rest.tail.head? with
        | none => .outside
        | some uc2 =>
          if cdp.seen uc uc2 ≠ 0 then .char (cdp.seen uc uc2) (nIndex + 2)
          else .char (tableChar cdp.uniCodes uc) (nIndex + 1)
      else .char (tableChar cdp.uniCodes uc) (nIndex + 1) := by
  have hget : ∀ n, pSrc[nIndex + n]? = (uc :: rest)[n]? := fun n => by
    rw [← hdrop, getElem?_drop]
  have hlen : nIndex + 1 < pSrc.length ↔ rest ≠ [] := by
    have h := congrArg length hdrop
    rw [length_drop, length_cons] at h
    rw [← length_pos_iff]
    omega
  have hnext : pSrc[nIndex + 1 + 1]? = rest.tail.head? := by
    rw [Nat.add_assoc, hget, getElem?_cons_succ]
    cases rest with
    | nil => rfl
    | cons uc2 rest => simp [head?_eq_getElem?]
  have hfirst : pSrc[nIndex]? = some uc := by simpa using hget 0
  simp only [cdpMulti_get, hfirst, hlen, hnext]

theorem map_cons_eq_some {wc' : UInt16} {chars : Option (List UInt16)} {rest : List UInt16} :
    chars.map (wc :: ·) = some (wc' :: rest) ↔ wc = wc' ∧ chars = some rest := by
  cases chars with
  | none => simp
  | some chars => simp

theorem getAll_of_drop (hdistinct : cdp.Distinct) {fuel : Nat} (hdrop : pSrc.drop nIndex = rest)
    (hfuel : rest.length < fuel) :
    getAll cdp pSrc fuel nIndex = some (meaning cdp rest) ↔ Foretold cdp rest := by
  induction fuel generalizing nIndex rest with
  | zero => exact absurd hfuel (Nat.not_lt_zero _)
  | succ fuel ih =>
    have hskip : ∀ n, pSrc.drop (nIndex + n) = rest.drop n := fun n => by
      rw [← hdrop, drop_drop]
    match rest with
    | [] =>
      have hget : cdpMulti_get cdp pSrc nIndex = .finished := by
        have hlen : pSrc.length ≤ nIndex := drop_eq_nil_iff.mp hdrop
        simp [cdpMulti_get, getElem?_eq_none hlen]
      simp [getAll, hget, meaning, Foretold]
    | [uc] =>
      have hget : cdpMulti_get cdp pSrc nIndex = _ := get_of_drop hdrop
      have hrest : getAll cdp pSrc fuel (nIndex + 1) = some [] :=
        (ih (hskip 1) (Nat.succ_lt_succ_iff.mp hfuel)).mpr trivial
      simp [getAll, hget, hrest, meaning, Foretold]
    | uc :: uc2 :: rest =>
      have hget : cdpMulti_get cdp pSrc nIndex = _ := get_of_drop hdrop
      have hone : getAll cdp pSrc fuel (nIndex + 1) = some (meaning cdp (uc2 :: rest)) ↔ _ :=
        ih (hskip 1) (Nat.succ_lt_succ_iff.mp hfuel)
      have htwo : getAll cdp pSrc fuel (nIndex + 2) = some (meaning cdp rest) ↔ _ :=
        ih (hskip 2) (by rw [length_cons, length_cons] at hfuel; omega)
      simp only [getAll, hget, meaning, Foretold, foretold_pair]
      cases hstarts : cdp.starts uc with
      | false =>
        rw [if_neg (by simp)]
        by_cases hlisted : cdp.listed uc uc2 = 0
        · simp only [if_pos hlisted, map_cons_eq_some, hone]
          simp [hlisted]
        · have hne := hdistinct.listed_ne hlisted uc
          simp [hlisted, hne]
      | true =>
        rw [if_pos ⟨rfl, cons_ne_nil uc2 rest⟩, if_pos rfl, tail_cons]
        cases hhead : rest.head? with
        | none => simp
        | some uc3 =>
          by_cases hseen : cdp.seen uc uc3 = 0
          · by_cases hlisted : cdp.listed uc uc2 = 0
            · simp only [hseen, ne_eq, not_true_eq_false, if_false, if_pos hlisted,
                map_cons_eq_some, hone]
              simp [hseen, hlisted]
            · have hne := hdistinct.listed_ne hlisted uc
              simp only [hseen, ne_eq, not_true_eq_false, if_false, if_neg hlisted,
                map_cons_eq_some]
              simp [hseen, hne, Ne.symm hlisted]
          · by_cases hlisted : cdp.listed uc uc2 = 0
            · have hne := hdistinct.seen_ne hseen uc
              simp [hlisted, hseen, Ne.symm hne]
            · simp only [ne_eq, hseen, not_false_eq_true, if_true, if_neg hlisted,
                map_cons_eq_some, htwo]
              simp

end Read

section Write

variable {cdp : CodePage}

theorem uniTrans_last (uniCodes : List UInt16) (wc : UInt16) (n : Nat) :
    (∃ i < n, uniCodes.getD i 0 ≠ 0 ∧ uniCodes.getD i 0 = wc ∧
      (range n).foldl (fun found i =>
        if uniCodes.getD i 0 ≠ 0 ∧ uniCodes.getD i 0 = wc then i.toUInt8 else found) 0 =
          i.toUInt8) ∨
    ((∀ i < n, uniCodes.getD i 0 = wc → wc = 0) ∧
      (range n).foldl (fun found i =>
        if uniCodes.getD i 0 ≠ 0 ∧ uniCodes.getD i 0 = wc then i.toUInt8 else found) 0 = 0) := by
  induction n with
  | zero => exact .inr ⟨fun i hi => absurd hi (Nat.not_lt_zero i), rfl⟩
  | succ n ih =>
    rw [range_succ, foldl_append, foldl_cons, foldl_nil]
    split_ifs with hcode
    · exact .inl ⟨n, Nat.lt_succ_self n, hcode.1, hcode.2, rfl⟩
    · rcases ih with ⟨i, hi, hne, heq, hlast⟩ | ⟨hnone, hlast⟩
      · exact .inl ⟨i, Nat.lt_succ_of_lt hi, hne, heq, hlast⟩
      · refine .inr ⟨fun i hi heq => ?_, hlast⟩
        rcases Nat.lt_succ_iff_lt_or_eq.mp hi with hi | rfl
        · exact hnone i hi heq
        · by_contra hne
          exact hcode ⟨heq ▸ hne, heq⟩

theorem uniTrans_code (h : uniTrans uniCodes wc ≠ 0) :
    tableChar uniCodes (uniTrans uniCodes wc) = wc := by
  rcases uniTrans_last uniCodes wc 256 with ⟨i, hi, hne, heq, hlast⟩ | ⟨_, hlast⟩
  · have hbyte : uniTrans uniCodes wc = i.toUInt8 := hlast
    have hcode : (i.toUInt8).toNat = i := by
      exact Nat.mod_eq_of_lt hi
    rw [hbyte, tableChar, hcode, if_neg hne, heq]
  · exact absurd hlast h

theorem uniCodes_of_uniTrans (hzero : uniCodes.getD 0 0 = 0)
    (h : uniTrans uniCodes (tableChar uniCodes uc) = 0) : tableChar uniCodes uc = uc.toUInt16 := by
  by_cases hcode : uniCodes.getD uc.toNat 0 = 0
  · exact if_pos hcode
  · have hchar : tableChar uniCodes uc = uniCodes.getD uc.toNat 0 := if_neg hcode
    rcases uniTrans_last uniCodes (tableChar uniCodes uc) 256 with
      ⟨i, hi, hne, _, hlast⟩ | ⟨hnone, _⟩
    · have hbyte : i.toUInt8 = 0 := hlast.symm.trans h
      have hi0 : i = 0 := by
        have := congrArg UInt8.toNat hbyte
        exact (Nat.mod_eq_of_lt hi).symm.trans this
      exact absurd hzero (hi0 ▸ hne)
    · exact absurd (hchar ▸ hnone uc.toNat (UInt8.toNat_lt uc) hchar.symm) hcode

theorem put_eq (hroom : pDst.length + (charBytes cdp wc).length ≤ nLen) :
    cdpMulti_put cdp nLen pDst wc = pDst ++ charBytes cdp wc := by
  by_cases htrans : uniTrans cdp.uniCodes wc = 0
  · by_cases hzero : wc = 0
    · have hchar : charBytes cdp wc = [0] := by
        rw [charBytes, cdpMulti_put, if_pos (by decide), if_neg (not_not.mpr htrans),
          if_pos hzero, nil_append]
      rw [hchar, length_singleton] at hroom
      rw [hchar, cdpMulti_put, if_pos (Nat.lt_of_succ_le hroom), if_neg (not_not.mpr htrans),
        if_pos hzero]
    · cases hfind : cdp.multi.find? fun m => wc = m.wcUp ∨ wc = m.wcLo with
      | none =>
        have hchar : charBytes cdp wc = [if 0x100 ≤ wc then 0x3F else wc.toUInt8] := by
          rw [charBytes, cdpMulti_put, if_pos (by decide), if_neg (not_not.mpr htrans),
            if_neg hzero, hfind]
          rfl
        rw [hchar, length_singleton] at hroom
        rw [hchar, cdpMulti_put, if_pos (Nat.lt_of_succ_le hroom), if_neg (not_not.mpr htrans),
          if_neg hzero, hfind]
      | some m =>
        have hchar : charBytes cdp wc = [if wc = m.wcUp then m.cFirst.1 else m.cFirst.2,
            if wc = m.wcUp then m.cLast.1 else m.cLast.2] := by
          rw [charBytes, cdpMulti_put, if_pos (by decide), if_neg (not_not.mpr htrans),
            if_neg hzero, hfind]
          rfl
        rw [hchar, length_cons, length_singleton] at hroom
        rw [hchar, cdpMulti_put, if_pos (by omega), if_neg (not_not.mpr htrans), if_neg hzero,
          hfind]
        exact if_pos hroom
  · have hchar : charBytes cdp wc = [uniTrans cdp.uniCodes wc] := by
      simp [charBytes, cdpMulti_put, htrans]
    rw [hchar, length_singleton] at hroom
    rw [hchar, cdpMulti_put, if_pos (Nat.lt_of_succ_le hroom), if_pos htrans]

theorem cdpMulti_len_eq (cdp : CodePage) (wc : UInt16) :
    cdpMulti_len cdp wc = if cdp.isMulti wc then 2 else 1 := by
  simp only [cdpMulti_len, CodePage.isMulti, decide_eq_true_iff]

theorem charBytes_length_eq (cdp : CodePage) (wc : UInt16) :
    (charBytes cdp wc).length = if cdp.isMulti wc ∧ ¬cdp.hasByte wc then 2 else 1 := by
  have hempty : ([] : Bytes).length < 2 := Nat.zero_lt_two
  have htwo : ([] : Bytes).length + 1 < 2 := Nat.one_lt_two
  unfold charBytes cdpMulti_put
  rw [if_pos hempty]
  by_cases htrans : uniTrans cdp.uniCodes wc ≠ 0
  · have hbyte : cdp.hasByte wc = true := decide_eq_true htrans
    rw [if_pos htrans, if_neg fun h => h.2 hbyte]
    rfl
  rw [if_neg htrans]
  have hbyte : ¬cdp.hasByte wc = true := fun h => htrans (of_decide_eq_true h)
  by_cases hzero : wc = 0
  · rw [if_pos hzero, if_neg fun h => (of_decide_eq_true h.1).1 hzero]
    rfl
  rw [if_neg hzero]
  cases hfind : cdp.multi.find? fun m => wc = m.wcUp ∨ wc = m.wcLo with
  | none =>
    have hnone : ¬cdp.isMulti wc = true := by
      intro h
      obtain ⟨m, hm, hcode⟩ := any_eq_true.mp (of_decide_eq_true h).2
      exact find?_eq_none.mp hfind m hm hcode
    have hone : ¬(cdp.isMulti wc = true ∧ ¬cdp.hasByte wc = true) := fun h => hnone h.1
    rw [if_neg hone]
    rfl
  | some m =>
    have hcode : decide (wc = m.wcUp ∨ wc = m.wcLo) = true := by simpa using find?_some hfind
    have hmulti : cdp.isMulti wc = true :=
      decide_eq_true ⟨hzero, any_eq_true.mpr ⟨m, mem_of_find?_eq_some hfind, hcode⟩⟩
    have hpair : cdp.isMulti wc = true ∧ ¬cdp.hasByte wc = true := ⟨hmulti, hbyte⟩
    rw [if_pos hpair]
    dsimp only
    rw [if_pos htwo]
    rfl

theorem charBytes_cases (hdistinct : cdp.Distinct) (hhas : cdp.Has wc) :
    (∃ uc, charBytes cdp wc = [uc] ∧ tableChar cdp.uniCodes uc = wc ∧ cdpMulti_len cdp wc = 1) ∨
      ∃ uc uc2, charBytes cdp wc = [uc, uc2] ∧ cdp.listed uc uc2 = wc ∧ wc ≠ 0 ∧
        cdpMulti_len cdp wc = 2 := by
  have hsingle : ∀ uc, tableChar cdp.uniCodes uc = wc → cdpMulti_len cdp wc = 1 := by
    intro uc hchar
    refine if_neg ?_
    rintro ⟨hne, hmulti⟩
    obtain ⟨m, hm, hcode⟩ := any_eq_true.mp hmulti
    exact hdistinct.single m hm uc wc hne (of_decide_eq_true hcode) hchar
  by_cases htrans : uniTrans cdp.uniCodes wc = 0
  · by_cases hzero : wc = 0
    · subst hzero
      have hchar : tableChar cdp.uniCodes 0 = 0 := if_pos hdistinct.zero
      exact .inl ⟨0, by simp [charBytes, cdpMulti_put, htrans], hchar, hsingle 0 hchar⟩
    · cases hfind : cdp.multi.find? fun m => wc = m.wcUp ∨ wc = m.wcLo with
      | none =>
        have hnone : ∀ m ∈ cdp.multi, ¬(wc = m.wcUp ∨ wc = m.wcLo) := by
          simpa using hfind
        obtain ⟨uc, hchar⟩ : ∃ uc, tableChar cdp.uniCodes uc = wc := by
          rcases hhas with hbyte | ⟨_, m, hm, hcode⟩
          · exact hbyte
          · exact absurd hcode (hnone m hm)
        have hown : wc = uc.toUInt16 := by
          rw [← hchar] at htrans ⊢
          exact uniCodes_of_uniTrans hdistinct.zero htrans
        have hlow : ¬ 0x100 ≤ wc := by
          rw [hown, UInt16.le_iff_toNat_le, UInt8.toNat_toUInt16]
          exact Nat.not_le.mpr (UInt8.toNat_lt uc)
        refine .inl ⟨uc, ?_, hchar, hsingle uc hchar⟩
        simp only [charBytes, cdpMulti_put, htrans, hzero, hfind, hlow, if_false, length_nil,
          Nat.zero_lt_succ, if_true, ne_eq, not_true_eq_false, nil_append]
        rw [hown]
        simp
      | some m =>
        have hm := mem_of_find?_eq_some hfind
        have hcode : wc = m.wcUp ∨ wc = m.wcLo := by simpa using find?_some hfind
        have hlen : cdpMulti_len cdp wc = 2 :=
          if_pos ⟨hzero, any_eq_true.mpr ⟨m, hm, decide_eq_true hcode⟩⟩
        refine .inr ⟨if wc = m.wcUp then m.cFirst.1 else m.cFirst.2,
          if wc = m.wcUp then m.cLast.1 else m.cLast.2, ?_, ?_, hzero, hlen⟩
        · simp only [charBytes, cdpMulti_put, htrans, hzero, hfind, if_false, length_nil,
            Nat.zero_lt_succ, if_true, ne_eq, not_true_eq_false, nil_append, Nat.zero_add,
            Nat.one_lt_two]
        · by_cases hup : wc = m.wcUp
          · rw [if_pos hup, if_pos hup, hdistinct.up m hm (hup ▸ hzero), hup]
          · have hlo := hcode.resolve_left hup
            rw [if_neg hup, if_neg hup, hdistinct.lo m hm (hlo ▸ hzero), hlo]
  · have hchar := uniTrans_code htrans
    exact .inl ⟨_, by simp [charBytes, cdpMulti_put, htrans], hchar, hsingle _ hchar⟩

theorem charBytes_length (hdistinct : cdp.Distinct) (hhas : cdp.Has wc) :
    (charBytes cdp wc).length = cdpMulti_len cdp wc := by
  rcases charBytes_cases hdistinct hhas with ⟨uc, hbytes, _, hlen⟩ | ⟨uc, uc2, hbytes, _, _, hlen⟩
  · rw [hbytes, hlen]
    rfl
  · rw [hbytes, hlen]
    rfl

theorem foldl_put (hroom : pDst.length + (chars.flatMap (charBytes cdp)).length ≤ nLen) :
    chars.foldl (cdpMulti_put cdp nLen) pDst = pDst ++ chars.flatMap (charBytes cdp) := by
  induction chars generalizing pDst with
  | nil => simp
  | cons wc chars ih =>
    rw [flatMap_cons, length_append] at hroom
    have hput : cdpMulti_put cdp nLen pDst wc = pDst ++ charBytes cdp wc := put_eq (by omega)
    rw [foldl_cons, hput, ih (by rw [length_append]; omega), flatMap_cons,
      append_assoc]

theorem meaning_flatMap (hdistinct : cdp.Distinct) (hhas : ∀ wc ∈ chars, cdp.Has wc)
    (haccident : NoAccident cdp chars) :
    meaning cdp (chars.flatMap (charBytes cdp)) = chars := by
  induction chars with
  | nil => rfl
  | cons wc chars ih =>
    have hrest := ih (fun wc' h => hhas wc' (mem_cons_of_mem _ h)) haccident.2
    rw [flatMap_cons]
    rcases charBytes_cases hdistinct (hhas wc mem_cons_self) with
      ⟨uc, hbytes, hchar, _⟩ | ⟨uc, uc2, hbytes, hlisted, hne, _⟩
    · have hnone := haccident.1 uc hbytes
      rw [hbytes, singleton_append]
      cases hnext : chars.flatMap (charBytes cdp) with
      | nil =>
        rw [hnext, meaning] at hrest
        rw [meaning, hchar, ← hrest]
      | cons uc2 bytes =>
        rw [hnext] at hrest hnone
        rw [meaning, if_pos (hnone uc2 rfl), hchar, hrest]
    · rw [hbytes, cons_append, singleton_append, meaning, hlisted, if_neg hne, hrest]

end Write

section RoundTrip

variable {cdp : CodePage}

/-- Strings are read as they are meant, and what is written is read back, if and only if the byte
behind the next one always tells the same as the next one. -/
theorem cdpMulti_consistent_iff (hdistinct : cdp.Distinct) :
    (∀ pSrc, getAll cdp pSrc (pSrc.length + 1) 0 = some (meaning cdp pSrc) ↔ Foretold cdp pSrc) ∧
    ∀ chars nLen, (∀ wc ∈ chars, cdp.Has wc) → NoAccident cdp chars →
      (chars.map (cdpMulti_len cdp)).sum ≤ nLen →
      putAll cdp nLen chars = chars.flatMap (charBytes cdp) ∧
      (∀ wc ∈ chars, (charBytes cdp wc).length = cdpMulti_len cdp wc) ∧
      (getAll cdp (putAll cdp nLen chars) ((putAll cdp nLen chars).length + 1) 0 = some chars ↔
        Foretold cdp (putAll cdp nLen chars)) := by
  have hread : ∀ pSrc,
      getAll cdp pSrc (pSrc.length + 1) 0 = some (meaning cdp pSrc) ↔ Foretold cdp pSrc :=
    fun pSrc => getAll_of_drop hdistinct (drop_zero ..) (Nat.lt_succ_self _)
  refine ⟨hread, ?_⟩
  intro chars nLen hhas haccident hroom
  have hlen : ∀ wc ∈ chars, (charBytes cdp wc).length = cdpMulti_len cdp wc :=
    fun wc h => charBytes_length hdistinct (hhas wc h)
  have hput : putAll cdp nLen chars = chars.flatMap (charBytes cdp) := by
    have hfold : chars.foldl (cdpMulti_put cdp nLen) [] = [] ++ chars.flatMap (charBytes cdp) := by
      apply foldl_put
      rw [length_nil, Nat.zero_add, length_flatMap, map_congr_left hlen]
      exact hroom
    exact hfold
  refine ⟨hput, hlen, ?_⟩
  have hmeant := hread (chars.flatMap (charBytes cdp))
  rw [meaning_flatMap hdistinct hhas haccident] at hmeant
  rw [hput]
  exact hmeant

def pageCh : CodePage where
  uniCodes := replicate 0x43 0 ++ [0x43]
  multi := [⟨(0x43, 0x63), (0x48, 0x68), 0xE000, 0xE001⟩]
  fSigned := true

theorem pageCh_distinct : pageCh.Distinct where
  zero := rfl
  up := by decide
  lo := by decide
  single := by
    intro m hm uc wc _ hcode
    obtain rfl := mem_singleton.mp hm
    have hcodes : ∀ n, (pageCh.uniCodes.getD n 0).toNat ≤ 0x43 := by
      have hall : ∀ code ∈ pageCh.uniCodes, code.toNat ≤ 0x43 := by
        intro code hmem
        rcases mem_append.mp hmem with hzero | hlast
        · rw [eq_of_mem_replicate hzero]
          decide
        · rw [mem_singleton.mp hlast]
          decide
      intro n
      rw [getD_eq_getElem?_getD]
      cases hcode : pageCh.uniCodes[n]? with
      | none => decide
      | some code => exact hall code (mem_of_getElem? hcode)
    have hlow : (tableChar pageCh.uniCodes uc).toNat < 0xE000 := by
      have hcode := hcodes uc.toNat
      have huc := UInt8.toNat_lt uc
      unfold tableChar
      split_ifs
      · rw [UInt8.toNat_toUInt16]
        omega
      · omega
    rcases hcode with rfl | rfl
    · exact fun heq => absurd (heq ▸ hlow) (by decide)
    · exact fun heq => absurd (heq ▸ hlow) (by decide)

theorem cdpMulti_consistent_iff_ch :
    getAll pageCh [0x43, 0x48, 0x48] 4 0 = some [0xE000, 0x48] ∧
      getAll pageCh (putAll pageCh 3 [0xE000, 0x48]) 4 0 = some [0xE000, 0x48] := by
  have hforetold : Foretold pageCh [0x43, 0x48, 0x48] :=
    ⟨⟨0x48, rfl, by decide⟩, trivial⟩
  have hput : putAll pageCh 3 [0xE000, 0x48] = [0x43, 0x48, 0x48] := by decide +kernel
  have hhas : ∀ wc ∈ [0xE000, 0x48], pageCh.Has wc := by
    intro wc h
    rcases mem_pair.mp h with rfl | rfl
    · exact .inr ⟨by decide, _, mem_singleton.mpr rfl, .inl rfl⟩
    · exact .inl ⟨0x48, by decide⟩
  have haccident : NoAccident pageCh [0xE000, 0x48] := by
    refine ⟨fun uc h => ?_, fun uc _ uc2 h => by simp at h, trivial⟩
    have hbytes : charBytes pageCh 0xE000 = [0x43, 0x48] := by decide +kernel
    simp [hbytes] at h
  obtain ⟨hread, hwritten⟩ := cdpMulti_consistent_iff pageCh_distinct
  refine ⟨(hread [0x43, 0x48, 0x48]).mpr hforetold, ?_⟩
  have hback := (hwritten _ 3 hhas haccident (by decide +kernel)).2.2
  rw [hput] at hback ⊢
  exact hback.mpr hforetold

/-- The letter `CH` alone is not read: the byte that is looked at is behind the string. -/
theorem getAll_ch :
    getAll pageCh [0x43, 0x48] 3 0 = none ∧ meaning pageCh [0x43, 0x48] = [0xE000] := by
  decide

end RoundTrip

end Harbour.Rtl.CdpMulti
