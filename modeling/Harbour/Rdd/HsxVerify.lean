import Mathlib.Data.List.TakeWhile
import Harbour.Rdd.HsxKey

/-!
`hb_hsxVerify` as it reads its two strings byte by byte, and the relation of the two strings
that it decides.
-/

namespace Harbour.Rdd.HsxVerify

open Library.BitSignature HsxKey List Option

section Model

variable (p : HsxInfo) (upper : UInt8 → UInt8)

def byteAt (s : Bytes) (nPos : Nat) : Option UInt8 :=
  (s ++ [0])[nPos]?

/-- The inner loop of `hb_hsxStrCmp`, with the number of bytes that are left to compare. -/
def sameAt (pSub pStr : Bytes) : (n iSub iStr : Nat) → Option Bool
  | 0, _, _ => some true
  | n + 1, iSub, iStr => do
    let c1 ← byteAt pSub iSub
    let c2 ← byteAt pStr iStr
    if p.fold upper c1 = p.fold upper c2 then sameAt pSub pStr n (iSub + 1) (iStr + 1)
    else some false

def strCmpLoop (pSub pStr : Bytes) (iSub nSub : Nat) : (nLen iStr : Nat) → Option Bool
  | 0, _ => some false
  | nLen + 1, iStr =>
    if nSub ≤ nLen + 1 then do
      let fResult ← sameAt p upper pSub pStr nSub iSub iStr
      if fResult then some true else strCmpLoop pSub pStr iSub nSub nLen (iStr + 1)
    else some false

/-- `hb_hsxStrCmp` of two pointers into strings and the two lengths. -/
def hsxStrCmpAt (pSub : Bytes) (iSub nSub : Nat) (pStr : Bytes) (iStr nLen : Nat) : Option Bool :=
  if nSub = 0 then some false else strCmpLoop p upper pSub pStr iSub nSub nLen iStr

def scan (go : UInt8 → Bool) (szSub : Bytes) : (n nPos : Nat) → Option Nat
  | 0, nPos => do
    let _ ← byteAt szSub nPos
    some nPos
  | n + 1, nPos => do
    let c ← byteAt szSub nPos
    if go c then scan go szSub n (nPos + 1) else some nPos

/-- The loop of `HSX_VERIFY_AND`, given up after `fuel` words. -/
def verifyAndLoop (szText szSub : Bytes) : (fuel nPos1 : Nat) → Option Bool
  | 0, _ => none
  | fuel + 1, nPos1 =>
    if nPos1 < szSub.length then do
      let nPos1 ← scan (· = 32) szSub (szSub.length - nPos1) nPos1
      let nPos2 ← scan (· ≠ 32) szSub (szSub.length - nPos1) nPos1
      let fFound ← hsxStrCmpAt p upper szSub nPos1 (nPos2 - nPos1) szText 0 szText.length
      if fFound then verifyAndLoop szText szSub fuel (nPos2 + 1) else some false
    else some true

/-- `hb_hsxVerify`, `none` for a byte read outside of the strings or a loop that does not end. -/
def hsxVerifyAt (szText szSub : Bytes) (iType : VerifyType) : Option Bool :=
  let nLen := szText.length
  let nSub := szSub.length
  if nLen < nSub ∨ nSub = 0 then some false
  else match iType with
    | .verifyBegin => hsxStrCmpAt p upper szSub 0 nSub szText 0 nSub
    | .verifyEnd => hsxStrCmpAt p upper szSub 0 nSub szText (nLen - nSub) nSub
    | .verifyAnd => verifyAndLoop p upper szText szSub (nSub + 1) 0
    | .verifyPhrase => hsxStrCmpAt p upper szSub 0 nSub szText 0 nLen

def words (szSub : Bytes) : List Bytes :=
  (szSub.splitOnP (· = 32)).filter (· ≠ [])

def Matches (szText szSub : Bytes) : VerifyType → Prop
  | .verifyBegin => szSub ≠ [] ∧ szSub.map (p.fold upper) <+: szText.map (p.fold upper)
  | .verifyEnd => szSub ≠ [] ∧ szSub.map (p.fold upper) <:+ szText.map (p.fold upper)
  | .verifyAnd => words szSub ≠ [] ∧
      ∀ word ∈ words szSub, word.map (p.fold upper) <:+: szText.map (p.fold upper)
  | .verifyPhrase => szSub ≠ [] ∧ szSub.map (p.fold upper) <:+: szText.map (p.fold upper)

end Model

section Reads

variable {p : HsxInfo} {upper : UInt8 → UInt8} {szText szSub pSub pStr s : Bytes}

theorem byteAt_of_lt {nPos : Nat} (h : nPos < s.length) : byteAt s nPos = some s[nPos] := by
  rw [byteAt, getElem?_append_left h, getElem?_eq_getElem h]

theorem byteAt_length (s : Bytes) : byteAt s s.length = some 0 :=
  getElem?_concat_length

theorem sameAt_eq (n iSub iStr : Nat) (hsub : iSub + n ≤ pSub.length)
    (hstr : iStr + n ≤ pStr.length) : sameAt p upper pSub pStr n iSub iStr =
      some (hsxSame p upper ((pSub.drop iSub).take n) ((pStr.drop iStr).take n)) := by
  induction n generalizing iSub iStr with
  | zero => rfl
  | succ n ih =>
    have hlt1 : iSub < pSub.length := by omega
    have hlt2 : iStr < pStr.length := by omega
    rw [sameAt, byteAt_of_lt hlt1, byteAt_of_lt hlt2, drop_eq_getElem_cons hlt1,
      drop_eq_getElem_cons hlt2, take_succ_cons, take_succ_cons, hsxSame]
    simp only [bind_eq_bind, bind_some]
    split
    · rename_i heq
      rw [ih _ _ (by omega) (by omega), beq_iff_eq.mpr heq, Bool.true_and]
    · rename_i hne
      rw [beq_eq_false_iff_ne.mpr hne, Bool.false_and]

theorem hsxSame_take {n : Nat} (h : pSub.length ≤ n) :
    hsxSame p upper pSub (pStr.take n) = hsxSame p upper pSub pStr := by
  rw [Bool.eq_iff_iff, hsxSame_iff, hsxSame_iff, map_take, prefix_take_iff,
    length_map]
  exact and_iff_left h

theorem strCmpLoop_eq {iSub nSub : Nat} (hpos : nSub ≠ 0) (hsub : iSub + nSub ≤ pSub.length)
    (nLen iStr : Nat) (hstr : iStr + nLen ≤ pStr.length) :
    strCmpLoop p upper pSub pStr iSub nSub nLen iStr =
      some (hsxStrCmpLoop p upper ((pSub.drop iSub).take nSub) ((pStr.drop iStr).take nLen)) := by
  have hlength : ((pSub.drop iSub).take nSub).length = nSub := by
    rw [length_take, length_drop]
    omega
  induction nLen generalizing iStr with
  | zero =>
    rw [strCmpLoop, take_zero, hsxStrCmpLoop, hlength, decide_eq_false (by omega),
      Bool.false_and]
  | succ nLen ih =>
    have hlt : iStr < pStr.length := by omega
    have hrest : ((pStr.drop (iStr + 1)).take nLen).length = nLen := by
      rw [length_take, length_drop]
      omega
    have hhere : (pStr.drop iStr).take (nLen + 1) =
        pStr[iStr] :: (pStr.drop (iStr + 1)).take nLen := by
      rw [drop_eq_getElem_cons hlt, take_succ_cons]
    rw [strCmpLoop, hhere, hsxStrCmpLoop, hlength, hrest, ← hhere]
    split
    · rename_i hfits
      rw [sameAt_eq _ _ _ hsub (by omega), hsxSame_take (n := nSub) (by omega), ih _ (by omega)]
      rw [hsxSame_take (n := nLen + 1) (by omega)]
      cases hsxSame p upper ((pSub.drop iSub).take nSub) (pStr.drop iStr) <;> rfl
    · rfl

theorem hsxStrCmpAt_eq {iSub nSub iStr nLen : Nat} (hsub : iSub + nSub ≤ pSub.length)
    (hstr : iStr + nLen ≤ pStr.length) :
    hsxStrCmpAt p upper pSub iSub nSub pStr iStr nLen =
      some (hsxStrCmp p upper ((pSub.drop iSub).take nSub) ((pStr.drop iStr).take nLen)) := by
  unfold hsxStrCmpAt hsxStrCmp
  split
  · rename_i hzero
    rw [hzero, take_zero, if_pos rfl]
  · rename_i hpos
    rw [strCmpLoop_eq hpos hsub _ _ hstr, if_neg]
    intro hnil
    have hlength := congrArg length hnil
    rw [length_take, length_drop, length_nil] at hlength
    omega

theorem scan_eq (go : UInt8 → Bool) (n nPos : Nat) (h : nPos + n = s.length) :
    scan go s n nPos = some (nPos + ((s.drop nPos).takeWhile go).length) := by
  induction n generalizing nPos with
  | zero =>
    obtain rfl : nPos = s.length := h
    rw [scan, byteAt_length, drop_length]
    rfl
  | succ n ih =>
    have hlt : nPos < s.length := by omega
    rw [scan, byteAt_of_lt hlt, drop_eq_getElem_cons hlt, takeWhile_cons]
    simp only [bind_eq_bind, bind_some]
    split
    · rw [ih _ (by omega), length_cons]
      congr 1
      omega
    · rfl

theorem dropWhile_eq_drop (go : UInt8 → Bool) (s : Bytes) :
    s.dropWhile go = s.drop (s.takeWhile go).length :=
  calc s.dropWhile go
      = (s.takeWhile go ++ s.dropWhile go).drop (s.takeWhile go).length := drop_left.symm
    _ = s.drop (s.takeWhile go).length := by rw [takeWhile_append_dropWhile]

theorem takeWhile_bounds (go : UInt8 → Bool) {nPos : Nat} (h : nPos ≤ s.length) :
    nPos + ((s.drop nPos).takeWhile go).length ≤ s.length := by
  have hle := ( takeWhile_prefix go (l := s.drop nPos)).length_le
  rw [length_drop] at hle
  omega

theorem verifyAndLoop_eq (fuel nPos1 : Nat) (hfuel : szSub.length - nPos1 < fuel) :
    verifyAndLoop p upper szText szSub fuel nPos1 =
      some (hsxVerifyAnd p upper szText (szSub.drop nPos1)) := by
  induction fuel generalizing nPos1 with
  | zero => omega
  | succ fuel ih =>
    rw [verifyAndLoop]
    split
    · rename_i hlt
      have hblanks := takeWhile_bounds (· = 32) hlt.le
      rw [scan_eq _ _ _ (by omega), drop_eq_getElem_cons hlt, hsxVerifyAnd,
        ← drop_eq_getElem_cons hlt]
      simp only [bind_eq_bind, bind_some]
      rw [dropWhile_eq_drop, drop_drop]
      generalize hnWord : nPos1 + ((szSub.drop nPos1).takeWhile (· = 32)).length = nWord at hblanks
      have hword := takeWhile_bounds (· ≠ 32) hblanks
      have htake := prefix_iff_eq_take.mp
        ( takeWhile_prefix (· ≠ 32) (l := szSub.drop nWord))
      rw [scan_eq _ _ _ (by omega)]
      simp only [bind_some]
      rw [hsxStrCmpAt_eq (by omega) (by omega), Nat.add_sub_cancel_left, ← htake,
        drop_zero, take_length, drop_drop, drop_drop]
      simp only [bind_some]
      split
      · exact ih _ (by omega)
      · rfl
    · rename_i hend
      rw [drop_eq_nil_of_le (by omega), hsxVerifyAnd]

theorem hsxVerifyAt_eq (iType : VerifyType) :
    hsxVerifyAt p upper szText szSub iType = some (hsxVerify p upper szText szSub iType) := by
  unfold hsxVerifyAt hsxVerify
  dsimp only
  split
  · rfl
  · cases iType with
    | verifyBegin =>
      rw [hsxStrCmpAt_eq (by omega) (by omega), drop_zero, take_length, drop_zero]
    | verifyEnd =>
      dsimp only
      rw [hsxStrCmpAt_eq (by omega) (by omega), drop_zero, take_length,
        take_of_length_le (by rw [length_drop]; omega)]
    | verifyAnd => exact verifyAndLoop_eq _ _ (by omega)
    | verifyPhrase =>
      dsimp only
      rw [hsxStrCmpAt_eq (by omega) (by omega), drop_zero, take_length, drop_zero,
        take_length]

end Reads

section Words

variable {p : HsxInfo} {upper : UInt8 → UInt8} {szText szSub word blanks : Bytes}

theorem words_cons_blank (szSub : Bytes) : words (32 :: szSub) = words szSub := by
  simp [words, splitOnP_cons_eq_if_modifyHead]

theorem words_blanks (h : ∀ c ∈ blanks, c = 32) (szSub : Bytes) :
    words (blanks ++ szSub) = words szSub := by
  induction blanks with
  | nil => rfl
  | cons c blanks ih =>
    obtain rfl := h c mem_cons_self
    rw [cons_append, words_cons_blank, ih fun d hd => h d (mem_cons_of_mem _ hd)]

theorem words_word (h : ∀ c ∈ word, c ≠ 32) (hne : word ≠ []) : words word = [word] := by
  rw [words, splitOnP_eq_singleton (by simpa using h)]
  simp [hne]

theorem words_word_blank (h : ∀ c ∈ word, c ≠ 32) (hne : word ≠ []) (szSub : Bytes) :
    words (word ++ 32 :: szSub) = word :: words szSub := by
  rw [words, splitOnP_append_cons_of_forall_mem (by simpa using h) 32 (by decide), words]
  simp [hne]

theorem words_eq_nil : words szSub = [] ↔ ∀ c ∈ szSub, c = 32 := by
  induction szSub with
  | nil => simp [words]
  | cons c szSub ih =>
    by_cases hc : c = 32
    · rw [hc, words_cons_blank, ih, forall_mem_cons]
      simp
    · refine iff_of_false ?_ fun h => hc (h c mem_cons_self)
      obtain ⟨first, rest, hsplit⟩ :=
        exists_cons_of_ne_nil (splitOnP_ne_nil (fun d => decide (d = 32)) szSub)
      simp [words, splitOnP_cons_eq_if_modifyHead, hc, hsplit]

theorem exists_word (szSub : Bytes) : ∃ blanks word tail : Bytes,
    szSub = blanks ++ word ++ tail ∧ (∀ c ∈ blanks, c = 32) ∧ (∀ c ∈ word, c ≠ 32) ∧
      szSub.dropWhile (· = 32) = word ++ tail ∧ (word ++ tail).takeWhile (· ≠ 32) = word ∧
      (tail = [] ∨ word ≠ [] ∧ ∃ rest, tail = 32 :: rest) := by
  set main := szSub.dropWhile (· = 32) with hmain
  have hsplit : main.takeWhile (· ≠ 32) ++ main.dropWhile (· ≠ 32) = main :=
    takeWhile_append_dropWhile
  refine ⟨szSub.takeWhile (· = 32), main.takeWhile (· ≠ 32), main.dropWhile (· ≠ 32),
    ?_, ?_, ?_, hsplit.symm, by rw [hsplit], ?_⟩
  · rw [append_assoc, hsplit, takeWhile_append_dropWhile]
  · exact fun c hc => by simpa using mem_takeWhile_imp hc
  · exact fun c hc => by simpa using mem_takeWhile_imp hc
  · cases htail : main.dropWhile (· ≠ 32) with
    | nil => exact .inl rfl
    | cons d rest =>
      have hd := head?_dropWhile_not (fun c => decide (c ≠ 32)) main
      rw [htail] at hd
      obtain rfl : d = 32 := by simpa using hd
      refine .inr ⟨fun hword => ?_, rest, rfl⟩
      -- no blank stands at the head of what is left behind the blanks
      rw [hword, htail, nil_append] at hsplit
      have hhead := head?_dropWhile_not (fun c => decide (c = 32)) szSub
      rw [← hmain, ← hsplit] at hhead
      simp at hhead

theorem suffix_word_iff (h : ∀ c ∈ word, c ≠ 32) (hne : word ≠ []) (front rest : Bytes) :
    [32, 32] <:+ front ++ word ++ 32 :: rest ↔ rest = [32] ∨ [32, 32] <:+ rest := by
  obtain ⟨start, d, rfl⟩ := (eq_nil_or_concat' word).resolve_left hne
  have hd : d ≠ 32 := h d (by simp)
  have hshape : front ++ (start ++ [d]) ++ 32 :: rest = front ++ start ++ d :: 32 :: rest := by
    simp
  have hend : d :: 32 :: rest <:+ front ++ start ++ d :: 32 :: rest := suffix_append _ _
  have hsplit : [32, 32] <:+ d :: 32 :: rest ↔ rest = [32] ∨ [32, 32] <:+ rest := by
    rw [suffix_cons_iff, suffix_cons_iff]
    constructor
    · rintro (heq | heq | hrest)
      · exact absurd (List.cons.inj heq).1.symm hd
      · exact .inl (List.cons.inj heq).2.symm
      · exact .inr hrest
    · rintro (rfl | hrest)
      · exact .inr (.inl rfl)
      · exact .inr (.inr hrest)
  rw [hshape, ← hsplit]
  exact ⟨fun hall => suffix_of_suffix_length_le hall hend (by simp),
    fun hlast => hlast.trans hend⟩

theorem eq_of_words_nil (h : words szSub = []) (hne : szSub ≠ []) :
    szSub = [32] ∨ [32, 32] <:+ szSub := by
  have hblank : szSub = replicate szSub.length 32 :=
    eq_replicate_of_mem (words_eq_nil.mp h)
  match hlength : szSub.length with
  | 0 => exact absurd (eq_nil_of_length_eq_zero hlength) hne
  | 1 =>
    rw [hlength] at hblank
    exact .inl hblank
  | n + 2 =>
    have hlast : szSub = replicate n 32 ++ replicate 2 32 := by
      rw [hblank, hlength]
      exact replicate_add n 2 32
    rw [hlast]
    exact .inr (suffix_append _ _)

theorem hsxVerifyAnd_iff : hsxVerifyAnd p upper szText szSub = true ↔
    (szSub = [] ∨ Matches p upper szText szSub .verifyAnd) ∧ ¬ [32, 32] <:+ szSub := by
  induction hlength : szSub.length using Nat.strong_induction_on generalizing szSub with
  | h n ih =>
    obtain ⟨blanks, word, tail, hszSub, hblanks, hword, hmain, htake, htail⟩ := exists_word szSub
    cases hcons : szSub with
    | nil => simp [hsxVerifyAnd]
    | cons c s =>
      have hnil : szSub ≠ [] := hcons ▸ cons_ne_nil _ _
      have hwords : words szSub = words (word ++ tail) := by
        rw [hszSub, append_assoc, words_blanks hblanks]
      rw [hsxVerifyAnd, ← hcons, hmain, htake, drop_left]
      by_cases hempty : word = []
      · -- the empty word, which is never found, is met where only blanks are left
        have hblank : words szSub = [] := by
          obtain rfl : tail = [] := htail.resolve_right fun hrest => hrest.1 hempty
          rw [hwords, hempty]
          rfl
        simp [hempty, hsxStrCmp, Matches, hblank, hnil]
      · rcases htail with rfl | ⟨-, rest, rfl⟩
        · have hlast : ¬ [32, 32] <:+ szSub := by
            obtain ⟨start, d, rfl⟩ := (eq_nil_or_concat' word).resolve_left hempty
            rintro ⟨front, hfront⟩
            have hd := congrArg getLast? (hfront.trans hszSub)
            exact hword d (by simp) (by simpa using hd.symm)
          rw [append_nil, words_word hword hempty] at hwords
          simp [hsxVerifyAnd, hsxStrCmp_iff, Matches, hwords, hempty, hnil, hlast]
        · have hshorter : rest.length < n := by
            rw [← hlength, hszSub]
            simp
            omega
          have hrest := ih _ hshorter rfl
          rw [words_word_blank hword hempty] at hwords
          have hends := suffix_word_iff hword hempty blanks rest
          rw [← hszSub] at hends
          have hloop : ((if hsxStrCmp p upper word szText then hsxVerifyAnd p upper szText rest
              else false) = true) ↔ hsxStrCmp p upper word szText = true ∧
                hsxVerifyAnd p upper szText rest = true := by
            split <;> simp_all
          rw [drop_one, tail_cons, hloop, hrest, hsxStrCmp_iff]
          simp only [Matches, hwords, forall_mem_cons]
          constructor
          · rintro ⟨⟨-, hin⟩, hfound, hno⟩
            refine ⟨.inr ⟨cons_ne_nil _ _, hin, ?_⟩, ?_⟩
            · rcases hfound with rfl | hfound
              · exact fun w hw => absurd hw not_mem_nil
              · exact hfound.2
            · rw [hends]
              rintro (rfl | hsuffix)
              · exact hfound.elim (cons_ne_nil _ _) fun hwords => hwords.1 rfl
              · exact hno hsuffix
          · rintro ⟨hall | ⟨-, hin, hall⟩, hno⟩
            · exact absurd hall hnil
            · refine ⟨⟨hempty, hin⟩, ?_, fun hsuffix => hno (hends.mpr (.inr hsuffix))⟩
              by_cases hrestNil : rest = []
              · exact .inl hrestNil
              · refine .inr ⟨fun hlone => hno (hends.mpr ?_), hall⟩
                exact eq_of_words_nil hlone hrestNil

end Words

section Results

variable (p : HsxInfo) (upper : UInt8 → UInt8) (szText szSub : Bytes)

/-- The texts with every word of a search string that the mode of the words passes over: the text
is the shorter of the two strings, or blanks stand at the end of the search string and the empty
word between them is sought as well. -/
def Overlooked : Prop :=
  Matches p upper szText szSub .verifyAnd ∧
    (szText.length < szSub.length ∨ [32, 32] <:+ szSub)

theorem matches_of_length (iType : VerifyType) (hiType : iType ≠ .verifyAnd)
    (h : Matches p upper szText szSub iType) : szSub ≠ [] ∧ szSub.length ≤ szText.length := by
  cases iType with
  | verifyBegin => exact ⟨h.1, by simpa using h.2.length_le⟩
  | verifyEnd => exact ⟨h.1, by simpa using h.2.length_le⟩
  | verifyAnd => exact absurd rfl hiType
  | verifyPhrase => exact ⟨h.1, by simpa using h.2.length_le⟩

theorem hsxVerify_iff (iType : VerifyType) : hsxVerify p upper szText szSub iType = true ↔
    Matches p upper szText szSub iType ∧
      ¬ (iType = .verifyAnd ∧ Overlooked p upper szText szSub) := by
  unfold hsxVerify
  split
  · rename_i hlong
    refine iff_of_false (by simp) fun ⟨hmatches, hnot⟩ => ?_
    by_cases hiType : iType = .verifyAnd
    · subst hiType
      rcases hlong with hlong | hzero
      · exact hnot ⟨rfl, hmatches, .inl hlong⟩
      · obtain rfl := eq_nil_of_length_eq_zero hzero
        exact hmatches.1 rfl
    · have hlength := matches_of_length p upper szText szSub iType hiType hmatches
      have hpos := length_pos_iff.mpr hlength.1
      omega
  · rename_i hfits
    have hfit : szSub.length ≤ szText.length := by omega
    have hne : szSub ≠ [] := fun hnil => hfits (.inr (by rw [hnil]; rfl))
    cases iType with
    | verifyBegin =>
      have htake : (szSub.map (p.fold upper)).length =
          ((szText.take szSub.length).map (p.fold upper)).length := by simp [hfit]
      simp only [hsxStrCmp_iff, Matches, reduceCtorEq, false_and, not_false_eq_true, and_true]
      refine and_congr_right fun _ => ⟨fun hin => ?_, fun hpre => ?_⟩
      · rw [hin.eq_of_length htake]
        exact ( take_prefix _ _).map _
      · rw [map_take, ← length_map (p.fold upper), ← prefix_iff_eq_take.mp hpre]
    | verifyEnd =>
      have hdrop : (szSub.map (p.fold upper)).length =
          ((szText.drop (szText.length - szSub.length)).map (p.fold upper)).length := by
        rw [length_map, length_map, length_drop]
        omega
      simp only [hsxStrCmp_iff, Matches, reduceCtorEq, false_and, not_false_eq_true, and_true]
      refine and_congr_right fun _ => ⟨fun hin => ?_, fun hsuf => ?_⟩
      · rw [hin.eq_of_length hdrop]
        exact (drop_suffix _ _).map _
      · have heq := suffix_iff_eq_drop.mp hsuf
        rw [length_map, length_map] at heq
        rw [map_drop, ← heq]
    | verifyAnd =>
      simp only [hsxVerifyAnd_iff, hne, false_or, true_and, Overlooked]
      have hshort : ¬ szText.length < szSub.length := by omega
      refine and_congr_right fun hmatches => ?_
      simp only [hmatches, hshort, true_and, false_or]
    | verifyPhrase =>
      simp only [hsxStrCmp_iff, Matches, reduceCtorEq, false_and, not_false_eq_true, and_true]

/-- `hb_hsxVerify` reads its strings up to the zero behind them and ends; it answers what its mode
says, but for the mode of the words exactly when the two strings are not overlooked. -/
theorem hsxVerifyAt_decides (iType : VerifyType) :
    ∃ fFound, hsxVerifyAt p upper szText szSub iType = some fFound ∧
      ((fFound = true ↔ Matches p upper szText szSub iType) ↔
        ¬ (iType = .verifyAnd ∧ Overlooked p upper szText szSub)) := by
  refine ⟨_, hsxVerifyAt_eq iType, ?_⟩
  rw [hsxVerify_iff]
  constructor
  · rintro hsame ⟨rfl, hover⟩
    exact (hsame.mpr hover.1).2 ⟨rfl, hover⟩
  · exact fun hnot => and_iff_left hnot

/-- The text "abcd" has the word that is sought, but two blanks follow the word. -/
theorem hsxVerifyAt_two_blanks :
    ¬ (hsxVerifyAt (hsxSettings 2 false 1) id [97, 98, 99, 100] [97, 98, 32, 32] .verifyAnd =
        some true ↔
      Matches (hsxSettings 2 false 1) id [97, 98, 99, 100] [97, 98, 32, 32] .verifyAnd) := by
  have hyes : Matches (hsxSettings 2 false 1) id [97, 98, 99, 100] [97, 98, 32, 32]
      .verifyAnd := by
    constructor
    · decide +kernel
    · decide +kernel
  exact fun hsame => absurd (hsame.mpr hyes) (by decide)

end Results

end Harbour.Rdd.HsxVerify
