import Harbour.Rtl.CdpSizes

/-!
The length that is told for a conversion is the length of what is written.
-/

namespace Harbour.Rtl.CdpSizes

open Cdpapi CdpMulti Library.Scan List

/-- The characters of a UTF-8 string, with what is left of the last one. -/
def utf8Read (pSrc : Bytes) : List UInt16 × Bytes × Nat × UInt16 :=
  drain utf8Next (fuelUTF8 pSrc) (pSrc, 0, 0)

def Own.chars (page : Own) (pEnd : UInt8) (pSrc : Bytes) : List UInt16 :=
  (drain (page.get pEnd) (pSrc.length + 1) pSrc).1

theorem nextChar_stays {ucChar : UInt8} {n : Nat} {wc : UInt16}
    (h : (cdpUTF8ToU16NextChar ucChar n wc).1 = false) :
    0 < n ∧ (cdpUTF8ToU16NextChar ucChar n wc).2.1 = 0 := by
  unfold cdpUTF8ToU16NextChar at h ⊢
  split_ifs at h ⊢ with hn
  exact ⟨hn, rfl⟩

theorem utf8Next_shrinks :
    Shrinks utf8Next fun source => 2 * source.1.length + if 0 < source.2.1 then 1 else 0 := by
  rintro ⟨pSrc, n, wc⟩ a rest hnext
  cases pSrc with
  | nil => cases hnext
  | cons ucChar pSrc =>
    obtain ⟨rfl, rfl⟩ := Prod.mk.inj (Option.some.inj hnext)
    cases hused : (cdpUTF8ToU16NextChar ucChar n wc).1 with
    | false =>
      obtain ⟨hn, hnone⟩ := nextChar_stays hused
      simp [hnone, hn]
    | true =>
      simp only [if_true, length_cons]
      split_ifs <;> omega

theorem fuelUTF8_lt (pSrc : Bytes) :
    2 * (pSrc, 0, (0 : UInt16)).1.length + (if 0 < (pSrc, 0, (0 : UInt16)).2.1 then 1 else 0) <
      fuelUTF8 pSrc := by
  simp [fuelUTF8]

theorem Own.get_shrinks (page : Own) (pEnd : UInt8) : Shrinks (page.get pEnd) List.length := by
  intro pSrc a rest hnext
  cases pSrc with
  | nil => cases hnext
  | cons uc pSrc =>
    cases page with
    | table uniCodes =>
      obtain ⟨-, rfl⟩ := Prod.mk.inj (Option.some.inj hnext)
      exact Nat.lt_succ_self _
    | multi cdp =>
      rw [Own.get] at hnext
      split at hnext
      · obtain ⟨-, rfl⟩ := Prod.mk.inj (Option.some.inj hnext)
        rw [length_tail, length_cons]
        omega
      · obtain ⟨-, rfl⟩ := Prod.mk.inj (Option.some.inj hnext)
        exact Nat.lt_succ_self _

theorem wordNext_shrinks (fSwap : Bool) : Shrinks (wordNext fSwap) List.length := by
  intro pSrc a rest hnext
  cases pSrc with
  | nil => cases hnext
  | cons wc pSrc =>
    obtain ⟨-, rfl⟩ := Prod.mk.inj (Option.some.inj hnext)
    exact Nat.lt_succ_self _

theorem drain_wordNext (fSwap : Bool) (pSrc : List UInt16) :
    (drain (wordNext fSwap) (pSrc.length + 1) pSrc).1 = pSrc.map (ordered fSwap) := by
  induction pSrc with
  | nil => rfl
  | cons wc pSrc ih =>
    rw [map_cons, ← ih]
    rfl

theorem Own.chars_table (uniCodes : List UInt16) (pEnd : UInt8) (pSrc : Bytes) :
    (Own.table uniCodes).chars pEnd pSrc = pSrc.map (tableChar uniCodes) := by
  induction pSrc with
  | nil => rfl
  | cons uc pSrc ih =>
    rw [map_cons, ← ih]
    rfl

/-- The bytes of a character: two where only a pair has its code. -/
def Own.size (page : Own) (wc : UInt16) : Nat :=
  match page with
  | .multi cdp => if cdp.isMulti wc ∧ ¬cdp.hasByte wc then 2 else 1
  | .table _ => 1

/-- Both a pair and a byte have the code of the character. -/
def Own.isDouble (page : Own) (wc : UInt16) : Bool :=
  match page with
  | .multi cdp => cdp.isMulti wc && cdp.hasByte wc
  | .table _ => false

theorem Own.len_eq (page : Own) (wc : UInt16) :
    page.len wc = page.size wc + if page.isDouble wc then 1 else 0 := by
  cases page with
  | multi cdp =>
    rw [Own.len, cdpMulti_len_eq, Own.size, Own.isDouble]
    cases cdp.isMulti wc <;> cases cdp.hasByte wc <;> rfl
  | table uniCodes => rfl

theorem Own.sum_len (page : Own) (chars : List UInt16) :
    (chars.map page.len).sum = (chars.map page.size).sum + chars.countP page.isDouble := by
  induction chars with
  | nil => rfl
  | cons wc chars ih =>
    rw [map_cons, sum_cons, ih, map_cons, sum_cons, countP_cons, page.len_eq wc]
    omega

theorem utf8Put_puts : Puts utf8Put cdpUTF8CharSize where
  pos := by
    intro wc
    unfold cdpUTF8CharSize
    split_ifs <;> decide
  room := by
    intro nDst out wc hroom
    exact ⟨_, if_pos hroom, by rw [length_append, cdpUTF8CharSize_eq]⟩
  full := fun hfull => if_neg (Nat.not_le.mpr hfull)

theorem wordPut_crams (fSwap : Bool) : Crams (wordPut fSwap) fun _ => 1 where
  room := by
    intro nDst out wc hroom
    refine ⟨_, if_pos hroom, ?_⟩
    rw [length_append, length_singleton]
    omega
  full := fun hfull => if_neg (Nat.not_lt.mpr hfull)

theorem cdpMulti_put_length {cdp : CdpMulti.CodePage} {nDst : Nat} {out : Bytes} (wc : UInt16)
    (hroom : out.length < nDst) :
    (cdpMulti_put cdp nDst out wc).length = min nDst (out.length + (charBytes cdp wc).length) := by
  have hone (byte : UInt8) : (out ++ [byte]).length = min nDst (out.length + 1) := by
    rw [length_append, length_singleton]
    omega
  have hempty : ([] : Bytes).length < 2 := Nat.zero_lt_two
  have htwo : ([] : Bytes).length + 1 < 2 := Nat.one_lt_two
  unfold charBytes cdpMulti_put
  rw [if_pos hroom, if_pos hempty]
  by_cases htrans : uniTrans cdp.uniCodes wc ≠ 0
  · rw [if_pos htrans, if_pos htrans]
    exact hone _
  rw [if_neg htrans, if_neg htrans]
  by_cases hzero : wc = 0
  · rw [if_pos hzero, if_pos hzero]
    exact hone _
  rw [if_neg hzero, if_neg hzero]
  cases cdp.multi.find? fun m => wc = m.wcUp ∨ wc = m.wcLo with
  | none => exact hone _
  | some m =>
    -- the second byte is stored only where there is room for it
    split_ifs
    all_goals
      simp only [length_append, length_cons, length_nil]
      omega

theorem Own.put_crams (page : Own) : Crams page.put page.size where
  room := by
    intro nDst out wc hroom
    cases page with
    | multi cdp =>
      refine ⟨_, if_pos hroom, ?_⟩
      rw [Own.size, ← charBytes_length_eq]
      exact cdpMulti_put_length wc hroom
    | table uniCodes =>
      refine ⟨_, if_pos hroom, ?_⟩
      rw [length_append, length_singleton, Own.size]
      omega
  full := fun hfull => if_neg (Nat.not_lt.mpr hfull)

section Runs

variable {σ α β : Type} {next : σ → Option (Option α × σ)} {size : σ → Nat} {fuel : Nat}
  {source : σ} {more : List β → Bool} {put : Nat → List β → α → Option (List β)}

def Fills {β : Type} (length : Option Nat) (write : Nat → Option (Stored β)) : Prop :=
  ∃ n out, length = some n ∧ write n = some out ∧ out.data.length = n

/-- A writer ends, stores nothing behind its buffer, and puts a NUL where there is room left. -/
def Within {β : Type} (write : Nat → Option (Stored β)) : Prop :=
  ∀ nDst, ∃ out, write nDst = some out ∧ out.places ≤ nDst ∧
    (out.fNul = true ↔ out.data.length < nDst)

theorem sizing_eq (hshrinks : Shrinks next size) (hfuel : size source < fuel)
    (body : Nat → α → Nat × Bool) :
    sizing next body fuel source = some (consume always body 0 (drain next fuel source).1) := by
  obtain ⟨rest, hloop⟩ : ∃ rest, loop next always body fuel source 0 =
      some (rest, consume always body 0 (drain next fuel source).1) := loop_eq hshrinks 0 hfuel
  rw [sizing, hloop]
  rfl

theorem writing_eq (hshrinks : Shrinks next size) (hfuel : size source < fuel) (nDst : Nat) :
    writing next more put nDst fuel source =
      some (finish nDst (consume more (putBody (put nDst)) [] (drain next fuel source).1)) := by
  obtain ⟨rest, hloop⟩ : ∃ rest, loop next more (putBody (put nDst)) fuel source [] =
      some (rest, consume more (putBody (put nDst)) [] (drain next fuel source).1) :=
    loop_eq hshrinks [] hfuel
  rw [writing, hloop]
  rfl

theorem fills_iff {n : Nat} {write : Nat → Option (Stored β)} {out : Stored β}
    (hwrite : write n = some out) : Fills (some n) write ↔ out.data.length = n := by
  constructor
  · rintro ⟨n', out', hn, hout, hlength⟩
    cases hn
    rw [hwrite] at hout
    cases hout
    exact hlength
  · exact fun hlength => ⟨n, out, rfl, hwrite, hlength⟩

theorem finish_places {nDst : Nat} {out : List β} (h : out.length ≤ nDst) :
    (finish nDst out).places ≤ nDst ∧
      ((finish nDst out).fNul = true ↔ (finish nDst out).data.length < nDst) := by
  simp only [finish, Stored.places, decide_eq_true_eq, iff_self, and_true]
  split <;> omega

theorem copy_places (pSrc : Bytes) (nDst : Nat) : (copy pSrc nDst).places ≤ nDst ∧
    ((copy pSrc nDst).fNul = true ↔ (copy pSrc nDst).data.length < nDst) := by
  simp only [copy, Stored.places, decide_eq_true_eq, length_take]
  constructor
  · split <;> omega
  · omega

theorem atMost_le (nMax n : Nat) : atMost nMax n ≤ n := by
  unfold atMost
  split <;> omega

theorem copy_fills (pSrc : Bytes) (nMax : Nat) :
    Fills (some (atMost nMax pSrc.length)) fun nDst => some (copy pSrc nDst) := by
  refine ⟨_, _, rfl, rfl, ?_⟩
  rw [copy, length_take]
  exact Nat.min_eq_left (atMost_le _ _)

theorem isRoom_of_lt {nDst : Nat} (out : List β) (h : out.length < nDst) :
    isRoom nDst out = true := decide_eq_true h

section

variable {len : α → Nat} (hshrinks : Shrinks next size) (hfuel : size source < fuel)

include hshrinks hfuel

theorem writing_within_puts (hput : Puts put len) (more : Nat → List β → Bool) :
    Within fun nDst => writing next (more nDst) put nDst fuel source :=
  fun nDst => ⟨_, writing_eq hshrinks hfuel nDst,
    finish_places (hput.consume_length_le (Nat.zero_le _) _)⟩

theorem writing_within_crams (hput : Crams put len) (more : Nat → List β → Bool)
    (hmore : ∀ nDst (out : List β), out.length < nDst → more nDst out = true) :
    Within fun nDst => writing next (more nDst) put nDst fuel source := by
  intro nDst
  refine ⟨_, writing_eq hshrinks hfuel nDst, finish_places ?_⟩
  rw [hput.consume_length (hmore nDst) (Nat.zero_le _)]
  exact Nat.min_le_left _ _

end

/-- What fits within the limit is not larger, as it is told, than all that is written. -/
def Room (len size : α → Nat) (nMax : Nat) (chars chars' : List α) : Prop :=
  ∃ j, Longest nMax 0 (chars.map len) j ∧ ((chars.map len).take j).sum ≤ (chars'.map size).sum

/-- What fits within the limit has the size of some first characters of those that are written. -/
def SameSize (len : α → Nat) (nMax : Nat) (chars chars' : List α) : Prop :=
  ∃ j k, Longest nMax 0 (chars.map len) j ∧
    ((chars'.map len).take k).sum = ((chars.map len).take j).sum

theorem sameSize_refl (len : α → Nat) (nMax : Nat) (chars : List α) :
    SameSize len nMax chars chars := by
  obtain ⟨j, hj⟩ := exists_longest_zero nMax (chars.map len)
  exact ⟨j, j, hj, rfl⟩

section

variable (hshrinks : Shrinks next size) (hfuel : size source < fuel)

include hshrinks hfuel

theorem puts_fills_iff {len : α → Nat} (hput : Puts put len) (more : Nat → List β → Bool)
    (hmore : ∀ nDst (out : List β), out.length < nDst → more nDst out = true) (nMax : Nat)
    (chars : List α) : Fills (some (fit nMax 0 (chars.map len)))
        (fun nDst => writing next (more nDst) put nDst fuel source) ↔
      SameSize len nMax chars (drain next fuel source).1 := by
  rw [fills_iff (writing_eq hshrinks hfuel _)]
  have hempty : ([] : List β).length ≤ fit nMax 0 (chars.map len) := Nat.zero_le _
  have hiff := hput.consume_length_iff (hmore _) hempty (drain next fuel source).1
  refine hiff.trans ?_
  constructor
  · rintro ⟨k, hk⟩
    obtain ⟨j, hj⟩ := exists_longest_zero nMax (chars.map len)
    refine ⟨j, k, hj, ?_⟩
    rw [hj.fit_eq, length_nil, Nat.zero_add, Nat.zero_add] at hk
    exact hk
  · rintro ⟨j, k, hj, hsame⟩
    refine ⟨k, ?_⟩
    rw [hj.fit_eq, length_nil, Nat.zero_add, Nat.zero_add, hsame]

theorem crams_fills_iff {len len' : α → Nat} (hput : Crams put len') (more : Nat → List β → Bool)
    (hmore : ∀ nDst (out : List β), out.length < nDst → more nDst out = true) (nMax : Nat)
    (chars : List α) : Fills (some (fit nMax 0 (chars.map len)))
        (fun nDst => writing next (more nDst) put nDst fuel source) ↔
      Room len len' nMax chars (drain next fuel source).1 := by
  rw [fills_iff (writing_eq hshrinks hfuel _)]
  have hempty : ([] : List β).length ≤ fit nMax 0 (chars.map len) := Nat.zero_le _
  have hlength := hput.consume_length (hmore _) hempty (drain next fuel source).1
  rw [finish, hlength, length_nil, Nat.zero_add]
  constructor
  · intro hmin
    obtain ⟨j, hj⟩ := exists_longest_zero nMax (chars.map len)
    refine ⟨j, hj, ?_⟩
    rw [hj.fit_eq, Nat.zero_add] at hmin
    exact hmin ▸ Nat.min_le_right _ _
  · rintro ⟨j, hj, hroom⟩
    rw [hj.fit_eq, Nat.zero_add]
    exact Nat.min_eq_left hroom

end

end Runs

section Conversions

variable (cdp : Kind) (pEnd : UInt8) (pSrc : Bytes) (nMax : Nat)

section

variable {σ : Type} {next : σ → Option (Option UInt16 × σ)} {size : σ → Nat} {fuel : Nat}
  {source : σ} (hshrinks : Shrinks next size) (hfuel : size source < fuel)

include hshrinks hfuel

theorem sizing_fit (len : UInt16 → Nat) : sizing next (sizeBody nMax len) fuel source =
      some (fit nMax 0 ((drain next fuel source).1.map len)) := by
  rw [sizing_eq hshrinks hfuel]
  exact congrArg some (consume_sizeBody nMax len 0 _)

theorem sizing_count : sizing next (countBody nMax) fuel source =
      some (fit nMax 0 ((drain next fuel source).1.map fun _ => 1)) := by
  rw [sizing_eq hshrinks hfuel]
  exact congrArg some (consume_countBody (Nat.eq_zero_or_pos nMax) _)

end

theorem strToUTF8_fills : Fills (strAsUTF8Len cdp pEnd pSrc nMax) (strToUTF8 cdp pEnd pSrc) := by
  cases cdp with
  | utf8 => exact copy_fills pSrc nMax
  | own page =>
    have hshrinks := page.get_shrinks pEnd
    rw [strAsUTF8Len, sizing_fit nMax hshrinks (Nat.lt_succ_self _)]
    exact (puts_fills_iff hshrinks (Nat.lt_succ_self _) utf8Put_puts isRoom
      (fun _ => isRoom_of_lt) nMax _).mpr (sameSize_refl _ _ _)

/-- Among the first characters that fit within the limit, where those of a pair take two bytes,
there are no more with a byte of their own than the other characters have bytes. -/
def Own.Spares (page : Own) (nMax : Nat) (chars : List UInt16) : Prop :=
  ∃ j, Longest nMax 0 (chars.map fun wc => page.size wc + if page.isDouble wc then 1 else 0) j ∧
    (chars.take j).countP page.isDouble ≤ ((chars.drop j).map page.size).sum

def Kind.Spares (cdp : Kind) (nMax : Nat) (chars : List UInt16) : Prop :=
  match cdp with
  | .utf8 => True
  | .own page => page.Spares nMax chars

theorem room_iff_spares (page : Own) (chars : List UInt16) :
    Room page.len page.size nMax chars chars ↔ page.Spares nMax chars := by
  have hlen : (chars.map fun wc => page.size wc + if page.isDouble wc then 1 else 0) =
      chars.map page.len := map_congr_left fun wc _ => (page.len_eq wc).symm
  unfold Room Own.Spares
  rw [hlen]
  refine exists_congr fun j => and_congr_right fun _ => ?_
  have hall : (chars.map page.size).sum =
      ((chars.take j).map page.size).sum + ((chars.drop j).map page.size).sum := by
    rw [← sum_append, ← map_append, take_append_drop]
  rw [← map_take, page.sum_len, hall]
  omega

theorem spares_table (uniCodes : List UInt16) (chars : List UInt16) :
    (Own.table uniCodes).Spares nMax chars := by
  obtain ⟨j, hj⟩ := exists_longest_zero nMax (chars.map fun wc =>
    (Own.table uniCodes).size wc + if (Own.table uniCodes).isDouble wc then 1 else 0)
  refine ⟨j, hj, ?_⟩
  have hnone : (chars.take j).countP (Own.table uniCodes).isDouble = 0 :=
    countP_eq_zero.mpr fun _ _ => Bool.false_ne_true
  rw [hnone]
  exact Nat.zero_le _

theorem utf8AsStrLen_own (page : Own) :
    utf8AsStrLen (.own page) pSrc nMax = some (fit nMax 0 ((utf8Read pSrc).1.map page.len)) := by
  cases page with
  | multi cdp => exact sizing_fit nMax utf8Next_shrinks (fuelUTF8_lt pSrc) _
  | table uniCodes => exact sizing_count nMax utf8Next_shrinks (fuelUTF8_lt pSrc)

theorem utf8ToStr_fills_iff :
    Fills (utf8AsStrLen cdp pSrc nMax) (utf8ToStr cdp pSrc) ↔
      cdp.Spares nMax (utf8Read pSrc).1 := by
  cases cdp with
  | utf8 => exact iff_of_true (copy_fills pSrc nMax) trivial
  | own page =>
    rw [utf8AsStrLen_own]
    exact (crams_fills_iff utf8Next_shrinks (fuelUTF8_lt pSrc) page.put_crams isRoom
      (fun _ => isRoom_of_lt) nMax _).trans (room_iff_spares nMax page _)

/-- A character that is not complete at the end of a UTF-8 string is counted, but not written. -/
def Counted (cdp : Kind) (pSrc : Bytes) (nMax : Nat) : Prop :=
  match cdp with
  | .utf8 => 0 < (utf8Read pSrc).2.2.1 → nMax ≠ 0 ∧ nMax ≤ (utf8Read pSrc).1.length
  | .own _ => True

theorem consume_succ (n : Nat) (chars : List UInt16) :
    consume always (fun (n : Nat) _ => (n + 1, true)) n chars = n + chars.length := by
  induction chars generalizing n with
  | nil => rfl
  | cons wc chars ih =>
    rw [consume, always, if_pos rfl, if_pos rfl, ih, length_cons]
    omega

theorem utf8StringLength_eq :
    utf8StringLength pSrc = some ((utf8Read pSrc).1.length +
      if 0 < (utf8Read pSrc).2.2.1 then 1 else 0) := by
  have hloop : loop utf8Next always (fun (n : Nat) _ => (n + 1, true)) (fuelUTF8 pSrc)
      (pSrc, 0, 0) 0 =
        some ((utf8Read pSrc).2, consume always (fun (n : Nat) _ => (n + 1, true)) 0
          (utf8Read pSrc).1) :=
    loop_all utf8Next_shrinks (fun _ => rfl) (fun _ _ => rfl) 0 (fuelUTF8_lt pSrc)
  rw [utf8StringLength, hloop, Option.map_some, consume_succ]
  split
  · rw [Nat.zero_add]
  · rw [Nat.zero_add, Nat.add_zero]

theorem words_length {σ : Type} {next : σ → Option (Option UInt16 × σ)} {size : σ → Nat}
    {fuel : Nat} {source : σ} (hshrinks : Shrinks next size) (hfuel : size source < fuel)
    (fSwap : Bool) (n : Nat) :
    Fills (some n) (fun nDst => writing next (isRoom nDst) (wordPut fSwap) nDst fuel source) ↔
      n ≤ (drain next fuel source).1.length := by
  have hempty : ([] : List UInt16).length ≤ n := Nat.zero_le _
  have hlength := (wordPut_crams fSwap).consume_length isRoom_of_lt hempty
  rw [fills_iff (writing_eq hshrinks hfuel _), finish, hlength, length_nil, Nat.zero_add,
    map_const', sum_replicate_nat]
  omega

theorem strToU16_fills_iff (fSwap : Bool) :
    Fills (strAsU16Len cdp pEnd pSrc nMax) (strToU16 cdp pEnd pSrc fSwap) ↔
      Counted cdp pSrc nMax := by
  cases cdp with
  | utf8 =>
    rw [strAsU16Len, utf8StringLength_eq, Option.map_some]
    refine (words_length utf8Next_shrinks (fuelUTF8_lt pSrc) fSwap _).trans ?_
    change atMost nMax _ ≤ (utf8Read pSrc).1.length ↔ _
    rw [Counted, atMost]
    split_ifs <;> omega
  | own page =>
    refine iff_of_true ?_ trivial
    have htold : ∃ n, strAsU16Len (.own page) pEnd pSrc nMax = some n ∧
        n ≤ (page.chars pEnd pSrc).length := by
      cases page with
      | multi cdp =>
        refine ⟨_, sizing_count nMax ((Own.multi cdp).get_shrinks pEnd)
          (Nat.lt_succ_self _), ?_⟩
        rw [fit_ones (.inr (Nat.zero_le _)), Nat.zero_add]
        exact atMost_le _ _
      | table uniCodes =>
        refine ⟨_, rfl, ?_⟩
        rw [Own.chars_table, length_map]
        exact atMost_le _ _
    obtain ⟨n, hn, hle⟩ := htold
    rw [hn]
    exact (words_length (page.get_shrinks pEnd) (Nat.lt_succ_self _) fSwap n).mpr hle

/-- What the words that fit within the limit take in the byte order of the machine can be filled
with words in the order that is asked for: exactly in UTF-8, by as many or more bytes in a page
of its own. -/
def Ordered (cdp : Kind) (fSwap : Bool) (words : List UInt16) (nMax : Nat) : Prop :=
  match cdp, fSwap with
  | .utf8, false => True
  | .utf8, true => ∃ j k, Longest nMax 0 (words.map cdpUTF8CharSize) j ∧
      (((words.take k).map (ordered true)).map cdpUTF8CharSize).sum =
        ((words.take j).map cdpUTF8CharSize).sum
  | .own page, false => page.Spares nMax words
  | .own page, true => ∃ j,
      Longest nMax 0 (words.map fun wc => page.size wc + if page.isDouble wc then 1 else 0) j ∧
        ((words.take j).map page.size).sum + (words.take j).countP page.isDouble ≤
          ((words.map (ordered true)).map page.size).sum

theorem map_ordered (pSrc : List UInt16) : pSrc.map (ordered false) = pSrc := by
  have hid : ordered false = id := rfl
  rw [hid, map_id]

theorem u16AsStrLen_own (page : Own) (pSrc : List UInt16) :
    u16AsStrLen (.own page) pSrc nMax = some (fit nMax 0 (pSrc.map page.len)) := by
  cases page with
  | multi cdp =>
    rw [u16AsStrLen, sizing_fit nMax (wordNext_shrinks false) (Nat.lt_succ_self _),
      drain_wordNext, map_ordered]
    rfl
  | table uniCodes =>
    have hones := fit_ones (.inr (Nat.zero_le nMax)) pSrc
    rw [Nat.zero_add] at hones
    exact congrArg some hones.symm

theorem sameSize_iff (fSwap : Bool) (words : List UInt16) :
    SameSize cdpUTF8CharSize nMax words (words.map (ordered fSwap)) ↔
      Ordered .utf8 fSwap words nMax := by
  cases fSwap with
  | false =>
    rw [map_ordered]
    exact iff_of_true (sameSize_refl _ _ _) trivial
  | true => simp only [SameSize, Ordered, map_take]

theorem room_iff_ordered (page : Own) (fSwap : Bool) (words : List UInt16) :
    Room page.len page.size nMax words (words.map (ordered fSwap)) ↔
      Ordered (.own page) fSwap words nMax := by
  cases fSwap with
  | false =>
    rw [map_ordered]
    exact room_iff_spares nMax page words
  | true =>
    have hlen : (words.map fun wc => page.size wc + if page.isDouble wc then 1 else 0) =
        words.map page.len := map_congr_left fun wc _ => (page.len_eq wc).symm
    simp only [Room, Ordered, hlen, ← map_take, page.sum_len]

theorem u16ToStr_fills_iff (fSwap : Bool) (pSrc : List UInt16) :
    Fills (u16AsStrLen cdp pSrc nMax) (u16ToStr cdp fSwap pSrc) ↔
      Ordered cdp fSwap pSrc nMax := by
  have hshrinks := wordNext_shrinks fSwap
  cases cdp with
  | utf8 =>
    rw [u16AsStrLen, sizing_fit nMax (wordNext_shrinks false) (Nat.lt_succ_self _),
      drain_wordNext, map_ordered, ← sameSize_iff, ← drain_wordNext]
    exact puts_fills_iff hshrinks (Nat.lt_succ_self _) utf8Put_puts (fun _ => always)
      (fun _ _ _ => rfl) nMax pSrc
  | own page =>
    rw [u16AsStrLen_own, ← room_iff_ordered, ← drain_wordNext]
    cases page with
    | multi cdp =>
      exact crams_fills_iff hshrinks (Nat.lt_succ_self _) (Own.multi cdp).put_crams
        (fun _ => always) (fun _ _ _ => rfl) nMax pSrc
    | table uniCodes =>
      exact crams_fills_iff hshrinks (Nat.lt_succ_self _) (Own.table uniCodes).put_crams
        isRoom (fun _ => isRoom_of_lt) nMax pSrc

def Kind.chars (cdp : Kind) (pEnd : UInt8) (pSrc : Bytes) : List UInt16 :=
  match cdp with
  | .utf8 => (utf8Read pSrc).1
  | .own page => page.chars pEnd pSrc

def Translates (cdpIn cdpOut : Option Page) (pEnd : UInt8) (pSrc : Bytes) (nMax : Nat) : Prop :=
  match translatedKinds cdpIn cdpOut with
  | none => True
  | some (cdpIn, cdpOut) => cdpOut.Spares nMax (cdpIn.chars pEnd pSrc)

theorem own_fills_iff (page page' : Own) :
    Fills (sizing (page.get pEnd) (sizeBody nMax page'.len) (pSrc.length + 1) pSrc)
        (fun nDst =>
          writing (page.get pEnd) (isRoom nDst) page'.put nDst (pSrc.length + 1) pSrc) ↔
      page'.Spares nMax (page.chars pEnd pSrc) := by
  have hshrinks := page.get_shrinks pEnd
  rw [sizing_fit nMax hshrinks (Nat.lt_succ_self _)]
  exact (crams_fills_iff hshrinks (Nat.lt_succ_self _) page'.put_crams isRoom
    (fun _ => isRoom_of_lt) nMax _).trans (room_iff_spares nMax page' _)

theorem transTo_fills_iff (cdpIn cdpOut : Option Page) :
    Fills (transLen pEnd pSrc cdpIn cdpOut nMax) (transTo pEnd pSrc cdpIn cdpOut) ↔
      Translates cdpIn cdpOut pEnd pSrc nMax := by
  unfold transLen transTo Translates
  match translatedKinds cdpIn cdpOut with
  | none => exact iff_of_true (copy_fills pSrc nMax) trivial
  | some (.utf8, cdpOut) => exact utf8ToStr_fills_iff cdpOut pSrc nMax
  | some (.own page, .utf8) =>
    exact iff_of_true (strToUTF8_fills (.own page) pEnd pSrc nMax) trivial
  | some (.own (.table uniCodes), .own (.table uniCodes')) =>
    refine iff_of_true ?_ (spares_table nMax uniCodes' _)
    have hfills := copy_fills (pSrc.map (transByte uniCodes uniCodes')) nMax
    rwa [length_map] at hfills
  | some (.own (.multi cdp), .own (.multi cdp')) => exact own_fills_iff pEnd pSrc nMax _ _
  | some (.own (.multi cdp), .own (.table uniCodes)) => exact own_fills_iff pEnd pSrc nMax _ _
  | some (.own (.table uniCodes), .own (.multi cdp)) => exact own_fills_iff pEnd pSrc nMax _ _

theorem copy_within (pSrc : Bytes) : Within fun nDst => some (copy pSrc nDst) :=
  fun nDst => ⟨_, rfl, copy_places pSrc nDst⟩

theorem strToUTF8_within : Within (strToUTF8 cdp pEnd pSrc) := by
  cases cdp with
  | utf8 => exact copy_within pSrc
  | own page =>
    exact writing_within_puts (page.get_shrinks pEnd) (Nat.lt_succ_self _) utf8Put_puts isRoom

theorem utf8ToStr_within : Within (utf8ToStr cdp pSrc) := by
  cases cdp with
  | utf8 => exact copy_within pSrc
  | own page =>
    exact writing_within_crams utf8Next_shrinks (fuelUTF8_lt pSrc) page.put_crams isRoom
      fun _ => isRoom_of_lt

theorem strToU16_within (fSwap : Bool) : Within (strToU16 cdp pEnd pSrc fSwap) := by
  cases cdp with
  | utf8 =>
    exact writing_within_crams utf8Next_shrinks (fuelUTF8_lt pSrc) (wordPut_crams fSwap) isRoom
      fun _ => isRoom_of_lt
  | own page =>
    exact writing_within_crams (page.get_shrinks pEnd) (Nat.lt_succ_self _)
      (wordPut_crams fSwap) isRoom fun _ => isRoom_of_lt

theorem u16ToStr_within (fSwap : Bool) (pSrc : List UInt16) : Within (u16ToStr cdp fSwap pSrc) := by
  have hshrinks := wordNext_shrinks fSwap
  match cdp with
  | .utf8 =>
    exact writing_within_puts hshrinks (Nat.lt_succ_self _) utf8Put_puts fun _ => always
  | .own (.multi cdp) =>
    exact writing_within_crams hshrinks (Nat.lt_succ_self _) (Own.multi cdp).put_crams
      (fun _ => always) fun _ _ _ => rfl
  | .own (.table uniCodes) =>
    exact writing_within_crams hshrinks (Nat.lt_succ_self _) (Own.table uniCodes).put_crams
      isRoom fun _ => isRoom_of_lt

theorem own_within (page page' : Own) :
    Within fun nDst =>
      writing (page.get pEnd) (isRoom nDst) page'.put nDst (pSrc.length + 1) pSrc :=
  writing_within_crams (page.get_shrinks pEnd) (Nat.lt_succ_self _) page'.put_crams isRoom
    fun _ => isRoom_of_lt

theorem transTo_within (cdpIn cdpOut : Option Page) : Within (transTo pEnd pSrc cdpIn cdpOut) := by
  unfold transTo
  match translatedKinds cdpIn cdpOut with
  | none => exact copy_within pSrc
  | some (.utf8, cdpOut) => exact utf8ToStr_within cdpOut pSrc
  | some (.own page, .utf8) => exact strToUTF8_within (.own page) pEnd pSrc
  | some (.own (.table uniCodes), .own (.table uniCodes')) => exact copy_within _
  | some (.own (.multi cdp), .own (.multi cdp')) => exact own_within pEnd pSrc _ _
  | some (.own (.multi cdp), .own (.table uniCodes)) => exact own_within pEnd pSrc _ _
  | some (.own (.table uniCodes), .own (.multi cdp)) => exact own_within pEnd pSrc _ _

section NoLimit

variable (cdpIn cdpOut : Option Page)

/-- The bytes of a whole text after its translation, and its characters that a pair and a byte of
the page share. -/
def transSize : Nat :=
  match translatedKinds cdpIn cdpOut with
  | some (.own page, .utf8) => ((page.chars pEnd pSrc).map cdpUTF8CharSize).sum
  | some (cdpIn, .own page) => ((cdpIn.chars pEnd pSrc).map page.size).sum
  | _ => pSrc.length

def transDoubles : Nat :=
  match translatedKinds cdpIn cdpOut with
  | some (cdpIn, .own page) => (cdpIn.chars pEnd pSrc).countP page.isDouble
  | _ => 0

theorem sum_ones (chars : List UInt16) : (chars.map fun _ => 1).sum = chars.length := by
  rw [map_const', sum_replicate_nat, Nat.mul_one]

theorem transLen_zero : transLen pEnd pSrc cdpIn cdpOut 0 =
    some (transSize pEnd pSrc cdpIn cdpOut + transDoubles pEnd pSrc cdpIn cdpOut) := by
  have hown (page page' : Own) :
      sizing (page.get pEnd) (sizeBody 0 page'.len) (pSrc.length + 1) pSrc =
        some (((page.chars pEnd pSrc).map page'.size).sum +
          (page.chars pEnd pSrc).countP page'.isDouble) := by
    rw [sizing_fit 0 (page.get_shrinks pEnd) (Nat.lt_succ_self _), fit_zero, Nat.zero_add,
      ← page'.sum_len]
    rfl
  unfold transLen transSize transDoubles
  match translatedKinds cdpIn cdpOut with
  | none => rfl
  | some (.utf8, .utf8) => rfl
  | some (.utf8, .own page) =>
    change utf8AsStrLen (.own page) pSrc 0 = _
    rw [utf8AsStrLen_own, fit_zero, Nat.zero_add, page.sum_len]
    rfl
  | some (.own page, .utf8) =>
    exact (sizing_fit 0 (page.get_shrinks pEnd) (Nat.lt_succ_self _) _).trans
      (congrArg some (by rw [fit_zero, Nat.zero_add]; rfl))
  | some (.own (.table uniCodes), .own (.table uniCodes')) =>
    change some (atMost 0 pSrc.length) = some (_ + countP (fun _ => false) _)
    rw [countP_false]
    change _ = some ((((Own.table uniCodes).chars pEnd pSrc).map fun _ => 1).sum + 0)
    rw [sum_ones, Own.chars_table, length_map]
    rfl
  | some (.own (.multi cdp), .own (.multi cdp')) => exact hown _ _
  | some (.own (.multi cdp), .own (.table uniCodes)) => exact hown _ _
  | some (.own (.table uniCodes), .own (.multi cdp)) => exact hown _ _

theorem transTo_length {nDst : Nat} (h : transSize pEnd pSrc cdpIn cdpOut ≤ nDst) :
    ∃ out, transTo pEnd pSrc cdpIn cdpOut nDst = some out ∧
      out.data.length = transSize pEnd pSrc cdpIn cdpOut := by
  have hcopy {bytes : Bytes} (hroom : bytes.length ≤ nDst) :
      (copy bytes nDst).data.length = bytes.length := by
    rw [copy, take_of_length_le hroom]
  have hcrams {σ : Type} {next : σ → Option (Option UInt16 × σ)} {size : σ → Nat} {fuel : Nat}
      {source : σ} (page : Own) (hshrinks : Shrinks next size) (hfuel : size source < fuel)
      (hroom : ((drain next fuel source).1.map page.size).sum ≤ nDst) :
      ∃ out, writing next (isRoom nDst) page.put nDst fuel source = some out ∧
        out.data.length = ((drain next fuel source).1.map page.size).sum := by
    refine ⟨_, writing_eq hshrinks hfuel nDst, ?_⟩
    have hempty : ([] : Bytes).length ≤ nDst := Nat.zero_le _
    rw [finish, page.put_crams.consume_length isRoom_of_lt hempty, length_nil, Nat.zero_add]
    exact Nat.min_eq_right hroom
  unfold transSize at h ⊢
  unfold transTo
  generalize translatedKinds cdpIn cdpOut = kinds at h ⊢
  rcases kinds with _ | ⟨_ | page, _ | page'⟩
  · exact ⟨_, rfl, hcopy h⟩
  · exact ⟨_, rfl, hcopy h⟩
  · exact hcrams page' utf8Next_shrinks (fuelUTF8_lt pSrc) h
  · refine ⟨_, writing_eq (page.get_shrinks pEnd) (Nat.lt_succ_self _) nDst, ?_⟩
    have hroom : ([] : Bytes).length + ((page.chars pEnd pSrc).map cdpUTF8CharSize).sum ≤ nDst := by
      rw [length_nil, Nat.zero_add]
      exact h
    have hall := utf8Put_puts.consume_all isRoom_of_lt hroom
    rw [length_nil, Nat.zero_add] at hall
    exact hall
  rcases page with cdp | uniCodes <;> rcases page' with cdp' | uniCodes'
  case own.own.table.table =>
    change (((Own.table uniCodes).chars pEnd pSrc).map fun _ => 1).sum ≤ nDst at h
    change ∃ out, _ ∧ _ = (((Own.table uniCodes).chars pEnd pSrc).map fun _ => 1).sum
    rw [sum_ones, Own.chars_table, length_map] at h ⊢
    refine ⟨_, rfl, ?_⟩
    rw [hcopy (by rwa [length_map]), length_map]
  all_goals exact hcrams _ (Own.get_shrinks _ pEnd) (Nat.lt_succ_self _) h

/-- Where there is room, a page with characters of two bytes gets the bytes of each character. -/
theorem multi_stored {σ : Type} {next : σ → Option (Option UInt16 × σ)} {size : σ → Nat}
    {fuel nDst : Nat} {source : σ} {cdp : CdpMulti.CodePage} (hshrinks : Shrinks next size)
    (hfuel : size source < fuel)
    (hroom : ((drain next fuel source).1.flatMap (charBytes cdp)).length ≤ nDst) :
    writing next (isRoom nDst) (Own.multi cdp).put nDst fuel source =
      some (finish nDst ((drain next fuel source).1.flatMap (charBytes cdp))) := by
  have hpos : ∀ wc, 0 < (charBytes cdp wc).length := by
    intro wc
    rw [charBytes_length_eq]
    split <;> decide
  have hput : ∀ {out : Bytes} {wc : UInt16}, out.length + (charBytes cdp wc).length ≤ nDst →
      (Own.multi cdp).put nDst out wc = some (out ++ charBytes cdp wc) := by
    intro out wc hfits
    have hone := hpos wc
    have hlt : out.length < nDst := by omega
    rw [Own.put, if_pos hlt, put_eq hfits]
  have hempty : ([] : Bytes).length +
      ((drain next fuel source).1.flatMap (charBytes cdp)).length ≤ nDst := by
    rw [length_nil, Nat.zero_add]
    exact hroom
  have hall := consume_store (fun wc => length_pos_iff.mp (hpos wc)) hput isRoom_of_lt hempty
  rw [writing_eq hshrinks hfuel, hall, nil_append]

end NoLimit

end Conversions

/-- Each length is that of what is written into a buffer of this length, and no writer stores
anything behind a buffer. -/
structure Agree (cdp : Kind) (cdpIn cdpOut : Option Page) (pEnd : UInt8) (fSwap : Bool)
    (pSrc : Bytes) (pSrcU16 : List UInt16) (nMax : Nat) : Prop where
  strToUTF8 : Fills (strAsUTF8Len cdp pEnd pSrc nMax) (strToUTF8 cdp pEnd pSrc)
  utf8ToStr : Fills (utf8AsStrLen cdp pSrc nMax) (utf8ToStr cdp pSrc)
  strToU16 : Fills (strAsU16Len cdp pEnd pSrc nMax) (strToU16 cdp pEnd pSrc fSwap)
  u16ToStr : Fills (u16AsStrLen cdp pSrcU16 nMax) (u16ToStr cdp fSwap pSrcU16)
  transTo : Fills (transLen pEnd pSrc cdpIn cdpOut nMax) (transTo pEnd pSrc cdpIn cdpOut)
  strToUTF8_within : Within (CdpSizes.strToUTF8 cdp pEnd pSrc)
  utf8ToStr_within : Within (CdpSizes.utf8ToStr cdp pSrc)
  strToU16_within : Within (CdpSizes.strToU16 cdp pEnd pSrc fSwap)
  u16ToStr_within : Within (CdpSizes.u16ToStr cdp fSwap pSrcU16)
  transTo_within : Within (CdpSizes.transTo pEnd pSrc cdpIn cdpOut)

/-- The lengths are right exactly where no character at the end of a UTF-8 string is counted that
is not written, words in the other byte order fill what the words that fit take, and the characters
behind the limit make up for the pairs that a byte stands for. -/
theorem conversions_agree_iff (cdp : Kind) (cdpIn cdpOut : Option Page) (pEnd : UInt8)
    (fSwap : Bool) (pSrc : Bytes) (pSrcU16 : List UInt16) (nMax : Nat) :
    Agree cdp cdpIn cdpOut pEnd fSwap pSrc pSrcU16 nMax ↔
      Counted cdp pSrc nMax ∧ Ordered cdp fSwap pSrcU16 nMax ∧
        cdp.Spares nMax (utf8Read pSrc).1 ∧
        Translates cdpIn cdpOut pEnd pSrc nMax := by
  constructor
  · intro h
    exact ⟨(strToU16_fills_iff cdp pEnd pSrc nMax fSwap).mp h.strToU16,
      (u16ToStr_fills_iff cdp nMax fSwap pSrcU16).mp h.u16ToStr,
      (utf8ToStr_fills_iff cdp pSrc nMax).mp h.utf8ToStr,
      (transTo_fills_iff pEnd pSrc nMax cdpIn cdpOut).mp h.transTo⟩
  · rintro ⟨hcounted, hordered, hspares, htranslates⟩
    exact {
      strToUTF8 := strToUTF8_fills cdp pEnd pSrc nMax
      utf8ToStr := (utf8ToStr_fills_iff cdp pSrc nMax).mpr hspares
      strToU16 := (strToU16_fills_iff cdp pEnd pSrc nMax fSwap).mpr hcounted
      u16ToStr := (u16ToStr_fills_iff cdp nMax fSwap pSrcU16).mpr hordered
      transTo := (transTo_fills_iff pEnd pSrc nMax cdpIn cdpOut).mpr htranslates
      strToUTF8_within := strToUTF8_within cdp pEnd pSrc
      utf8ToStr_within := utf8ToStr_within cdp pSrc
      strToU16_within := strToU16_within cdp pEnd pSrc fSwap
      u16ToStr_within := u16ToStr_within cdp fSwap pSrcU16
      transTo_within := transTo_within pEnd pSrc cdpIn cdpOut }

/-- One byte that starts a character is told as one word, and no word is written. -/
theorem strAsU16Len_c3 : ¬Agree .utf8 none none 0 false [0xC3] [] 0 := by
  rintro ⟨-, -, ⟨n, out, hn, hout, hlength⟩, -⟩
  have htold : CdpSizes.strAsU16Len .utf8 0 [0xC3] 0 = some 1 := by decide
  rw [htold] at hn
  cases hn
  have hwritten : (CdpSizes.strToU16 .utf8 0 [0xC3] false 1).map (·.data.length) = some 0 := by
    decide
  rw [hout, Option.map_some, hlength] at hwritten
  cases hwritten

end Harbour.Rtl.CdpSizes
