import Harbour.Compiler.DeadCodeStep

/-!
What the trace has not marked is replaced: the table of removed bytes stays without repetition, and
the end of the function is kept.
-/

namespace Harbour.Compiler.DeadCode

open Library.Bytes Library.Chunks PCodeSize Jumps List PCode

structure Noops (pFunc : Func) : Prop where
  noops : ∀ n ∈ pFunc.pNOOPs, pFunc.pCode[n]? = some noop.byte
  once : pFunc.pNOOPs.Nodup

structure Filled (pFunc out : Func) (S : Nat → Prop) : Prop where
  length : out.pCode.length = pFunc.pCode.length
  inside : ∀ n, S n → n < pFunc.pCode.length → out.pCode[n]? = some noop.byte
  outside : ∀ n, ¬ S n → out.pCode[n]? = pFunc.pCode[n]?
  listed : ∀ n ∈ out.pNOOPs, n ∈ pFunc.pNOOPs ∨ S n

section Fill

variable {pFunc out out' : Func} {S S' : Nat → Prop}

theorem Filled.refl (pFunc : Func) : Filled pFunc pFunc fun _ => False :=
  ⟨rfl, fun _ hs => hs.elim, fun _ _ => rfl, fun _ hn => .inl hn⟩

theorem Filled.trans (h : Filled pFunc out S) (h' : Filled out out' S') :
    Filled pFunc out' fun n => S n ∨ S' n := by
  refine ⟨h'.length.trans h.length, fun n hs hlt => ?_, fun n hs => ?_, fun n hn => ?_⟩
  · by_cases hs' : S' n
    · exact h'.inside n hs' (h.length ▸ hlt)
    · rw [h'.outside n hs']
      exact h.inside n (hs.resolve_right hs') hlt
  · obtain ⟨hs, hs'⟩ := not_or.mp hs
    exact (h'.outside n hs').trans (h.outside n hs)
  · rcases h'.listed n hn with hold | hnew
    · exact (h.listed n hold).imp_right .inl
    · exact .inr (.inr hnew)

theorem Filled.congr (h : Filled pFunc out S) (hiff : ∀ n, S n ↔ S' n) : Filled pFunc out S' :=
  ⟨h.length, fun n hs => h.inside n ((hiff n).mpr hs),
    fun n hs => h.outside n ((hiff n).not.mpr hs),
    fun n hn => (h.listed n hn).imp_right (hiff n).mp⟩

theorem code_noop {n : Nat} (hlt : n < pFunc.pCode.length) :
    code (pFunc.pCode.drop n) = .noop ↔ pFunc.pCode[n]? = some noop.byte := by
  rw [getElem?_eq_getElem hlt, Option.some.injEq, drop_eq_getElem_cons hlt, code_cons]
  constructor
  · exact byte_of_code
  · intro heq
    rw [heq]
    rfl

theorem addNoop_filled (hn : Noops pFunc) {n : Nat} (hlt : n < pFunc.pCode.length)
    (hnew : n ∉ pFunc.pNOOPs) :
    Filled pFunc (compNOOPadd pFunc n) (fun k => k = n) ∧ Noops (compNOOPadd pFunc n) := by
  have hself : (pFunc.pCode.set n noop.byte)[n]? = some noop.byte :=
    getElem?_set_self hlt
  have hother : ∀ k, k ≠ n → (pFunc.pCode.set n noop.byte)[k]? = pFunc.pCode[k]? :=
    fun k hk => getElem?_set_ne hk.symm
  refine ⟨⟨length_set, fun k hk _ => hk ▸ hself, fun k hk => hother k hk, fun k hk => ?_⟩,
    fun k hk => ?_, ?_⟩
  · exact (mem_append.mp hk).imp_right mem_singleton.mp
  · by_cases heq : k = n
    · rw [heq]
      exact hself
    · refine (hother k heq).trans (hn.noops k ?_)
      exact (mem_append.mp hk).resolve_right fun hnew => heq (mem_singleton.mp hnew)
  · refine nodup_append.mpr ⟨hn.once, nodup_singleton n, fun k hk l hl heq => hnew ?_⟩
    rw [← mem_singleton.mp hl, ← heq]
    exact hk

theorem fill_filled {nCount nFrom : Nat} (hn : Noops pFunc)
    (hle : nFrom + nCount ≤ pFunc.pCode.length) :
    Filled pFunc (compNOOPfill pFunc nFrom nCount false true)
        (fun n => nFrom ≤ n ∧ n < nFrom + nCount) ∧
      Noops (compNOOPfill pFunc nFrom nCount false true) := by
  induction nCount generalizing pFunc nFrom with
  | zero => exact ⟨(Filled.refl pFunc).congr fun n => ⟨False.elim, fun hn => by omega⟩, hn⟩
  | succ nCount ih =>
    have hlt : nFrom < pFunc.pCode.length := by omega
    have hfirst : ∃ next, compNOOPfill pFunc nFrom (nCount + 1) false true =
        compNOOPfill next (nFrom + 1) nCount false true ∧
        Filled pFunc next (fun k => k = nFrom) ∧ Noops next := by
      by_cases hlisted : nFrom ∈ pFunc.pNOOPs
      · have hnoop := hn.noops nFrom hlisted
        refine ⟨pFunc, ?_, ⟨rfl, fun k hk _ => hk ▸ hnoop, fun _ _ => rfl, fun _ hk => .inl hk⟩, hn⟩
        rw [compNOOPfill,
          if_pos ⟨rfl, (code_noop hlt).mpr hnoop, ne_nil_of_mem hlisted, hlisted⟩]
      · refine ⟨compNOOPadd pFunc nFrom, ?_, addNoop_filled hn hlt hlisted⟩
        rw [compNOOPfill, if_neg fun hand => hlisted hand.2.2.2]
    obtain ⟨next, heq, hfilled, hnext⟩ := hfirst
    obtain ⟨hrest, hnoops⟩ := @ih next (nFrom + 1) hnext (by rw [hfilled.length]; omega)
    rw [heq]
    exact ⟨(hfilled.trans hrest).congr fun n => by omega, hnoops⟩

end Fill

structure Filling (pFunc : Func) (pCodeMark : Nat → Nat) (nPos : Nat) (now : Func × Nat × UInt8) :
    Prop where
  filled : Filled pFunc now.1 fun n => n < nPos - now.2.1 ∧ pCodeMark n = 0
  noops : Noops now.1
  count : now.2.1 ≤ nPos
  dead : ∀ n, nPos - now.2.1 ≤ n → n < nPos → pCodeMark n = 0
  last : 0 < nPos - now.2.1 → pCodeMark (nPos - now.2.1 - 1) ≠ 0 ∧
    pFunc.pCode[nPos - now.2.1 - 1]? = some now.2.2

section Removed

variable {named : Bool} {pFunc : Func} {instrs : List Bytes} {mark : Nat → Nat}

theorem fillDead_filling {left nPos nCount : Nat} {bLastCode : UInt8} {now : Func}
    (hlength : nPos + left = pFunc.pCode.length)
    (h : Filling pFunc mark nPos (now, nCount, bLastCode)) :
    Filling pFunc mark pFunc.pCode.length (fillDead mark left nPos nCount bLastCode now) := by
  induction left generalizing nPos nCount bLastCode now with
  | zero =>
    rw [← hlength]
    exact h
  | succ left ih =>
    have hcount : nCount ≤ nPos := h.count
    unfold fillDead
    by_cases hzero : mark nPos = 0
    · rw [if_pos hzero]
      refine ih (by omega) ?_
      have hsame : nPos + 1 - (nCount + 1) = nPos - nCount := Nat.add_sub_add_right ..
      refine ⟨?_, h.noops, Nat.succ_le_succ hcount, fun n hle hlt => ?_, ?_⟩
      · dsimp only
        rw [hsame]
        exact h.filled
      · dsimp only at hle
        rw [hsame] at hle
        by_cases heq : n = nPos
        · rw [heq]
          exact hzero
        · exact h.dead n hle (by omega)
      · dsimp only
        rw [hsame]
        exact h.last
    · rw [if_neg hzero]
      have hlt : nPos < pFunc.pCode.length := by omega
      have hhead : pFunc.pCode[nPos]? = some ((now.pCode.drop nPos).headD 0) := by
        have hout := h.filled.outside nPos fun hand => hzero hand.2
        have hlt' : nPos < now.pCode.length := by rw [h.filled.length]; exact hlt
        rw [← hout, getElem?_eq_getElem hlt', drop_eq_getElem_cons hlt', headD_cons]
      refine ih (by omega) ?_
      have hfill :
          Filled pFunc (if nCount ≠ 0 then compNOOPfill now (nPos - nCount) nCount false true
              else now) (fun n => n < nPos + 1 ∧ mark n = 0) ∧
            Noops (if nCount ≠ 0 then compNOOPfill now (nPos - nCount)
              nCount false true else now) := by
        have hin : ∀ n, n < nPos + 1 ∧ mark n = 0 ↔ n < nPos ∧ mark n = 0 := by
          intro n
          constructor
          · rintro ⟨hn, hm⟩
            exact ⟨Nat.lt_of_le_of_ne (Nat.le_of_lt_succ hn) fun heq => hzero (heq ▸ hm), hm⟩
          · rintro ⟨hn, hm⟩
            exact ⟨Nat.lt_succ_of_lt hn, hm⟩
        split_ifs with hsome
        · obtain ⟨hfilled, hnoops⟩ := @fill_filled _ nCount (nPos - nCount) h.noops
            (by rw [h.filled.length]; omega)
          refine ⟨(h.filled.trans hfilled).congr fun n => ?_, hnoops⟩
          rw [hin]
          constructor
          · rintro (⟨hn, hm⟩ | hn)
            · exact ⟨by dsimp only at hn; omega, hm⟩
            · exact ⟨by omega, h.dead n hn.1 (by omega)⟩
          · rintro ⟨hn, hm⟩
            by_cases hlow : n < nPos - nCount
            · exact .inl ⟨hlow, hm⟩
            · exact .inr ⟨by omega, by omega⟩
        · rw [not_not] at hsome
          subst hsome
          refine ⟨h.filled.congr fun n => (hin n).symm, h.noops⟩
      refine ⟨hfill.1, hfill.2, Nat.zero_le _, fun n hle hlt => ?_, fun _ => ⟨hzero, hhead⟩⟩
      exact absurd hlt (Nat.not_lt.mpr hle)

/-- What is left of a body: the last position that is not replaced is the last of the code, or ends
the part of it that is marked. -/
structure Removal (named : Bool) (pFunc : Func) (mark : Nat → Nat) (out : Func) (m : Nat) :
    Prop where
  filled : ∃ S, Filled pFunc out S ∧ (∀ n, S n → mark n = 0) ∧ ¬ S m ∧
    ∀ n, m < n → n < pFunc.pCode.length → S n
  noops : Noops out
  lt : m < pFunc.pCode.length
  last : m + 1 = pFunc.pCode.length ∨ mark m ≠ 0 ∧
    (∀ n, m < n → n < pFunc.pCode.length → mark n = 0) ∧
    pFunc.pCode[m]? = some (endCode named)

theorem removeDead_removal (hn : Noops pFunc) (hpos : 0 < pFunc.pCode.length) (hzero : mark 0 ≠ 0) :
    ∃ m, Removal named pFunc mark (removeDead named mark pFunc) m := by
  have hstart : Filling pFunc mark 0 (pFunc, 0, lastPCode) :=
    ⟨(Filled.refl pFunc).congr fun n => ⟨False.elim, fun hand => absurd hand.1 (Nat.not_lt_zero n)⟩,
      hn, Nat.le_refl 0, fun n _ hlt => absurd hlt (Nat.not_lt_zero n),
      fun hlt => absurd hlt (Nat.lt_irrefl 0)⟩
  have hend := fillDead_filling (Nat.zero_add _) hstart
  unfold removeDead
  dsimp only
  generalize fillDead mark pFunc.pCode.length 0 0 lastPCode pFunc = now at hend
  obtain ⟨now, nCount, bLastCode⟩ := now
  obtain ⟨hfilled, hnoops, hcount, hdead, hlast⟩ := hend
  dsimp only at hfilled hnoops hcount hdead hlast ⊢
  have hlength := hfilled.length
  -- the start of the code is marked
  have hfew : nCount < pFunc.pCode.length := by
    refine Nat.lt_of_le_of_ne hcount fun heq => hzero (hdead 0 ?_ hpos)
    rw [heq, Nat.sub_self]
  by_cases hkeep : nCount > 0 ∧ bLastCode ≠ endCode named
  · rw [if_pos hkeep]
    obtain ⟨hrest, hnoops'⟩ := @fill_filled now (nCount - 1) (pFunc.pCode.length - 1 - (nCount - 1))
      hnoops (by omega)
    refine ⟨pFunc.pCode.length - 1, ⟨⟨_, hfilled.trans hrest, fun n hs => ?_, fun hs => ?_,
      fun n hlt hlt' => absurd hlt' (by omega)⟩, hnoops', by omega, .inl (by omega)⟩⟩
    · rcases hs with hs | hs
      · exact hs.2
      · exact hdead n (by omega) (by omega)
    · omega
  · rw [if_neg hkeep]
    obtain ⟨hrest, hnoops'⟩ := @fill_filled now nCount (pFunc.pCode.length - nCount)
      hnoops (by omega)
    obtain ⟨hmarked, hbyte⟩ := hlast (by omega)
    refine ⟨pFunc.pCode.length - nCount - 1, ⟨⟨_, hfilled.trans hrest, fun n hs => ?_, fun hs => ?_,
      fun n hlt hlt' => .inr ⟨by omega, by omega⟩⟩, hnoops', by omega, ?_⟩⟩
    · rcases hs with hs | hs
      · exact hs.2
      · exact hdead n (by omega) (by omega)
    · rcases hs with hs | hs
      · exact hmarked hs.2
      · omega
    · by_cases hnone : nCount = 0
      · exact .inl (by omega)
      · have hcode : bLastCode = endCode named := by
          by_contra hne
          exact hkeep ⟨Nat.pos_of_ne_zero hnone, hne⟩
        exact .inr ⟨hmarked, fun n hlt hlt' => hdead n (by omega) hlt', hcode ▸ hbyte⟩

end Removed

end Harbour.Compiler.DeadCode
