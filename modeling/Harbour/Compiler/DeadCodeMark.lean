import Harbour.Compiler.DeadCodeFill

/-!
The marking of dead code as a whole: it ends, what control reaches stays, and so does an end of
the function.
-/

namespace Harbour.Compiler.DeadCode

open Library.Bytes Library.Chunks PCodeSize Jumps List Option PCode

/-- What the marking of dead code may do to a body. -/
structure Stripped (named : Bool) (instrs : List Bytes) (pFunc out : Func) : Prop where
  length : out.pCode.length = pFunc.pCode.length
  noop : ∀ n : Nat, out.pCode[n]? = pFunc.pCode[n]? ∨ out.pCode[n]? = some noop.byte
  reached : ∀ (a : Nat) (i : Bytes) (n : Nat), (a, i) ∈ starts 0 instrs → Reaches instrs a → a ≤ n →
    n < a + i.length →
    out.pCode[n]? = pFunc.pCode[n]? ∧ (n ∈ out.pNOOPs → n ∈ pFunc.pNOOPs)
  once : out.pNOOPs.Nodup
  last : ∃ p, (p, [endCode named]) ∈ starts 0 instrs ∧ out.pCode[p]? = some (endCode named) ∧
    ∀ n, p < n → n < pFunc.pCode.length → out.pCode[n]? = some PCode.noop.byte

section Offsets

theorem mkSigned_pos {p : Bytes} {top : UInt8} (htop : 0 < top.toNat) (hsmall : top.toNat < 128) :
    0 < mkSigned (p.length + 1) (p ++ [top]) := by
  have htake : (p ++ [top]).take (p.length + 1) = p ++ [top] := by
    refine take_of_length_le ?_
    rw [length_append, length_singleton]
  have hvalue : leValue (p ++ [top]) = leValue p + 256 ^ p.length * top.toNat := by
    rw [leValue_append]
    rfl
  have hlt := leValue_lt p
  have hpow : 256 ^ p.length * 128 = 2 ^ (8 * (p.length + 1) - 1) := by
    rw [show 8 * (p.length + 1) - 1 = 8 * p.length + 7 by omega, Nat.pow_add, Nat.pow_mul]
  have hlow : 256 ^ p.length * 1 ≤ 256 ^ p.length * top.toNat := Nat.mul_le_mul_left _ htop
  have hhigh : 256 ^ p.length * (top.toNat + 1) ≤ 256 ^ p.length * 128 :=
    Nat.mul_le_mul_left _ hsmall
  rw [Nat.mul_add] at hhigh
  unfold mkSigned signed
  rw [htake, hvalue, if_pos (by omega)]
  omega

variable {i : Bytes} {width : Nat} {nOffset : Int} {top : UInt8}

theorem jump_forward (hcomplete : Complete i) (hwidth : (code i).offsetWidth = some width)
    (hoffset : jumpOffset i = some nOffset) (hlast : i.getLast? = some top) (htop : 0 < top.toNat)
    (hsmall : top.toNat < 128) : 0 < nOffset := by
  have hlength := width_of_complete hwidth hcomplete
  obtain ⟨hpos, -⟩ := width_bounds hwidth
  obtain ⟨b, rest, rfl⟩ := exists_cons_of_length_pos hcomplete.1
  rw [length_cons] at hlength
  have hne : rest ≠ [] := length_pos_iff.mp (by omega)
  have hsplit : rest = rest.dropLast ++ [top] := by
    rw [getLast?_cons_of_ne_nil hne] at hlast
    exact (dropLast_append_getLast? top hlast).symm
  have hdrop : rest.dropLast.length + 1 = width := by
    rw [length_dropLast]
    omega
  unfold jumpOffset at hoffset
  rw [hwidth] at hoffset
  have hmk : mkSigned width rest = nOffset := some.inj hoffset
  rw [← hmk, ← hdrop, hsplit, dropLast_concat]
  exact mkSigned_pos htop hsmall

end Offsets

section Marked

variable {named : Bool} {pFunc out : Func} {instrs : List Bytes} {info : TraceInfo} {a m : Nat}
  {i : Bytes}

structure Over (named : Bool) (pFunc : Func) (instrs : List Bytes) (info : TraceInfo) : Prop where
  body : Body named pFunc instrs
  traced : Traced instrs info none fun _ => False
  ones : ∀ a i, (a, i) ∈ starts 0 instrs → info.pCodeMark a ≠ 1

theorem Over.two (ho : Over named pFunc instrs info) (hmem : (a, i) ∈ starts 0 instrs)
    (hne : info.pCodeMark a ≠ 0) : info.pCodeMark a = 2 :=
  ((ho.traced.pending a i hmem).resolve_left hne).resolve_right fun h => ho.ones a i hmem h.1

theorem endCode_bounds (named : Bool) : 0 < (endCode named).toNat ∧
    (endCode named).toNat < 128 := by
  cases named <;> decide

theorem complete_end {bytes : Bytes} (hcomplete : Complete (endCode named :: bytes)) :
    bytes = [] := by
  have hsize := hcomplete.2 []
  have hone : compPCodeSize (endCode named :: (bytes ++ [])) = 1 := by
    cases named <;> rfl
  rw [cons_append, hone, length_cons] at hsize
  exact length_eq_zero_iff.mp (Nat.succ.inj hsize).symm

theorem Body.last_start (hbody : Body named pFunc instrs) :
    ∃ p, (p, [endCode named]) ∈ starts 0 instrs ∧ p + 1 = pFunc.pCode.length := by
  obtain ⟨before, hlast⟩ := hbody.last
  rw [hbody.code, hlast, starts_append]
  refine ⟨_, mem_append_right _ mem_cons_self, ?_⟩
  rw [flatten_append, length_append, Nat.zero_add]
  rfl

theorem Over.marked_end (ho : Over named pFunc instrs info) (hmem : (a, i) ∈ starts 0 instrs)
    (htwo : info.pCodeMark a = 2) (hend : m + 1 = a + i.length)
    (hdead : ∀ n, m < n → n < pFunc.pCode.length → info.pCodeMark n = 0)
    (hlt : m + 1 < pFunc.pCode.length) (hbyte : i.getLast? = some (endCode named)) :
    i = [endCode named] := by
  have hstops : ¬ FallsThrough i := by
    intro hfalls
    obtain ⟨j, hj⟩ : ∃ j, (a + i.length, j) ∈ starts 0 instrs :=
      (starts_next hmem).resolve_right fun heq => by rw [ho.body.code] at hlt; omega
    have hmark := (ho.traced.closed a _ htwo (.next hmem hfalls hj rfl)).resolve_right id
    exact hmark (hdead _ (by omega) (by omega))
  -- what control goes to stands in front of the end
  have hback : ∀ b, Flows instrs a b → b ≤ a := by
    intro b hflow
    obtain ⟨j, hj⟩ := ho.body.flows_start hflow
    have hmark := (ho.traced.closed a b htwo hflow).resolve_right id
    by_contra hnot
    have hapart := starts_apart hmem hj (Nat.lt_of_not_le hnot)
    exact hmark (hdead b (by omega) (ho.body.start_lt hj))
  obtain ⟨htop, hsmall⟩ := endCode_bounds named
  cases ho.body.shape i (mem_of_mem_starts hmem) with
  | plain hcomplete hplain =>
    by_cases hjump : IsJump i
    · obtain ⟨width, hwidth⟩ := isJump_width hjump
      obtain ⟨nOffset, hoffset⟩ := isJump_offset hjump
      have hforward := jump_forward hcomplete hwidth hoffset hbyte htop hsmall
      obtain ⟨b, j, hj, hb⟩ := ho.body.lands a i nOffset hmem hoffset
      have hle := hback b (.jump hmem hoffset hb)
      omega
    · have hkind : (code i).kind = none := not_not.mp hjump
      have hends : code i = .endBlock ∨ code i = .endProc := by
        by_contra hnot
        obtain ⟨hblock, hproc⟩ := not_or.mp hnot
        refine hstops ⟨?_, ?_, hblock, hproc,
          fun arms heq => absurd (heq ▸ switch_code arms) hplain⟩
        · rw [hkind]
          exact (some_ne_none _).symm
        · rw [hkind]
          exact (some_ne_none _).symm
      obtain ⟨b, bytes, rfl⟩ := exists_cons_of_length_pos hcomplete.1
      have hbytes : bytes = [] := by
        rcases hends with hblock | hproc
        · obtain rfl : b = endCode false := byte_of_code hblock
          exact complete_end hcomplete
        · obtain rfl : b = endCode true := byte_of_code hproc
          exact complete_end hcomplete
      subst hbytes
      have htop' : b = endCode named := some.inj hbyte
      rw [htop']
  | switch arms heq _ hlast =>
    subst heq
    obtain ⟨arm, hin, hdef⟩ : ∃ arm ∈ arms, arm.isDefault := by
      by_contra hnot
      exact hstops (switch_falls.mpr fun arm hin hdef => hnot ⟨arm, hin, hdef⟩)
    obtain ⟨before, last, rfl⟩ : ∃ before last, arms = before ++ [last] :=
      ⟨_, _, (dropLast_append_getLast (ne_nil_of_mem hin)).symm⟩
    obtain ⟨hwidth, -⟩ := last.jump_width
    obtain ⟨nOffset, hoffset⟩ := isJump_offset (isJump_of_width hwidth)
    have hbyte' : last.jump.getLast? = some (endCode named) := by
      unfold switchBytes at hbyte
      rw [armBytes_append, armBytes_cons, armBytes_nil, append_nil] at hbyte
      have hne : last.jump ≠ [] := length_pos_iff.mp last.jumpComplete.1
      rw [← cons_append, ← append_assoc, ← append_assoc,
        getLast?_append_of_ne_nil _ hne] at hbyte
      exact hbyte
    have hforward := jump_forward last.jumpComplete hwidth hoffset hbyte' htop hsmall
    obtain ⟨b, j, hj, hb⟩ := ho.body.armsLand a before last [] nOffset hmem hoffset
    have hle := hback b (.arm hmem hoffset hb)
    omega

theorem Over.stripped (ho : Over named pFunc instrs info)
    (hr : Removal named pFunc info.pCodeMark out m) : Stripped named instrs pFunc out := by
  obtain ⟨S, hfilled, hzero, hnot, hrest⟩ := hr.filled
  have hkept : ∀ (a : Nat) (i : Bytes) (n : Nat), (a, i) ∈ starts 0 instrs → Reaches instrs a →
      a ≤ n → n < a + i.length → ¬ S n := by
    intro a i n hmem hreach hle hlt hs
    have htwo := ho.traced.reaches ho.ones ho.body hreach
    have hmark := ho.traced.whole a i hmem htwo n hle hlt
    exact absurd (hmark.symm.trans (hzero n hs)) (by decide)
  refine ⟨hfilled.length, fun n => ?_, fun a i n hmem hreach hle hlt => ⟨?_, fun hin => ?_⟩,
    hr.noops.once, ?_⟩
  · by_cases hs : S n
    · by_cases hlt : n < pFunc.pCode.length
      · exact .inr (hfilled.inside n hs hlt)
      · left
        rw [getElem?_eq_none (Nat.not_lt.mp hlt),
          getElem?_eq_none (by rw [hfilled.length]; exact Nat.not_lt.mp hlt)]
    · exact .inl (hfilled.outside n hs)
  · exact hfilled.outside n (hkept a i n hmem hreach hle hlt)
  · exact (hfilled.listed n hin).resolve_right (hkept a i n hmem hreach hle hlt)
  · have hout := hfilled.outside m hnot
    have hafter : ∀ n, m < n → n < pFunc.pCode.length → out.pCode[n]? = some noop.byte :=
      fun n hlt hlt' => hfilled.inside n (hrest n hlt hlt') hlt'
    obtain ⟨p, hp, hplast⟩ := ho.body.last_start
    have hget : ∀ a, (a, [endCode named]) ∈ starts 0 instrs →
        pFunc.pCode[a]? = some (endCode named) := by
      intro a hmem
      have hbyte := getElem?_of_mem_starts hmem (k := 0) Nat.one_pos
      rw [ho.body.code]
      exact hbyte
    rcases hr.last with hend | ⟨hmarked, hdead, hbyte⟩
    · obtain rfl : p = m := by omega
      exact ⟨p, hp, hout.trans (hget p hp), hafter⟩
    · by_cases hend : m + 1 = pFunc.pCode.length
      · obtain rfl : p = m := by omega
        exact ⟨p, hp, hout.trans (hget p hp), hafter⟩
      · have hlt := hr.lt
        obtain ⟨a, i, hmem, hle, hlt'⟩ := @exists_chunk _ 0 instrs m (Nat.zero_le m)
          (by rw [← ho.body.code]; omega)
        have htwo : info.pCodeMark a = 2 := by
          by_contra hne
          by_cases heq : m = a
          · exact hne (ho.two hmem (heq ▸ hmarked))
          · exact hmarked (ho.traced.inner a i hmem hne m (by omega) hlt')
        -- the byte is the last one of its instruction
        have hlast : m + 1 = a + i.length := by
          by_contra hne
          have hmark := ho.traced.whole a i hmem htwo (m + 1) (by omega) (by omega)
          rw [hdead (m + 1) (by omega) (by omega)] at hmark
          exact absurd hmark (by decide)
        have hgetLast : i.getLast? = some (endCode named) := by
          have hk := getElem?_of_mem_starts hmem (k := i.length - 1) (by omega)
          rw [getLast?_eq_getElem?, ← hk, ← ho.body.code, ← hbyte]
          congr 1
          omega
        have hi := ho.marked_end hmem htwo hlast hdead (by omega) hgetLast
        subst hi
        obtain rfl : m = a := by
          rw [length_singleton] at hlast
          omega
        exact ⟨m, hmem, hout.trans hbyte, hafter⟩

theorem Body.table (hbody : Body named pFunc instrs) : Noops pFunc := ⟨hbody.noops, hbody.once⟩

theorem Body.unchanged (hbody : Body named pFunc instrs) : Stripped named instrs pFunc pFunc := by
  obtain ⟨p, hp, hplast⟩ := hbody.last_start
  refine ⟨rfl, fun _ => .inl rfl, fun _ _ _ _ _ _ _ => ⟨rfl, id⟩, hbody.once, p, hp, ?_,
    fun n hlt hlt' => absurd hlt' (by omega)⟩
  have hbyte := getElem?_of_mem_starts hp (k := 0) Nat.one_pos
  rw [hbody.code]
  exact hbyte

end Marked

/-- The marking of dead code ends, keeps what control reaches and an end of the function, and lists
no byte twice, unless a `switch` that is traced counts to the limit of its counter. -/
theorem compCodeTraceMarkDead_stripped {named : Bool} {pFunc : Func} {instrs : List Bytes}
    (hbody : Body named pFunc instrs) (fOptJump : Bool)
    (hcountable : fOptJump = true → Countable instrs) (rounds : Nat)
    (hrounds : instrs.length < rounds) :
    ∃ out, compCodeTraceMarkDead rounds fOptJump named pFunc = .ok out ∧
      Stripped named instrs pFunc out := by
  unfold compCodeTraceMarkDead
  by_cases hskip : fOptJump = false ∨ pFunc.pCode.length < 2
  · rw [if_pos hskip]
    exact ⟨pFunc, rfl, hbody.unchanged⟩
  · rw [if_neg hskip]
    have hopt : fOptJump = true := Bool.eq_true_of_not_eq_false fun h => hskip (.inl h)
    have hcard := Nat.lt_of_le_of_lt (unmet_card_le instrs traceStart) hrounds
    obtain ⟨info, htrace, hfinished, ht, hones⟩ :=
      trace_ends hbody (hcountable hopt) (traceStart_goes hbody) hcard
    change ∃ out, (compPCodeTrace pFunc rounds traceStart 0).bind _ = .ok out ∧ _
    rw [htrace]
    refine ⟨removeDead named info.pCodeMark pFunc, ?_, ?_⟩
    · change Except.ok (if info.fFinished = true then _ else _) = _
      rw [if_pos hfinished]
    · have ho : Over named pFunc instrs info := ⟨hbody, ht, hones⟩
      obtain ⟨i, hmem⟩ := hbody.origin
      have hzero : info.pCodeMark 0 ≠ 0 := ht.origin.resolve_right id
      obtain ⟨m, hr⟩ := @removeDead_removal named pFunc info.pCodeMark hbody.table
        (hbody.start_lt hmem) hzero
      exact ho.stripped hr

def skippedInstrs : List Bytes := [[26, 5, 0], [92, 1], [7]]

def skippedFunc : Func := ⟨skippedInstrs.flatten, [], [], false⟩

section

variable {a : Nat} {i : Bytes} (hmem : (a, i) ∈ starts 0 skippedInstrs)

include hmem

theorem mem_skipped : a = 0 ∧ i = [26, 5, 0] ∨ a = 3 ∧ i = [92, 1] ∨ a = 5 ∧ i = [7] := by
  rcases mem_cons.mp hmem with heq | hmem
  · exact .inl ⟨congrArg Prod.fst heq, congrArg Prod.snd heq⟩
  rcases mem_cons.mp hmem with heq | hmem
  · exact .inr (.inl ⟨congrArg Prod.fst heq, congrArg Prod.snd heq⟩)
  · have heq := mem_singleton.mp hmem
    exact .inr (.inr ⟨congrArg Prod.fst heq, congrArg Prod.snd heq⟩)

theorem skipped_plain : Complete i ∧ code i ≠ .switch ∧ code i ≠ .seqBegin := by
  rcases mem_skipped hmem with ⟨-, rfl⟩ | ⟨-, rfl⟩ | ⟨-, rfl⟩
  · exact ⟨⟨Nat.succ_pos _, fun _ => rfl⟩, by decide, by decide⟩
  · exact ⟨⟨Nat.succ_pos _, fun _ => rfl⟩, by decide, by decide⟩
  · exact ⟨⟨Nat.succ_pos _, fun _ => rfl⟩, by decide, by decide⟩

end

theorem skipped_switch {a : Nat} {arms : List Arm} :
    (a, switchBytes arms) ∉ starts 0 skippedInstrs := fun hmem => (skipped_plain hmem).2.1 rfl

theorem skipped_body : Body true skippedFunc skippedInstrs where
  code := rfl
  shape i hi := by
    obtain ⟨a, hmem⟩ := exists_start 0 hi
    exact .plain (skipped_plain hmem).1 (skipped_plain hmem).2.1
  fits := by decide
  lands a i nOffset hmem hoffset := by
    rcases mem_skipped hmem with ⟨rfl, rfl⟩ | ⟨-, rfl⟩ | ⟨-, rfl⟩
    · have hfive : jumpOffset [26, 5, 0] = some 5 := by decide
      have heq := some.inj (hoffset.symm.trans hfive)
      refine ⟨5, [7], mem_cons_of_mem _ (mem_cons_of_mem _ mem_cons_self), ?_⟩
      rw [heq]
      rfl
    · exact absurd hoffset.symm (some_ne_none _)
    · exact absurd hoffset.symm (some_ne_none _)
  armsLand a before arm after nOffset hmem := absurd hmem skipped_switch
  recover a i nOffset hmem hcode := absurd hcode (skipped_plain hmem).2.2
  last := ⟨[[26, 5, 0], [92, 1]], rfl⟩
  noops n hn := absurd hn not_mem_nil
  once := nodup_nil

theorem compCodeTraceMarkDead_skipped :
    ∃ out, compCodeTraceMarkDead 4 true true skippedFunc = .ok out ∧
      Stripped true skippedInstrs skippedFunc out :=
  compCodeTraceMarkDead_stripped skipped_body true
    (fun _ _ _ _ hmem => absurd hmem skipped_switch) 4 (by decide)

end Harbour.Compiler.DeadCode
