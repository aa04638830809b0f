import Harbour.Compiler.JumpAdjust

/-!
A pass deletes the listed bytes, and every jump that is left goes where it went before.
-/

namespace Harbour.Compiler.JumpTargets

open Library.Bytes Library.Chunks Library.Deletion PCodeSize Jumps JumpShorten JumpTable
  JumpAdjust List PCode

section Remaining

variable {pFunc : Func} {instrs : List Bytes} {removed : List Nat} {a n : Nat} {i : Bytes}

def residue (removed : List Nat) (a : Nat) (i : Bytes) : Bytes :=
  if a ∈ removed then [] else adjusted removed a i

def remaining (removed : List Nat) (instrs : List Bytes) : List Bytes :=
  (mapChunks (residue removed) 0 instrs).filter fun i => !i.isEmpty

theorem removed_start (h : Body pFunc instrs) (hmem : (a, i) ∈ starts 0 instrs)
    (hn : n ∈ pFunc.pNOOPs)
    (hle : a ≤ n) (hlt : n < a + i.length) : n = a ∧ i = [noop.byte] := by
  have hnoop := h.noops n hn
  rcases Nat.eq_or_lt_of_le hle with rfl | hbefore
  · exact ⟨rfl, starts_unique h.solid hmem hnoop⟩
  · have hapart := starts_apart hmem hnoop hbefore
    omega

section

variable (h : Exact pFunc instrs)

include h

theorem keepFrom_adjusted (hmem : (a, i) ∈ starts 0 instrs) :
    keepFrom pFunc.pNOOPs a (adjusted pFunc.pNOOPs a i) = residue pFunc.pNOOPs a i := by
  have hlength := h.adjusted_length hmem
  have hpos := h.solid.length_pos hmem
  unfold residue
  split
  · rename_i hremoved
    obtain ⟨-, rfl⟩ := removed_start h.toBody hmem hremoved (Nat.le_refl _) (by omega)
    apply keepFrom_all
    intro k hk
    obtain rfl : k = 0 := Nat.lt_one_iff.mp hk
    exact hremoved
  · rename_i hstays
    apply keepFrom_nil
    intro n hn
    by_contra hinside
    obtain ⟨rfl, -⟩ := removed_start h.toBody hmem hn (by omega) (by omega)
    exact hstays hn

theorem residue_ne_nil (hmem : (a, i) ∈ starts 0 instrs) :
    residue pFunc.pNOOPs a i ≠ [] ↔ a ∉ pFunc.pNOOPs := by
  have hlength := h.adjusted_length hmem
  have hpos := h.solid.length_pos hmem
  unfold residue
  split
  · rename_i hremoved
    exact iff_of_false (fun hne => hne rfl) (fun hstays => hstays hremoved)
  · rename_i hstays
    refine iff_of_true (length_pos_iff.mp ?_) hstays
    omega

theorem mem_starts_remaining {c : Nat} {r : Bytes} :
    (c, r) ∈ starts 0 (remaining pFunc.pNOOPs instrs) ↔ ∃ a i, (a, i) ∈ starts 0 instrs ∧
      a ∉ pFunc.pNOOPs ∧ c = rank pFunc.pNOOPs a ∧ r = adjusted pFunc.pNOOPs a i := by
  have hsame : mapChunks (residue pFunc.pNOOPs) 0 instrs =
      mapChunks (keepFrom pFunc.pNOOPs) 0 (mapChunks (adjusted pFunc.pNOOPs) 0 instrs) := by
    rw [mapChunks_mapChunks fun a i hmem => h.adjusted_length hmem]
    exact mapChunks_congr fun a i hmem => (keepFrom_adjusted h hmem).symm
  have hzero : rank pFunc.pNOOPs 0 = 0 := Nat.zero_sub _
  have hstarts := starts_keepFrom h.once 0 (mapChunks (adjusted pFunc.pNOOPs) 0 instrs)
  rw [hzero, ← hsame, starts_mapChunks fun a i hmem => h.adjusted_length hmem, map_map] at hstarts
  rw [remaining, starts_filter, mem_filter, hstarts, mem_map]
  have hnonempty : ∀ r : Bytes, (!r.isEmpty) = true ↔ r ≠ [] := by
    cases r <;> simp
  constructor
  · rintro ⟨⟨⟨a, i⟩, hmem, heq⟩, hne⟩
    simp only [Function.comp_apply, Prod.mk.injEq, keepFrom_adjusted h hmem] at heq
    obtain ⟨rfl, rfl⟩ := heq
    have hstays := (residue_ne_nil h hmem).mp ((hnonempty _).mp hne)
    exact ⟨a, i, hmem, hstays, rfl, if_neg hstays⟩
  · rintro ⟨a, i, hmem, hstays, rfl, rfl⟩
    have hresidue : residue pFunc.pNOOPs a i = adjusted pFunc.pNOOPs a i := if_neg hstays
    refine ⟨⟨(a, i), hmem, ?_⟩, ?_⟩
    · simp only [Function.comp_apply, keepFrom_adjusted h hmem, hresidue]
    · rw [hnonempty, ← hresidue]
      exact (residue_ne_nil h hmem).mpr hstays

theorem sortNOOPs_exact : Exact (sortNOOPs pFunc) instrs where
  code := h.code
  complete := h.complete
  fits := h.fits
  listed := h.listed
  entries := h.entries
  distinct := h.distinct
  lands := h.lands
  noops n hn := h.noops n (mem_mergeSort.mp hn)
  once := (mergeSort_perm _ _).nodup_iff.mpr h.once
  jumps := h.jumps

end

theorem sortNOOPs_sorted (h : Body pFunc instrs) : (sortNOOPs pFunc).pNOOPs.Pairwise (· < ·) := by
  have hle : (sortNOOPs pFunc).pNOOPs.Pairwise fun a b => decide (a ≤ b) = true :=
    pairwise_mergeSort (fun a b c hab hbc => by simp only [decide_eq_true_eq] at *; omega)
      (fun a b => by simp only [Bool.or_eq_true, decide_eq_true_eq]; omega) pFunc.pNOOPs
  have hnodup : (sortNOOPs pFunc).pNOOPs.Nodup := (mergeSort_perm _ _).nodup_iff.mpr h.once
  refine (hle.and hnodup).imp ?_
  rintro a b ⟨hab, hne⟩
  simp only [decide_eq_true_eq] at hab
  omega

theorem compactJumps_spec (h : Exact pFunc instrs) :
    (compactJumps pFunc).pCode = keepFrom (sortNOOPs pFunc).pNOOPs 0
        (mapChunks (adjusted (sortNOOPs pFunc).pNOOPs) 0 instrs).flatten ∧
      (compactJumps pFunc).pCode = (remaining (sortNOOPs pFunc).pNOOPs instrs).flatten ∧
      (compactJumps pFunc).pJumps = pFunc.pJumps.map (rank (sortNOOPs pFunc).pNOOPs) ∧
      (compactJumps pFunc).pNOOPs = [] ∧ (compactJumps pFunc).fExit = pFunc.fExit := by
  have hsorted := sortNOOPs_exact h
  obtain ⟨hcode, hjumps, hexit⟩ := hsorted.adjustJumps
  have hlength : (mapChunks (adjusted (sortNOOPs pFunc).pNOOPs) 0 instrs).flatten.length =
      pFunc.pCode.length := by
    rw [flatten_length fun a i hmem => hsorted.adjusted_length hmem, h.code]
  have hcompact : (compactJumps pFunc).pCode = keepFrom (sortNOOPs pFunc).pNOOPs 0
      (mapChunks (adjusted (sortNOOPs pFunc).pNOOPs) 0 instrs).flatten := by
    change compact (sortNOOPs pFunc).pNOOPs (adjustJumps (sortNOOPs pFunc)).pCode = _
    rw [hcode]
    apply compact_eq (sortNOOPs_sorted h.toBody)
    intro n hn
    rw [hlength]
    exact start_lt h.toBody (hsorted.noops n hn)
  refine ⟨hcompact, ?_, hjumps, rfl, hexit⟩
  rw [hcompact, keepFrom_flatten, mapChunks_mapChunks fun a i hmem => hsorted.adjusted_length hmem,
    remaining, flatten_filter]
  congr 1
  exact mapChunks_congr fun a i hmem => keepFrom_adjusted hsorted hmem

end Remaining

section Targets

variable {pFunc : Func} {instrs : List Bytes} {removed : List Nat} {a target : Nat} {i : Bytes}
  {nOffset : Int}

def FirstLeft (removed : List Nat) (position first : Nat) : Prop :=
  position ≤ first ∧ first ∉ removed ∧ ∀ n, position ≤ n → n < first → n ∈ removed

theorem FirstLeft.rank_eq {position first : Nat} (hnodup : removed.Nodup)
    (h : FirstLeft removed position first) : rank removed first = rank removed position :=
  Library.Deletion.rank_eq hnodup h.2.2 h.1

theorem firstLeft (h : Body pFunc instrs) (distance : Nat)
    (hposition : (∃ i, (target, i) ∈ starts 0 instrs) ∨ target = pFunc.pCode.length)
    (hdistance : pFunc.pCode.length ≤ target + distance) :
    ∃ first, FirstLeft pFunc.pNOOPs target first ∧
      ((∃ i, (first, i) ∈ starts 0 instrs) ∨ first = pFunc.pCode.length) := by
  induction distance generalizing target with
  | zero =>
    refine ⟨target, ⟨Nat.le_refl _, fun hn => ?_, fun n hle hlt => by omega⟩, hposition⟩
    have hlt := start_lt h (h.noops target hn)
    omega
  | succ distance ih =>
    by_cases hn : target ∈ pFunc.pNOOPs
    · have hnext := starts_next (h.noops target hn)
      rw [← h.code] at hnext
      obtain ⟨first, ⟨hle, hstays, hbetween⟩, hstart⟩ := ih hnext (by
        rw [length_singleton]
        omega)
      refine ⟨first, ⟨by omega, hstays, fun n hn' hlt => ?_⟩, hstart⟩
      rcases Nat.eq_or_lt_of_le hn' with rfl | hlt'
      · exact hn
      · exact hbetween n hlt' hlt
    · exact ⟨target, ⟨Nat.le_refl _, hn, fun n hle hlt => by omega⟩, hposition⟩

theorem compactJumps_nil (h : Exact pFunc instrs) (hnil : pFunc.pNOOPs = []) :
    compactJumps pFunc = pFunc := by
  obtain ⟨hcode, -, hjumps, hnoops, hexit⟩ := compactJumps_spec h
  have hsorted : (sortNOOPs pFunc).pNOOPs = [] := by
    change pFunc.pNOOPs.mergeSort _ = []
    rw [hnil, mergeSort_nil]
  have hsame : ∀ a i, adjusted [] a i = i := by
    intro a i
    unfold adjusted
    cases jumpOffset i with
    | none => rfl
    | some nOffset => exact if_pos rfl
  rw [hsorted] at hcode hjumps
  have hpCode : (compactJumps pFunc).pCode = pFunc.pCode := by
    rw [hcode, keepFrom_nil fun _ hmem => absurd hmem not_mem_nil, h.code]
    have hconst := mapChunks_const id 0 instrs
    rw [map_id] at hconst
    conv_rhs => rw [← hconst]
    congr 1
    exact mapChunks_congr fun a i _ => hsame a i
  have hpJumps : (compactJumps pFunc).pJumps = pFunc.pJumps := by
    rw [hjumps]
    exact map_id' _
  cases hcompact : compactJumps pFunc with
  | mk pCode pNOOPs pJumps fExit =>
    cases pFunc
    simp_all

theorem jumpPass_eq (iPass : Nat) (hbody : Body pFunc instrs) :
    jumpPass iPass pFunc = compactJumps (shortenJumps iPass pFunc.pJumps.length pFunc) := by
  obtain ⟨hshort, htable⟩ := shorten_body iPass hbody
  unfold jumpPass
  dsimp only
  split
  · rename_i hnil
    exact (compactJumps_nil ⟨hshort, fun a ha => (htable a).mp ha⟩ hnil).symm
  · rfl

section

variable (h : Exact pFunc instrs) (hmem : (a, i) ∈ starts 0 instrs)

include h hmem

theorem adjusted_code : code (adjusted pFunc.pNOOPs a i) = code i := by
  by_cases hjump : IsJump i
  · obtain ⟨nOffset, hoffset⟩ := isJump_offset hjump
    obtain ⟨target, j, -, htarget⟩ := h.lands a i nOffset hmem hoffset
    exact (adjusted_spec h.once (h.complete i (mem_of_mem_starts hmem)) hoffset htarget).2.1
  · rw [adjusted_of_not hjump]

theorem adjusted_complete : Complete (adjusted pFunc.pNOOPs a i) := by
  have hcomplete := h.complete i (mem_of_mem_starts hmem)
  by_cases hjump : IsJump i
  · obtain ⟨width, hwidth⟩ := isJump_width hjump
    have hlength := (h.adjusted_length hmem).trans (width_of_complete hwidth hcomplete)
    rw [← adjusted_code h hmem] at hwidth
    exact complete_of_width hwidth hlength
  · rwa [adjusted_of_not hjump]

theorem compactJumps_lands (hoffset : jumpOffset i = some nOffset)
    (htarget : (target : Int) = a + nOffset) : ∃ i' nOffset' first,
      (rank (sortNOOPs pFunc).pNOOPs a, i') ∈ starts 0 (remaining (sortNOOPs pFunc).pNOOPs instrs) ∧
      code i' = code i ∧
      jumpOffset ((compactJumps pFunc).pCode.drop (rank (sortNOOPs pFunc).pNOOPs a)) =
        some nOffset' ∧
      FirstLeft (sortNOOPs pFunc).pNOOPs target first ∧
      (rank (sortNOOPs pFunc).pNOOPs a : Int) + nOffset' = rank (sortNOOPs pFunc).pNOOPs first ∧
      ((∃ j, (rank (sortNOOPs pFunc).pNOOPs first, j) ∈
          starts 0 (remaining (sortNOOPs pFunc).pNOOPs instrs)) ∨ first = pFunc.pCode.length) := by
  have hsorted := sortNOOPs_exact h
  have hcomplete := h.complete i (mem_of_mem_starts hmem)
  obtain ⟨width, hwidth, -⟩ := Option.map_eq_some_iff.mp hoffset
  have hstays := hsorted.stays (h.listed a i hmem (isJump_of_width hwidth))
  obtain ⟨-, hcode, hnew⟩ := adjusted_spec hsorted.once hcomplete hoffset htarget
  obtain ⟨b, j, hland, hb⟩ := h.lands a i nOffset hmem hoffset
  obtain rfl : b = target := by omega
  have hplace := (mem_starts_remaining hsorted).mpr ⟨a, i, hmem, hstays, rfl, rfl⟩
  obtain ⟨behind, hdrop⟩ := drop_of_mem_starts hplace
  obtain ⟨first, hfirst, hstart⟩ := firstLeft hsorted.toBody pFunc.pCode.length (.inl ⟨j, hland⟩)
    (Nat.le_add_left _ _)
  have hcomplete' := adjusted_complete hsorted hmem
  have hrank := hfirst.rank_eq hsorted.once
  refine ⟨_, (rank (sortNOOPs pFunc).pNOOPs b : Int) - rank (sortNOOPs pFunc).pNOOPs a,
    first, hplace,
    hcode, ?_, hfirst, ?_, ?_⟩
  · rw [(compactJumps_spec h).2.1, hdrop]
    exact jumpOffset_append hcomplete' hnew behind
  · omega
  · refine hstart.imp_left ?_
    rintro ⟨k, hk⟩
    exact ⟨_, (mem_starts_remaining hsorted).mpr ⟨first, k, hk, hfirst.2.1, rfl, rfl⟩⟩

end

theorem compactJumps_table (h : Exact pFunc instrs) :
    (∀ i ∈ remaining (sortNOOPs pFunc).pNOOPs instrs, Complete i) ∧
      (∀ c, c ∈ (compactJumps pFunc).pJumps ↔
        ∃ r, (c, r) ∈ starts 0 (remaining (sortNOOPs pFunc).pNOOPs instrs) ∧ IsJump r) ∧
      (compactJumps pFunc).pJumps.Nodup := by
  have hsorted := sortNOOPs_exact h
  refine ⟨fun r hr => ?_, fun c => ?_, ?_⟩
  · obtain ⟨c, hc⟩ := exists_start 0 hr
    obtain ⟨a, i, hmem, -, -, rfl⟩ := (mem_starts_remaining hsorted).mp hc
    exact adjusted_complete hsorted hmem
  · rw [(compactJumps_spec h).2.2.1, mem_map]
    constructor
    · rintro ⟨a, ha, rfl⟩
      obtain ⟨i, hmem, hjump⟩ := h.jumps a ha
      refine ⟨_, (mem_starts_remaining hsorted).mpr ⟨a, i, hmem, hsorted.stays ha, rfl, rfl⟩, ?_⟩
      unfold IsJump
      rwa [adjusted_code hsorted hmem]
    · rintro ⟨r, hr, hjump⟩
      obtain ⟨a, i, hmem, -, rfl, rfl⟩ := (mem_starts_remaining hsorted).mp hr
      unfold IsJump at hjump
      rw [adjusted_code hsorted hmem] at hjump
      exact ⟨a, h.listed a i hmem hjump, rfl⟩
  · rw [(compactJumps_spec h).2.2.1]
    refine h.distinct.map_on fun a ha b hb heq => ?_
    rcases Nat.lt_trichotomy a b with hlt | rfl | hlt
    · have := rank_lt hsorted.once (hsorted.stays ha) hlt
      omega
    · rfl
    · have := rank_lt hsorted.once (hsorted.stays hb) hlt
      omega

end Targets

section Pass

variable {pFunc : Func} {instrs : List Bytes}

/-- What a pass makes of a jump at `a` that goes to `target`: the same jump to the first
instruction that is left there, or nothing but a `HB_P_POP` when it goes to the next one. -/
def Follows (removed : List Nat) (out : Func) (instrs' : List Bytes) (length a target : Nat)
    (i : Bytes) : Prop :=
  (∃ i' nOffset first, (rank removed a, i') ∈ starts 0 instrs' ∧ (code i').kind = (code i).kind ∧
      jumpOffset (out.pCode.drop (rank removed a)) = some nOffset ∧
      FirstLeft removed target first ∧ (rank removed a : Int) + nOffset = rank removed first ∧
      ((∃ j, (rank removed first, j) ∈ starts 0 instrs') ∨ first = length)) ∨
    target = a + i.length ∧
      ((code i).kind = some .always ∧ (∀ k < i.length, a + k ∈ removed) ∨
        ((code i).kind = some .onFalse ∨ (code i).kind = some .onTrue) ∧
          (rank removed a, [pop.byte]) ∈ starts 0 instrs' ∧
          ∀ k < i.length, 0 < k → a + k ∈ removed)

theorem isJump_of_offset {i : Bytes} {nOffset : Int} (h : jumpOffset i = some nOffset) :
    IsJump i := by
  obtain ⟨width, hwidth, -⟩ := Option.map_eq_some_iff.mp h
  exact isJump_of_width hwidth

section

variable {iPass : Nat} {short : Func} {i : Bytes} (hbody : Body pFunc instrs)
  (hstage : Stage pFunc instrs iPass [] pFunc.pJumps short)

include hbody hstage

theorem stage_removed {a k : Nat} (hmem : (a, i) ∈ starts 0 instrs) (hjump : IsJump i)
    (hkept : (kept iPass i).length ≤ k) (hk : k < i.length) : a + k ∈ short.pNOOPs := by
  have hcomplete := hbody.complete i (mem_of_mem_starts hmem)
  refine (hstage.noops _).mpr (.inr ⟨a, hbody.listed a i hmem hjump, i, hmem, k, ?_, rfl⟩)
  rw [(kept_outcome hcomplete).2.2.1]
  exact mem_range'_1.mpr (by omega)

theorem stage_follows {a target : Nat} {nOffset : Int}
    (hexact : Exact short (instrs.flatMap (pieces iPass))) (hmem : (a, i) ∈ starts 0 instrs)
    (hoffset : jumpOffset i = some nOffset) (htarget : (target : Int) = a + nOffset) :
    Follows (sortNOOPs short).pNOOPs (compactJumps short)
      (remaining (sortNOOPs short).pNOOPs (instrs.flatMap (pieces iPass)))
      pFunc.pCode.length a target
      i := by
  have hcomplete := hbody.complete i (mem_of_mem_starts hmem)
  have hsorted := sortNOOPs_exact hexact
  have hjump := isJump_of_offset hoffset
  have hremoved : ∀ k, (kept iPass i).length ≤ k → k < i.length →
      a + k ∈ (sortNOOPs short).pNOOPs :=
    fun k hle hlt => mem_mergeSort.mpr (stage_removed hbody hstage hmem hjump hle hlt)
  have hplace : kept iPass i ≠ [] → (a, kept iPass i) ∈ starts 0 (instrs.flatMap (pieces iPass)) :=
    fun hne => (mem_starts_flatMap hbody.complete).mpr ⟨a, i, hmem, .inl ⟨rfl, rfl, hne⟩⟩
  have hleft := (@kept_outcome iPass i hcomplete).1
  generalize kept iPass i = j at hremoved hplace hleft
  cases hleft with
  | same kind offset complete =>
    obtain ⟨i', nOffset', first, hplace', hcode, hnew, hfirst, hrank, hstart⟩ :=
      compactJumps_lands hexact
      (hplace (length_pos_iff.mp complete.1)) (offset.trans hoffset) htarget
    rw [(stage_code hbody hstage).2] at hstart
    exact .inl ⟨i', nOffset', first, hplace', hcode ▸ kind, hnew, hfirst, hrank, hstart⟩
  | removed kind offset =>
    have hlength := Option.some.inj (hoffset.symm.trans offset)
    exact .inr ⟨by omega, .inl ⟨kind, fun k hk => hremoved k (Nat.zero_le _) hk⟩⟩
  | popped kind offset =>
    have hlength := Option.some.inj (hoffset.symm.trans offset)
    have hpop := hplace (cons_ne_nil _ _)
    have hstays : a ∉ (sortNOOPs short).pNOOPs := by
      intro hn
      cases starts_unique hsorted.solid hpop (hsorted.noops a hn)
    refine .inr ⟨by omega, .inr ⟨kind, ?_, fun k hk hpos => hremoved k hpos hk⟩⟩
    exact (mem_starts_remaining hsorted).mpr
      ⟨a, _, hpop, hstays, rfl, (adjusted_of_not (not_not.mpr rfl)).symm⟩

end

/-- A pass deletes exactly the listed bytes, each of them a `HB_P_NOOP` by then; instructions
that are no jumps stay as they are, each jump that is left goes to the first instruction that
is left of its target, and the table lists exactly the jumps again. -/
theorem jumpPass_targets (iPass : Nat) (hbody : Body pFunc instrs) :
    ∃ (removed : List Nat) (whole : Bytes) (instrs' : List Bytes),
      (removed.Perm (shortenJumps iPass pFunc.pJumps.length pFunc).pNOOPs ∧ removed.Nodup ∧
        (∀ n ∈ pFunc.pNOOPs, n ∈ removed) ∧
        ∀ n ∈ removed, n ∈ pFunc.pNOOPs ∨ ∃ a i, (a, i) ∈ starts 0 instrs ∧ IsJump i ∧ a ≤ n ∧
          n < a + i.length) ∧
      (whole.length = pFunc.pCode.length ∧ (jumpPass iPass pFunc).pCode = keepFrom removed 0 whole ∧
        (∀ n ∈ removed, whole[n]? = some noop.byte) ∧
        ∀ a i, (a, i) ∈ starts 0 instrs → ¬ IsJump i → ∀ k < i.length, whole[a + k]? = i[k]?) ∧
      ((jumpPass iPass pFunc).pCode = instrs'.flatten ∧ (∀ i ∈ instrs', Complete i) ∧
        (jumpPass iPass pFunc).pNOOPs = [] ∧ (jumpPass iPass pFunc).fExit = pFunc.fExit ∧
        (jumpPass iPass pFunc).pJumps.Nodup ∧
        ∀ a, a ∈ (jumpPass iPass pFunc).pJumps ↔ ∃ i, (a, i) ∈ starts 0 instrs' ∧ IsJump i) ∧
      ∀ a i nOffset (target : Nat), (a, i) ∈ starts 0 instrs → jumpOffset i = some nOffset →
        (target : Int) = a + nOffset →
          Follows removed (jumpPass iPass pFunc) instrs' pFunc.pCode.length a target i := by
  obtain ⟨hshort, htable⟩ := shorten_body iPass hbody
  have hstage := shortenJumps_spec iPass hbody
  rw [jumpPass_eq iPass hbody]
  generalize shortenJumps iPass pFunc.pJumps.length pFunc = short at hshort htable hstage
  have hexact : Exact short (instrs.flatMap (pieces iPass)) :=
    ⟨hshort, fun a ha => (htable a).mp ha⟩
  have hsorted := sortNOOPs_exact hexact
  have hperm : (sortNOOPs short).pNOOPs.Perm short.pNOOPs := mergeSort_perm _ _
  have hlength : ∀ a i, (a, i) ∈ starts 0 (instrs.flatMap (pieces iPass)) →
      (adjusted (sortNOOPs short).pNOOPs a i).length = i.length :=
    fun a i hmem => hsorted.adjusted_length hmem
  have hwhole : ∀ a i, (a, i) ∈ starts 0 (instrs.flatMap (pieces iPass)) →
      ¬ IsJump i → ∀ k < i.length,
      (mapChunks (adjusted (sortNOOPs short).pNOOPs) 0
        (instrs.flatMap (pieces iPass))).flatten[a + k]? = i[k]? := by
    intro a i hmem hjump k hk
    apply getElem?_of_mem_starts _ hk
    rw [starts_mapChunks hlength, mem_map]
    exact ⟨(a, i), hmem, by rw [adjusted_of_not hjump]⟩
  obtain ⟨hcode, hflatten, -, hnil, hexit⟩ := compactJumps_spec hexact
  obtain ⟨hcomplete, hjumps, hdistinct⟩ := compactJumps_table hexact
  refine ⟨(sortNOOPs short).pNOOPs, _,
    remaining (sortNOOPs short).pNOOPs (instrs.flatMap (pieces iPass)),
    ⟨hperm, hsorted.once, fun n hn => hperm.mem_iff.mpr ((hstage.noops n).mpr (.inl hn)),
      fun n hn => ?_⟩,
    ⟨?_, hcode, ?_, ?_⟩,
    ⟨hflatten, hcomplete, hnil, hexit.trans hstage.exit, hdistinct, hjumps⟩,
    fun a i nOffset target => stage_follows hbody hstage hexact⟩
  · rcases (hstage.noops n).mp (hperm.mem_iff.mp hn) with hold | ⟨a, -, i, hmem, k, hk, rfl⟩
    · exact .inl hold
    · have hjump : IsJump i := by
        by_contra hnot
        rw [shortened_of_not hnot] at hk
        cases hk
      have hlt := (shortened_outcome (hbody.complete i (mem_of_mem_starts hmem))).listed.2 k hk
      exact .inr ⟨a, i, hmem, hjump, Nat.le_add_right _ _, by omega⟩
  · rw [flatten_length hlength, ← hexact.code, (stage_code hbody hstage).2]
  · intro n hn
    exact hwhole n _ (hsorted.noops n hn) (not_not.mpr rfl) 0 Nat.one_pos
  · intro a i hmem hjump
    have hkept : kept iPass i = i := kept_of_not hjump
    exact hwhole a i ((mem_starts_flatMap hbody.complete).mpr
      ⟨a, i, hmem, .inl ⟨rfl, hkept.symm, length_pos_iff.mp (hbody.complete i
        (mem_of_mem_starts hmem)).1⟩⟩) hjump

def jumpOver : Func := ⟨[26, 5, 0, 67, 67, 7], [3], [0], false⟩

def jumpOverInstrs : List Bytes := [[26, 5, 0], [67], [67], [7]]

theorem jumpOver_body : Body jumpOver jumpOverInstrs where
  code := rfl
  complete i hi := by
    simp only [jumpOverInstrs, mem_cons, not_mem_nil, or_false] at hi
    rcases hi with rfl | rfl | rfl | rfl <;> exact ⟨by decide, fun _ => rfl⟩
  fits := by decide
  listed a i hmem hjump := by
    simp only [jumpOverInstrs, starts, mem_cons, not_mem_nil, or_false, Prod.mk.injEq] at hmem
    rcases hmem with ⟨rfl, rfl⟩ | ⟨rfl, rfl⟩ | ⟨rfl, rfl⟩ | ⟨rfl, rfl⟩
    · exact mem_cons_self
    all_goals exact absurd rfl hjump
  entries a ha := by
    obtain rfl := mem_singleton.mp ha
    exact ⟨_, mem_cons_self, .inl (by rintro ⟨⟩)⟩
  distinct := nodup_singleton 0
  lands a i nOffset hmem hoffset := by
    simp only [jumpOverInstrs, starts, mem_cons, not_mem_nil, or_false, Prod.mk.injEq] at hmem
    rcases hmem with ⟨rfl, rfl⟩ | ⟨rfl, rfl⟩ | ⟨rfl, rfl⟩ | ⟨rfl, rfl⟩
    · refine ⟨5, [7], by decide, ?_⟩
      cases hoffset
      rfl
    all_goals cases hoffset
  noops n hn := by
    obtain rfl := mem_singleton.mp hn
    decide
  once := nodup_singleton 3

theorem jumpOver_targets : Body jumpOver jumpOverInstrs ∧ ∃ (removed : List Nat) (whole : Bytes),
    (jumpPass 0 jumpOver).pCode = keepFrom removed 0 whole ∧ (jumpPass 0 jumpOver).pNOOPs = [] := by
  obtain ⟨removed, whole, instrs', -, ⟨-, hcode, -⟩, ⟨-, -, hnil, -⟩, -⟩ :=
    jumpPass_targets 0 jumpOver_body
  exact ⟨jumpOver_body, removed, whole, hcode, hnil⟩

end Pass

end Harbour.Compiler.JumpTargets
