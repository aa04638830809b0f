import Harbour.Compiler.JumpTable

/-!
The scans of a pass: the offsets and the table follow the bytes that are removed.
-/

namespace Harbour.Compiler.JumpAdjust

open Library.Bytes Library.Chunks Library.Deletion PCodeSize Jumps JumpShorten JumpTable List

section Scan

variable {pCode : Bytes} {removed pJumps : List Nat} {a target : Nat} {nOffset : Int}

theorem size_eq {n : Nat} (h : n < 2 ^ 64) : size n = n := by
  have hsize := unsigned_of_nonneg 64 (Int.natCast_nonneg n) (by exact_mod_cast h)
  exact_mod_cast hsize

theorem scanNOOPs_eq (pCode : Bytes) (removed pJumps : List Nat) :
    scanNOOPs pCode removed pJumps = pJumps.map fun a =>
      removed.foldl (fun sizes nNOOP => scanJump pCode nNOOP a sizes) (0, 0) := by
  have hloop : ∀ sizes : Nat → Int × Int,
      removed.foldl (fun sizes nNOOP => zipWith (scanJump pCode nNOOP) pJumps sizes)
        (pJumps.map sizes) =
      pJumps.map fun a =>
        removed.foldl (fun sizes nNOOP => scanJump pCode nNOOP a sizes) (sizes a) := by
    induction removed with
    | nil => exact fun sizes => rfl
    | cons nNOOP removed ih =>
      intro sizes
      have hstep : zipWith (scanJump pCode nNOOP) pJumps (pJumps.map sizes) =
          pJumps.map fun a => scanJump pCode nNOOP a (sizes a) := by
        rw [zipWith_map_right, zipWith_self]
      rw [foldl_cons, hstep, ih]
      rfl
  exact hloop fun _ => (0, 0)

theorem scanJump_eq (hoffset : jumpOffset (pCode.drop a) = some nOffset)
    (htarget : (target : Int) = a + nOffset) (hfits : target < 2 ^ 64) (hnot : a ∉ removed)
    (x y : Int) :
    removed.foldl (fun sizes nNOOP => scanJump pCode nNOOP a sizes) (x, y) =
      (x + below removed a - below removed target, y + below removed a) := by
  induction removed generalizing x y with
  | nil => simp [below]
  | cons nNOOP removed ih =>
    have hne := ne_of_not_mem_cons hnot
    have hnot := not_mem_of_not_mem_cons hnot
    have hbelow : ∀ position, below (nNOOP :: removed) position =
        below removed position + if nNOOP < position then 1 else 0 := by
      intro position
      unfold below
      rw [countP_cons]
      simp only [decide_eq_true_eq]
    rw [foldl_cons, scanJump, hoffset]
    dsimp only
    rw [← htarget, size_eq hfits, ih hnot, hbelow, hbelow]
    split_ifs <;> simp only [Prod.mk.injEq] <;> omega

end Scan

section Move

variable {before after i : Bytes} {n width : Nat}

theorem putBytes_within (bytes : Bytes) (h : n + bytes.length ≤ i.length) :
    putBytes (before ++ (i ++ after)) (before.length + n) bytes =
      before ++ (putBytes i n bytes ++ after) := by
  induction bytes generalizing i n with
  | nil => rfl
  | cons b bytes ih =>
    rw [length_cons] at h
    rw [putBytes, set_within (by omega), Nat.add_assoc, ih, putBytes]
    rw [length_set]
    omega

theorem putBytes_behind (bytes : Bytes) (h : bytes.length = after.length) :
    putBytes (before ++ after) before.length bytes = before ++ bytes := by
  induction bytes generalizing before after with
  | nil =>
    rw [length_eq_zero_iff.mp h.symm]
    rfl
  | cons b bytes ih =>
    obtain ⟨b', after, rfl⟩ := exists_cons_of_length_eq_add_one h.symm
    have hset : (before ++ b' :: after).set before.length b = (before ++ [b]) ++ after := by
      rw [set_append_right _ _ (Nat.le_refl _), Nat.sub_self, append_assoc]
      rfl
    have hnext := @ih (before ++ [b]) after (Nat.succ.inj h)
    rw [length_append] at hnext
    rw [putBytes, hset]
    exact hnext.trans (append_assoc _ _ _)

theorem moveJump_within (hwidth : (code i).offsetWidth = some width)
    (hlength : i.length = 1 + width)
    (nOffset : Int) :
    moveJump (before ++ (i ++ after)) before.length nOffset =
      before ++ (moveJump i 0 nOffset ++ after) := by
  have hne : i ≠ [] := length_pos_iff.mp (by omega)
  have hcode : code ((before ++ (i ++ after)).drop before.length) = code i := by
    rw [drop_left, code_append hne]
  unfold moveJump
  rw [hcode, drop_zero, hwidth]
  split
  · rfl
  dsimp only [Option.getD_some]
  rw [drop_within (by omega), Nat.zero_add, mkSigned_append (by rw [length_drop]; omega),
    putBytes_within]
  rw [leBytes_length]
  omega

theorem mkSigned_leBytes {nOffset : Int} (hpos : 0 < width) (hle : width ≤ 8)
    (hlow : -2 ^ (8 * width - 1) ≤ nOffset) (hhigh : nOffset < 2 ^ (8 * width - 1)) :
    mkSigned width (leBytes width (unsigned 64 nOffset)) = nOffset := by
  unfold mkSigned
  rw [take_of_length_le (Nat.le_of_eq (leBytes_length _ _)), leValue_unsigned_mod (by omega)]
  exact signed_unsigned (by omega) hlow hhigh

theorem moveJump_spec {nOffset nMove : Int} (hwidth : (code i).offsetWidth = some width)
    (hlength : i.length = 1 + width) (hoffset : jumpOffset i = some nOffset)
    (hlow : -2 ^ (8 * width - 1) ≤ nOffset + nMove) (hhigh : nOffset + nMove < 2 ^ (8 * width - 1))
    (hpos : 0 < width) (hle : width ≤ 8) :
    (moveJump i 0 nMove).length = i.length ∧ code (moveJump i 0 nMove) = code i ∧
      jumpOffset (moveJump i 0 nMove) = some (nOffset + nMove) := by
  rw [jumpOffset_eq hwidth] at hoffset
  obtain rfl := Option.some.inj hoffset
  obtain ⟨b, bytes, rfl⟩ := exists_cons_of_length_eq_add_one (hlength.trans (Nat.add_comm _ _))
  rw [drop_succ_cons, drop_zero] at hlow hhigh ⊢
  unfold moveJump
  split
  · rename_i hzero
    rw [hzero, Int.add_zero]
    exact ⟨rfl, rfl, jumpOffset_eq hwidth⟩
  · rw [drop_zero, hwidth]
    dsimp only [Option.getD_some]
    have hbytes : bytes.length = width := by
      rw [length_cons] at hlength
      omega
    have hput := @putBytes_behind [b] bytes
      (leBytes width (unsigned 64 (nMove + mkSigned width bytes)))
      (by rw [leBytes_length, hbytes])
    rw [Nat.zero_add, drop_succ_cons, drop_zero]
    change (putBytes ([b] ++ bytes) [b].length _).length = _ ∧
      code (putBytes ([b] ++ bytes) [b].length _) = _ ∧
      jumpOffset (putBytes ([b] ++ bytes) [b].length _) = _
    rw [hput]
    refine ⟨?_, rfl, ?_⟩
    · rw [length_append, leBytes_length, hlength]
      rfl
    · have hcode :
        (code ([b] ++ leBytes width (unsigned 64 (nMove + mkSigned width bytes)))).offsetWidth =
          some width := hwidth
      rw [jumpOffset_eq hcode, singleton_append, drop_succ_cons, drop_zero,
        Int.add_comm nMove, mkSigned_leBytes hpos hle hlow hhigh]

end Move

section Adjusted

def adjusted (removed : List Nat) (a : Nat) (i : Bytes) : Bytes :=
  match jumpOffset i with
  | none => i
  | some nOffset => moveJump i 0 ((below removed a : Int) - below removed (a + nOffset).toNat)

variable {pFunc : Func} {instrs : List Bytes} {removed : List Nat} {a target : Nat} {i : Bytes}
  {nOffset : Int}

theorem adjusted_of_not (h : ¬ IsJump i) : adjusted removed a i = i := by
  have hnone : jumpOffset i = none := by
    cases hoffset : jumpOffset i with
    | none => rfl
    | some nOffset =>
      obtain ⟨width, hwidth, -⟩ := Option.map_eq_some_iff.mp hoffset
      exact absurd (isJump_of_width hwidth) h
  rw [adjusted, hnone]

theorem adjusted_spec (hnodup : removed.Nodup) (hcomplete : Complete i)
    (hoffset : jumpOffset i = some nOffset) (htarget : (target : Int) = a + nOffset) :
    (adjusted removed a i).length = i.length ∧ code (adjusted removed a i) = code i ∧
      jumpOffset (adjusted removed a i) = some ((rank removed target : Int) - rank removed a) := by
  obtain ⟨width, hwidth, hsigned⟩ := Option.map_eq_some_iff.mp hoffset
  have hlength := width_of_complete hwidth hcomplete
  obtain ⟨hpos, hle⟩ := width_bounds hwidth
  have hrange : -2 ^ (8 * width - 1) ≤ nOffset ∧ nOffset < 2 ^ (8 * width - 1) := by
    rw [← hsigned]
    apply signed_range (by omega)
    have hlt := leValue_lt ((i.drop 1).take width)
    rwa [length_take_of_le (by rw [length_drop]; omega),
      show (256 : Nat) = 2 ^ 8 from rfl, ← Nat.pow_mul] at hlt
  have hmove : nOffset + ((below removed a : Int) - below removed target) =
      (rank removed target : Int) - rank removed a := by
    have hrank := rank_add_below hnodup a
    have hrank' := rank_add_below hnodup target
    omega
  have hbetween : -2 ^ (8 * width - 1) ≤ (rank removed target : Int) - rank removed a ∧
      (rank removed target : Int) - rank removed a < 2 ^ (8 * width - 1) := by
    rcases Nat.le_total a target with hforward | hbackward
    · have hrank := rank_mono hnodup hforward
      have hbelow := below_mono removed hforward
      omega
    · have hrank := rank_mono hnodup hbackward
      have hbelow := below_mono removed hbackward
      omega
  have hnat : ((a : Int) + nOffset).toNat = target := by omega
  rw [adjusted, hoffset]
  dsimp only
  rw [hnat, ← hmove]
  rw [← hmove] at hbetween
  exact moveJump_spec hwidth hlength hoffset hbetween.1 hbetween.2 hpos (by omega)

structure Exact (pFunc : Func) (instrs : List Bytes) : Prop extends Body pFunc instrs where
  jumps : ∀ a ∈ pFunc.pJumps, ∃ i, (a, i) ∈ starts 0 instrs ∧ IsJump i

theorem Exact.stays (h : Exact pFunc instrs) (ha : a ∈ pFunc.pJumps) : a ∉ pFunc.pNOOPs := by
  intro hremoved
  obtain ⟨i, hmem, hjump⟩ := h.jumps a ha
  obtain rfl := starts_unique h.solid hmem (h.noops a hremoved)
  exact hjump rfl

theorem Exact.adjusted_length (h : Exact pFunc instrs) (hmem : (a, i) ∈ starts 0 instrs) :
    (adjusted pFunc.pNOOPs a i).length = i.length := by
  by_cases hjump : IsJump i
  · obtain ⟨nOffset, hoffset⟩ := isJump_offset hjump
    obtain ⟨target, j, -, heq⟩ := h.lands a i nOffset hmem hoffset
    exact (adjusted_spec h.once (h.complete i (mem_of_mem_starts hmem)) hoffset heq).1
  · rw [adjusted_of_not hjump]

theorem start_lt (h : Body pFunc instrs) (hmem : (a, i) ∈ starts 0 instrs) :
    a < pFunc.pCode.length := by
  have hbounds := (starts_bounds hmem).2
  have hpos := h.solid.length_pos hmem
  rw [h.code]
  omega

theorem jumpOffset_append (hcomplete : Complete i) (hoffset : jumpOffset i = some nOffset)
    (behind : Bytes) : jumpOffset (i ++ behind) = some nOffset := by
  obtain ⟨width, hwidth, hsigned⟩ := Option.map_eq_some_iff.mp hoffset
  have hlength := width_of_complete hwidth hcomplete
  have hne : i ≠ [] := length_pos_iff.mp hcomplete.1
  rw [jumpOffset, code_append hne, hwidth, drop_append_of_le_length (by omega)]
  change some (mkSigned width (i.drop 1 ++ behind)) = _
  rw [mkSigned_append (by rw [length_drop]; omega), ← hsigned]

section

variable (h : Exact pFunc instrs)

include h

theorem Exact.jumpOffset_drop (hmem : (a, i) ∈ starts 0 instrs)
    (hoffset : jumpOffset i = some nOffset) : jumpOffset (pFunc.pCode.drop a) = some nOffset := by
  obtain ⟨behind, hdrop⟩ := drop_of_mem_starts hmem
  rw [h.code, hdrop]
  exact jumpOffset_append (h.complete i (mem_of_mem_starts hmem)) hoffset behind

theorem Exact.scan (hmem : (a, i) ∈ starts 0 instrs) (ha : a ∈ pFunc.pJumps)
    (hoffset : jumpOffset i = some nOffset) :
    pFunc.pNOOPs.foldl (fun sizes nNOOP => scanJump pFunc.pCode nNOOP a sizes) (0, 0) =
      ((below pFunc.pNOOPs a : Int) - below pFunc.pNOOPs (a + nOffset).toNat,
        (below pFunc.pNOOPs a : Int)) := by
  obtain ⟨target, j, htarget, heq⟩ := h.lands a i nOffset hmem hoffset
  have hlt := start_lt h.toBody htarget
  have hfits := h.fits
  rw [scanJump_eq (h.jumpOffset_drop hmem hoffset) heq (by omega) (h.stays ha),
    show ((a : Int) + nOffset).toNat = target by omega]
  simp only [Int.zero_add]

theorem Exact.moveJumps {todo done : List Nat} {pCode : Bytes}
    (hentries : ∀ a ∈ todo, a ∈ pFunc.pJumps) (hdistinct : todo.Nodup)
    (hdone : ∀ a ∈ todo, a ∉ done)
    (hcode : pCode = (mapChunks (fun a i => if a ∈ done then adjusted pFunc.pNOOPs a i else i)
      0 instrs).flatten) :
    todo.foldl (fun pCode a => moveJump pCode a (pFunc.pNOOPs.foldl (fun sizes nNOOP =>
      scanJump pFunc.pCode nNOOP a sizes) (0, 0)).1) pCode =
    (mapChunks (fun a i => if a ∈ todo.reverse ++ done then adjusted pFunc.pNOOPs a i else i) 0
      instrs).flatten := by
  induction todo generalizing done pCode with
  | nil => exact hcode
  | cons a todo ih =>
    obtain ⟨hnotTodo, hdistinct⟩ := nodup_cons.mp hdistinct
    have ha := hentries a mem_cons_self
    have hnotDone := hdone a mem_cons_self
    obtain ⟨i, hmem, hjump⟩ := h.jumps a ha
    obtain ⟨nOffset, hoffset⟩ := isJump_offset hjump
    obtain ⟨width, hwidth⟩ := isJump_width hjump
    have hcomplete := h.complete i (mem_of_mem_starts hmem)
    obtain ⟨before, after, hbefore, hsplit, hnext⟩ := mapChunks_swap
      (f := fun b j => if b ∈ done then adjusted pFunc.pNOOPs b j else j)
      (g := fun b j => if b ∈ a :: done then adjusted pFunc.pNOOPs b j else j) h.solid hmem
      (fun b j hb => by
        split
        · exact h.adjusted_length hb
        · rfl)
      (fun b j hb hne => by simp only [mem_cons, hne, false_or])
    rw [if_neg hnotDone] at hsplit
    rw [if_pos mem_cons_self] at hnext
    have hmove : moveJump pCode a (pFunc.pNOOPs.foldl (fun sizes nNOOP =>
        scanJump pFunc.pCode nNOOP a sizes) (0, 0)).1 =
        (mapChunks (fun b j => if b ∈ a :: done then adjusted pFunc.pNOOPs b j else j) 0
          instrs).flatten := by
      rw [h.scan hmem ha hoffset, hcode, hsplit, hnext, ← hbefore,
        moveJump_within hwidth (width_of_complete hwidth hcomplete), adjusted, hoffset]
    have hrest := @ih (a :: done) _ (fun b hb => hentries b (mem_cons_of_mem _ hb)) hdistinct
      (fun b hb => not_mem_cons_of_ne_of_not_mem (fun heq => hnotTodo (heq ▸ hb))
        (hdone b (mem_cons_of_mem _ hb))) hmove
    rw [foldl_cons, hrest, reverse_cons, append_assoc, singleton_append]

theorem Exact.adjustJumps :
    (Jumps.adjustJumps pFunc).pCode = (mapChunks (adjusted pFunc.pNOOPs) 0 instrs).flatten ∧
      (Jumps.adjustJumps pFunc).pJumps = pFunc.pJumps.map (rank pFunc.pNOOPs) ∧
      (Jumps.adjustJumps pFunc).fExit = pFunc.fExit := by
  unfold Jumps.adjustJumps
  dsimp only
  rw [scanNOOPs_eq]
  refine ⟨?_, ?_, ?_⟩
  · have hzip : ∀ sizes : Nat → Int × Int, pFunc.pJumps.zip (pFunc.pJumps.map sizes) =
        pFunc.pJumps.map fun a => (a, sizes a) := by
      intro sizes
      rw [zip, zipWith_map_right, zipWith_self]
    have hstart : pFunc.pCode = (mapChunks (fun a i =>
        if a ∈ [] then adjusted pFunc.pNOOPs a i else i) 0 instrs).flatten := by
      have hsame := mapChunks_const id 0 instrs
      rw [map_id] at hsame
      rw [h.code]
      exact congrArg flatten hsame.symm
    rw [hzip, foldl_map, h.moveJumps (fun _ => id) h.distinct (fun _ _ => not_mem_nil) hstart]
    congr 1
    apply mapChunks_congr
    intro a i hmem
    split
    · rfl
    · rename_i hnot
      rw [append_nil, mem_reverse] at hnot
      rw [adjusted_of_not fun hjump => hnot (h.listed a i hmem hjump)]
  · rw [zipWith_map_right, zipWith_self]
    apply map_congr_left
    intro a ha
    obtain ⟨i, hmem, hjump⟩ := h.jumps a ha
    obtain ⟨nOffset, hoffset⟩ := isJump_offset hjump
    have hrank := rank_add_below h.once a
    have hlt := start_lt h.toBody hmem
    have hfits := h.fits
    rw [h.scan hmem ha hoffset,
      show (a : Int) - (below pFunc.pNOOPs a : Int) = (rank pFunc.pNOOPs a : Nat) by omega,
      size_eq (by omega)]
  · have hnone : (pFunc.pJumps.any fun a => (jumpOffset (pFunc.pCode.drop a)).isNone) = false := by
      rw [any_eq_false]
      intro a ha
      obtain ⟨i, hmem, hjump⟩ := h.jumps a ha
      obtain ⟨nOffset, hoffset⟩ := isJump_offset hjump
      rw [h.jumpOffset_drop hmem hoffset]
      exact Bool.false_ne_true
    rw [hnone, any_eq_false.mpr fun _ _ => Bool.false_ne_true, Bool.or_false]

end

end Adjusted

end Harbour.Compiler.JumpAdjust
