import Harbour.Compiler.JumpShorten

/-!
The body of a function with its table of jumps, and what the loop over the table makes of it.
-/

namespace Harbour.Compiler.JumpTable

open Library.Bytes Library.Chunks PCodeSize Jumps JumpShorten List PCode

/-- The code is a sequence of instructions. The table has an entry for each jump; one whose
jump has been replaced may be left. Jumps go to instructions, and removed bytes are ones. -/
structure Body (pFunc : Func) (instrs : List Bytes) : Prop where
  code : pFunc.pCode = instrs.flatten
  complete : ∀ i ∈ instrs, Complete i
  fits : pFunc.pCode.length < 2 ^ 63
  listed : ∀ a i, (a, i) ∈ starts 0 instrs → IsJump i → a ∈ pFunc.pJumps
  entries : ∀ a ∈ pFunc.pJumps, ∃ i, (a, i) ∈ starts 0 instrs ∧ (IsJump i ∨ isDummy i)
  distinct : pFunc.pJumps.Nodup
  lands : ∀ a i nOffset, (a, i) ∈ starts 0 instrs → jumpOffset i = some nOffset →
    ∃ b j, (b, j) ∈ starts 0 instrs ∧ (b : Int) = a + nOffset
  noops : ∀ n ∈ pFunc.pNOOPs, (n, [noop.byte]) ∈ starts 0 instrs
  once : pFunc.pNOOPs.Nodup

def shortened (iPass : Nat) (i : Bytes) : Func := shortenJump ⟨i, [], [], false⟩ 0 iPass

variable {pFunc out : Func} {instrs : List Bytes} {iPass : Nat} {i : Bytes} {a : Nat}

theorem Body.solid (h : Body pFunc instrs) : Solid instrs :=
  fun i hi => length_pos_iff.mp (h.complete i hi).1

theorem shortened_outcome (h : Complete i) :
    Outcome i (shortened iPass i).pCode (shortened iPass i).pNOOPs :=
  shortenJump_outcome h rfl

theorem shortened_length (h : Complete i) : (shortened iPass i).pCode.length = i.length :=
  (shortened_outcome h).length h.1

theorem shortened_of_not (h : ¬ IsJump i) : shortened iPass i = ⟨i, [], [], false⟩ := by
  have hkind : (code i).kind = none := not_not.mp h
  unfold shortened shortenJump
  rw [drop_zero]
  cases hcode : code i <;> rw [hcode] at hkind <;> cases hkind

/-- What the loop has done, with the entries `todo` left to look at. -/
structure Stage (pFunc : Func) (instrs : List Bytes) (iPass : Nat) (todo done : List Nat)
    (out : Func) : Prop where
  code : out.pCode = (mapChunks (fun a i => if a ∈ done then (shortened iPass i).pCode else i) 0
    instrs).flatten
  table : ∃ left, out.pJumps = todo ++ left ∧ left.Sublist done ∧ ∀ a i, (a, i) ∈ starts 0 instrs →
    a ∈ done → (a ∈ left ↔ ¬ isDummy (shortened iPass i).pCode)
  noops : ∀ n, n ∈ out.pNOOPs ↔ n ∈ pFunc.pNOOPs ∨ ∃ a ∈ done, ∃ i, (a, i) ∈ starts 0 instrs ∧
    ∃ k ∈ (shortened iPass i).pNOOPs, n = a + k
  once : out.pNOOPs.Nodup
  exit : out.fExit = pFunc.fExit

section

variable {todo done : List Nat} (hbody : Body pFunc instrs)

include hbody

theorem stage_shorten (hjumps : pFunc.pJumps = todo ++ a :: done)
    (h : Stage pFunc instrs iPass (todo ++ [a]) done out) (hmem : (a, i) ∈ starts 0 instrs) :
    ∃ before after, before.length = a ∧
      shortenJump out a iPass =
        within before after out.pNOOPs out.pJumps out.fExit (shortened iPass i) ∧
      (mapChunks (fun b j => if b ∈ a :: done then (shortened iPass j).pCode else j)
        0 instrs).flatten =
        before ++ ((shortened iPass i).pCode ++ after) := by
  have hdistinct := hbody.distinct
  rw [hjumps] at hdistinct
  have hnot : a ∉ done := (nodup_cons.mp (nodup_append.mp hdistinct).2.1).1
  have hcomplete := hbody.complete i (mem_of_mem_starts hmem)
  obtain ⟨before, after, hbefore, hcode, hnext⟩ := mapChunks_swap
    (f := fun b j => if b ∈ done then (shortened iPass j).pCode else j)
    (g := fun b j => if b ∈ a :: done then (shortened iPass j).pCode else j) hbody.solid hmem
    (fun b j hb => by
      split
      · exact shortened_length (hbody.complete j (mem_of_mem_starts hb))
      · rfl)
    (fun b j hb hne => by simp only [mem_cons, hne, false_or])
  rw [← h.code, if_neg hnot] at hcode
  rw [if_pos mem_cons_self] at hnext
  refine ⟨before, after, hbefore, ?_, hnext⟩
  have hout : out = within before after out.pNOOPs out.pJumps out.fExit ⟨i, [], [], false⟩ := by
    unfold within
    rw [← hcode, map_nil, append_nil]
  conv_lhs => rw [hout, ← hbefore]
  refine shortenJump_within iPass (length_pos_iff.mp hcomplete.1) fun width hwidth => ?_
  exact width_of_complete hwidth hcomplete

theorem stage_once (hnot : a ∉ done) (h : Stage pFunc instrs iPass todo done out)
    (hmem : (a, i) ∈ starts 0 instrs) :
    (out.pNOOPs ++ (shortened iPass i).pNOOPs.map (a + ·)).Nodup := by
  have hlisted := (@shortened_outcome iPass i (hbody.complete i (mem_of_mem_starts hmem))).listed
  have hmap := hlisted.1.map (f := (a + ·)) fun _ _ => Nat.add_left_cancel
  refine nodup_append.mpr ⟨h.once, hmap, ?_⟩
  rintro n hn n' hn' rfl
  obtain ⟨k, hk, rfl⟩ := mem_map.mp hn'
  have hlt := hlisted.2 k hk
  rcases (h.noops _).mp hn with hold | ⟨b, hb, j, hj, k', hk', heq⟩
  · have hnoop := hbody.noops _ hold
    rcases Nat.eq_zero_or_pos k with rfl | hpos
    · obtain rfl := starts_unique hbody.solid hmem hnoop
      cases hk
    · have := starts_apart hmem hnoop (by omega)
      omega
  · have hlt' := (shortened_outcome (hbody.complete j (mem_of_mem_starts hj))).listed.2 k' hk'
    rcases Nat.lt_trichotomy a b with hab | rfl | hab
    · have := starts_apart hmem hj hab
      omega
    · exact hnot hb
    · have := starts_apart hj hmem hab
      omega

theorem jumpStep_stage (hjumps : pFunc.pJumps = todo ++ a :: done)
    (h : Stage pFunc instrs iPass (todo ++ [a]) done out) :
    Stage pFunc instrs iPass todo (a :: done) (jumpStep iPass out todo.length) := by
  obtain ⟨i, hmem, -⟩ := hbody.entries a (by rw [hjumps]; simp)
  obtain ⟨before, after, hbefore, hshorten, hnext⟩ := stage_shorten hbody hjumps h hmem
  obtain ⟨left, htable, hsublist, hleft⟩ := h.table
  have hcomplete := hbody.complete i (mem_of_mem_starts hmem)
  have hne : (shortened iPass i).pCode ≠ [] := by
    rw [← length_pos_iff, shortened_length hcomplete]
    exact hcomplete.1
  have hdistinct := hbody.distinct
  rw [hjumps] at hdistinct
  have hnot : a ∉ done := (nodup_cons.mp (nodup_append.mp hdistinct).2.1).1
  have hget : out.pJumps.getD todo.length 0 = a := by
    rw [htable, append_assoc, getD_eq_getElem?_getD, getElem?_append_right (Nat.le_refl _),
      Nat.sub_self]
    rfl
  have hdummy : isDummy ((within before after out.pNOOPs out.pJumps out.fExit
      (shortened iPass i)).pCode.drop a) = isDummy (shortened iPass i).pCode := by
    unfold isDummy within
    rw [← hbefore, drop_left, code_append hne]
  have honce := stage_once hbody hnot h hmem
  have hnoops : ∀ n, n ∈ out.pNOOPs ++ (shortened iPass i).pNOOPs.map (a + ·) ↔ n ∈ pFunc.pNOOPs ∨
      ∃ b ∈ a :: done, ∃ j, (b, j) ∈ starts 0 instrs ∧
      ∃ k ∈ (shortened iPass j).pNOOPs, n = b + k := by
    intro n
    rw [mem_append, h.noops, mem_map, exists_mem_cons_iff, or_assoc, or_comm (b := ∃ k, _)]
    refine or_congr_right (or_congr ⟨?_, ?_⟩ Iff.rfl)
    · rintro ⟨k, hk, rfl⟩
      exact ⟨i, hmem, k, hk, rfl⟩
    · rintro ⟨j, hj, k, hk, rfl⟩
      obtain rfl := starts_unique hbody.solid hmem hj
      exact ⟨k, hk, rfl⟩
  have hsame : ∀ b j, (b, j) ∈ starts 0 instrs → b ∈ done → b ≠ a := by
    rintro b j hb hdone rfl
    exact hnot hdone
  unfold jumpStep
  dsimp only
  rw [hget, hshorten, hdummy]
  split
  · rename_i hreplaced
    refine ⟨hnext.symm, ⟨left, ?_, hsublist.cons a, ?_⟩, ?_, ?_, h.exit⟩
    · change out.pJumps.eraseIdx todo.length = _
      rw [htable, append_assoc, eraseIdx_append_of_length_le (Nat.le_refl _), Nat.sub_self]
      rfl
    · intro b j hb hdone
      rcases mem_cons.mp hdone with rfl | hdone
      · obtain rfl := starts_unique hbody.solid hmem hb
        exact iff_of_false (fun hin => hnot (hsublist.subset hin)) (not_not.mpr hreplaced)
      · exact hleft b j hb hdone
    · rw [← hbefore] at hnoops
      exact hbefore ▸ hnoops
    · rw [← hbefore] at honce
      exact honce
  · rename_i hkept
    refine ⟨hnext.symm, ⟨a :: left, ?_, hsublist.cons_cons a, ?_⟩, ?_, ?_, h.exit⟩
    · change out.pJumps = _
      rw [htable, append_assoc]
      rfl
    · intro b j hb hdone
      rcases mem_cons.mp hdone with rfl | hdone
      · obtain rfl := starts_unique hbody.solid hmem hb
        exact iff_of_true mem_cons_self hkept
      · rw [mem_cons, or_iff_right (hsame b j hb hdone)]
        exact hleft b j hb hdone
    · rw [← hbefore] at hnoops
      exact hbefore ▸ hnoops
    · rw [← hbefore] at honce
      exact honce

theorem shortenJumps_stage (hjumps : pFunc.pJumps = todo ++ done)
    (h : Stage pFunc instrs iPass todo done out) :
    Stage pFunc instrs iPass [] pFunc.pJumps (shortenJumps iPass todo.length out) := by
  induction todo using reverseRecOn generalizing done out with
  | nil =>
    rw [hjumps]
    exact h
  | append_singleton todo a ih =>
    have hjumps' : pFunc.pJumps = todo ++ a :: done := by
      rw [hjumps, append_assoc]
      rfl
    rw [length_append]
    exact ih hjumps' (jumpStep_stage hbody hjumps' h)

end

theorem shortenJumps_spec (iPass : Nat) (hbody : Body pFunc instrs) :
    Stage pFunc instrs iPass [] pFunc.pJumps (shortenJumps iPass pFunc.pJumps.length pFunc) := by
  refine shortenJumps_stage hbody (append_nil _).symm ⟨?_, ⟨[], ?_⟩, ?_, hbody.once, rfl⟩
  · have hsame : mapChunks (fun a i => if a ∈ [] then (shortened iPass i).pCode else i) 0 instrs =
        instrs := by
      exact starts_chunks 0 instrs
    rw [hsame]
    exact hbody.code
  · exact ⟨(append_nil _).symm, Sublist.refl _, fun a i _ hnil => absurd hnil not_mem_nil⟩
  · intro n
    refine (or_iff_left ?_).symm
    rintro ⟨a, ha, -⟩
    exact not_mem_nil ha

variable {b : Nat} {j : Bytes}

section Pieces

open Library.Deletion

/-- What is left of an instruction when its listed bytes are removed. -/
def kept (iPass : Nat) (i : Bytes) : Bytes :=
  keepFrom (shortened iPass i).pNOOPs 0 (shortened iPass i).pCode

/-- The instruction that is left, and each byte behind it. -/
def pieces (iPass : Nat) (i : Bytes) : List Bytes :=
  (if (kept iPass i).isEmpty then [] else [kept iPass i]) ++
    replicate (i.length - (kept iPass i).length) [noop.byte]

inductive Left (i : Bytes) : Bytes → Prop where
  | same {j : Bytes} (kind : (code j).kind = (code i).kind) (offset : jumpOffset j = jumpOffset i)
      (complete : Complete j) : Left i j
  | removed (kind : (code i).kind = some .always) (offset : jumpOffset i = some (i.length : Int)) :
      Left i []
  | popped (kind : (code i).kind = some .onFalse ∨ (code i).kind = some .onTrue)
      (offset : jumpOffset i = some (i.length : Int)) : Left i [pop.byte]

theorem kept_outcome (h : Complete i) : Left i (kept iPass i) ∧
    (shortened iPass i).pCode = kept iPass i ++
        replicate (i.length - (kept iPass i).length) noop.byte ∧
      (shortened iPass i).pNOOPs =
        range' (kept iPass i).length (i.length - (kept iPass i).length) ∧
      (kept iPass i).length ≤ i.length := by
  have hpos := h.1
  have houtcome := @shortened_outcome iPass i h
  unfold kept
  generalize (shortened iPass i).pCode = i' at houtcome
  generalize (shortened iPass i).pNOOPs = pNOOPs at houtcome
  cases houtcome with
  | @narrowed j k kind offset complete length =>
    have hkept := keepFrom_range' j (replicate k noop.byte)
    rw [length_replicate] at hkept
    rw [hkept, show i.length - j.length = k by omega]
    exact ⟨.same kind offset complete, rfl, rfl, by omega⟩
  | removed kind offset =>
    have hkept := keepFrom_range' [] (replicate i.length noop.byte)
    rw [length_replicate, nil_append] at hkept
    rw [show keepFrom (range' 0 i.length) 0 (replicate i.length noop.byte) = []
      from hkept]
    exact ⟨.removed kind offset, rfl, rfl, Nat.zero_le _⟩
  | popped kind offset =>
    have hkept := keepFrom_range' [pop.byte] (replicate (i.length - 1) noop.byte)
    rw [length_replicate, singleton_append] at hkept
    rw [show keepFrom (range' 1 (i.length - 1)) 0
      (pop.byte :: replicate (i.length - 1) noop.byte) = [pop.byte]
      from hkept]
    exact ⟨.popped kind offset, rfl, rfl, hpos⟩

theorem kept_of_not (h : ¬ IsJump i) : kept iPass i = i := by
  rw [kept, shortened_of_not h]
  exact keepFrom_nil fun _ hmem => absurd hmem not_mem_nil

theorem pieces_flatten (h : Complete i) : (pieces iPass i).flatten = (shortened iPass i).pCode := by
  have hnoops : ∀ n, (replicate n [noop.byte]).flatten = replicate n noop.byte := by
    intro n
    induction n with
    | zero => rfl
    | succ n ih => rw [replicate_succ, flatten_cons, ih, replicate_succ]; rfl
  rw [(kept_outcome h).2.1, pieces, flatten_append, hnoops]
  cases kept iPass i with
  | nil => rfl
  | cons b bytes => exact congrArg (· ++ _) (append_nil _)

theorem mem_starts_pieces (h : Complete i) :
    (b, j) ∈ starts a (pieces iPass i) ↔ (b = a ∧ j = kept iPass i ∧ j ≠ []) ∨
      (∃ k ∈ (shortened iPass i).pNOOPs, b = a + k) ∧ j = [noop.byte] := by
  have hfirst : (b, j) ∈ starts a (if (kept iPass i).isEmpty then [] else [kept iPass i]) ↔
      b = a ∧ j = kept iPass i ∧ j ≠ [] := by
    split
    · rename_i hempty
      rw [isEmpty_iff.mp hempty]
      refine ⟨nofun, ?_⟩
      rintro ⟨-, rfl, hne⟩
      exact absurd rfl hne
    · rename_i hkept
      have hne : kept iPass i ≠ [] := fun heq => hkept (isEmpty_iff.mpr heq)
      rw [starts, starts, mem_singleton, Prod.mk.injEq]
      refine and_congr_right fun _ => ⟨?_, And.left⟩
      rintro rfl
      exact ⟨rfl, hne⟩
  have hlength : (if (kept iPass i).isEmpty then [] else [kept iPass i]).flatten.length =
      (kept iPass i).length := by
    split
    · rename_i hempty
      rw [isEmpty_iff.mp hempty]
      rfl
    · rw [flatten_singleton]
  rw [pieces, starts_append, mem_append, hfirst, hlength, starts_replicate, mem_map,
    (kept_outcome h).2.2.1]
  refine or_congr_right ⟨?_, ?_⟩
  · rintro ⟨position, hmem, heq⟩
    cases heq
    have hrange := mem_range'_1.mp hmem
    exact ⟨⟨b - a, mem_range'_1.mpr (by omega), by omega⟩, rfl⟩
  · rintro ⟨⟨k, hk, rfl⟩, rfl⟩
    have hrange := mem_range'_1.mp hk
    exact ⟨a + k, mem_range'_1.mpr (by omega), rfl⟩

theorem kept_complete (h : Complete i) (hne : kept iPass i ≠ []) : Complete (kept iPass i) := by
  have hleft := (@kept_outcome iPass i h).1
  generalize kept iPass i = j at hleft hne
  cases hleft with
  | same kind offset complete => exact complete
  | removed kind offset => exact absurd rfl hne
  | popped kind offset => exact complete_pop

theorem kept_jump (h : Complete i) (hjump : IsJump (kept iPass i)) :
    IsJump i ∧ (code (kept iPass i)).kind = (code i).kind ∧
      jumpOffset (kept iPass i) = jumpOffset i := by
  have hleft := (@kept_outcome iPass i h).1
  generalize kept iPass i = j at hleft hjump
  cases hleft with
  | same kind offset complete =>
    refine ⟨?_, kind, offset⟩
    unfold IsJump at hjump ⊢
    rwa [← kind]
  | removed kind offset => exact absurd rfl hjump
  | popped kind offset => exact absurd rfl hjump

theorem isDummy_of_isJump (h : IsJump j) : isDummy j = false := by
  unfold isDummy IsJump at *
  cases hcode : code j <;> rw [hcode] at h <;> first | rfl | exact absurd rfl h

theorem isDummy_shortened (h : Complete i) (hentry : IsJump i ∨ isDummy i) :
    isDummy (shortened iPass i).pCode = false ↔ IsJump (kept iPass i) := by
  by_cases hjump : IsJump i
  · have hleft := (@kept_outcome iPass i h).1
    rw [(kept_outcome h).2.1]
    have hpos := h.1
    generalize kept iPass i = j at hleft
    cases hleft with
    | same kind offset complete =>
      have hj : IsJump j := by
        unfold IsJump at hjump ⊢
        rwa [kind]
      refine iff_of_true ?_ hj
      rw [isDummy, code_append (length_pos_iff.mp complete.1)]
      exact isDummy_of_isJump hj
    | removed kind offset =>
      refine iff_of_false ?_ (not_not.mpr rfl)
      rw [length_nil, Nat.sub_zero, ← Nat.succ_pred_eq_of_pos hpos]
      exact Bool.noConfusion
    | popped kind offset => exact iff_of_false Bool.noConfusion (not_not.mpr rfl)
  · rw [shortened_of_not hjump, kept_of_not hjump, hentry.resolve_left hjump]
    exact iff_of_false Bool.noConfusion hjump

theorem mem_starts_flatMap (hcomplete : ∀ i ∈ instrs, Complete i) :
    (b, j) ∈ starts 0 (instrs.flatMap (pieces iPass)) ↔
      ∃ a i, (a, i) ∈ starts 0 instrs ∧ ((b = a ∧ j = kept iPass i ∧ j ≠ []) ∨
        (∃ k ∈ (shortened iPass i).pNOOPs, b = a + k) ∧ j = [noop.byte]) := by
  rw [starts_flatMap fun i hi => by
    rw [pieces_flatten (hcomplete i hi), shortened_length (hcomplete i hi)], mem_flatMap]
  refine ⟨?_, ?_⟩
  · rintro ⟨⟨a, i⟩, hmem, hj⟩
    exact ⟨a, i, hmem, (mem_starts_pieces (hcomplete i (mem_of_mem_starts hmem))).mp hj⟩
  · rintro ⟨a, i, hmem, hj⟩
    exact ⟨(a, i), hmem, (mem_starts_pieces (hcomplete i (mem_of_mem_starts hmem))).mpr hj⟩

theorem pieces_complete (h : Complete i) : ∀ j ∈ pieces iPass i, Complete j := by
  intro j hj
  rcases mem_append.mp hj with hj | hj
  · split at hj
    · cases hj
    · rename_i hkept
      obtain rfl := mem_singleton.mp hj
      exact kept_complete h fun heq => hkept (isEmpty_iff.mpr heq)
  · obtain rfl := (mem_replicate.mp hj).2
    exact complete_noop

section

variable (hbody : Body pFunc instrs)

include hbody

theorem start_stays (hmem : (a, i) ∈ starts 0 instrs) :
    ∃ j, (a, j) ∈ starts 0 (instrs.flatMap (pieces iPass)) := by
  have hcomplete := hbody.complete i (mem_of_mem_starts hmem)
  by_cases hne : kept iPass i = []
  · refine ⟨_, (mem_starts_flatMap hbody.complete).mpr ⟨a, i, hmem, .inr ⟨⟨0, ?_, rfl⟩, rfl⟩⟩⟩
    rw [(kept_outcome hcomplete).2.2.1, hne]
    exact mem_range'_1.mpr ⟨Nat.le_refl _, by simpa using hcomplete.1⟩
  · exact ⟨_, (mem_starts_flatMap hbody.complete).mpr ⟨a, i, hmem, .inl ⟨rfl, rfl, hne⟩⟩⟩

section

variable (h : Stage pFunc instrs iPass [] pFunc.pJumps out)

include h

theorem stage_code :
    out.pCode = (instrs.flatMap (pieces iPass)).flatten ∧
    out.pCode.length = pFunc.pCode.length := by
  have hat := fun a i (hmem : (a, i) ∈ starts 0 instrs) => hbody.complete i (mem_of_mem_starts hmem)
  have hsame : mapChunks (fun a i => if a ∈ pFunc.pJumps then (shortened iPass i).pCode else i)
      0 instrs =
        mapChunks (fun _ i => (pieces iPass i).flatten) 0 instrs := by
    apply mapChunks_congr
    intro a i hmem
    rw [pieces_flatten (hat a i hmem)]
    split
    · rfl
    · rename_i hnot
      rw [shortened_of_not fun hjump => hnot (hbody.listed a i hmem hjump)]
  rw [h.code, hsame]
  refine ⟨?_, ?_⟩
  · rw [mapChunks_const, flatMap_def, flatten_flatten, map_map]
    rfl
  · rw [hbody.code, flatten_length]
    intro a i hmem
    rw [pieces_flatten (hat a i hmem), shortened_length (hat a i hmem)]

theorem stage_table : out.pJumps.Nodup ∧ ∀ a, a ∈ out.pJumps ↔
      ∃ j, (a, j) ∈ starts 0 (instrs.flatMap (pieces iPass)) ∧ IsJump j := by
  obtain ⟨left, htable, hsublist, hleft⟩ := h.table
  rw [htable, nil_append]
  have hiff : ∀ a i, (a, i) ∈ starts 0 instrs → a ∈ pFunc.pJumps → IsJump i ∨ isDummy i →
      (a ∈ left ↔ IsJump (kept iPass i)) := by
    intro a i hmem hin hentry
    rw [hleft a i hmem hin, Bool.not_eq_true]
    exact isDummy_shortened (hbody.complete i (mem_of_mem_starts hmem)) hentry
  refine ⟨hbody.distinct.sublist hsublist, fun a => ⟨fun hin => ?_, ?_⟩⟩
  · have hold := hsublist.subset hin
    obtain ⟨i, hmem, hentry⟩ := hbody.entries a hold
    have hjump := (hiff a i hmem hold hentry).mp hin
    refine ⟨_, (mem_starts_flatMap hbody.complete).mpr ⟨a, i, hmem, .inl ⟨rfl, rfl, ?_⟩⟩, hjump⟩
    rintro heq
    rw [heq] at hjump
    exact hjump rfl
  · rintro ⟨j, hleft, hjump⟩
    obtain ⟨a', i, hmem, ⟨rfl, rfl, -⟩ | ⟨-, rfl⟩⟩ := (mem_starts_flatMap hbody.complete).mp hleft
    · have hold := (kept_jump (hbody.complete i (mem_of_mem_starts hmem)) hjump).1
      exact (hiff a i hmem (hbody.listed a i hmem hold) (.inl hold)).mpr hjump
    · exact absurd rfl hjump

theorem stage_noops :
    ∀ n ∈ out.pNOOPs, (n, [noop.byte]) ∈ starts 0 (instrs.flatMap (pieces iPass)) := by
  intro n hn
  rw [mem_starts_flatMap hbody.complete]
  rcases (h.noops n).mp hn with hold | ⟨a, -, i, hmem, k, hk, rfl⟩
  · have hkept : kept iPass [noop.byte] = [noop.byte] := kept_of_not (not_not.mpr rfl)
    exact ⟨n, _, hbody.noops n hold, .inl ⟨rfl, hkept.symm, cons_ne_nil _ _⟩⟩
  · exact ⟨a, i, hmem, .inr ⟨⟨k, hk, rfl⟩, rfl⟩⟩

end

theorem stage_lands {nOffset : Int} (hmem : (b, j) ∈ starts 0 (instrs.flatMap (pieces iPass)))
    (hoffset : jumpOffset j = some nOffset) :
    ∃ c k, (c, k) ∈ starts 0 (instrs.flatMap (pieces iPass)) ∧ (c : Int) = b + nOffset := by
  have hjump : IsJump j := by
    obtain ⟨width, hwidth, -⟩ := Option.map_eq_some_iff.mp hoffset
    exact isJump_of_width hwidth
  obtain ⟨a, i, hold, ⟨rfl, rfl, -⟩ | ⟨-, rfl⟩⟩ := (mem_starts_flatMap hbody.complete).mp hmem
  · have hkept := kept_jump (hbody.complete i (mem_of_mem_starts hold)) hjump
    obtain ⟨c, k, hland, hc⟩ := hbody.lands b i nOffset hold (hkept.2.2.symm.trans hoffset)
    obtain ⟨k', hstays⟩ := start_stays hbody hland
    exact ⟨c, k', hstays, hc⟩
  · exact absurd rfl hjump

end

theorem shorten_body (iPass : Nat) (hbody : Body pFunc instrs) :
    Body (shortenJumps iPass pFunc.pJumps.length pFunc) (instrs.flatMap (pieces iPass)) ∧
      ∀ a, a ∈ (shortenJumps iPass pFunc.pJumps.length pFunc).pJumps ↔
        ∃ j, (a, j) ∈ starts 0 (instrs.flatMap (pieces iPass)) ∧ IsJump j := by
  have hstage := shortenJumps_spec iPass hbody
  obtain ⟨hcode, hlength⟩ := stage_code hbody hstage
  obtain ⟨hdistinct, htable⟩ := stage_table hbody hstage
  refine ⟨⟨hcode, fun j hj => ?_, hlength ▸ hbody.fits,
    fun a j hmem hj => (htable a).mpr ⟨j, hmem, hj⟩,
    fun a ha => ?_, hdistinct, fun b j nOffset => stage_lands hbody, stage_noops hbody hstage,
    hstage.once⟩, htable⟩
  · obtain ⟨i, hi, hj⟩ := mem_flatMap.mp hj
    exact pieces_complete (hbody.complete i hi) j hj
  · obtain ⟨j, hmem, hj⟩ := (htable a).mp ha
    exact ⟨j, hmem, .inl hj⟩

end Pieces

end Harbour.Compiler.JumpTable
