import Harbour.Compiler.Jumps

/-!
The first loop of a pass: jumps get shorter offsets or go away, and the bytes that they
leave are listed.
-/

namespace Harbour.Compiler.JumpShorten

open Library.Bytes Library.Chunks PCodeSize Jumps List PCode

section Within

def within (before after : Bytes) (pNOOPs pJumps : List Nat) (fExit : Bool) (pFunc : Func) :
    Func where
  pCode := before ++ (pFunc.pCode ++ after)
  pNOOPs := pNOOPs ++ pFunc.pNOOPs.map (before.length + ·)
  pJumps := pJumps
  fExit := fExit

variable {before after i : Bytes} {pNOOPs pJumps : List Nat} {fExit : Bool} {pFunc : Func}
  {n nCount : Nat}

theorem set_within (h : n < i.length) (b : UInt8) :
    (before ++ (i ++ after)).set (before.length + n) b = before ++ (i.set n b ++ after) := by
  rw [set_append_right _ _ (Nat.le_add_right _ _), Nat.add_sub_cancel_left,
    set_append_left _ _ h]

theorem drop_within (h : n ≤ i.length) :
    (before ++ (i ++ after)).drop (before.length + n) = i.drop n ++ after := by
  rw [drop_append, drop_of_length_le (Nat.le_add_right _ _), nil_append,
    Nat.add_sub_cancel_left, drop_append_of_le_length h]

theorem offsetAt_within {width : Nat} (h : n + 1 + width ≤ pFunc.pCode.length) :
    offsetAt (within before after pNOOPs pJumps fExit pFunc) (before.length + n) width =
      offsetAt pFunc n width := by
  unfold offsetAt within
  rw [Nat.add_assoc, drop_within (by omega), mkSigned_append]
  rw [length_drop]
  omega

theorem setCode_within (h : n < pFunc.pCode.length) (pcode : PCode) :
    setCode (within before after pNOOPs pJumps fExit pFunc) (before.length + n) pcode =
      within before after pNOOPs pJumps fExit (setCode pFunc n pcode) := by
  unfold setCode within
  rw [set_within h]

theorem compNOOPadd_within (h : n < pFunc.pCode.length) :
    compNOOPadd (within before after pNOOPs pJumps fExit pFunc) (before.length + n) =
      within before after pNOOPs pJumps fExit (compNOOPadd pFunc n) := by
  rw [compNOOPadd, setCode_within h]
  unfold compNOOPadd within
  rw [map_append, append_assoc]
  rfl

theorem setCode_length (pFunc : Func) (n : Nat) (pcode : PCode) :
    (setCode pFunc n pcode).pCode.length = pFunc.pCode.length := length_set

theorem compNOOPfill_within (fPop : Bool) (h : n + nCount ≤ pFunc.pCode.length) :
    compNOOPfill (within before after pNOOPs pJumps fExit pFunc) (before.length + n)
      nCount fPop false =
      within before after pNOOPs pJumps fExit (compNOOPfill pFunc n nCount fPop false) := by
  induction nCount generalizing pFunc n fPop with
  | zero => rfl
  | succ nCount ih =>
    have hlt : n < pFunc.pCode.length := by omega
    cases fPop with
    | true =>
      rw [compNOOPfill, setCode_within hlt, Nat.add_assoc, ih false, compNOOPfill]
      rw [setCode_length]
      omega
    | false =>
      rw [compNOOPfill, if_neg (by simp), compNOOPadd_within hlt, Nat.add_assoc, ih false,
        compNOOPfill, if_neg (by simp)]
      change n + 1 + nCount ≤ (setCode pFunc n .noop).pCode.length
      rw [setCode_length]
      omega

theorem shortenNear_within (fPop : Bool) (h : pFunc.pCode.length = 2) :
    shortenNear (within before after pNOOPs pJumps fExit pFunc) (before.length + 0) fPop =
      within before after pNOOPs pJumps fExit (shortenNear pFunc 0 fPop) := by
  unfold shortenNear
  rw [offsetAt_within (by omega)]
  split
  · rw [compNOOPfill_within _ (by omega)]
  · rfl

theorem shortenShort_within (near : PCode) (fPop : Bool) (h : pFunc.pCode.length = 3) :
    shortenShort (within before after pNOOPs pJumps fExit pFunc) (before.length + 0) near fPop =
      within before after pNOOPs pJumps fExit (shortenShort pFunc 0 near fPop) := by
  have hset := setCode_length pFunc 0 near
  unfold shortenShort
  dsimp only
  rw [offsetAt_within (by omega)]
  split
  · rw [compNOOPfill_within _ (by omega)]
  split
  · rw [setCode_within (by omega), Nat.add_assoc, compNOOPfill_within _ (by omega)]
  · rfl

theorem shortenFar_within (iPass : Nat) (near short : PCode) (fPop : Bool)
    (h : pFunc.pCode.length = 4) :
    shortenFar (within before after pNOOPs pJumps fExit pFunc) (before.length + 0)
      iPass near short fPop =
      within before after pNOOPs pJumps fExit (shortenFar pFunc 0 iPass near short fPop) := by
  have hnear := setCode_length pFunc 0 near
  have hshort := setCode_length pFunc 0 short
  unfold shortenFar
  dsimp only
  rw [offsetAt_within (by omega)]
  split
  · rw [compNOOPfill_within _ (by omega)]
  split
  · split
    · rw [setCode_within (by omega), Nat.add_assoc, compNOOPfill_within _ (by omega)]
    · rw [setCode_within (by omega), Nat.add_assoc, compNOOPfill_within _ (by omega)]
  · rfl

theorem shortenJump_within (iPass : Nat) (hne : pFunc.pCode ≠ [])
    (h : ∀ width, (code pFunc.pCode).offsetWidth = some width → pFunc.pCode.length = 1 + width) :
    shortenJump (within before after pNOOPs pJumps fExit pFunc) before.length iPass =
      within before after pNOOPs pJumps fExit (shortenJump pFunc 0 iPass) := by
  have hcode : code ((within before after pNOOPs pJumps fExit pFunc).pCode.drop before.length) =
      code pFunc.pCode := by
    change code ((before ++ (pFunc.pCode ++ after)).drop before.length) = _
    rw [drop_left, code_append hne]
  unfold shortenJump
  rw [hcode, drop_zero]
  cases hjump : code pFunc.pCode with
  | jumpNear | jumpFalseNear | jumpTrueNear =>
    exact shortenNear_within _ (h 1 (by rw [hjump]; rfl))
  | jump | jumpFalse | jumpTrue =>
    exact shortenShort_within _ _ (h 2 (by rw [hjump]; rfl))
  | jumpFar | jumpFalseFar | jumpTrueFar =>
    exact shortenFar_within _ _ _ _ (h 3 (by rw [hjump]; rfl))
  | _ => rfl

end Within

variable {pFunc : Func}

section Outcome

inductive Outcome (i : Bytes) : Bytes → List Nat → Prop where
  | narrowed {j : Bytes} {k : Nat} (kind : (code j).kind = (code i).kind)
      (offset : jumpOffset j = jumpOffset i) (complete : Complete j)
      (length : j.length + k = i.length) :
      Outcome i (j ++ replicate k noop.byte) (range' j.length k)
  | removed (kind : (code i).kind = some .always) (offset : jumpOffset i = some (i.length : Int)) :
      Outcome i (replicate i.length noop.byte) (range' 0 i.length)
  | popped (kind : (code i).kind = some .onFalse ∨ (code i).kind = some .onTrue)
      (offset : jumpOffset i = some (i.length : Int)) :
      Outcome i (pop.byte :: replicate (i.length - 1) noop.byte)
        (range' 1 (i.length - 1))

/-- Only a jump that depends on a value leaves a `HB_P_POP`. -/
def Pops (i : Bytes) (fPop : Bool) : Prop :=
  match fPop with
  | false => (code i).kind = some .always
  | true => (code i).kind = some .onFalse ∨ (code i).kind = some .onTrue

variable {i : Bytes} {fPop : Bool} {width iPass : Nat}

theorem pops_always (h : (code i).kind = some .always) : Pops i false := h

theorem pops_onFalse (h : (code i).kind = some .onFalse) : Pops i true := .inl h

theorem pops_onTrue (h : (code i).kind = some .onTrue) : Pops i true := .inr h

theorem Outcome.kept (hcomplete : Complete i) : Outcome i i [] := by
  have h := Outcome.narrowed (k := 0) rfl rfl hcomplete (Nat.add_zero _)
  rwa [replicate_zero, append_nil] at h

theorem fill_spec {n nCount : Nat} {pNOOPs pJumps : List Nat} {fExit : Bool}
    (h : n + nCount ≤ i.length) :
    compNOOPfill ⟨i, pNOOPs, pJumps, fExit⟩ n nCount false false =
      ⟨i.take n ++ (replicate nCount noop.byte ++ i.drop (n + nCount)),
        pNOOPs ++ range' n nCount, pJumps, fExit⟩ := by
  induction nCount generalizing i n pNOOPs with
  | zero =>
    rw [compNOOPfill, replicate_zero, nil_append, Nat.add_zero, take_append_drop,
      range'_zero, append_nil]
  | succ nCount ih =>
    have hset : (i.set n noop.byte).length = i.length := length_set
    have htake : (i.set n noop.byte).take (n + 1) = i.take n ++ [noop.byte] := by
      rw [take_succ_eq_append_getElem (by omega), getElem_set_self,
        take_set_of_le (Nat.le_refl _)]
    have hdrop : (i.set n noop.byte).drop (n + 1 + nCount) = i.drop (n + (nCount + 1)) := by
      rw [drop_set_of_lt (by omega)]
      congr 1
      omega
    change compNOOPfill ⟨i.set n noop.byte, pNOOPs ++ [n], pJumps, fExit⟩ _ _ _ _ = _
    rw [ih (by omega), htake, hdrop, replicate_succ, range'_succ]
    simp only [append_assoc, cons_append, nil_append]

section

variable (hwidth : (code i).offsetWidth = some width)

include hwidth

theorem jumpOffset_eq : jumpOffset i = some (mkSigned width (i.drop 1)) := by
  rw [jumpOffset, hwidth]
  rfl

theorem fill_outcome (hlength : i.length = width + 1) (hpops : Pops i fPop)
    (hoffset : mkSigned width (i.drop 1) = (width + 1 : Nat))
    (h : compNOOPfill ⟨i, [], [], false⟩ 0 (width + 1) fPop false = pFunc) :
    Outcome i pFunc.pCode pFunc.pNOOPs := by
  have hnext : jumpOffset i = some (i.length : Int) := by
    rw [jumpOffset_eq hwidth, hoffset, hlength]
  obtain ⟨b, bytes, rfl⟩ := exists_cons_of_length_eq_add_one hlength
  have hbytes : bytes.length = width := Nat.succ.inj hlength
  subst h
  cases fPop with
  | false =>
    rw [fill_spec (by omega), take_zero, Nat.zero_add, ← hlength, drop_length,
      append_nil, nil_append, nil_append]
    exact .removed hpops hnext
  | true =>
    have hpop := Outcome.popped hpops hnext
    rw [hlength, Nat.add_sub_cancel] at hpop
    change Outcome _ (compNOOPfill ⟨pop.byte :: bytes, [], [], false⟩ 1 width false
      false).pCode (compNOOPfill ⟨pop.byte :: bytes, [], [], false⟩ 1 width false false).pNOOPs
    rw [fill_spec (by rw [length_cons]; omega), drop_of_length_le
      (by rw [length_cons]; omega), append_nil, nil_append]
    exact hpop

theorem narrow_outcome {pcode : PCode} {width' : Nat} (hlength : i.length = width + 1)
    (hbyte : ofByte pcode.byte = pcode) (hkind : pcode.kind = (code i).kind)
    (hwidth' : pcode.offsetWidth = some width') (hpos : 0 < width') (hle : width' ≤ width)
    (hfits : limInt (8 * width') (mkSigned width (i.drop 1)))
    (h : compNOOPfill (setCode ⟨i, [], [], false⟩ 0 pcode) (width' + 1) (width - width')
      false false = pFunc) :
    Outcome i pFunc.pCode pFunc.pNOOPs := by
  obtain ⟨b, bytes, rfl⟩ := exists_cons_of_length_eq_add_one hlength
  have hbytes : bytes.length = width := Nat.succ.inj hlength
  have hlim := of_decide_eq_true hfits
  have hoffset := jumpOffset_eq hwidth
  rw [drop_succ_cons, drop_zero] at hlim hoffset
  have htake : (bytes.take width').length = width' := length_take_of_le (by omega)
  have hsame : mkSigned width' (bytes.take width') = mkSigned width bytes := by
    rw [← mkSigned_narrow hpos hle (by omega) hlim.1 hlim.2, mkSigned, take_take, Nat.min_self,
      mkSigned]
  have hcode : code (pcode.byte :: bytes.take width') = pcode := hbyte
  have hj : (pcode.byte :: bytes.take width').length = width' + 1 := by
    rw [length_cons, htake]
  have hnarrowed : Outcome (b :: bytes) _ _ := .narrowed (j := pcode.byte :: bytes.take width')
    (k := width - width') (by rw [hcode, hkind])
    (by rw [jumpOffset_eq (hcode ▸ hwidth'), hoffset, drop_succ_cons, drop_zero, hsame])
    (complete_of_width (hcode ▸ hwidth') (by rw [hj, Nat.add_comm]))
    (by rw [hj, hlength]; omega)
  subst h
  change Outcome _ (compNOOPfill ⟨pcode.byte :: bytes, [], [], false⟩ (width' + 1) (width - width')
    false false).pCode (compNOOPfill ⟨pcode.byte :: bytes, [], [], false⟩ (width' + 1)
    (width - width') false false).pNOOPs
  rw [fill_spec (by rw [length_cons]; omega), take_succ_cons, drop_of_length_le
    (by rw [length_cons]; omega), append_nil, nil_append, ← hj]
  exact hnarrowed

end

theorem near_outcome (hwidth : (code i).offsetWidth = some 1) (hcomplete : Complete i)
    (hpops : Pops i fPop) (h : shortenNear ⟨i, [], [], false⟩ 0 fPop = pFunc) :
    Outcome i pFunc.pCode pFunc.pNOOPs := by
  have hlength : i.length = 1 + 1 := width_of_complete hwidth hcomplete
  unfold shortenNear at h
  split at h
  · rename_i hoffset
    exact fill_outcome hwidth hlength hpops hoffset h
  · subst h
    exact .kept hcomplete

theorem short_outcome (near : PCode) (hwidth : (code i).offsetWidth = some 2)
    (hcomplete : Complete i) (hpops : Pops i fPop) (hbyte : ofByte near.byte = near)
    (hkind : near.kind = (code i).kind) (hnear : near.offsetWidth = some 1)
    (h : shortenShort ⟨i, [], [], false⟩ 0 near fPop = pFunc) :
    Outcome i pFunc.pCode pFunc.pNOOPs := by
  have hlength : i.length = 2 + 1 := width_of_complete hwidth hcomplete
  unfold shortenShort at h
  dsimp only at h
  split at h
  · rename_i hoffset
    exact fill_outcome hwidth hlength hpops hoffset h
  split at h
  · rename_i hfits
    exact narrow_outcome hwidth hlength hbyte hkind hnear Nat.one_pos (by omega) hfits h
  · subst h
    exact .kept hcomplete

theorem far_outcome (near short : PCode) (hwidth : (code i).offsetWidth = some 3)
    (hcomplete : Complete i) (hpops : Pops i fPop) (hbyte : ofByte near.byte = near)
    (hbyte' : ofByte short.byte = short) (hkind : near.kind = (code i).kind)
    (hkind' : short.kind = (code i).kind) (hnear : near.offsetWidth = some 1)
    (hshort : short.offsetWidth = some 2)
    (h : shortenFar ⟨i, [], [], false⟩ 0 iPass near short fPop = pFunc) :
    Outcome i pFunc.pCode pFunc.pNOOPs := by
  have hlength : i.length = 3 + 1 := width_of_complete hwidth hcomplete
  unfold shortenFar at h
  dsimp only at h
  split at h
  · rename_i hoffset
    exact fill_outcome hwidth hlength hpops hoffset h
  split at h
  · rename_i hpass
    split at h
    · rename_i hfits
      exact narrow_outcome hwidth hlength hbyte hkind hnear Nat.one_pos (by omega) hfits h
    · exact narrow_outcome hwidth hlength hbyte' hkind' hshort Nat.two_pos (by omega) hpass.2 h
  · subst h
    exact .kept hcomplete

theorem shortenJump_outcome (hcomplete : Complete i)
    (h : shortenJump ⟨i, [], [], false⟩ 0 iPass = pFunc) : Outcome i pFunc.pCode pFunc.pNOOPs := by
  unfold shortenJump at h
  rw [drop_zero] at h
  cases hcode : code i <;> rw [hcode] at h
  case jumpNear =>
    exact near_outcome (congrArg offsetWidth hcode) hcomplete
      (pops_always (congrArg kind hcode)) h
  case jumpFalseNear =>
    exact near_outcome (congrArg offsetWidth hcode) hcomplete
      (pops_onFalse (congrArg kind hcode)) h
  case jumpTrueNear =>
    exact near_outcome (congrArg offsetWidth hcode) hcomplete
      (pops_onTrue (congrArg kind hcode)) h
  case jump =>
    exact short_outcome .jumpNear (congrArg offsetWidth hcode) hcomplete
      (pops_always (congrArg kind hcode)) rfl (congrArg kind hcode).symm
      rfl h
  case jumpFalse =>
    exact short_outcome .jumpFalseNear (congrArg offsetWidth hcode) hcomplete
      (pops_onFalse (congrArg kind hcode)) rfl (congrArg kind hcode).symm
      rfl h
  case jumpTrue =>
    exact short_outcome .jumpTrueNear (congrArg offsetWidth hcode) hcomplete
      (pops_onTrue (congrArg kind hcode)) rfl (congrArg kind hcode).symm
      rfl h
  case jumpFar =>
    exact far_outcome .jumpNear .jump (congrArg offsetWidth hcode) hcomplete
      (pops_always (congrArg kind hcode)) rfl rfl
      (congrArg kind hcode).symm (congrArg kind hcode).symm rfl rfl h
  case jumpFalseFar =>
    exact far_outcome .jumpFalseNear .jumpFalse (congrArg offsetWidth hcode) hcomplete
      (pops_onFalse (congrArg kind hcode)) rfl rfl
      (congrArg kind hcode).symm (congrArg kind hcode).symm rfl rfl h
  case jumpTrueFar =>
    exact far_outcome .jumpTrueNear .jumpTrue (congrArg offsetWidth hcode) hcomplete
      (pops_onTrue (congrArg kind hcode)) rfl rfl
      (congrArg kind hcode).symm (congrArg kind hcode).symm rfl rfl h
  all_goals
    subst h
    exact .kept hcomplete

section

variable {i' : Bytes} {pNOOPs : List Nat} (h : Outcome i i' pNOOPs)

include h

theorem Outcome.length (hpos : 0 < i.length) : i'.length = i.length := by
  cases h with
  | narrowed kind offset complete length => rw [length_append, length_replicate, length]
  | removed kind offset => exact length_replicate
  | popped kind offset =>
    rw [length_cons, length_replicate]
    omega

theorem Outcome.listed : pNOOPs.Nodup ∧ ∀ k ∈ pNOOPs, k < i.length := by
  cases h with
  | narrowed kind offset complete length | removed kind offset | popped kind offset =>
    refine ⟨nodup_range', fun k hk => ?_⟩
    have := mem_range'_1.mp hk
    omega

end

end Outcome

end Harbour.Compiler.JumpShorten
