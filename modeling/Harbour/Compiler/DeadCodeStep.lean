import Harbour.Compiler.DeadCodeTrace

/-!
One step of the trace, for each kind of instruction.
-/

namespace Harbour.Compiler.DeadCode

open Library.Bytes Library.Chunks PCodeSize Jumps List PCode

variable {arms : List Arm} {info₁ : TraceInfo}

section Step

variable {named : Bool} {pFunc : Func} {instrs : List Bytes} {info : TraceInfo} {a b : Nat}
  {i j : Bytes} {width : Nat} {nOffset : Int}

theorem jumpTarget_eq {p : Nat} {behind : Bytes} (hdrop : pFunc.pCode.drop p = i ++ behind)
    (hcomplete : Complete i) (hwidth : (code i).offsetWidth = some width)
    (hoffset : jumpOffset i = some nOffset) (hb : (b : Int) = p + nOffset) (hlt : b < 2 ^ 64) :
    jumpTarget pFunc p width = b := by
  have hlength := width_of_complete hwidth hcomplete
  have hdrop' : pFunc.pCode.drop (p + 1) = i.drop 1 ++ behind := by
    rw [← drop_drop, hdrop, drop_append_of_le_length (by omega)]
  have hmk : mkSigned width (i.drop 1) = nOffset := by
    unfold jumpOffset at hoffset
    rw [hwidth] at hoffset
    exact Option.some.inj hoffset
  unfold jumpTarget
  rw [hdrop', mkSigned_append (by rw [length_drop]; omega), hmk, ← hb]
  exact JumpAdjust.size_eq hlt

namespace Body

section

variable (hbody : Body named pFunc instrs)

include hbody

theorem code_start (hmem : (a, i) ∈ starts 0 instrs) :
    PCodeSize.code (pFunc.pCode.drop a) = PCodeSize.code i := by
  obtain ⟨behind, hdrop⟩ := hbody.drop_start hmem
  rw [hdrop]
  exact code_append (hbody.shape i (mem_of_mem_starts hmem)).ne_nil behind

theorem start_eq (hmem : (a, i) ∈ starts 0 instrs) (hmem' : (a, j) ∈ starts 0 instrs) : i = j :=
  starts_unique hbody.solid hmem hmem'

theorem lt_size (hmem : (b, j) ∈ starts 0 instrs) : b < 2 ^ 64 := by
  have hlt := hbody.start_lt hmem
  have hfits := hbody.fits
  omega

theorem target (hmem : (a, i) ∈ starts 0 instrs) (hcomplete : Complete i)
    (hwidth : (PCodeSize.code i).offsetWidth = some width) (hoffset : jumpOffset i = some nOffset)
    (hj : (b, j) ∈ starts 0 instrs) (hb : (b : Int) = a + nOffset) :
    jumpTarget pFunc a width = b := by
  obtain ⟨behind, hdrop⟩ := hbody.drop_start hmem
  exact jumpTarget_eq hdrop hcomplete hwidth hoffset hb (hbody.lt_size hj)

theorem next (hmem : (a, i) ∈ starts 0 instrs) (hmet : Met instrs a) (hfalls : FallsThrough i) :
    (∃ j, (a + i.length, j) ∈ starts 0 instrs ∧ Met instrs (a + i.length)) ∨
      a + i.length = pFunc.pCode.length := by
  rw [hbody.code]
  refine (starts_next hmem).imp_left ?_
  rintro ⟨j, hj⟩
  exact ⟨j, hj, hmet.tail (.flows (.next hmem hfalls hj rfl))⟩

end

end Body

theorem switch_code (arms : List Arm) : code (switchBytes arms) = .switch := rfl

section

variable (hbody : Body named pFunc instrs) (hmem : (a, i) ∈ starts 0 instrs)
  (hplain : code i ≠ .switch)

include hbody hmem hplain

theorem flows_plain (h : Flows instrs a b) :
    (∃ nOffset, jumpOffset i = some nOffset ∧ (b : Int) = a + nOffset) ∨
      FallsThrough i ∧ b = a + i.length := by
  cases h with
  | jump hmem' hoffset hb =>
    obtain rfl := hbody.start_eq hmem hmem'
    exact .inl ⟨_, hoffset, hb⟩
  | arm hmem' =>
    obtain rfl := hbody.start_eq hmem hmem'
    exact absurd (switch_code _) hplain
  | next hmem' hfalls _ hb =>
    obtain rfl := hbody.start_eq hmem hmem'
    exact .inr ⟨hfalls, hb⟩

theorem flows_next (hjump : jumpOffset i = none) (h : Flows instrs a b) :
    FallsThrough i ∧ b = a + i.length := by
  refine (flows_plain hbody hmem hplain h).resolve_left ?_
  rintro ⟨nOffset, hoffset, -⟩
  exact Option.some_ne_none _ (hoffset.symm.trans hjump)

theorem flows_target (hoffset : jumpOffset i = some nOffset) (hb : (b : Int) = a + nOffset)
    {b' : Nat} (h : Flows instrs a b') : b' = b ∨ FallsThrough i ∧ b' = a + i.length := by
  refine (flows_plain hbody hmem hplain h).imp_left ?_
  rintro ⟨nOffset', hoffset', hb'⟩
  rw [hoffset] at hoffset'
  obtain rfl := Option.some.inj hoffset'
  omega

end

theorem addTarget_traced {n : Nat} (hbody : Body named pFunc instrs)
    (ht : Traced instrs info₁ none fun k => k = b ∨ k = n) (hj : (b, j) ∈ starts 0 instrs)
    (hmet : Met instrs b) :
    ∃ info₂, codeTraceAddJump pFunc info₁ b = .ok info₂ ∧
      Traced instrs info₂ none (fun k => k = n) ∧ Grows info₁ info₂ := by
  obtain ⟨info₂, hadd, ht₂, hgrows, hb0⟩ := addJump_traced hbody ht hj hmet
  refine ⟨info₂, hadd, ht₂.settle (fun k _ howed => ?_) hbody, hgrows⟩
  exact howed.imp_left fun (heq : k = b) => by rw [heq]; exact hb0

def Steps (pFunc : Func) (instrs : List Bytes) (info : TraceInfo) (a : Nat)
    (result : Except TraceError (TraceInfo × Nat)) : Prop :=
  ∃ info' nPos, result = .ok (info', nPos) ∧ Goes pFunc instrs info' nPos ∧
    (∀ n, info.pCodeMark n = 2 → info'.pCodeMark n = 2) ∧ info'.pCodeMark a = 2

theorem steps_next (hbody : Body named pFunc instrs) (ht : Traced instrs info₁ none fun n => n = b)
    (hb : (∃ j, (b, j) ∈ starts 0 instrs ∧ Met instrs b) ∨ b = pFunc.pCode.length)
    (hdone : ∀ n, info.pCodeMark n = 2 → info₁.pCodeMark n = 2) (ha : info₁.pCodeMark a = 2) :
    Steps pFunc instrs info a (.ok (codeTraceNextPos pFunc info₁ b)) := by
  obtain ⟨hgoes, hmark⟩ := nextPos_goes hbody ht hb
  refine ⟨(codeTraceNextPos pFunc info₁ b).1, (codeTraceNextPos pFunc info₁ b).2, rfl, hgoes,
    fun n h2 => ?_, ?_⟩
  · rw [hmark]
    exact hdone n h2
  · rw [hmark]
    exact ha

structure At (instrs : List Bytes) (info : TraceInfo) (a : Nat) (i : Bytes) : Prop where
  mem : (a, i) ∈ starts 0 instrs
  met : Met instrs a
  new : info.pCodeMark a ≠ 2
  traced : Traced instrs info (some a) fun b => b = a

section

variable (hbody : Body named pFunc instrs) (hat : At instrs info a i)

include hbody hat

section

variable (hplain : code i ≠ .switch) (hcomplete : Complete i)

include hplain hcomplete

theorem traceJump_steps (hwidth : (code i).offsetWidth = some width) (hfalls : ¬ FallsThrough i) :
    Steps pFunc instrs info a (traceJump pFunc info a width) := by
  obtain ⟨nOffset, hoffset⟩ := isJump_offset (isJump_of_width hwidth)
  obtain ⟨b, j, hj, hb⟩ := hbody.lands a i nOffset hat.mem hoffset
  have hsucc : ∀ b', Flows instrs a b' → info.pCodeMark b' ≠ 0 ∨ b' = b := fun b' hflow =>
    .inr ((flows_target hbody hat.mem hplain hoffset hb hflow).resolve_right fun h => hfalls h.1)
  obtain ⟨info₁, hmark, ht, -, hdone, hself⟩ := mark_traced hbody hat.traced hat.mem hat.met hat.new
    hsucc
  have hmet : Met instrs b := hat.met.tail (.flows (.jump hat.mem hoffset hb))
  rw [width_of_complete hwidth hcomplete] at hmark
  unfold traceJump
  rw [hbody.target hat.mem hcomplete hwidth hoffset hj hb, hmark]
  exact steps_next hbody ht (.inl ⟨j, hj, hmet⟩) hdone hself

/-- The instruction goes on behind itself as well as at its target. -/
theorem branch_steps (hwidth : (code i).offsetWidth = some width) (hfalls : FallsThrough i)
    (hoffset : jumpOffset i = some nOffset) (hj : (b, j) ∈ starts 0 instrs)
    (hb : (b : Int) = a + nOffset) (ht₀ : Traced instrs info₀ (some a) fun b => b = a)
    (hgrows₀ : Grows info info₀) :
    Steps pFunc instrs info a ((codeTraceMark pFunc info₀ a (1 + width)).bind fun info₁ =>
      (codeTraceAddJump pFunc info₁ b).bind fun info₂ =>
        .ok (codeTraceNextPos pFunc info₂ (a + (1 + width)))) := by
  have hsucc : ∀ b', Flows instrs a b' →
      info₀.pCodeMark b' ≠ 0 ∨ b' = b ∨ b' = a + i.length := fun b' hflow =>
    .inr ((flows_target hbody hat.mem hplain hoffset hb hflow).imp_right And.right)
  have hnew : info₀.pCodeMark a ≠ 2 := (hgrows₀.done a).not.mpr hat.new
  obtain ⟨info₁, hmark, ht₁, -, hdone, hself⟩ := mark_traced hbody ht₀ hat.mem hat.met hnew hsucc
  have hmet : Met instrs b := hat.met.tail (.flows (.jump hat.mem hoffset hb))
  obtain ⟨info₂, hadd, ht, hgrows⟩ := addTarget_traced hbody ht₁ hj hmet
  rw [← width_of_complete hwidth hcomplete, hmark]
  change Steps pFunc instrs info a ((codeTraceAddJump pFunc info₁ b).bind _)
  rw [hadd]
  exact steps_next hbody ht (hbody.next hat.mem hat.met hfalls)
    (fun n h2 => (hgrows.done n).mpr (hdone n ((hgrows₀.done n).mpr h2)))
    ((hgrows.done a).mpr hself)

theorem traceBranch_steps (hwidth : (code i).offsetWidth = some width) (hfalls : FallsThrough i) :
    Steps pFunc instrs info a (traceBranch pFunc info a width) := by
  obtain ⟨nOffset, hoffset⟩ := isJump_offset (isJump_of_width hwidth)
  obtain ⟨b, j, hj, hb⟩ := hbody.lands a i nOffset hat.mem hoffset
  unfold traceBranch
  rw [hbody.target hat.mem hcomplete hwidth hoffset hj hb]
  exact branch_steps hbody hat hplain hcomplete hwidth hfalls hoffset hj hb hat.traced (.refl info)

theorem default_steps (hjump : jumpOffset i = none) (hfalls : FallsThrough i) :
    Steps pFunc instrs info a (p_default pFunc info a) := by
  have hsucc : ∀ b', Flows instrs a b' → info.pCodeMark b' ≠ 0 ∨ b' = a + i.length :=
    fun b' hflow => .inr (flows_next hbody hat.mem hplain hjump hflow).2
  obtain ⟨info₁, hmark, ht, -, hdone, hself⟩ := mark_traced hbody hat.traced hat.mem hat.met hat.new
    hsucc
  obtain ⟨behind, hdrop⟩ := hbody.drop_start hat.mem
  unfold p_default
  rw [hdrop, hcomplete.2 behind]
  dsimp only
  rw [hmark]
  exact steps_next hbody ht (hbody.next hat.mem hat.met hfalls) hdone hself

end

theorem traceEnd_steps (hplain : code i ≠ .switch) (hlength : i.length = 1)
    (hjump : jumpOffset i = none) (hfalls : ¬ FallsThrough i) :
    Steps pFunc instrs info a (traceEnd pFunc info a) := by
  have hsucc : ∀ b', Flows instrs a b' → info.pCodeMark b' ≠ 0 ∨ b' = pFunc.pCode.length :=
    fun b' hflow => absurd (flows_next hbody hat.mem hplain hjump hflow).1 hfalls
  obtain ⟨info₁, hmark, ht, -, hdone, hself⟩ := mark_traced hbody hat.traced hat.mem hat.met hat.new
    hsucc
  rw [hlength] at hmark
  unfold traceEnd
  rw [hmark]
  exact steps_next hbody ht (.inr rfl) hdone hself

theorem addSeqEnd_traced (hcode : code i = .seqBegin) (hoffset : jumpOffset i = some nOffset)
    (hj : (b, j) ∈ starts 0 instrs) (hb : (b : Int) = a + nOffset) :
    ∃ info', addSeqEnd pFunc info b = .ok info' ∧
      Traced instrs info' (some a) (fun b => b = a) ∧ Grows info info' := by
  have hbyte : ∀ c k, (c, k) ∈ starts 0 instrs → ∃ byte, pFunc.pCode[c]? = some byte ∧
      ofByte byte = code k := by
    intro c k hk
    obtain ⟨behind, hdrop⟩ := hbody.drop_start hk
    obtain ⟨byte, bytes, rfl⟩ := exists_cons_of_ne_nil
      (hbody.shape k (mem_of_mem_starts hk)).ne_nil
    refine ⟨byte, ?_, rfl⟩
    have hzero : (pFunc.pCode.drop c)[0]? = ((byte :: bytes) ++ behind)[0]? := by rw [hdrop]
    rw [getElem?_drop, Nat.add_zero] at hzero
    exact hzero
  obtain ⟨byte, hget, hofByte⟩ := hbyte b j hj
  unfold addSeqEnd
  rw [hget]
  dsimp only
  by_cases hend : byte = seqEnd.byte
  · rw [if_neg (not_not.mpr hend)]
    exact ⟨info, rfl, hat.traced, .refl info⟩
  · rw [if_pos hend]
    obtain ⟨c, k, hk, hkcode, hpos⟩ := hbody.recover a i nOffset hat.mem hcode hoffset
    -- the sequence leads to the RECOVER behind its end
    have hc : (c : Int) = a + nOffset - 4 := by
      refine hpos.resolve_left fun heq => hend ?_
      obtain rfl : c = b := by omega
      obtain rfl := hbody.start_eq hk hj
      rw [hkcode] at hofByte
      exact byte_of_code hofByte
    have hsize : size ((b : Int) - 4) = c := by
      rw [show (b : Int) - 4 = c by omega]
      exact JumpAdjust.size_eq (hbody.lt_size hk)
    obtain ⟨byte', hget', hofByte'⟩ := hbyte c k hk
    rw [hkcode] at hofByte'
    have hrecover : code j ≠ .seqEnd := fun heq => hend (byte_of_code (hofByte.trans heq))
    have hmet : Met instrs c := hat.met.tail
      (.seqEnd hat.mem hcode hoffset hb hj hrecover hk hkcode (by omega))
    obtain ⟨info', hadd, ht, hgrows, -⟩ := addJump_traced hbody hat.traced hk hmet
    rw [hsize, hget']
    dsimp only
    rw [if_pos (byte_of_code hofByte'), hadd]
    exact ⟨info', rfl, ht, hgrows⟩

theorem seqbegin_steps (hcode : code i = .seqBegin) (hcomplete : Complete i)
    (hfalls : FallsThrough i) : Steps pFunc instrs info a (p_seqbegin pFunc info a) := by
  have hwidth : (code i).offsetWidth = some 3 := by rw [hcode]; rfl
  have hplain : code i ≠ .switch := by rw [hcode]; exact PCode.noConfusion
  obtain ⟨nOffset, hoffset⟩ := isJump_offset (isJump_of_width hwidth)
  obtain ⟨b, j, hj, hb⟩ := hbody.lands a i nOffset hat.mem hoffset
  obtain ⟨info₀, hseq, ht₀, hgrows₀⟩ := addSeqEnd_traced hbody hat hcode hoffset hj hb
  unfold p_seqbegin
  rw [hbody.target hat.mem hcomplete hwidth hoffset hj hb]
  dsimp only
  rw [hseq]
  exact branch_steps hbody hat hplain hcomplete hwidth hfalls hoffset hj hb ht₀ hgrows₀

end

theorem Arm.jump_width (arm : Arm) : (code arm.jump).offsetWidth = some (switchJump arm.jump) ∧
    ∀ behind, switchJump (arm.jump ++ behind) = switchJump arm.jump := by
  have halways := arm.always
  have hne : arm.jump ≠ [] := length_pos_iff.mp arm.jumpComplete.1
  refine ⟨?_, fun behind => ?_⟩
  · unfold switchJump
    cases hcode : code arm.jump <;> rw [hcode] at halways <;> first | rfl | cases halways
  · unfold switchJump
    rw [code_append hne]

theorem Arm.jump_length (arm : Arm) : arm.jump.length = 1 + switchJump arm.jump :=
  width_of_complete arm.jump_width.1 arm.jumpComplete

theorem armBytes_nil : armBytes [] = [] := rfl

theorem armBytes_append (arms arms' : List Arm) :
    armBytes (arms ++ arms') = armBytes arms ++ armBytes arms' := by
  unfold armBytes
  rw [map_append, flatten_append]

theorem armBytes_cons (arm : Arm) (arms : List Arm) :
    armBytes (arm :: arms) = arm.value ++ (arm.jump ++ armBytes arms) := by
  unfold armBytes
  rw [map_cons, flatten_cons, Arm.bytes, append_assoc]

theorem switchBytes_length (arms : List Arm) :
    (switchBytes arms).length = 3 + (armBytes arms).length := by
  unfold switchBytes
  rw [length_cons, length_append, leBytes_length]
  omega

section

variable (hbody : Body named pFunc instrs) {before after : List Arm} {arm : Arm}
  (hmem : (a, switchBytes (before ++ arm :: after)) ∈ starts 0 instrs)

include hbody hmem

theorem drop_arm : ∃ behind, pFunc.pCode.drop (a + 3 + (armBytes before).length) =
      arm.value ++ (arm.jump ++ behind) := by
  obtain ⟨behind, hdrop⟩ := hbody.drop_start hmem
  refine ⟨armBytes after ++ behind, ?_⟩
  have hskip : a + 3 + (armBytes before).length = a + (3 + (armBytes before).length) :=
    Nat.add_assoc ..
  have hhead : switchBytes (before ++ arm :: after) ++ behind =
      (switch.byte :: (leBytes 2 (before ++ arm :: after).length ++ armBytes before)) ++
        (arm.value ++ (arm.jump ++ (armBytes after ++ behind))) := by
    unfold switchBytes
    rw [armBytes_append, armBytes_cons]
    simp only [cons_append, append_assoc]
  rw [hskip, ← drop_drop, hdrop, hhead]
  refine drop_left' ?_
  rw [length_cons, length_append, leBytes_length]
  omega

theorem switchArms_step (hmet : Met instrs a) (ht : Traced instrs info (some a) fun b => b = a)
    {usCases us : Nat} (hus : us < usCases) (rounds : Nat) :
    ∃ info₁, switchArms pFunc usCases (rounds + 1) us info (a + 3 + (armBytes before).length) =
        switchArms pFunc usCases rounds
          (((if code arm.value = .pushNil then usCases else us) + 1) % 2 ^ 16) info₁
          (a + 3 + (armBytes (before ++ [arm])).length) ∧
      Traced instrs info₁ (some a) (fun b => b = a) ∧ Grows info info₁ ∧
      ∀ (b : Nat) nOffset, jumpOffset arm.jump = some nOffset →
        (b : Int) = a + armPos before arm + nOffset → info₁.pCodeMark b ≠ 0 := by
  obtain ⟨behind, hdrop⟩ := drop_arm hbody hmem
  have hvalue := switchValue_complete arm.isValue arm.valueComplete (arm.jump ++ behind)
  have hcode : code (arm.value ++ (arm.jump ++ behind)) = code arm.value :=
    code_append (length_pos_iff.mp arm.valueComplete.1) _
  have hdrop' : pFunc.pCode.drop (a + 3 + (armBytes before).length + arm.value.length) =
      arm.jump ++ behind := by
    rw [← drop_drop, hdrop, drop_left]
  obtain ⟨hwidth, hjump⟩ := arm.jump_width
  obtain ⟨nOffset, hoffset⟩ := isJump_offset (isJump_of_width hwidth)
  obtain ⟨b, j, hj, hb⟩ := hbody.armsLand a before arm after nOffset hmem hoffset
  have hb' : (b : Int) = (a + 3 + (armBytes before).length + arm.value.length : Nat) + nOffset := by
    rw [hb]
    unfold armPos
    push_cast
    ring
  have htarget := jumpTarget_eq hdrop' arm.jumpComplete hwidth hoffset hb' (hbody.lt_size hj)
  have hmetb : Met instrs b := hmet.tail (.flows (.arm hmem hoffset hb))
  obtain ⟨info₁, hadd, ht₁, hgrows₁, hb0⟩ := addJump_traced hbody ht hj hmetb
  have hnext : a + 3 + (armBytes before).length + arm.value.length + (1 + switchJump arm.jump) =
      a + 3 + (armBytes (before ++ [arm])).length := by
    rw [armBytes_append, length_append, armBytes_cons, armBytes_nil, append_nil,
      length_append, arm.jump_length]
    omega
  have hinside : a + 3 + (armBytes before).length + arm.value.length + (1 + switchJump arm.jump) ≤
      pFunc.pCode.length := by
    have hend := hbody.start_end hmem
    rw [switchBytes_length, armBytes_append, armBytes_cons, length_append, length_append,
      length_append, arm.jump_length] at hend
    omega
  refine ⟨info₁, ?_, ht₁, hgrows₁, fun c nOffset' hoffset' hc => ?_⟩
  · rw [switchArms.eq_2, if_pos hus]
    dsimp only
    rw [hdrop, hcode, hvalue, hdrop', hjump, if_pos hinside, htarget, hadd, hnext]
    rfl
  · rw [hoffset] at hoffset'
    obtain rfl := Option.some.inj hoffset'
    obtain rfl : c = b := by omega
    exact hb0

end

theorem switchArms_traced (hbody : Body named pFunc instrs) {arms before after : List Arm}
    (harms : arms = before ++ after) (hmem : (a, switchBytes arms) ∈ starts 0 instrs)
    (hmet : Met instrs a) (hcount : arms.length < 2 ^ 16)
    (hlast : ∀ arm ∈ arms.dropLast, ¬ arm.isDefault)
    (hdefault : arms.length = 2 ^ 16 - 1 → ∀ arm ∈ arms, ¬ arm.isDefault)
    (ht : Traced instrs info (some a) fun b => b = a) {rounds : Nat}
    (hrounds : after.length < rounds) :
    ∃ info' us, switchArms pFunc arms.length rounds before.length info
        (a + 3 + (armBytes before).length) = .ok (info', a + (switchBytes arms).length, us) ∧
      Traced instrs info' (some a) (fun b => b = a) ∧ Grows info info' ∧
      (∀ before' arm after' (b : Nat) nOffset, after = before' ++ arm :: after' →
        jumpOffset arm.jump = some nOffset →
        (b : Int) = a + armPos (before ++ before') arm + nOffset → info'.pCodeMark b ≠ 0) ∧
      (us > arms.length ↔ ∃ arm ∈ after, arm.isDefault) := by
  induction after generalizing before info rounds with
  | nil =>
    rw [append_nil] at harms
    subst harms
    cases rounds with
    | zero => exact absurd hrounds (Nat.not_lt_zero _)
    | succ rounds =>
      refine ⟨info, arms.length, ?_, ht, .refl info, fun before' arm after' b nOffset heq => ?_, ?_⟩
      · unfold switchArms
        rw [if_neg (Nat.lt_irrefl _), switchBytes_length, Nat.add_assoc]
      · exact absurd heq.symm (append_ne_nil_of_right_ne_nil _ (cons_ne_nil _ _))
      · exact iff_of_false (Nat.lt_irrefl _) fun ⟨arm, hin, _⟩ => not_mem_nil hin
  | cons arm after ih =>
    cases rounds with
    | zero => exact absurd hrounds (Nat.not_lt_zero _)
    | succ rounds =>
      have hlength : arms.length = before.length + (after.length + 1) := by
        rw [harms, length_append, length_cons]
      obtain ⟨info₁, hstep, ht₁, hgrows₁, hb0⟩ := switchArms_step hbody (harms ▸ hmem) hmet ht
        (by omega : before.length < arms.length) rounds
      have hcovers : ∀ info' : TraceInfo, (∀ n, info₁.pCodeMark n ≠ 0 → info'.pCodeMark n ≠ 0) →
          (∀ before' arm' after' (c : Nat) nOffset, after = before' ++ arm' :: after' →
            jumpOffset arm'.jump = some nOffset →
            (c : Int) = a + armPos (before ++ [arm] ++ before') arm' + nOffset →
            info'.pCodeMark c ≠ 0) →
          ∀ before' arm' after' (c : Nat) nOffset, arm :: after = before' ++ arm' :: after' →
            jumpOffset arm'.jump = some nOffset →
            (c : Int) = a + armPos (before ++ before') arm' + nOffset →
            info'.pCodeMark c ≠ 0 := by
        intro info' hmarked hrest before' arm' after' c nOffset heq hoffset hc
        cases before' with
        | nil =>
          obtain ⟨rfl, rfl⟩ := List.cons.inj heq
          rw [append_nil] at hc
          exact hmarked c (hb0 c nOffset hoffset hc)
        | cons first before' =>
          obtain ⟨rfl, rfl⟩ := List.cons.inj heq
          refine hrest before' arm' after' c nOffset rfl hoffset ?_
          rw [append_assoc]
          exact hc
      rw [hstep]
      by_cases hdef : code arm.value = .pushNil
      · -- the default arm is the last one
        have hnil : after = [] := by
          by_contra hne
          refine hlast arm ?_ hdef
          rw [harms, dropLast_append_of_ne_nil (cons_ne_nil _ _),
            dropLast_cons_of_ne_nil hne]
          exact mem_append_right _ mem_cons_self
        subst hnil
        have hsmall : arms.length + 1 < 2 ^ 16 := by
          refine Nat.lt_of_le_of_ne hcount fun heq => ?_
          exact hdefault (by omega) arm (harms ▸ mem_append_right _ mem_cons_self) hdef
        rw [if_pos hdef, Nat.mod_eq_of_lt hsmall]
        cases rounds with
        | zero => exact absurd hrounds (Nat.lt_irrefl _)
        | succ rounds =>
          refine ⟨info₁, arms.length + 1, ?_, ht₁, hgrows₁,
            hcovers info₁ (fun n hn => hn) fun before' arm' after' c nOffset heq => ?_, ?_⟩
          · unfold switchArms
            rw [if_neg (by omega), switchBytes_length, harms, Nat.add_assoc]
          · exact absurd heq.symm
              (append_ne_nil_of_right_ne_nil _ (cons_ne_nil _ _))
          · exact iff_of_true (Nat.lt_succ_self _) ⟨arm, mem_cons_self, hdef⟩
      · rw [if_neg hdef, Nat.mod_eq_of_lt (by omega : before.length + 1 < 2 ^ 16)]
        have harms' : arms = (before ++ [arm]) ++ after := by
          rw [harms, append_assoc, singleton_append]
        obtain ⟨info', us, hrun, ht', hgrows', hrest, hus⟩ :=
          ih harms' ht₁ (Nat.lt_of_succ_lt_succ hrounds)
        rw [length_append, length_singleton] at hrun
        refine ⟨info', us, hrun, ht', hgrows₁.trans hgrows', hcovers info' hgrows'.marked hrest, ?_⟩
        rw [hus]
        constructor
        · rintro ⟨arm', hin, hdef'⟩
          exact ⟨arm', mem_cons_of_mem _ hin, hdef'⟩
        · rintro ⟨arm', hin, hdef'⟩
          rcases mem_cons.mp hin with rfl | hin
          · exact absurd hdef' hdef
          · exact ⟨arm', hin, hdef'⟩

theorem switch_falls :
    FallsThrough (switchBytes arms) ↔ ∀ arm ∈ arms, ¬ arm.isDefault := by
  constructor
  · exact fun hfalls => hfalls.switch arms rfl
  · intro hnot
    refine ⟨?_, ?_, ?_, ?_, fun arms' heq => switchBytes_inj heq ▸ hnot⟩
    all_goals
      rw [switch_code]
      decide

section

variable (hbody : Body named pFunc instrs)

include hbody

theorem switch_steps (hcountable : Countable instrs) (hat : At instrs info a (switchBytes arms))
    (hcount : arms.length < 2 ^ 16) (hlast : ∀ arm ∈ arms.dropLast, ¬ arm.isDefault) :
    Steps pFunc instrs info a (p_switch pFunc info a) := by
  have hcases : mkUnsigned 2 (pFunc.pCode.drop (a + 1)) = arms.length := by
    obtain ⟨behind, hdrop⟩ := hbody.drop_start hat.mem
    rw [← drop_drop, hdrop]
    exact switchBytes_count arms hcount behind
  have hrounds : arms.length < pFunc.pCode.length + 1 := by
    have hend := hbody.start_end hat.mem
    have hle : arms.length ≤ (armBytes arms).length := by
      unfold armBytes
      rw [length_flatten, map_map]
      refine (length_le_sum_of_one_le _ fun n hn => ?_).trans' (by rw [length_map])
      obtain ⟨arm, -, rfl⟩ := mem_map.mp hn
      exact length_pos_iff.mpr arm.bytes_ne_nil
    rw [switchBytes_length] at hend
    omega
  obtain ⟨info₀, us, hrun, ht₀, hgrows₀, harms, hus⟩ :=
    @switchArms_traced named pFunc instrs info a hbody arms [] arms rfl hat.mem hat.met hcount hlast
      (hcountable a arms hat.met hat.mem) hat.traced _ hrounds
  have hnext : FallsThrough (switchBytes arms) ↔ ¬ us > arms.length := by
    rw [switch_falls, hus]
    exact ⟨fun hnot ⟨arm, hin, hdef⟩ => hnot arm hin hdef,
      fun hnot arm hin hdef => hnot ⟨arm, hin, hdef⟩⟩
  have hsucc : ∀ b', Flows instrs a b' → info₀.pCodeMark b' ≠ 0 ∨
      b' = if us > arms.length then pFunc.pCode.length else a + (switchBytes arms).length := by
    intro b' hflow
    cases hflow with
    | jump hmem' hoffset =>
      obtain rfl := hbody.start_eq hat.mem hmem'
      exact absurd hoffset.symm (Option.some_ne_none _)
    | @arm before after arm nOffset hmem' hoffset hb =>
      have heq := switchBytes_inj (hbody.start_eq hat.mem hmem')
      exact .inl (harms before arm after b' nOffset heq hoffset hb)
    | next hmem' hfalls _ hb =>
      obtain rfl := hbody.start_eq hat.mem hmem'
      rw [if_neg (hnext.mp hfalls)]
      exact .inr hb
  have hnew : info₀.pCodeMark a ≠ 2 := (hgrows₀.done a).not.mpr hat.new
  obtain ⟨info₁, hmark, ht, -, hdone, hself⟩ := mark_traced hbody ht₀ hat.mem hat.met hnew hsucc
  unfold p_switch
  dsimp only
  rw [hcases]
  have hrun' : switchArms pFunc arms.length (pFunc.pCode.length + 1) 0 info (a + 3) =
    .ok (info₀, a + (switchBytes arms).length, us) := hrun
  rw [hrun']
  change Steps pFunc instrs info a ((codeTraceMark pFunc info₀ a
    (a + (switchBytes arms).length - a)).bind _)
  rw [Nat.add_sub_cancel_left, hmark]
  refine steps_next hbody ht ?_ (fun n h2 => hdone n ((hgrows₀.done n).mpr h2)) hself
  split_ifs with hbeyond
  · exact .inr rfl
  · exact hbody.next hat.mem hat.met (hnext.mpr hbeyond)

theorem plain_steps (hat : At instrs info a i) (hcomplete : Complete i)
    (hplain : code i ≠ .switch) : Steps pFunc instrs info a (codeTraceFunc pFunc info a) := by
  have hfalls : (code i).kind ≠ some .always → (code i).kind ≠ some .seqEnd →
      code i ≠ .endBlock → code i ≠ .endProc → FallsThrough i := fun halways hseq hblock hproc =>
    ⟨halways, hseq, hblock, hproc, fun arms heq => absurd (heq ▸ switch_code arms) hplain⟩
  have hone : ∀ c, PCode.ofByte c = .other c → code i = .other c →
      pcodeLen[c.toNat]? = some 1 → i.length = 1 := by
    intro c hc hcode hlen
    obtain ⟨b, bytes, rfl⟩ := exists_cons_of_length_pos hcomplete.1
    have hb : b = c := byte_of_code hcode
    rw [← hcomplete.2 [], cons_append, hb]
    unfold compPCodeSize
    rw [headD_cons, hlen]
    rfl
  have hnone : (code i).offsetWidth = none → jumpOffset i = none := by
    intro hwidth
    unfold jumpOffset
    rw [hwidth]
    rfl
  unfold codeTraceFunc
  rw [hbody.code_start hat.mem]
  have hjump : ∀ width, (code i).offsetWidth = some width →
      (code i).kind = some .always ∨ (code i).kind = some .seqEnd →
      Steps pFunc instrs info a (traceJump pFunc info a width) := fun width hwidth hkind =>
    traceJump_steps hbody hat hplain hcomplete hwidth fun hthrough =>
      hkind.elim hthrough.always hthrough.seqEnd
  have hbranch : ∀ width, (code i).offsetWidth = some width → FallsThrough i →
      Steps pFunc instrs info a (traceBranch pFunc info a width) := fun width hwidth hthrough =>
    traceBranch_steps hbody hat hplain hcomplete hwidth hthrough
  cases hcode : code i with
  | jumpNear => exact hjump 1 (by rw [hcode]; rfl) (.inl (by rw [hcode]; rfl))
  | jump => exact hjump 2 (by rw [hcode]; rfl) (.inl (by rw [hcode]; rfl))
  | jumpFar => exact hjump 3 (by rw [hcode]; rfl) (.inl (by rw [hcode]; rfl))
  | seqEnd => exact hjump 3 (by rw [hcode]; rfl) (.inr (by rw [hcode]; rfl))
  | jumpFalseNear | jumpTrueNear =>
    exact hbranch 1 (by rw [hcode]; rfl) (hfalls (by rw [hcode]; decide) (by rw [hcode]; decide)
      (by rw [hcode]; decide) (by rw [hcode]; decide))
  | jumpFalse | jumpTrue =>
    exact hbranch 2 (by rw [hcode]; rfl) (hfalls (by rw [hcode]; decide) (by rw [hcode]; decide)
      (by rw [hcode]; decide) (by rw [hcode]; decide))
  | jumpFalseFar | jumpTrueFar | seqAlways | alwaysBegin =>
    exact hbranch 3 (by rw [hcode]; rfl) (hfalls (by rw [hcode]; decide) (by rw [hcode]; decide)
      (by rw [hcode]; decide) (by rw [hcode]; decide))
  | seqBegin =>
    exact seqbegin_steps hbody hat hcode hcomplete (hfalls (by rw [hcode]; decide)
      (by rw [hcode]; decide) (by rw [hcode]; decide) (by rw [hcode]; decide))
  | localName | moduleName | noop | pop | pushBlock | pushBlockShort | pushStr | pushStrShort
  | staticName | pushStrHidden | pushBlockLarge | pushStrLarge | threadStatics =>
    exact default_steps hbody hat hplain hcomplete (hnone (by rw [hcode]; rfl))
      (hfalls (by rw [hcode]; decide) (by rw [hcode]; decide) (by rw [hcode]; decide)
        (by rw [hcode]; decide))
  | other c =>
    have hjump : jumpOffset i = none := hnone (by rw [hcode]; rfl)
    by_cases hblock : c = 6
    · subst hblock
      exact traceEnd_steps hbody hat hplain (hone 6 rfl hcode rfl) hjump
        fun hthrough => hthrough.endBlock hcode
    · by_cases hproc : c = 7
      · subst hproc
        exact traceEnd_steps hbody hat hplain (hone 7 rfl hcode rfl) hjump
          fun hthrough => hthrough.endProc hcode
      · have hthrough : FallsThrough i := by
          refine hfalls ?_ ?_ (fun heq => ?_) fun heq => ?_
          · rw [hcode]
            exact (Option.some_ne_none _).symm
          · rw [hcode]
            exact (Option.some_ne_none _).symm
          · exact hblock (PCode.other.inj (hcode.symm.trans heq))
          · exact hproc (PCode.other.inj (hcode.symm.trans heq))
        split
        all_goals
          rename_i h
          first
          | exact PCode.noConfusion h
          | exact absurd (PCode.other.inj h) hblock
          | exact absurd (PCode.other.inj h) hproc
          | exact absurd (hcode.trans h) hplain
          | exact default_steps hbody hat hplain hcomplete hjump hthrough

theorem codeTraceFunc_steps (hcountable : Countable instrs) (hat : At instrs info a i) :
    Steps pFunc instrs info a (codeTraceFunc pFunc info a) := by
  cases hbody.shape i (mem_of_mem_starts hat.mem) with
  | plain hcomplete hplain => exact plain_steps hbody hat hcomplete hplain
  | switch arms heq hcount hlast =>
    subst heq
    unfold codeTraceFunc
    rw [hbody.code_start hat.mem]
    exact switch_steps hbody hcountable hat hcount hlast

end

set_option maxRecDepth 2000 in
theorem pcodeLen_length : pcodeLen.length = lastPCode.toNat := rfl

theorem Body.valid (hbody : Body named pFunc instrs) (hmem : (a, i) ∈ starts 0 instrs) :
    (pFunc.pCode.drop a).headD 0 < lastPCode := by
  obtain ⟨behind, hdrop⟩ := hbody.drop_start hmem
  rw [hdrop]
  cases hbody.shape i (mem_of_mem_starts hmem) with
  | plain hcomplete =>
    by_contra hnot
    have hnone : pcodeLen[((i ++ behind).headD 0).toNat]? = none := by
      refine getElem?_eq_none ?_
      rw [pcodeLen_length]
      exact UInt8.not_lt.mp hnot
    have hsize := hcomplete.2 behind
    unfold compPCodeSize at hsize
    rw [hnone] at hsize
    exact absurd hsize (Nat.ne_of_lt hcomplete.1)
  | switch arms heq =>
    subst heq
    exact (by decide : (133 : UInt8) < 181)

def unmet (instrs : List Bytes) (info : TraceInfo) : Finset Nat :=
  ((starts 0 instrs).map Prod.fst).toFinset.filter fun a => info.pCodeMark a ≠ 2

theorem mem_unmet : a ∈ unmet instrs info ↔
    (∃ i, (a, i) ∈ starts 0 instrs) ∧ info.pCodeMark a ≠ 2 := by
  unfold unmet
  rw [Finset.mem_filter, mem_toFinset, mem_map]
  exact and_congr_left' ⟨fun ⟨entry, hin, heq⟩ => ⟨entry.2, heq ▸ hin⟩,
    fun ⟨i, hin⟩ => ⟨_, hin, rfl⟩⟩

theorem unmet_card_lt {info' : TraceInfo} (hmem : (a, i) ∈ starts 0 instrs)
    (hnew : info.pCodeMark a ≠ 2) (hdone : ∀ n, info.pCodeMark n = 2 → info'.pCodeMark n = 2)
    (ha : info'.pCodeMark a = 2) : (unmet instrs info').card < (unmet instrs info).card := by
  refine Finset.card_lt_card (Finset.ssubset_iff_subset_ne.mpr ⟨fun n hn => ?_, fun heq => ?_⟩)
  · obtain ⟨hstart, hn⟩ := mem_unmet.mp hn
    exact mem_unmet.mpr ⟨hstart, fun h2 => hn (hdone n h2)⟩
  · have hin : a ∈ unmet instrs info := mem_unmet.mpr ⟨⟨i, hmem⟩, hnew⟩
    rw [← heq] at hin
    exact (mem_unmet.mp hin).2 ha

theorem trace_ends (hbody : Body named pFunc instrs) (hcountable : Countable instrs) {rounds : Nat}
    {nPos : Nat} (hgoes : Goes pFunc instrs info nPos)
    (hrounds : (unmet instrs info).card < rounds) :
    ∃ info', compPCodeTrace pFunc rounds info nPos = .ok info' ∧ info'.fFinished = true ∧
      Traced instrs info' none (fun _ => False) ∧
      ∀ a i, (a, i) ∈ starts 0 instrs → info'.pCodeMark a ≠ 1 := by
  induction rounds generalizing info nPos with
  | zero => exact absurd hrounds (Nat.not_lt_zero _)
  | succ rounds ih =>
    unfold compPCodeTrace
    cases hgoes with
    | done hend hfinished ht hones =>
      rw [if_neg (by omega)]
      exact ⟨info, rfl, hfinished, ht, hones⟩
    | more hmem hmet hnew ht =>
      rw [if_pos (hbody.start_lt hmem), if_pos (hbody.valid hmem)]
      obtain ⟨info', nPos', hstep, hgoes', hdone, ha⟩ :=
        codeTraceFunc_steps hbody hcountable ⟨hmem, hmet, hnew, ht⟩
      have hlt := unmet_card_lt hmem hnew hdone ha
      rw [hstep]
      exact ih hgoes' (by omega)

def traceStart : TraceInfo := ⟨fun _ => 0, [], 0, false⟩

theorem traceStart_goes (hbody : Body named pFunc instrs) : Goes pFunc instrs traceStart 0 := by
  obtain ⟨i, hmem⟩ := hbody.origin
  have h2 : ∀ n, traceStart.pCodeMark n ≠ 2 := fun _ => Nat.two_pos.ne
  refine .more hmem .refl (h2 0) ⟨fun a _ _ ha => absurd ha (h2 a), fun _ _ _ _ _ _ _ => rfl,
    fun _ _ _ => .inl rfl, fun a ha => absurd ha not_mem_nil, Nat.le_refl 0,
    fun a _ ha => absurd ha (h2 a), .inr rfl, fun _ _ _ ha => absurd rfl ha⟩

theorem unmet_card_le (instrs : List Bytes) (info : TraceInfo) :
    (unmet instrs info).card ≤ instrs.length := by
  refine (Finset.card_filter_le _ _).trans ((toFinset_card_le _).trans ?_)
  have hlength := congrArg length (starts_chunks 0 instrs)
  rw [length_map] at hlength ⊢
  exact Nat.le_of_eq hlength

theorem Traced.reaches (ht : Traced instrs info none fun _ => False)
    (hones : ∀ a i, (a, i) ∈ starts 0 instrs → info.pCodeMark a ≠ 1)
    (hbody : Body named pFunc instrs) (hreach : Reaches instrs a) : info.pCodeMark a = 2 := by
  have htwo : ∀ b, (∃ j, (b, j) ∈ starts 0 instrs) → info.pCodeMark b ≠ 0 →
      info.pCodeMark b = 2 := by
    rintro b ⟨j, hj⟩ hne
    exact ((ht.pending b j hj).resolve_left hne).resolve_right fun h => hones b j hj h.1
  induction hreach with
  | refl => exact htwo 0 hbody.origin (ht.origin.resolve_right id)
  | tail _ hflow ih =>
    exact htwo _ (hbody.flows_start hflow) ((ht.closed _ _ ih hflow).resolve_right id)

end Step

end Harbour.Compiler.DeadCode
