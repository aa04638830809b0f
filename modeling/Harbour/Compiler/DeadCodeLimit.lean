import Harbour.Compiler.DeadCodeMark

/-!
A `switch` with as many arms as its counter can tell, the last of them the default: the loop over
the arms does not stop at its end.
-/

namespace Harbour.Compiler.DeadCode

open Library.Bytes Library.Chunks PCodeSize Jumps List PCode

section Wrap

variable {named : Bool} {pFunc : Func} {instrs : List Bytes} {info : TraceInfo} {a : Nat}

theorem switchArms_cases (hbody : Body named pFunc instrs) {arms before cases after : List Arm}
    (harms : arms = before ++ cases ++ after) (hmem : (a, switchBytes arms) ∈ starts 0 instrs)
    (hmet : Met instrs a) (hcases : ∀ arm ∈ cases, ¬ arm.isDefault) (hcount : arms.length < 2 ^ 16)
    (ht : Traced instrs info (some a) fun b => b = a) (rounds : Nat) :
    ∃ info', switchArms pFunc arms.length (rounds + cases.length) before.length info
        (a + 3 + (armBytes before).length) =
      switchArms pFunc arms.length rounds (before.length + cases.length) info'
        (a + 3 + (armBytes (before ++ cases)).length) ∧
      Traced instrs info' (some a) fun b => b = a := by
  induction cases generalizing before info with
  | nil =>
    refine ⟨info, ?_, ht⟩
    rw [append_nil]
    rfl
  | cons arm cases ih =>
    have hlength := congrArg length harms
    rw [length_append, length_append, length_cons] at hlength
    have hsplit : arms = before ++ arm :: (cases ++ after) := by
      rw [harms, append_assoc, cons_append]
    obtain ⟨info₁, hstep, ht₁, -, -⟩ := switchArms_step hbody (hsplit ▸ hmem) hmet ht
      (by omega : before.length < arms.length) (rounds + cases.length)
    have harms' : arms = (before ++ [arm]) ++ cases ++ after := by
      rw [harms]
      simp only [append_assoc, cons_append, nil_append]
    obtain ⟨info', hrun, ht'⟩ :=
      ih harms' (fun arm' hin => hcases arm' (mem_cons_of_mem _ hin)) ht₁
    have hnot : code arm.value ≠ .pushNil := hcases arm mem_cons_self
    refine ⟨info', ?_, ht'⟩
    rw [length_cons, ← Nat.add_assoc, hstep, if_neg hnot,
      Nat.mod_eq_of_lt (by omega : before.length + 1 < 2 ^ 16)]
    rw [length_append, length_singleton, append_assoc, singleton_append] at hrun
    rw [hrun, Nat.add_assoc before.length, Nat.add_comm 1]

end Wrap

def caseArm (k : Nat) (nOffset : Int) : Arm where
  value := 97 :: leBytes 4 k
  jump := 27 :: leBytes 3 (unsigned 64 nOffset)
  isValue := (by decide : pushLong ∈ caseValues)
  valueComplete := ⟨Nat.succ_pos _, fun _ => rfl⟩
  always := rfl
  jumpComplete := ⟨Nat.succ_pos _, fun _ => rfl⟩

def defaultArm (nOffset : Int) : Arm where
  value := [100]
  jump := 27 :: leBytes 3 (unsigned 64 nOffset)
  isValue := (by decide : pushNil ∈ caseValues)
  valueComplete := ⟨Nat.succ_pos _, fun _ => rfl⟩
  always := rfl
  jumpComplete := ⟨Nat.succ_pos _, fun _ => rfl⟩

def limitCases : List Arm :=
  (range 65534).map fun k => caseArm k (589814 - (3 + 9 * k + 5))

def limitArms : List Arm := limitCases ++ [defaultArm 4]

def limitInstrs : List Bytes := [switchBytes limitArms, [endCode true]]

def limitFunc : Func := ⟨limitInstrs.flatten, [], [], false⟩

theorem armBytes_length {n : Nat} {arms : List Arm} (h : ∀ arm ∈ arms, arm.bytes.length = n) :
    (armBytes arms).length = n * arms.length := by
  induction arms with
  | nil => rfl
  | cons arm arms ih =>
    have hfirst := h arm mem_cons_self
    have hrest := ih fun arm' hin => h arm' (mem_cons_of_mem _ hin)
    change (arm.bytes ++ armBytes arms).length = _
    rw [length_append, hfirst, hrest, length_cons, Nat.mul_succ, Nat.add_comm]

theorem limitCases_case {arm : Arm} (hin : arm ∈ limitCases) :
    arm.bytes.length = 9 ∧ ¬ arm.isDefault := by
  obtain ⟨k, -, rfl⟩ := mem_map.mp hin
  exact ⟨rfl, fun hdef => by cases hdef⟩

theorem limitCases_length : limitCases.length = 65534 := by
  unfold limitCases
  rw [length_map, length_range]

theorem limitArms_length : limitArms.length = 65535 := by
  unfold limitArms
  rw [length_append, limitCases_length, length_singleton]

theorem limitArms_bytes : (armBytes limitArms).length = 589811 := by
  have hcases := armBytes_length fun arm hin => (limitCases_case hin).1
  unfold limitArms
  rw [armBytes_append, length_append, hcases, limitCases_length]
  rfl

theorem limitSwitch_length : (switchBytes limitArms).length = 589814 := by
  rw [switchBytes_length, limitArms_bytes]

theorem mem_limit {a : Nat} {i : Bytes} (hmem : (a, i) ∈ starts 0 limitInstrs) :
    a = 0 ∧ i = switchBytes limitArms ∨ a = 589814 ∧ i = [endCode true] := by
  have hstarts : starts 0 limitInstrs = [(0, switchBytes limitArms), (589814, [endCode true])] := by
    unfold limitInstrs
    rw [starts, starts, starts, Nat.zero_add, limitSwitch_length]
  rw [hstarts] at hmem
  rcases mem_cons.mp hmem with heq | hmem
  · exact .inl ⟨congrArg Prod.fst heq, congrArg Prod.snd heq⟩
  · have heq := mem_singleton.mp hmem
    exact .inr ⟨congrArg Prod.fst heq, congrArg Prod.snd heq⟩

theorem limit_end : (589814, [endCode true]) ∈ starts 0 limitInstrs := by
  unfold limitInstrs
  rw [starts, starts, Nat.zero_add, limitSwitch_length]
  exact mem_cons_of_mem _ mem_cons_self

theorem jumpOffset_far {nOffset : Int} (hlow : -2 ^ 23 ≤ nOffset) (hhigh : nOffset < 2 ^ 23) :
    jumpOffset (27 :: leBytes 3 (unsigned 64 nOffset)) = some nOffset := by
  have hmk := @JumpAdjust.mkSigned_leBytes 3 nOffset (by decide) (by decide) hlow hhigh
  change some (mkSigned 3 (leBytes 3 (unsigned 64 nOffset))) = _
  rw [hmk]

theorem limit_lands {before after : List Arm} {arm : Arm} {nOffset : Int}
    (harms : limitArms = before ++ arm :: after) (hoffset : jumpOffset arm.jump = some nOffset) :
    (589814 : Int) = armPos before arm + nOffset := by
  have hcases : ∀ arm ∈ before, arm.bytes.length = 9 := by
    intro arm' hin
    refine (limitCases_case ?_).1
    have hdrop := congrArg dropLast harms
    unfold limitArms at hdrop
    rw [dropLast_concat, dropLast_append_of_ne_nil (cons_ne_nil _ _)] at hdrop
    rw [hdrop]
    exact mem_append_left _ hin
  have hget : limitArms[before.length]? = some arm := by
    rw [harms, getElem?_append_right (Nat.le_refl _), Nat.sub_self]
    rfl
  have hlength := congrArg length harms
  rw [limitArms_length, length_append, length_cons] at hlength
  unfold armPos
  rw [armBytes_length hcases]
  unfold limitArms at hget
  by_cases hcase : before.length < 65534
  · rw [getElem?_append_left (by rw [limitCases_length]; exact hcase)] at hget
    unfold limitCases at hget
    rw [getElem?_map, getElem?_range hcase] at hget
    obtain rfl := Option.some.inj hget
    have hfar := @jumpOffset_far (589814 - (3 + 9 * before.length + 5)) (by omega) (by omega)
    have heq := Option.some.inj (hoffset.symm.trans hfar)
    rw [heq]
    change (589814 : Int) = ((3 + 9 * before.length + 5 : Nat) : Int) + _
    push_cast
    ring
  · have hlast : before.length = 65534 := by omega
    rw [getElem?_append_right (by rw [limitCases_length]; omega), limitCases_length, hlast] at hget
    obtain rfl := Option.some.inj hget
    have hfar := @jumpOffset_far 4 (by decide) (by decide)
    have heq := Option.some.inj (hoffset.symm.trans hfar)
    rw [heq, hlast]
    rfl

theorem limit_body : Body true limitFunc limitInstrs where
  code := rfl
  shape i hi := by
    rcases mem_cons.mp hi with rfl | hi
    · refine .switch limitArms rfl (by rw [limitArms_length]; decide) fun arm hin => ?_
      unfold limitArms at hin
      rw [dropLast_concat] at hin
      exact (limitCases_case hin).2
    · obtain rfl := mem_singleton.mp hi
      exact .plain ⟨Nat.one_pos, fun _ => rfl⟩ (by decide)
  fits := by
    have hlength : limitFunc.pCode.length = 589815 := by
      change (switchBytes limitArms ++ ([endCode true] ++ [])).length = _
      rw [length_append, limitSwitch_length]
      rfl
    rw [hlength]
    decide
  lands a i nOffset hmem hoffset := by
    rcases mem_limit hmem with ⟨-, rfl⟩ | ⟨-, rfl⟩
    · exact absurd hoffset.symm (Option.some_ne_none _)
    · exact absurd hoffset.symm (Option.some_ne_none _)
  armsLand a before arm after nOffset hmem hoffset := by
    rcases mem_limit hmem with ⟨rfl, heq⟩ | ⟨-, heq⟩
    · have hland := limit_lands (switchBytes_inj heq).symm hoffset
      exact ⟨589814, _, limit_end, by omega⟩
    · have hlength := congrArg length heq
      rw [switchBytes_length, length_singleton] at hlength
      omega
  recover a i nOffset hmem hcode := by
    rcases mem_limit hmem with ⟨-, rfl⟩ | ⟨-, rfl⟩
    · exact absurd hcode (by decide)
    · exact absurd hcode (by decide)
  last := ⟨[switchBytes limitArms], rfl⟩
  noops n hn := absurd hn not_mem_nil
  once := nodup_nil

theorem limit_drop : limitFunc.pCode.drop 589814 = [endCode true] := by
  rw [← limitSwitch_length]
  change (switchBytes limitArms ++ ([endCode true] ++ [])).drop (switchBytes limitArms).length = _
  rw [drop_left, append_nil]

theorem limit_length : limitFunc.pCode.length = 589815 := by
  change (switchBytes limitArms ++ ([endCode true] ++ [])).length = _
  rw [length_append, limitSwitch_length]
  rfl

theorem limit_start : (0, switchBytes (limitCases ++ defaultArm 4 :: [])) ∈ starts 0 limitInstrs :=
  mem_cons_self

theorem limit_switchArms :
    switchArms limitFunc 65535 (524280 + 1 + 1 + 65534) 0 traceStart 3 = .error .outside := by
  have ht : Traced limitInstrs traceStart (some 0) fun b => b = 0 := by
    rcases traceStart_goes limit_body with ⟨-, -, -, ht⟩ | ⟨hpos, -, -, -⟩
    · exact ht
    · rw [limit_length] at hpos
      exact absurd hpos (by decide)
  have hcases : ∀ arm ∈ limitCases, ¬ arm.isDefault := fun arm hin => (limitCases_case hin).2
  have hcount : limitArms.length < 2 ^ 16 := by
    rw [limitArms_length]
    decide
  have harms : limitArms = [] ++ limitCases ++ [defaultArm 4] := by
    rw [nil_append, limitArms]
  obtain ⟨info, hrun, ht'⟩ :=
    switchArms_cases limit_body harms limit_start .refl hcases hcount ht (524280 + 1 + 1)
  obtain ⟨info', hdefault, -, -, -⟩ := switchArms_step limit_body limit_start .refl ht'
    (by decide : 65534 < 65535) (524280 + 1)
  have hcode : code (defaultArm 4).value = .pushNil := rfl
  have hwrap : (65535 + 1) % 2 ^ 16 = 0 := rfl
  have hpos : 3 + (armBytes (limitCases ++ [defaultArm 4])).length = 589814 := by
    rw [← limitArms, limitArms_bytes]
  rw [Nat.zero_add, if_pos hcode, hpos, hwrap] at hdefault
  rw [limitArms_length, limitCases_length, length_nil, armBytes_nil, length_nil,
    nil_append, Nat.add_zero, Nat.zero_add, Nat.zero_add, hdefault] at hrun
  have hvalue : switchValue [endCode true] = 0 := rfl
  have hjump : switchJump [endCode true] = 3 := rfl
  have hout : ¬ 589814 + (1 + 3) ≤ limitFunc.pCode.length := by
    rw [limit_length]
    decide
  rw [hrun, switchArms, if_pos (by decide : 0 < 65535)]
  dsimp only
  rw [limit_drop, hvalue, Nat.add_zero, limit_drop, hjump, if_neg hout]

theorem limit_trace (rounds : Nat) (info : TraceInfo) :
    compPCodeTrace limitFunc rounds traceStart 0 ≠ .ok info := by
  cases rounds with
  | zero => exact fun h => nomatch h
  | succ rounds =>
    have hpos : 0 < limitFunc.pCode.length := by
      rw [limit_length]
      decide
    have hlast : (limitFunc.pCode.drop 0).headD 0 < lastPCode :=
      (by decide : switch.byte < lastPCode)
    have hfunc : codeTraceFunc limitFunc traceStart 0 = .error .outside := by
      change p_switch limitFunc traceStart 0 = _
      have hcount := switchBytes_count limitArms (by rw [limitArms_length]; decide)
      unfold p_switch
      change (switchArms limitFunc (mkUnsigned 2 ((switchBytes limitArms ++ _).drop 1))
        (limitFunc.pCode.length + 1) 0 traceStart 3).bind _ = _
      have hrounds : 589815 + 1 = 524280 + 1 + 1 + 65534 := rfl
      rw [hcount, limitArms_length, limit_length, hrounds, limit_switchArms]
      rfl
    rw [compPCodeTrace, if_pos hpos, if_pos hlast, hfunc]
    exact fun h => nomatch h

/-- A body whose dead code cannot be marked. -/
theorem compCodeTraceMarkDead_limit : Body true limitFunc limitInstrs ∧
    ¬ ∃ rounds out, compCodeTraceMarkDead rounds true true limitFunc = .ok out ∧
      Stripped true limitInstrs limitFunc out := by
  refine ⟨limit_body, ?_⟩
  rintro ⟨rounds, out, h, -⟩
  have hnot : ¬ (true = false ∨ limitFunc.pCode.length < 2) := by
    rw [limit_length]
    decide
  unfold compCodeTraceMarkDead at h
  rw [if_neg hnot] at h
  change (compPCodeTrace limitFunc rounds traceStart 0).bind _ = _ at h
  cases htrace : compPCodeTrace limitFunc rounds traceStart 0 with
  | error e =>
    rw [htrace] at h
    exact nomatch h
  | ok info => exact limit_trace rounds info htrace

end Harbour.Compiler.DeadCode
