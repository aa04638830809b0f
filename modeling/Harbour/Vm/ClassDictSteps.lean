import Harbour.Vm.ClassDictRealloc

/-!
Adding, overwriting and freeing one message.
-/

namespace Harbour.Vm.ClassDict

open Library.Slots List

variable {β : Type} [Inhabited β]

variable {k p : Nat}

namespace Dict

theorem getD_set {pMethods : List (Method β)} (hk : k < pMethods.length) (x : Method β) (j : Nat) :
    (pMethods.set k x).getD j Method.cleared =
      if j = k then x else pMethods.getD j Method.cleared := by
  simp only [getD, getElem?_set]
  split_ifs with heq hne hne
  · rfl
  · omega
  · omega
  · rfl

theorem getD_concat (pMethods : List (Method β)) (x : Method β) (j : Nat) :
    (pMethods ++ [x]).getD j Method.cleared =
      if j = pMethods.length then x else pMethods.getD j Method.cleared := by
  rcases Nat.lt_trichotomy j pMethods.length with hlt | heq | hgt
  · rw [if_neg (Nat.ne_of_lt hlt)]
    simp [getD, getElem?_append_left hlt]
  · rw [if_pos heq, heq]
    simp [getD]
  · rw [if_neg (Nat.ne_of_gt hgt)]
    simp [getD, getElem?_eq_none (show (pMethods ++ [x]).length ≤ j by simp; omega),
      getElem?_eq_none (Nat.le_of_lt hgt)]

section Steps

variable {d : Dict β} (h : d.Sound) {m : Nat} (hm : IsMsg m)

include h

omit h in
theorem content_msg (hp : d.idx p ≠ 0) (hmsg : d.msg p = m) : ∃ x, d.Content m x :=
  ⟨(d.method (d.idx p)).body, p, hp, by rw [← hmsg]; rfl⟩

theorem Sound.content_isMsg {x : β} (hx : d.Content m x) : IsMsg m := by
  obtain ⟨p, hp, hmethod⟩ := hx
  have hmsg : d.msg p = m := by unfold msg; rw [hmethod]
  rw [← hmsg]
  exact h.isMsg p hp

include hm

theorem allocMsg_live (hclear : d.Clear m) (hused : d.idx p ≠ 0) (hmsg : d.msg p = m) :
    d.allocMsg m = some (d.idx p, d) := by
  have hbucket := h.bucket p hused
  rw [hmsg] at hbucket
  have hscan : scan (fun p => d.idx p == 0 || d.msg p == m) (bucketPos m d.uiHashKey) bucketSize =
      some p := by
    refine scan_eq_some_iff.mpr ⟨hbucket.1, hbucket.2, ?_, fun q hle hlt => ?_⟩
    · rw [beq_iff_eq.mpr hmsg, Bool.or_true]
    · rw [Bool.or_eq_false_iff, beq_eq_false_iff_ne, beq_eq_false_iff_ne]
      refine ⟨fun hfree => hclear q p hle hlt hbucket.2 hfree hused hmsg, fun hsame => ?_⟩
      have hslot := h.single q p (h.used_of_msg hm hsame) hused (by rw [hsame, hmsg])
      omega
  rw [allocMsg, hscan]
  simp only [if_neg hused]

theorem Sound.full_lt (hnew : ∀ x, ¬ d.Content m x) (hk : k ≤ 14) (hkey : d.uiHashKey + 1 = 2 ^ k)
    (hfull : scan (fun p => d.idx p == 0 || d.msg p == m) (bucketPos m d.uiHashKey) bucketSize =
      none) : k < 14 := by
  refine Nat.lt_of_le_of_ne hk ?_
  rintro rfl
  have hused : ∀ i : Fin 4, d.idx (bucketPos m d.uiHashKey + i) ≠ 0 := by
    intro i hfree
    have hfail := scan_eq_none_iff.mp hfull (bucketPos m d.uiHashKey + i) (Nat.le_add_right _ _)
      (Nat.add_lt_add_left i.isLt _)
    rw [hfree] at hfail
    exact absurd hfail (by simp)
  obtain ⟨i, hsame⟩ :=
    fifth_in_bucket hkey hm (fun i : Fin 4 => d.msg (bucketPos m d.uiHashKey + i))
    (fun i => h.isMsg _ (hused i))
    (fun i j hne hsame => hne (Fin.ext (by
      have hslot := h.single _ _ (hused i) (hused j) hsame
      omega)))
    (fun i => bucketPos_unique (h.bucket _ (hused i)) ⟨by omega, by omega⟩)
  obtain ⟨x, hx⟩ := content_msg (hused i) hsame
  exact hnew x hx

theorem allocMsg_new (hnew : ∀ x, ¬ d.Content m x) :
    ∃ (d' : Dict β) (p : Nat), d'.Sound ∧ (∀ m x, d'.Content m x ↔ d.Content m x) ∧
      d'.uiMethodCount = d.uiMethodCount ∧ d'.uiMethods = d.uiMethods ∧ d'.idx p = 0 ∧
      bucketPos m d'.uiHashKey ≤ p ∧ p < bucketPos m d'.uiHashKey + 4 ∧
      d.allocMsg m = some (d'.uiMethodCount,
        { d' with
          pMethods := d'.pMethods.take d'.uiMethodCount ++ [Method.cleared]
          puiMsgIdx := d'.puiMsgIdx.set p d'.uiMethodCount
          uiMethodCount := (d'.uiMethodCount + 1) % 2 ^ 16 }) := by
  obtain ⟨k, hk, hkey⟩ := h.mask
  induction hn : 14 - k using Nat.strong_induction_on generalizing d k with
  | _ n ih =>
    cases hscan : scan (fun p => d.idx p == 0 || d.msg p == m) (bucketPos m d.uiHashKey)
        bucketSize with
    | some p =>
      obtain ⟨hle, hlt, htest, -⟩ := scan_eq_some_iff.mp hscan
      have hfree : d.idx p = 0 := by
        by_contra hused
        rw [Bool.or_eq_true, beq_iff_eq, beq_iff_eq] at htest
        obtain ⟨x, hx⟩ := content_msg hused (htest.resolve_left hused)
        exact hnew x hx
      refine ⟨d, p, h, fun _ _ => Iff.rfl, rfl, rfl, hfree, hle, hlt, ?_⟩
      rw [allocMsg, hscan]
      simp only [if_pos hfree]
    | none =>
      have hlt := h.full_lt hm hnew hk hkey hscan
      obtain ⟨wide, hwide, hsound, hcontent, hcount, hmethods⟩ := dictRealloc_spec h hlt hkey
      obtain ⟨k', hk', hkey'⟩ := hsound.mask
      have hgrow := (dictReallocFrom_lt hwide).1
      have hkk' : k < k' := by
        refine (Nat.pow_lt_pow_iff_right (show 1 < 2 by decide)).mp ?_
        omega
      obtain ⟨d', p, hsound', hcontent', hcount', hmethods', hfree, hle, hlt', halloc⟩ :=
        ih (14 - k') (by omega) hsound (fun x hx => hnew x ((hcontent m x).mp hx)) k' hk' hkey' rfl
      refine ⟨d', p, hsound', fun m x => (hcontent' m x).trans (hcontent m x),
        hcount'.trans hcount, hmethods'.trans hmethods, hfree, hle, hlt', ?_⟩
      rw [allocMsg, hscan]
      dsimp only
      split
      · rename_i next hnext
        rw [hwide] at hnext
        obtain rfl := Option.some.inj hnext
        exact halloc
      · rename_i hnone
        rw [hwide] at hnone
        exact absurd hnone (Option.some_ne_none _)

omit hm in
theorem Sound.fill_new (hm : IsMsg m) (hnew : ∀ x, ¬ d.Content m x) (hfree : d.idx p = 0)
    (hle : bucketPos m d.uiHashKey ≤ p) (hlt : p < bucketPos m d.uiHashKey + 4)
    (hroom : d.uiMethodCount < 65535) (x : β) (n : Nat) :
    Sound { d with
      pMethods := d.pMethods ++ [⟨m, x⟩]
      puiMsgIdx := d.puiMsgIdx.set p d.uiMethodCount
      uiMethodCount := (d.uiMethodCount + 1) % 2 ^ 16
      uiMethods := n } ∧
    ∀ m' y, Content { d with
      pMethods := d.pMethods ++ [⟨m, x⟩]
      puiMsgIdx := d.puiMsgIdx.set p d.uiMethodCount
      uiMethodCount := (d.uiMethodCount + 1) % 2 ^ 16
      uiMethods := n } m' y ↔ if m' = m then y = x else d.Content m' y := by
  generalize hd' : ({ d with
      pMethods := d.pMethods ++ [⟨m, x⟩]
      puiMsgIdx := d.puiMsgIdx.set p d.uiMethodCount
      uiMethodCount := (d.uiMethodCount + 1) % 2 ^ 16
      uiMethods := n } : Dict β) = d'
  have hbound := bucketPos_le m d.uiHashKey
  have hsize := h.size
  have hcount := h.count
  have hpos : d.uiMethodCount ≠ 0 := by
    have := h.index_lt 0
    omega
  have hidx : ∀ q, d'.idx q = if q = p then d.uiMethodCount else d.idx q := by
    intro q
    rw [← hd']
    exact idx_set (by omega)
  have hmethod : ∀ k, d'.method k = if k = d.uiMethodCount then ⟨m, x⟩ else d.method k := by
    intro k
    rw [← hd', hcount]
    exact getD_concat d.pMethods ⟨m, x⟩ k
  have hother : ∀ q, d'.method (d.idx q) = d.method (d.idx q) := by
    intro q
    rw [hmethod, if_neg]
    have := h.index_lt q
    omega
  have hmsg : ∀ q, d'.msg q = if q = p then m else d.msg q := by
    intro q
    unfold msg
    rw [hidx]
    split_ifs
    · rw [hmethod, if_pos rfl]
    · rw [hother]
  have hnot : ∀ q, d.idx q ≠ 0 → d.msg q ≠ m := by
    intro q hq hsame
    obtain ⟨y, hy⟩ := content_msg hq hsame
    exact hnew y hy
  have hlength : d'.pMethods.length = d.uiMethodCount + 1 := by
    rw [← hd']
    simp [hcount]
  refine ⟨⟨?_, ?_, ?_, ?_, fun q => ?_, fun q hq => ?_, fun q hq => ?_, fun q q' hq hq' heq => ?_⟩,
    fun m' y => ?_⟩
  · rw [← hd']
    exact h.mask
  · rw [← hd']
    simpa using h.size
  · rw [hlength, ← hd']
    exact Nat.mod_eq_of_lt (by omega)
  · rw [hmethod, if_neg hpos.symm]
    exact h.zero
  · have := h.index_lt q
    rw [hidx, hlength]
    split_ifs <;> omega
  · rw [hmsg]
    rw [hidx] at hq
    split_ifs at hq ⊢ with hqp
    · exact hm
    · exact h.isMsg q hq
  · rw [hmsg]
    rw [hidx] at hq
    have hkey : d'.uiHashKey = d.uiHashKey := by rw [← hd']
    rw [hkey]
    split_ifs at hq ⊢ with hqp
    · rw [hqp]
      exact ⟨hle, hlt⟩
    · exact h.bucket q hq
  · rw [hmsg, hmsg] at heq
    rw [hidx] at hq hq'
    split_ifs at hq hq' heq with hqp hqp' hqp'
    · rw [hqp, hqp']
    · exact absurd heq.symm (hnot q' hq')
    · exact absurd heq (hnot q hq)
    · exact h.single q q' hq hq' heq
  · constructor
    · rintro ⟨q, hq, hx⟩
      rw [hidx] at hq hx
      split_ifs at hq hx with hqp
      · rw [hmethod, if_pos rfl] at hx
        obtain ⟨rfl, rfl⟩ := Method.mk.inj hx
        rw [if_pos rfl]
      · rw [hother] at hx
        have hsame : d.msg q = m' := by unfold msg; rw [hx]
        rw [if_neg (fun heq => hnot q hq (hsame.trans heq))]
        exact ⟨q, hq, hx⟩
    · intro hy
      split_ifs at hy with heq
      · refine ⟨p, ?_, ?_⟩
        · rw [hidx, if_pos rfl]
          exact hpos
        · rw [hidx, if_pos rfl, hmethod, if_pos rfl, heq, hy]
      · obtain ⟨q, hq, hx⟩ := hy
        have hqp : q ≠ p := fun hqp => hq (hqp ▸ hfree)
        exact ⟨q, by rw [hidx, if_neg hqp]; exact hq, by rw [hidx, if_neg hqp, hother]; exact hx⟩

omit hm in
theorem Sound.overwrite (hused : d.idx p ≠ 0) (hmsg : d.msg p = m) (x : β) (n : Nat) :
    Sound { d with pMethods := d.pMethods.set (d.idx p) ⟨m, x⟩, uiMethods := n } ∧
    ∀ m' y, Content { d with pMethods := d.pMethods.set (d.idx p) ⟨m, x⟩, uiMethods := n } m' y ↔
      if m' = m then y = x else d.Content m' y := by
  generalize hd' : ({ d with
    pMethods := d.pMethods.set (d.idx p) ⟨m, x⟩, uiMethods := n } : Dict β) = d'
  have hidx : ∀ q, d'.idx q = d.idx q := by
    intro q
    rw [← hd']
    rfl
  have hmethod : ∀ k, d'.method k = if k = d.idx p then ⟨m, x⟩ else d.method k := by
    intro k
    rw [← hd']
    exact getD_set (h.index_lt p) ⟨m, x⟩ k
  have hmsg' : ∀ q, d'.msg q = d.msg q := by
    intro q
    unfold msg
    rw [hidx, hmethod]
    split_ifs with heq
    · rw [heq]
      exact hmsg.symm
    · rfl
  have hkey : d'.uiHashKey = d.uiHashKey := by rw [← hd']
  refine ⟨⟨?_, ?_, ?_, ?_, fun q => ?_, fun q hq => ?_, fun q hq => ?_, fun q q' hq hq' heq => ?_⟩,
    fun m' y => ?_⟩
  · rw [hkey]
    exact h.mask
  · rw [← hd']
    exact h.size
  · rw [← hd']
    simpa using h.count
  · rw [hmethod, if_neg (Ne.symm hused)]
    exact h.zero
  · rw [hidx, ← hd']
    simpa using h.index_lt q
  · rw [hmsg']
    exact h.isMsg q (by rw [← hidx]; exact hq)
  · rw [hmsg', hkey]
    exact h.bucket q (by rw [← hidx]; exact hq)
  · rw [hmsg', hmsg'] at heq
    rw [hidx] at hq hq'
    exact h.single q q' hq hq' heq
  · constructor
    · rintro ⟨q, hq, hx⟩
      rw [hidx] at hq hx
      have hsame : d.msg q = m' := by
        rw [← hmsg' q]
        unfold msg
        rw [hidx, hx]
      rw [hmethod] at hx
      by_cases heq : m' = m
      · rw [if_pos heq]
        rw [if_pos (by rw [h.single q p hq hused (by rw [hsame, heq, hmsg])])] at hx
        exact (congrArg Method.body hx).symm
      · rw [if_neg heq]
        rw [if_neg] at hx
        · exact ⟨q, hq, hx⟩
        · intro hslot
          refine heq ?_
          rw [← hsame, ← hmsg]
          unfold msg
          rw [hslot]
    · intro hy
      split_ifs at hy with heq
      · exact ⟨p, by rw [hidx]; exact hused, by rw [hidx, hmethod, if_pos rfl, heq, hy]⟩
      · obtain ⟨q, hq, hx⟩ := hy
        refine ⟨q, by rw [hidx]; exact hq, ?_⟩
        rw [hidx, hmethod, if_neg, hx]
        intro hslot
        refine heq ?_
        rw [← hmsg]
        unfold msg
        rw [← hslot, hx]

omit hm in
theorem Sound.clear (hused : d.idx p ≠ 0) (hmsg : d.msg p = m) (n : Nat) :
    Sound { d with
      pMethods := d.pMethods.set (d.idx p) Method.cleared
      puiMsgIdx := d.puiMsgIdx.set p 0
      uiMethods := n } ∧
    ∀ m' y, Content { d with
      pMethods := d.pMethods.set (d.idx p) Method.cleared
      puiMsgIdx := d.puiMsgIdx.set p 0
      uiMethods := n } m' y ↔ m' ≠ m ∧ d.Content m' y := by
  generalize hd' : ({ d with
      pMethods := d.pMethods.set (d.idx p) Method.cleared
      puiMsgIdx := d.puiMsgIdx.set p 0
      uiMethods := n } : Dict β) = d'
  have hin : p < d.puiMsgIdx.length := by
    by_contra hge
    exact hused (idx_of_le (Nat.not_lt.mp hge))
  have hidx : ∀ q, d'.idx q = if q = p then 0 else d.idx q := by
    intro q
    rw [← hd']
    exact idx_set hin
  have hmethod : ∀ k, d'.method k = if k = d.idx p then Method.cleared else d.method k := by
    intro k
    rw [← hd']
    exact getD_set (h.index_lt p) Method.cleared k
  -- another slot in use leads to another method
  have hapart : ∀ q, q ≠ p → d.idx q ≠ 0 → d.idx q ≠ d.idx p := by
    intro q hne hq heq
    exact hne (h.single q p hq hused (by unfold msg; rw [heq]))
  have hother : ∀ q, q ≠ p → d.idx q ≠ 0 → d'.msg q = d.msg q := by
    intro q hne hq
    unfold msg
    rw [hidx, if_neg hne, hmethod, if_neg (hapart q hne hq)]
  have hslot : ∀ q, d'.idx q ≠ 0 → q ≠ p ∧ d.idx q ≠ 0 := by
    intro q hq
    rw [hidx] at hq
    split_ifs at hq with hqp
    · exact absurd rfl hq
    · exact ⟨hqp, hq⟩
  have hkey : d'.uiHashKey = d.uiHashKey := by rw [← hd']
  refine ⟨⟨?_, ?_, ?_, ?_, fun q => ?_, fun q hq => ?_, fun q hq => ?_, fun q q' hq hq' heq => ?_⟩,
    fun m' y => ?_⟩
  · rw [hkey]
    exact h.mask
  · rw [← hd']
    simpa using h.size
  · rw [← hd']
    simpa using h.count
  · rw [hmethod, if_neg (Ne.symm hused)]
    exact h.zero
  · have hlength : d'.pMethods.length = d.pMethods.length := by rw [← hd']; simp
    have := h.index_lt q
    rw [hidx, hlength]
    split_ifs <;> omega
  · obtain ⟨hne, hq⟩ := hslot q hq
    rw [hother q hne hq]
    exact h.isMsg q hq
  · obtain ⟨hne, hq⟩ := hslot q hq
    rw [hother q hne hq, hkey]
    exact h.bucket q hq
  · obtain ⟨hne, hq⟩ := hslot q hq
    obtain ⟨hne', hq'⟩ := hslot q' hq'
    rw [hother q hne hq, hother q' hne' hq'] at heq
    exact h.single q q' hq hq' heq
  · constructor
    · rintro ⟨q, hq, hx⟩
      obtain ⟨hne, hq⟩ := hslot q hq
      rw [hidx, if_neg hne, hmethod, if_neg (hapart q hne hq)] at hx
      refine ⟨fun heq => hne (h.single q p hq hused ?_), q, hq, hx⟩
      rw [hmsg, ← heq]
      unfold msg
      rw [hx]
    · rintro ⟨hne, q, hq, hx⟩
      have hqp : q ≠ p := by
        rintro rfl
        refine hne ?_
        rw [← hmsg]
        unfold msg
        rw [hx]
      exact ⟨q, by rw [hidx, if_neg hqp]; exact hq,
        by rw [hidx, if_neg hqp, hmethod, if_neg (hapart q hqp hq)]; exact hx⟩

end Steps

end Dict

end Harbour.Vm.ClassDict
