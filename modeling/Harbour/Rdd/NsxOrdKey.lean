import Harbour.Rdd.NsxTreePaths

/-!
The logical positions of the keys in an NSX tag.
-/

namespace Harbour.Rdd.NsxOrdKey

open NsxTree NsxTreePaths Option

variable {Key : Type}

section Counts

theorem hb_nsxPageCountKeys_eq (page : Page Key) : hb_nsxPageCountKeys page = page.keys.length := by
  induction page with
  | leaf keys => rfl
  | branch uiKeys key child ih =>
    have hall : ∀ (c : Nat → Nat) (n : Nat), c 0 + ((List.range n).map fun u => c (u + 1)).sum =
        ((List.range n).map c).sum + c n := by
      intro c n
      induction n with
      | zero => exact Nat.add_comm _ _
      | succ n ih =>
        simp only [List.range_succ, List.map_append, List.map_singleton, List.sum_append,
          List.sum_singleton]
        omega
    have hfront : ((List.range uiKeys).flatMap fun j => (child j).keys ++ [key j]).length =
        uiKeys + ((List.range uiKeys).map fun j => (child j).keys.length).sum := by
      generalize uiKeys = n
      induction n with
      | zero => rfl
      | succ n ih =>
        simp only [List.range_succ, List.flatMap_append, List.length_append, ih,
          List.flatMap_singleton, List.map_append, List.map_singleton, List.sum_append,
          List.sum_singleton, List.length_singleton]
        omega
    have hsum := hall (fun j => (child j).keys.length) uiKeys
    simp only [hb_nsxPageCountKeys, ih, Page.keys, List.length_append, hfront]
    omega

variable (uiKeys : Nat) (key : Nat → Key) (child : Nat → Page Key)

theorem front_length (i : Nat) : (front key child i).length =
    i + ((List.range i).map fun j => hb_nsxPageCountKeys (child j)).sum := by
  induction i with
  | zero => rfl
  | succ i ih =>
    rw [front_succ, List.length_append, List.length_append, ih, List.range_succ, List.map_append,
      List.sum_append, List.map_singleton, List.sum_singleton, hb_nsxPageCountKeys_eq,
      List.length_singleton]
    omega

theorem back_length (i : Nat) : (back uiKeys key child i).length =
    uiKeys - i + ((List.range (uiKeys - i)).map fun j =>
      hb_nsxPageCountKeys (child (i + 1 + j))).sum := by
  rw [back]
  generalize uiKeys - i = n
  induction n with
  | zero => rfl
  | succ n ih =>
    rw [List.range_succ, List.flatMap_append, List.length_append, ih, List.map_append,
      List.sum_append, List.flatMap_singleton, List.map_singleton, List.sum_singleton,
      List.length_cons, hb_nsxPageCountKeys_eq]
    omega

variable {root page : Page Key} {stack : Stack Key} {pre post : List Key} {key' : Key}

theorem keyNoForward_leads (h : Leads root stack page) :
    keyNoForward stack = (before stack).length := by
  induction h using Leads.descend with
  | nil => rfl
  | cons hlead hi ih =>
    rw [keyNoForward, before, List.length_append, front_length, ih]
    omega

theorem keyNoForward_at (h : At root stack pre key' post) :
    keyNoForward stack = pre.length + 1 := by
  cases h with
  | leaf hlead hkeys =>
    rw [keyNoForward, keyNoForward_leads hlead, List.length_append]
    omega
  | @branch stack uiKeys key child i hlead hi =>
    have hlength := front_length key child (i + 1)
    rw [front_succ, List.length_append, List.length_singleton] at hlength
    rw [keyNoForward, keyNoForward_leads hlead, List.length_append]
    omega

theorem keyNoBack_leads (h : Leads root stack page) :
    keyNoBack false stack = (after stack).length := by
  induction h using Leads.descend with
  | nil => rfl
  | cons hlead hi ih =>
    rw [keyNoBack, after, List.length_append, back_length, ih,
      if_neg (fun h => Bool.false_ne_true h.1)]

theorem keyNoBack_at (h : At root stack pre key' post) :
    keyNoBack true stack = post.length + 1 := by
  cases h with
  | @leaf stack keys pre key post hlead hkeys =>
    rw [keyNoBack, keyNoBack_leads hlead, List.length_append, hkeys, List.length_append,
      List.length_cons]
    omega
  | @branch stack uiKeys key child i hlead hi =>
    have hlength := back_length uiKeys key child i
    rw [back_lt _ _ _ hi, List.length_cons, List.length_append] at hlength
    rw [keyNoBack, keyNoBack_leads hlead, if_pos ⟨rfl, Nat.succ_ne_zero i⟩, Nat.add_sub_cancel,
      List.length_append, List.length_append]
    omega

end Counts

section Goto

/-- The path is at the key that so many keys come before. -/
def AtNo (root : Page Key) (stack : Stack Key) (n : Nat) : Prop :=
  ∃ pre key post, At root stack pre key post ∧ pre.length = n

/-- A path at a key of a leaf, or above a page that is done with: going forward so many keys have
been passed. -/
inductive Passed (root : Page Key) : Stack Key → Nat → Prop
  | leaf {stack keys ikey} (hlead : Leads root stack (.leaf keys)) (hikey : ikey < keys.length) :
      Passed root ((.leaf keys, ikey) :: stack) ((before stack).length + ikey + 1)
  | above {stack page} (hlead : Leads root stack page) :
      Passed root stack ((before stack).length + page.keys.length)

/-- Going back, so many keys are left. -/
inductive Remain (root : Page Key) : Stack Key → Nat → Prop
  | leaf {stack keys ikey} (hlead : Leads root stack (.leaf keys)) (hikey : ikey < keys.length) :
      Remain root ((.leaf keys, ikey) :: stack) ((before stack).length + ikey)
  | above {stack page} (hlead : Leads root stack page) : Remain root stack (before stack).length

variable {root page : Page Key} {stack stack' : Stack Key} {n : Nat}

theorem AtNo.lt (h : AtNo root stack n) : n < root.keys.length := by
  obtain ⟨pre, key, post, hat, rfl⟩ := h
  rw [hat.keys, List.length_append, List.length_cons]
  omega

theorem AtNo.curKey (h : AtNo root stack n) : curKey stack = root.keys[n]? := by
  obtain ⟨pre, key, post, hat, rfl⟩ := h
  rw [hat.curKey, hat.keys, List.getElem?_append_right (Nat.le_refl _), Nat.sub_self]
  rfl

theorem leaf_atNo {keys : List Key} {ikey : Nat} (hlead : Leads root stack (.leaf keys))
    (hikey : ikey < keys.length) :
    AtNo root ((.leaf keys, ikey) :: stack) ((before stack).length + ikey) := by
  have hsplit : keys = keys.take ikey ++ keys[ikey] :: keys.drop (ikey + 1) := by
    rw [← List.drop_eq_getElem_cons hikey, List.take_append_drop]
  have hat := At.leaf hlead hsplit
  have hlength : (keys.take ikey).length = ikey := List.length_take_of_le (Nat.le_of_lt hikey)
  rw [hlength] at hat
  exact ⟨_, _, _, hat, by rw [List.length_append, hlength]⟩

theorem topMove_leaf (h : hb_nsxPageTopMove stack page = some stack') :
    ∃ keys above, stack' = (.leaf keys, 0) :: above := by
  induction page generalizing stack with
  | leaf keys =>
    rw [hb_nsxPageTopMove] at h
    split at h
    · cases h
    · exact ⟨keys, stack, (some.inj h).symm⟩
  | branch uiKeys key child ih => exact ih 0 h

theorem bottomMove_leaf (h : hb_nsxPageBottomMove stack page = some stack') :
    ∃ keys above, stack' = (.leaf keys, keys.length - 1) :: above := by
  induction page generalizing stack with
  | leaf keys =>
    rw [hb_nsxPageBottomMove] at h
    split at h
    · cases h
    · exact ⟨keys, stack, (some.inj h).symm⟩
  | branch uiKeys key child ih => exact ih uiKeys h

theorem leaf_passed {keys : List Key} {ikey : Nat} {above : Stack Key}
    (h : AtNo root ((.leaf keys, ikey) :: above) n) :
    Passed root ((.leaf keys, ikey) :: above) (n + 1) ∧
      Remain root ((.leaf keys, ikey) :: above) n := by
  obtain ⟨pre, key, post, hat, rfl⟩ := h
  cases hat with
  | @leaf _ _ pre _ post hlead hkeys =>
    have hikey : pre.length < keys.length := by rw [hkeys]; simp
    rw [List.length_append]
    exact ⟨Passed.leaf hlead hikey, Remain.leaf hlead hikey⟩

theorem topMove_passed (h : Leads root stack page) (hfull : page.Full) :
    ∃ stack', hb_nsxPageTopMove stack page = some stack' ∧
      AtNo root stack' (before stack).length ∧ Passed root stack' ((before stack).length + 1) := by
  obtain ⟨stack', key, rest, hmove, hkeys, hat⟩ := topMove_at h hfull
  obtain ⟨keys, above, rfl⟩ := topMove_leaf hmove
  have hatNo : AtNo root ((.leaf keys, 0) :: above) (before stack).length := ⟨_, _, _, hat, rfl⟩
  exact ⟨_, hmove, hatNo, (leaf_passed hatNo).1⟩

theorem bottomMove_remain (h : Leads root stack page) (hfull : page.Full) :
    ∃ stack', hb_nsxPageBottomMove stack page = some stack' ∧ page.keys ≠ [] ∧
      AtNo root stack' ((before stack).length + page.keys.length - 1) ∧
      Remain root stack' ((before stack).length + page.keys.length - 1) := by
  obtain ⟨stack', init, key, hmove, hkeys, hat⟩ := bottomMove_at h hfull
  obtain ⟨keys, above, rfl⟩ := bottomMove_leaf hmove
  have hatNo : AtNo root ((.leaf keys, keys.length - 1) :: above)
      ((before stack).length + page.keys.length - 1) :=
    ⟨_, _, _, hat, by simp [hkeys, ← Nat.add_assoc]⟩
  exact ⟨_, hmove, by simp [hkeys], hatNo, (leaf_passed hatNo).2⟩

theorem branch_keys_length {uiKeys : Nat} (key : Nat → Key) (child : Nat → Page Key) {i : Nat}
    (hi : i ≤ uiKeys) : (Page.branch uiKeys key child).keys.length =
      (front key child i).length + (child i).keys.length + (back uiKeys key child i).length := by
  rw [branch_keys _ _ _ hi, List.length_append, List.length_append]

theorem branch_atNo {uiKeys : Nat} {key : Nat → Key} {child : Nat → Page Key} {i : Nat}
    (hlead : Leads root stack (.branch uiKeys key child)) (hi : i < uiKeys) :
    AtNo root ((.branch uiKeys key child, i + 1) :: stack)
      ((before stack).length + (front key child i).length + (child i).keys.length) :=
  ⟨_, _, _, At.branch hlead hi, by rw [List.length_append, List.length_append, Nat.add_assoc]⟩

theorem gotoForward_passed (hroot : root.Valid) (ulKeyNo : Nat) (stack : Stack Key)
    (h : Passed root stack n) (hpos : 0 < ulKeyNo) :
    (n + ulKeyNo ≤ root.keys.length → (gotoForward ulKeyNo stack).1 = 0 ∧
      AtNo root (gotoForward ulKeyNo stack).2 (n + ulKeyNo - 1)) ∧
    (root.keys.length < n + ulKeyNo → (gotoForward ulKeyNo stack).1 ≠ 0) := by
  fun_induction gotoForward ulKeyNo stack generalizing n with
  | case1 => exact absurd hpos (Nat.lt_irrefl 0)
  | case2 ulKeyNo =>
    obtain ⟨⟩ | ⟨hlead⟩ := h
    obtain rfl := hlead
    omega
  | case3 ulKeyNo keys ikey stack iKey hlt =>
    rename_i ih
    obtain ⟨hlead, hikey⟩ | ⟨hlead⟩ := h
    · have hn : (before stack).length + ikey + 1 + (ulKeyNo + 1) =
          (before stack).length + keys.length + (ulKeyNo + 1 - iKey) := by omega
      rw [hn]
      exact ih (Passed.above hlead) (by omega)
    · exact absurd hlead id
  | case4 ulKeyNo keys ikey stack iKey =>
    obtain ⟨hlead, hikey⟩ | ⟨hlead⟩ := h
    · have hat := leaf_atNo hlead (show ikey + (ulKeyNo + 1) < keys.length by omega)
      have hbound := hat.lt
      rw [show (before stack).length + ikey + 1 + (ulKeyNo + 1) - 1 =
        (before stack).length + (ikey + (ulKeyNo + 1)) by omega]
      exact ⟨fun _ => ⟨rfl, hat⟩, by omega⟩
    · exact absurd hlead id
  | case5 ulKeyNo uiKeys key child iKey stack hge ih =>
    obtain ⟨⟩ | @⟨_, page, rfl, hi, hlead⟩ := h
    obtain rfl := Nat.le_antisymm hi hge
    have hlength := branch_keys_length key child (Nat.le_refl iKey)
    rw [back_self, List.length_nil] at hlength
    rw [before, List.length_append, show (before stack).length + (front key child iKey).length +
      (child iKey).keys.length = (before stack).length +
        (Page.branch iKey key child).keys.length by omega]
    exact ih (Passed.above hlead) hpos
  | case6 uiKeys key child iKey stack hlt =>
    obtain ⟨⟩ | @⟨_, page, rfl, hi, hlead⟩ := h
    have hat := branch_atNo hlead (Nat.lt_of_not_le hlt)
    have hbound := hat.lt
    rw [before, List.length_append]
    exact ⟨fun _ => ⟨rfl, hat⟩, by omega⟩
  | case7 ulKeyNo uiKeys key child iKey stack hlt hone hmove =>
    obtain ⟨⟩ | @⟨_, page, rfl, hi, hlead⟩ := h
    obtain ⟨stack', hmove', -⟩ :=
      topMove_passed (hlead.child (Nat.lt_of_not_le hlt))
        (hlead.branch_full hroot (Nat.lt_of_not_le hlt))
    rw [hmove] at hmove'
    cases hmove'
  | case8 ulKeyNo uiKeys key child iKey stack hlt hone stack' hmove ih =>
    obtain ⟨⟩ | @⟨_, page, rfl, hi, hlead⟩ := h
    obtain ⟨top, hmove', hat, hpassed⟩ :=
      topMove_passed (hlead.child (Nat.lt_of_not_le hlt))
        (hlead.branch_full hroot (Nat.lt_of_not_le hlt))
    rw [hmove] at hmove'
    obtain rfl := some.inj hmove'
    rw [before, front_succ, List.length_append, List.length_append, List.length_append,
      List.length_singleton] at hat hpassed
    rw [before, List.length_append]
    rcases Nat.eq_zero_or_pos (ulKeyNo - 1) with hzero | hmore
    · have htwo : ulKeyNo = 1 := by omega
      subst htwo
      have hbound := hat.lt
      rw [gotoForward]
      refine ⟨fun _ => ⟨rfl, ?_⟩, by omega⟩
      rwa [Nat.add_assoc (before stack).length]
    · have hstep := ih hpassed hmore
      rw [show (before stack).length + ((front key child iKey).length + (child iKey).keys.length
        + 1) + 1 + (ulKeyNo - 1) = (before stack).length + (front key child iKey).length +
          (child iKey).keys.length + (ulKeyNo + 1) by omega] at hstep
      exact hstep

theorem gotoBack_first (ulKeyNo : Nat) (keys : List Key) (iKey : Nat) (stack : Stack Key) :
    gotoBack true ulKeyNo ((.leaf keys, iKey) :: stack) =
      gotoBack false ulKeyNo ((.leaf keys, iKey) :: stack) := by
  cases ulKeyNo with
  | zero | succ ulKeyNo => rw [gotoBack, gotoBack]

theorem gotoBack_remain (hroot : root.Valid) (fFirst : Bool) (ulKeyNo : Nat) (stack : Stack Key)
    (hfirst : fFirst = false) (h : Remain root stack n) (hpos : 0 < ulKeyNo) :
    (ulKeyNo ≤ n → (gotoBack fFirst ulKeyNo stack).1 = 0 ∧
      AtNo root (gotoBack fFirst ulKeyNo stack).2 (n - ulKeyNo)) ∧
    (n < ulKeyNo → (gotoBack fFirst ulKeyNo stack).1 ≠ 0) := by
  fun_induction gotoBack fFirst ulKeyNo stack generalizing n with
  | case1 => exact absurd hpos (Nat.lt_irrefl 0)
  | case2 fFirst ulKeyNo =>
    obtain ⟨⟩ | ⟨hlead⟩ := h
    refine ⟨fun hle => ?_, fun _ => Nat.succ_ne_zero _⟩
    simp only [before, List.length_nil] at hle
    omega
  | case3 fFirst ulKeyNo keys iKey stack hlt ih =>
    obtain ⟨hlead, hikey⟩ | ⟨hlead⟩ := h
    · have hstep := ih rfl (Remain.above hlead) (by omega)
      rw [show (before stack).length - (ulKeyNo + 1 - iKey) =
        (before stack).length + iKey - (ulKeyNo + 1) by omega] at hstep
      exact ⟨fun hle => hstep.1 (by omega), fun hlt => hstep.2 (by omega)⟩
    · exact absurd hlead id
  | case4 fFirst ulKeyNo keys iKey stack hlt =>
    obtain ⟨hlead, hikey⟩ | ⟨hlead⟩ := h
    · have hat := leaf_atNo hlead (show iKey - (ulKeyNo + 1) < keys.length by omega)
      rw [show (before stack).length + iKey - (ulKeyNo + 1) =
        (before stack).length + (iKey - (ulKeyNo + 1)) by omega]
      exact ⟨fun _ => ⟨rfl, hat⟩, by omega⟩
    · exact absurd hlead id
  | case5 fFirst ulKeyNo uiKeys key child stack ih =>
    obtain ⟨⟩ | @⟨_, page, rfl, hi, hlead⟩ := h
    have hstep := ih rfl (Remain.above hlead) hpos
    rwa [before, show front key child 0 = [] from rfl, List.append_nil]
  | case6 fFirst ulKeyNo uiKeys key child iKey stack hlt hone =>
    obtain ⟨⟩ | @⟨_, page, rfl, hi, hlead⟩ := h
    obtain ⟨i, rfl⟩ := Nat.exists_eq_succ_of_ne_zero hlt
    have hat := branch_atNo hlead (Nat.lt_of_succ_le hi)
    rw [before, List.length_append, front_succ, List.length_append, List.length_append,
      List.length_singleton, hone.2]
    refine ⟨fun _ => ⟨rfl, ?_⟩, by omega⟩
    rwa [show (before stack).length + ((front key child i).length + (child i).keys.length + 1) -
      (0 + 1) = (before stack).length + (front key child i).length + (child i).keys.length by
        omega]
  | case7 fFirst ulKeyNo uiKeys key child iKey stack hlt hone hmove =>
    obtain ⟨⟩ | @⟨_, page, rfl, hi, hlead⟩ := h
    obtain ⟨stack', hmove', -⟩ :=
      bottomMove_remain (hlead.child (Nat.le_trans (Nat.sub_le _ _) hi))
        (hlead.branch_full hroot (Nat.le_trans (Nat.sub_le _ _) hi))
    rw [hmove] at hmove'
    cases hmove'
  | case8 fFirst ulKeyNo uiKeys key child iKey stack hlt hone stack' hmove ih =>
    obtain ⟨⟩ | @⟨_, page, rfl, hi, hlead⟩ := h
    obtain ⟨i, rfl⟩ := Nat.exists_eq_succ_of_ne_zero hlt
    obtain ⟨bottom, hmove', hkeys, hat, hremain⟩ :=
      bottomMove_remain (hlead.child (Nat.le_of_succ_le hi))
        (hlead.branch_full hroot (Nat.le_of_succ_le hi))
    rw [Nat.succ_sub_one, hmove'] at hmove
    obtain rfl := some.inj hmove
    have hcount := List.length_pos_iff.mpr hkeys
    rw [before, List.length_append] at hat hremain
    simp only [before, List.length_append, front_succ, List.length_singleton, hfirst,
      Bool.false_eq_true, if_false]
    rcases Nat.eq_zero_or_pos (ulKeyNo - 1) with hzero | hmore
    · have htwo : ulKeyNo = 1 := by
        have hmany : ulKeyNo ≠ 0 := fun h => hone ⟨by simp [hfirst], h⟩
        omega
      subst htwo
      rw [gotoBack]
      refine ⟨fun _ => ⟨rfl, ?_⟩, by omega⟩
      rwa [show (before stack).length + ((front key child i).length + (child i).keys.length + 1) -
        Nat.succ 1 = (before stack).length + (front key child i).length +
          (child i).keys.length - 1 by omega]
    · have hstep := ih rfl hremain (by rw [hfirst]; exact hmore)
      simp only [hfirst, Bool.false_eq_true, dite_false] at hstep
      rw [show (before stack).length + (front key child i).length + (child i).keys.length - 1 -
        (ulKeyNo - 1) = (before stack).length + ((front key child i).length +
          (child i).keys.length + 1) - ulKeyNo.succ by omega] at hstep
      exact ⟨fun hle => hstep.1 (by omega), fun hlt => hstep.2 (by omega)⟩

end Goto

section Positions

variable (tag : Tag Key)

def traversal : List Key := if tag.fUsrDescend then tag.root.keys.reverse else tag.root.keys

def AtPosition (state : State Key) (k : Nat) : Prop :=
  0 < k ∧ k ≤ tag.root.keys.length ∧
    AtNo tag.root state.stack (if tag.fUsrDescend then tag.root.keys.length - k else k - 1)

variable {tag} {state : State Key} {k : Nat}

theorem traversal_length : (traversal tag).length = tag.root.keys.length := by
  rw [traversal]
  split
  · exact List.length_reverse
  · rfl

theorem AtPosition.curKey (h : AtPosition tag state k) :
    curKey state.stack = (traversal tag)[k - 1]? := by
  obtain ⟨hpos, hle, hat⟩ := h
  rw [hat.curKey, traversal]
  split
  · rw [List.getElem?_reverse (by omega), show tag.root.keys.length - 1 - (k - 1) =
      tag.root.keys.length - k by omega]
  · rfl

theorem AtPosition.keyNo (h : AtPosition tag state k) : hb_nsxOrdKeyNo tag state = k := by
  obtain ⟨hpos, hle, pre, key, post, hat, hpre⟩ := h
  have hlength := congrArg List.length hat.keys
  rw [List.length_append, List.length_cons] at hlength
  rw [hb_nsxOrdKeyNo]
  split
  · next hdescend =>
    rw [if_pos hdescend] at hpre
    rw [keyNoBack_at hat]
    omega
  · next hdescend =>
    rw [if_neg hdescend] at hpre
    rw [keyNoForward_at hat]
    omega

theorem keys_ne_nil {page : Page Key} (hfull : page.Full) : page.keys ≠ [] := by
  obtain ⟨_, key, rest, -, hkeys, -⟩ := topMove_at (show Leads page [] page from rfl) hfull
  rw [hkeys]
  exact List.cons_ne_nil _ _

theorem full_of_keys {page : Page Key} (hvalid : page.Valid) (hkeys : page.keys ≠ []) :
    page.Full := by
  cases page with
  | leaf keys => exact hkeys
  | branch uiKeys key child => exact hvalid

theorem goTop_empty (hvalid : tag.root.Valid) (hkeys : tag.root.keys = []) :
    (hb_nsxTagGoTop tag state).TagEOF = true := by
  obtain ⟨root, fUsrDescend⟩ := tag
  cases root with
  | leaf keys =>
    obtain rfl : keys = [] := hkeys
    cases fUsrDescend <;> rfl
  | branch uiKeys key child => exact absurd hkeys (keys_ne_nil hvalid)

theorem goTop_at (state : State Key) (hvalid : tag.root.Valid) (hkeys : tag.root.keys ≠ []) :
    let top := hb_nsxTagGoTop tag state
    AtPosition tag top 1 ∧ top.TagEOF = false ∧ top.CurKeyInfo = curKey top.stack ∧
      ∃ keys ikey above, top.stack = (.leaf keys, ikey) :: above := by
  have hcount := List.length_pos_iff.mpr hkeys
  have hfull := full_of_keys hvalid hkeys
  have hleads : Leads tag.root [] tag.root := rfl
  have hsome : ∀ stack n, AtNo tag.root stack n → (curKey stack).isNone = false := by
    rintro stack n ⟨pre, key, post, hat, -⟩
    rw [hat.curKey]
    rfl
  intro top
  cases hdescend : tag.fUsrDescend with
  | false =>
    obtain ⟨stack, hmove, hat, -⟩ := topMove_passed hleads hfull
    obtain ⟨keys, above, hleaf⟩ := topMove_leaf hmove
    have htop : top = { state with
        stack, CurKeyInfo := curKey stack, TagEOF := (curKey stack).isNone } := by
      simp [top, hb_nsxTagGoTop, hdescend, hmove]
    rw [htop]
    refine ⟨⟨Nat.one_pos, hcount, ?_⟩, hsome _ _ hat, rfl, keys, 0, above, hleaf⟩
    simpa [hdescend, before] using hat
  | true =>
    obtain ⟨stack, hmove, -, hat, -⟩ := bottomMove_remain hleads hfull
    obtain ⟨keys, above, hleaf⟩ := bottomMove_leaf hmove
    have htop : top = { state with
        stack, CurKeyInfo := curKey stack, TagEOF := (curKey stack).isNone } := by
      simp [top, hb_nsxTagGoTop, hdescend, hmove]
    rw [htop]
    refine ⟨⟨Nat.one_pos, hcount, ?_⟩, hsome _ _ hat, rfl, keys, keys.length - 1, above, hleaf⟩
    simpa [hdescend, before] using hat

theorem AtPosition.ne_nil (h : AtPosition tag state k) : state.stack ≠ [] := by
  obtain ⟨-, -, pre, key, post, hat, -⟩ := h
  intro hnil
  rw [hnil] at hat
  exact absurd hat nofun

theorem skipNext_at (hvalid : tag.root.Valid) (h : AtPosition tag state k)
    (hk : k < tag.root.keys.length) :
    AtPosition tag (hb_nsxTagSkipNext tag state) (k + 1) ∧
      (hb_nsxTagSkipNext tag state).TagEOF = false ∧
      (hb_nsxTagSkipNext tag state).CurKeyInfo = curKey (hb_nsxTagSkipNext tag state).stack := by
  have hstack := h.ne_nil
  obtain ⟨hpos, hle, pre, key, post, hat, hpre⟩ := h
  have hlength := congrArg List.length hat.keys
  rw [List.length_append, List.length_cons] at hlength
  rw [hb_nsxTagSkipNext, if_neg hstack]
  cases hdescend : tag.fUsrDescend with
  | false =>
    rw [hdescend, if_neg Bool.false_ne_true] at hpre
    obtain ⟨key', rest, rfl⟩ := List.exists_cons_of_ne_nil
      (show post ≠ [] by rintro rfl; rw [List.length_nil] at hlength; omega)
    obtain ⟨stack', hmove, hat'⟩ := (nextKey_at hvalid hat).2 key' rest rfl
    simp only [hmove, Bool.false_eq_true, if_false, and_self, and_true]
    refine ⟨Nat.succ_pos k, hk, ?_⟩
    rw [hdescend, if_neg Bool.false_ne_true]
    exact ⟨_, _, _, hat', by rw [List.length_append, List.length_singleton]; omega⟩
  | true =>
    rw [hdescend, if_pos rfl] at hpre
    obtain ⟨init, last, rfl⟩ := (List.eq_nil_or_concat' pre).resolve_left
      (by rintro rfl; rw [List.length_nil] at hpre; omega)
    obtain ⟨stack', hmove, hat'⟩ := (prevKey_at hvalid hat).2 init last rfl
    simp only [hmove, if_true, and_self, and_true]
    refine ⟨Nat.succ_pos k, hk, ?_⟩
    rw [hdescend, if_pos rfl]
    rw [List.length_append, List.length_singleton] at hpre
    exact ⟨_, _, _, hat', by omega⟩

theorem skips_at (state : State Key) (hvalid : tag.root.Valid) (steps : Nat)
    (hsteps : steps < tag.root.keys.length) :
    let at' := (hb_nsxTagSkipNext tag)^[steps] (hb_nsxTagGoTop tag state)
    AtPosition tag at' (steps + 1) ∧ at'.TagEOF = false ∧ at'.CurKeyInfo = curKey at'.stack := by
  induction steps with
  | zero =>
    obtain ⟨hat, heof, hcur, -⟩ := goTop_at state hvalid
      (List.length_pos_iff.mp hsteps)
    exact ⟨hat, heof, hcur⟩
  | succ steps ih =>
    rw [Function.iterate_succ_apply']
    exact skipNext_at hvalid (ih (by omega)).1 hsteps

theorem goto_at (state : State Key) (hvalid : tag.root.Valid) (hkeys : tag.root.keys ≠ [])
    (steps : Nat) :
    let top := hb_nsxTagGoTop tag state
    let goto := if tag.fUsrDescend then gotoBack true steps top.stack
      else gotoForward steps top.stack
    (steps < tag.root.keys.length → goto.1 = 0 ∧
      AtPosition tag { top with stack := goto.2 } (steps + 1)) ∧
    (tag.root.keys.length ≤ steps → goto.1 ≠ 0) := by
  intro top goto
  obtain ⟨⟨-, hle, hat⟩, -, -, keys, ikey, above, hleaf⟩ := goTop_at state hvalid hkeys
  rcases Nat.eq_zero_or_pos steps with rfl | hpos
  · have hgoto : goto = (0, top.stack) := by
      simp only [goto]
      split
      · rw [gotoBack]
      · rw [gotoForward]
    rw [hgoto]
    exact ⟨fun _ => ⟨rfl, Nat.one_pos, hle, hat⟩, fun h => absurd hle (by omega)⟩
  · rw [hleaf] at hat
    have hpassed := leaf_passed hat
    cases hdescend : tag.fUsrDescend with
    | false =>
      simp only [goto, hdescend, Bool.false_eq_true, if_false] at hpassed ⊢
      have hrun := gotoForward_passed hvalid steps _ hpassed.1 hpos
      rw [← hleaf] at hrun
      refine ⟨fun hlt => ⟨(hrun.1 (by omega)).1, Nat.succ_pos steps, hlt, ?_⟩,
        fun hge => hrun.2 (by omega)⟩
      rw [hdescend, if_neg Bool.false_ne_true]
      have hend := (hrun.1 (by omega)).2
      rwa [show 1 - 1 + 1 + steps - 1 = steps + 1 - 1 by omega] at hend
    | true =>
      simp only [goto, hdescend, if_true] at hpassed ⊢
      have hrun := gotoBack_remain hvalid false steps _ rfl hpassed.2 hpos
      rw [← gotoBack_first, ← hleaf] at hrun
      refine ⟨fun hlt => ⟨(hrun.1 (by omega)).1, Nat.succ_pos steps, hlt, ?_⟩,
        fun hge => hrun.2 (by omega)⟩
      rw [hdescend, if_pos rfl]
      have hend := (hrun.1 (by omega)).2
      rwa [show tag.root.keys.length - 1 - steps = tag.root.keys.length - (steps + 1) by omega]
        at hend

end Positions

section Main

variable (tag : Tag Key) (state : State Key)

/-- The logical positions of a tag: going to one, asking for it, and stepping to it. -/
theorem hb_nsxOrdKeyGoto_positions (hvalid : tag.root.Valid) (k : Nat) :
    (k = 0 → hb_nsxOrdKeyGoto tag k state = (false, state)) ∧
    (0 < k → k ≤ (traversal tag).length →
      let goto := hb_nsxOrdKeyGoto tag k state
      let skip := (hb_nsxTagSkipNext tag)^[k - 1] (hb_nsxTagGoTop tag state)
      goto.1 = true ∧ AtPosition tag goto.2 k ∧ AtPosition tag skip k ∧
        goto.2.record = (traversal tag)[k - 1]? ∧ goto.2.CurKeyInfo = (traversal tag)[k - 1]? ∧
        skip.CurKeyInfo = (traversal tag)[k - 1]? ∧ goto.2.TagEOF = false ∧ skip.TagEOF = false) ∧
    ((traversal tag).length < k →
      (hb_nsxOrdKeyGoto tag k state).1 = true ∧ (hb_nsxOrdKeyGoto tag k state).2.record = none ∧
        (hb_nsxOrdKeyGoto tag k state).2.stack = []) ∧
    ∀ place, AtPosition tag place k → hb_nsxOrdKeyNo tag place = k := by
  refine ⟨fun hk => ?_, fun hpos hle => ?_, fun hlt => ?_, fun place hat => hat.keyNo⟩
  · rw [hb_nsxOrdKeyGoto, if_pos hk]
  · rw [traversal_length] at hle
    have hkeys : tag.root.keys ≠ [] := List.length_pos_iff.mp (by omega)
    obtain ⟨-, heof, -, -⟩ := goTop_at state hvalid hkeys
    obtain ⟨hleft, hat⟩ := (goto_at state hvalid hkeys (k - 1)).1 (by omega)
    obtain ⟨hskip, hskipEof, hskipCur⟩ := skips_at state hvalid (k - 1) (by omega)
    rw [Nat.sub_add_cancel hpos] at hat hskip
    have hkey := hat.curKey
    rw [hb_nsxOrdKeyGoto, if_neg (Nat.ne_of_gt hpos)]
    simp only [heof, Bool.false_eq_true, if_false, hleft, ne_eq, not_true_eq_false]
    exact ⟨trivial, hat, hskip, hkey, hkey, hskipCur.trans hskip.curKey, trivial, hskipEof⟩
  · rw [traversal_length] at hlt
    rw [hb_nsxOrdKeyGoto, if_neg (by omega)]
    rcases List.eq_nil_or_concat' tag.root.keys with hkeys | ⟨_, _, hkeys⟩
    · simp only [goTop_empty hvalid hkeys, if_true, ne_eq, show ¬ k = 0 by omega, not_false_eq_true,
        and_self]
    · have hkeys : tag.root.keys ≠ [] := by simp [hkeys]
      obtain ⟨-, heof, -, -⟩ := goTop_at state hvalid hkeys
      have hleft := (goto_at state hvalid hkeys (k - 1)).2 (by omega)
      simp only [heof, Bool.false_eq_true, if_false, hleft, ne_eq, not_false_eq_true, if_true,
        and_self]

end Main

def threeKeys : Tag Nat :=
  ⟨.branch 1 (fun _ => 2) fun j => if j = 0 then .leaf [1] else .leaf [3], true⟩

theorem hb_nsxOrdKeyGoto_positions_second :
    threeKeys.root.Valid ∧
      (hb_nsxOrdKeyGoto threeKeys 2 ⟨[], none, true, none⟩).2.record = some 2 := by
  have hvalid : threeKeys.root.Valid := by
    intro j _
    dsimp only
    split <;> exact List.cons_ne_nil _ _
  exact ⟨hvalid, ((hb_nsxOrdKeyGoto_positions threeKeys ⟨[], none, true, none⟩ hvalid 2).2.1
    (by decide) (by decide)).2.2.2.1⟩

/-- Position 0 is refused where the area is. -/
theorem hb_nsxOrdKeyGoto_zero_stays :
    ¬ ∀ (tag : Tag Nat) (state : State Nat) (k : Nat), tag.root.Valid →
      (0 < k ∧ k ≤ (traversal tag).length →
        (hb_nsxOrdKeyGoto tag k state).2.record = (traversal tag)[k - 1]?) ∧
      (¬ (0 < k ∧ k ≤ (traversal tag).length) →
        (hb_nsxOrdKeyGoto tag k state).2.record = none) := by
  intro h
  have hzero := (h ⟨.leaf [5], false⟩ ⟨[], none, true, some 5⟩ 0 trivial).2
  exact absurd hzero (by decide)

end Harbour.Rdd.NsxOrdKey
