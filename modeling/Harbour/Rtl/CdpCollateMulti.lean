import Harbour.Rtl.CdpCollateOrder

/-!
Which code pages with characters of two bytes order the strings.
-/

namespace Harbour.Rtl.CdpCollate

open Library.TieBreak List

variable {cdp : CodePage} {weight : UInt8 → UInt8 → Int} {char : UInt8 → UInt8}

/-- Two characters by their weights; those without a weight, and a character with one and one
without, by their bytes. -/
def multiFirst (x y : Letter) : Int :=
  if x.n ≠ y.n then (if x.n = 0 ∨ y.n = 0 then sign x.u y.u else sign x.n y.n)
  else if x.u ≠ y.u ∧ x.n = 0 then sign x.u y.u
  else 0

def multiSecond (cdp : CodePage) (x y : Letter) : Int :=
  if x.u ≠ y.u then sign (cdp.accent x.u) (cdp.accent y.u) else 0

variable {nLen nPos : Nat} {first second side : Side} {x y : Letter}

theorem multiStep_multi {c d : UInt8} {sz : Bytes} (hpos : nPos < nLen - 1)
    (hmulti : isMulti cdp weight char c d = true) :
    multiStep cdp weight char nPos ⟨c :: d :: sz, nLen⟩ = (weight c d, ⟨d :: sz, nLen - 1⟩) := by
  simp only [isMulti, Bool.decide_and, Bool.and_eq_true, decide_eq_true_eq] at hmulti
  exact if_pos ⟨hmulti.1, hpos, hmulti.2.1, hmulti.2.2⟩

theorem multiStep_single (hsingle : nPos < side.nLen - 1 →
      isMulti cdp weight char (side.sz.headD 0) (side.sz.tail.headD 0) = false) :
    multiStep cdp weight char nPos side =
      (cdp.sortOf (char (side.sz.headD 0)), side) := by
  refine if_neg ?_
  rintro ⟨h1, hpos, h2, hw⟩
  have hmulti : isMulti cdp weight char (side.sz.headD 0) (side.sz.tail.headD 0) = true := by
    exact decide_eq_true ⟨h1, h2, hw⟩
  exact Bool.false_ne_true ((hsingle hpos).symm.trans hmulti)

theorem multiStep_nLen_le :
    (multiStep cdp weight char nPos side).2.nLen ≤ side.nLen := by
  unfold multiStep
  dsimp only
  split_ifs
  · exact Nat.sub_le ..
  · exact le_rfl

theorem shorter_eq_min {nLenOne : Nat} : shorter nLen nLenOne = min nLen nLenOne := by
  unfold shorter
  split_ifs <;> omega

theorem multiStep_letters (hne : side.sz ≠ []) (hlen : side.nLen = nPos + side.sz.length) :
    letters cdp weight char side.sz =
        ⟨(multiStep cdp weight char nPos side).1, char (side.sz.headD 0)⟩ ::
          letters cdp weight char (multiStep cdp weight char nPos side).2.sz.tail ∧
      (multiStep cdp weight char nPos side).2.nLen =
        nPos + 1 + (multiStep cdp weight char nPos side).2.sz.tail.length := by
  obtain ⟨sz, nLen⟩ := side
  dsimp only at hne hlen
  obtain ⟨c, sz, rfl⟩ := exists_cons_of_ne_nil hne
  cases sz with
  | nil =>
    rw [length_singleton] at hlen
    have hstep : multiStep cdp weight char nPos ⟨[c], nLen⟩ =
        (cdp.sortOf (char c), ⟨[c], nLen⟩) :=
      multiStep_single fun hpos : nPos < nLen - 1 => absurd hpos (by omega)
    rw [hstep]
    exact ⟨rfl, hlen⟩
  | cons d sz =>
    rw [length_cons, length_cons] at hlen
    rw [letters]
    cases hmulti : isMulti cdp weight char c d with
    | true =>
      rw [multiStep_multi (by omega) hmulti, if_pos rfl]
      refine ⟨rfl, ?_⟩
      change nLen - 1 = nPos + 1 + sz.length
      omega
    | false =>
      have hstep : multiStep cdp weight char nPos ⟨c :: d :: sz, nLen⟩ =
          (cdp.sortOf (char c), ⟨c :: d :: sz, nLen⟩) :=
        multiStep_single fun _ => hmulti
      rw [hstep, if_neg Bool.false_ne_true]
      refine ⟨rfl, ?_⟩
      change nLen = nPos + 1 + (sz.length + 1)
      omega

theorem side_ne_nil (hlen : side.nLen = nPos + side.sz.length) (hpos : nPos < nLen)
    (hle : nLen ≤ side.nLen) : side.sz ≠ [] := by
  intro hnil
  rw [hnil, length_nil] at hlen
  omega

theorem letters_cons (cdp : CodePage) (weight : UInt8 → UInt8 → Int) (char : UInt8 → UInt8)
    (c : UInt8) (sz : Bytes) : ∃ x xs, letters cdp weight char (c :: sz) = x :: xs := by
  cases sz with
  | nil => exact ⟨_, _, rfl⟩
  | cons d sz =>
    rw [letters]
    split_ifs
    · exact ⟨_, _, rfl⟩
    · exact ⟨_, _, rfl⟩

theorem multi_sides (cdp : CodePage) (weight : UInt8 → UInt8 → Int) (char : UInt8 → UInt8)
    (hfirst : first.nLen = nPos + first.sz.length) (hsecond : second.nLen = nPos + second.sz.length)
    (hlen : nLen = min first.nLen second.nLen) (hpos : nPos < nLen) :
    (letters cdp weight char first.sz =
        ⟨(multiStep cdp weight char nPos first).1, char (first.sz.headD 0)⟩ ::
          letters cdp weight char (multiStep cdp weight char nPos first).2.sz.tail ∧
      (multiStep cdp weight char nPos first).2.nLen =
        nPos + 1 + (multiStep cdp weight char nPos first).2.sz.tail.length) ∧
    (letters cdp weight char second.sz =
        ⟨(multiStep cdp weight char nPos second).1, char (second.sz.headD 0)⟩ ::
          letters cdp weight char (multiStep cdp weight char nPos second).2.sz.tail ∧
      (multiStep cdp weight char nPos second).2.nLen =
        nPos + 1 + (multiStep cdp weight char nPos second).2.sz.tail.length) :=
  ⟨multiStep_letters (side_ne_nil hfirst hpos (hlen ▸ min_le_left ..)) hfirst,
    multiStep_letters (side_ne_nil hsecond hpos (hlen ▸ min_le_right ..)) hsecond⟩

theorem multiLoop_eq_scan {iAcc : Int} (hfirst : first.nLen = nPos + first.sz.length)
    (hsecond : second.nLen = nPos + second.sz.length) (hlen : nLen = min first.nLen second.nLen) :
    finish true (multiLoop cdp weight char true nLen nPos iAcc first second).1
        (multiLoop cdp weight char true nLen nPos iAcc first second).2.1
        (multiLoop cdp weight char true nLen nPos iAcc first second).2.2.1
        (multiLoop cdp weight char true nLen nPos iAcc first second).2.2.2 =
      scan multiFirst (multiSecond cdp) iAcc (letters cdp weight char first.sz)
        (letters cdp weight char second.sz) := by
  fun_induction multiLoop cdp weight char true nLen nPos iAcc first second with
  | case1 nLen nPos iAcc first second hpos u1 u2 n1 n2 first' second' hne =>
    have hsides := multi_sides cdp weight char hfirst hsecond hlen hpos
    have hfirst : multiFirst ⟨n1, u1⟩ ⟨n2, u2⟩ =
        if n1 = 0 ∨ n2 = 0 then sign u1 u2 else sign n1 n2 := if_pos hne
    have hnot : (if n1 = 0 ∨ n2 = 0 then sign u1 u2 else sign n1 n2) ≠ 0 := by
      split_ifs
      · exact sign_ne_zero
      · exact sign_ne_zero
    rw [hsides.1.1, hsides.2.1, scan, hfirst, if_pos hnot]
    exact finish_ret hnot ..
  | case2 nLen nPos iAcc first second hpos u1 u2 n1 n2 first' second' hne hu =>
    have hsides := multi_sides cdp weight char hfirst hsecond hlen hpos
    have hfirst : multiFirst ⟨n1, u1⟩ ⟨n2, u2⟩ = sign u1 u2 := (if_neg hne).trans (if_pos hu)
    rw [hsides.1.1, hsides.2.1, scan, hfirst, if_pos sign_ne_zero]
    exact finish_ret sign_ne_zero ..
  | case3 nLen nPos iAcc first second hpos u1 u2 n1 n2 first' second' hne hu fSame ih =>
    have hsides := multi_sides cdp weight char hfirst hsecond hlen hpos
    have hfirst : multiFirst ⟨n1, u1⟩ ⟨n2, u2⟩ = 0 := (if_neg hne).trans (if_neg hu)
    rw [hsides.1.1, hsides.2.1, scan, if_neg (not_not.mpr hfirst)]
    have hrest := ih hsides.1.2 hsides.2.2 ?_
    · refine hrest.trans (congrArg (scan _ _ · _ _) ?_)
      rw [tieAcc_exact]
      unfold multiSecond
      split_ifs <;> first | rfl | omega
    · have hle1 : first'.nLen ≤ first.nLen := multiStep_nLen_le
      have hle2 : second'.nLen ≤ second.nLen := multiStep_nLen_le
      rw [shorter_eq_min, shorter_eq_min]
      change min (min nLen first'.nLen) second'.nLen = min first'.nLen second'.nLen
      omega
  | case4 nLen nPos iAcc first second hpos =>
    rw [finish_tie]
    dsimp only
    cases hsz1 : first.sz with
    | nil =>
      rw [hsz1, length_nil] at hfirst
      cases hsz2 : second.sz with
      | nil =>
        rw [hsz2, length_nil] at hsecond
        rw [letters, scan]
        split_ifs <;> omega
      | cons d sz =>
        rw [hsz2, length_cons] at hsecond
        obtain ⟨y, ys, hletters⟩ := letters_cons cdp weight char d sz
        have hlt : first.nLen < second.nLen := by omega
        rw [hletters, letters, scan, if_pos hlt]
    | cons c sz =>
      rw [hsz1, length_cons] at hfirst
      obtain ⟨x, xs, hletters⟩ := letters_cons cdp weight char c sz
      have hsz2 : second.sz = [] := eq_nil_of_length_eq_zero (by omega)
      have hlt : second.nLen < first.nLen := by omega
      rw [hsz2, hletters, letters, scan, if_neg hlt.not_gt, if_pos hlt]

theorem multiCompare_eq_scan (a b : Bytes) : multiCompare cdp weight char true a b =
    scan multiFirst (multiSecond cdp) 0 (letters cdp weight char a)
      (letters cdp weight char b) := by
  have hlen : ∀ sz : Bytes, sz.length = 0 + sz.length := fun sz => (Nat.zero_add _).symm
  have hside : ∀ sz : Bytes, (Side.mk sz sz.length).nLen = 0 + (Side.mk sz sz.length).sz.length :=
    hlen
  exact multiLoop_eq_scan (hside a) (hside b) rfl

theorem multiLetters (cdp : CodePage) : Letters multiFirst (multiSecond cdp) := by
  refine ⟨fun x y => ?_, fun x y => ?_, fun x y h => ?_, fun x y h => ?_⟩
  · unfold multiFirst
    split_ifs
    · exact sign_unit ..
    · exact sign_unit ..
    · exact sign_unit ..
    · decide
  · unfold multiSecond
    split_ifs
    · exact sign_unit ..
    · decide
  · unfold multiFirst at h ⊢
    split_ifs at h with hn hzero hu
    · exact absurd h sign_ne_zero
    · exact absurd h sign_ne_zero
    · exact absurd h sign_ne_zero
    · have hn' := not_not.mp hn
      rw [if_neg (not_not.mpr hn'.symm), if_neg]
      rintro ⟨hu', hzero⟩
      exact hu ⟨hu'.symm, hn'.trans hzero⟩
  · have hfirst : multiFirst x y = 0 := by
      by_contra hne
      rw [both_eq_first hne] at h
      exact hne h
    rw [both_eq_second hfirst] at h
    unfold multiSecond at h
    split_ifs at h with hu
    · exact absurd h sign_ne_zero
    · unfold multiFirst at hfirst
      split_ifs at hfirst with hn hzero
      · exact absurd hfirst sign_ne_zero
      · exact absurd hfirst sign_ne_zero
      · exact absurd hfirst sign_ne_zero
      · rw [Letter.mk.injEq]
        exact ⟨not_not.mp hn, not_not.mp hu⟩

theorem lettersClosed : Closed (Set.range (letters cdp weight char)) := by
  refine ⟨?_, ?_⟩
  · rintro x xs ⟨_ | ⟨c, _ | ⟨d, sz⟩⟩, h⟩
    · exact nomatch h
    · exact ⟨[], (List.cons.inj h).2⟩
    · rw [letters] at h
      split_ifs at h with hmulti
      · exact ⟨sz, (List.cons.inj h).2⟩
      · exact ⟨d :: sz, (List.cons.inj h).2⟩
  · rintro x xs ⟨_ | ⟨c, _ | ⟨d, sz⟩⟩, h⟩
    · exact nomatch h
    · exact ⟨[c], congrArg (fun z => [z]) (List.cons.inj h).1⟩
    · rw [letters] at h
      split_ifs at h with hmulti
      · refine ⟨[c, d], ?_⟩
        rw [letters, if_pos hmulti, (List.cons.inj h).1, letters]
      · exact ⟨[c], congrArg (fun z => [z]) (List.cons.inj h).1⟩

def HasLetter (cdp : CodePage) (weight : UInt8 → UInt8 → Int) (char : UInt8 → UInt8) (x : Letter) :
    Prop := ∃ sz, letters cdp weight char sz = [x]

/-- The tables agree: the first byte of a character with a weight is not itself a byte without one,
accents tell the characters of one weight apart, weights follow the bytes wherever a byte without a
weight stands between, and where accents put one string before another no later weight puts it
behind. -/
structure Consistent (cdp : CodePage) (weight : UInt8 → UInt8 → Int) (char : UInt8 → UInt8) :
    Prop where
  zero : ∀ x y, HasLetter cdp weight char x → HasLetter cdp weight char y → x.n = 0 → y.n ≠ 0 →
    x.u ≠ y.u
  accents : ∀ x y, HasLetter cdp weight char x → HasLetter cdp weight char y → x.n = y.n →
    x.n ≠ 0 → x.u ≠ y.u → cdp.accent x.u ≠ cdp.accent y.u
  between : ∀ x y z, HasLetter cdp weight char x → HasLetter cdp weight char y →
    HasLetter cdp weight char z → x.n ≠ 0 → y.n ≠ 0 → z.n = 0 → x.u < z.u → z.u < y.u →
    x.n < y.n ∨ x.n = y.n ∧ cdp.accent x.u < cdp.accent y.u
  fork : ∀ a b x xs y ys, letters cdp weight char a = x :: xs →
    letters cdp weight char b = y :: ys → x.n = y.n → x.n ≠ 0 →
    cdp.accent x.u < cdp.accent y.u → ¬0 < firstDiff multiFirst xs ys

theorem multiBoth_neg_iff : both multiFirst (multiSecond cdp) x y < 0 ↔
    (x.n = 0 ∨ y.n = 0) ∧ x.u < y.u ∨
      x.n ≠ 0 ∧ y.n ≠ 0 ∧ (x.n < y.n ∨ x.n = y.n ∧ cdp.accent x.u < cdp.accent y.u) := by
  unfold both multiFirst multiSecond
  by_cases hn : x.n = y.n
  · by_cases hu : x.u = y.u
    · simp [hn, hu, UInt8.lt_irrefl]
    · by_cases hzero : y.n = 0
      · simp [hn, hu, hzero, sign_ne_zero, sign_neg_iff]
      · simp [hn, hu, hzero, sign_neg_iff]
  · by_cases hzero : x.n = 0 ∨ y.n = 0
    · have hnot : x.n ≠ 0 → y.n = 0 := hzero.resolve_left
      rw [if_pos hn, if_pos hzero, if_pos sign_ne_zero, sign_neg_iff]
      constructor
      · exact fun h => Or.inl ⟨hzero, h⟩
      · rintro (h | h)
        · exact h.2
        · exact absurd (hnot h.1) h.2.1
    · rw [if_pos hn, if_neg hzero, if_pos sign_ne_zero, sign_neg_iff]
      rw [not_or] at hzero
      simp [hn, hzero.1, hzero.2]

theorem multi_tie_iff : multiFirst x y = 0 ∧ multiSecond cdp x y < 0 ↔
    x.n = y.n ∧ x.n ≠ 0 ∧ cdp.accent x.u < cdp.accent y.u := by
  unfold multiFirst multiSecond
  by_cases hn : x.n = y.n
  · by_cases hu : x.u = y.u
    · simp [hn, hu, UInt8.lt_irrefl]
    · by_cases hzero : y.n = 0
      · simp [hn, hu, hzero, sign_ne_zero]
      · simp [hn, hu, hzero, sign_neg_iff]
  · by_cases hzero : x.n = 0 ∨ y.n = 0
    · simp [hn, hzero, sign_ne_zero]
    · simp [hn, hzero, sign_ne_zero]

theorem multiBoth_unit (cdp : CodePage) (x y : Letter) :
    -1 ≤ both multiFirst (multiSecond cdp) x y ∧
    both multiFirst (multiSecond cdp) x y ≤ 1 := by
  unfold both
  split_ifs
  · exact (multiLetters cdp).first_unit x y
  · exact (multiLetters cdp).second_unit x y

theorem eq_of_not_less {s : Set Letter} (horders : Orders (both multiFirst (multiSecond cdp)) s)
    (hx : x ∈ s) (hy : y ∈ s) (hxy : ¬both multiFirst (multiSecond cdp) x y < 0)
    (hyx : ¬both multiFirst (multiSecond cdp) y x < 0) : x = y := by
  have hswap := horders.antisymm x hx y hy
  refine (multiLetters cdp).eq_of_both x y ?_
  omega

theorem byte_lt_of_not {u v : UInt8} (hne : u ≠ v) (hnot : ¬u < v) : v < u :=
  (UInt8.lt_or_lt_of_ne hne).resolve_left hnot

theorem Consistent.less_trans (h : Consistent cdp weight char) {z : Letter}
    (hx : HasLetter cdp weight char x) (hy : HasLetter cdp weight char y)
    (hz : HasLetter cdp weight char z) (hxy : both multiFirst (multiSecond cdp) x y < 0)
    (hyz : both multiFirst (multiSecond cdp) y z < 0) :
    both multiFirst (multiSecond cdp) x z < 0 := by
  rw [multiBoth_neg_iff] at hxy hyz ⊢
  rcases hxy with ⟨hxy0, hxy⟩ | ⟨hnx, hny, hxy⟩
  · rcases hyz with ⟨hyz0, hyz⟩ | ⟨hny, hnz, hyz⟩
    · have hxz : x.u < z.u := UInt8.lt_trans hxy hyz
      by_cases hxz0 : x.n = 0 ∨ z.n = 0
      · exact Or.inl ⟨hxz0, hxz⟩
      · obtain ⟨hnx, hnz⟩ := not_or.mp hxz0
        have hny : y.n = 0 := hxy0.resolve_left hnx
        exact Or.inr ⟨hnx, hnz, h.between x z y hx hz hy hnx hnz hny hxy hyz⟩
    · have hnx : x.n = 0 := hxy0.resolve_right hny
      refine Or.inl ⟨Or.inl hnx, ?_⟩
      by_contra hnot
      have hzx := byte_lt_of_not (h.zero x z hx hz hnx hnz) hnot
      rcases h.between z y x hz hy hx hnz hny hnx hzx hxy with hlt | ⟨heq, hacc⟩
      · omega
      · rcases hyz with hlt | ⟨-, hacc'⟩
        · omega
        · exact UInt8.lt_asymm hacc hacc'
  · rcases hyz with ⟨hyz0, hyz⟩ | ⟨-, hnz, hyz⟩
    · have hnz : z.n = 0 := hyz0.resolve_left hny
      refine Or.inl ⟨Or.inr hnz, ?_⟩
      by_contra hnot
      have hzx := byte_lt_of_not (h.zero z x hz hx hnz hnx).symm hnot
      rcases h.between y x z hy hx hz hny hnx hnz hyz hzx with hlt | ⟨heq, hacc⟩
      · omega
      · rcases hxy with hlt | ⟨-, hacc'⟩
        · omega
        · exact UInt8.lt_asymm hacc hacc'
    · refine Or.inr ⟨hnx, hnz, ?_⟩
      rcases hxy with hlt | ⟨heq, hacc⟩
      · rcases hyz with hlt' | ⟨heq', -⟩
        · exact Or.inl (hlt.trans hlt')
        · exact Or.inl (heq' ▸ hlt)
      · rcases hyz with hlt' | ⟨heq', hacc'⟩
        · exact Or.inl (heq ▸ hlt')
        · exact Or.inr ⟨heq.trans heq', UInt8.lt_trans hacc hacc'⟩

theorem Consistent.less_iff (h : Consistent cdp weight char) (hx : HasLetter cdp weight char x)
    (hy : HasLetter cdp weight char y) (hne : x ≠ y) :
    both multiFirst (multiSecond cdp) x y < 0 ↔ ¬both multiFirst (multiSecond cdp) y x < 0 := by
  have hxy0 := h.zero x y hx hy
  have hyx0 := h.zero y x hy hx
  have hacc := h.accents x y hx hy
  rw [multiBoth_neg_iff, multiBoth_neg_iff]
  simp only [UInt8.lt_iff_toNat_lt, ne_eq, ← UInt8.toNat_inj] at *
  have hne' : x.n = y.n → ¬x.u.toNat = y.u.toNat := by
    intro hn hu
    refine hne ?_
    exact (Letter.mk.injEq ..).mpr ⟨hn, UInt8.toNat_inj.mp hu⟩
  omega

theorem multi_noFork_iff :
    NoFork multiFirst (multiSecond cdp) (Set.range (letters cdp weight char)) ↔
      ∀ a b x xs y ys, letters cdp weight char a = x :: xs →
        letters cdp weight char b = y :: ys → x.n = y.n → x.n ≠ 0 →
        cdp.accent x.u < cdp.accent y.u → ¬0 < firstDiff multiFirst xs ys := by
  constructor
  · intro hfork a b x xs y ys ha hb hn hzero hacc
    obtain ⟨hfirst, hsecond⟩ := multi_tie_iff.mpr ⟨hn, hzero, hacc⟩
    exact hfork x xs y ys ⟨a, ha⟩ ⟨b, hb⟩ hfirst hsecond
  · rintro hfork x xs y ys ⟨a, ha⟩ ⟨b, hb⟩ hfirst hsecond
    obtain ⟨hn, hzero, hacc⟩ := multi_tie_iff.mp ⟨hfirst, hsecond⟩
    exact hfork a b x xs y ys ha hb hn hzero hacc

theorem multiBoth_orders_iff :
    Orders (both multiFirst (multiSecond cdp)) {x | [x] ∈ Set.range (letters cdp weight char)} ∧
        NoFork multiFirst (multiSecond cdp) (Set.range (letters cdp weight char)) ↔
      Consistent cdp weight char := by
  rw [multi_noFork_iff]
  constructor
  · rintro ⟨horders, hfork⟩
    refine ⟨fun x y hx hy hnx hny hu => ?_, fun x y hx hy hn hzero hu hacc => ?_,
      fun x y z hx hy hz hnx hny hnz hxz hzy => ?_, hfork⟩
    · have heq := eq_of_not_less horders hx hy (by simp [multiBoth_neg_iff, hnx, hu,
        UInt8.lt_irrefl]) (by simp [multiBoth_neg_iff, hnx, hu, UInt8.lt_irrefl])
      exact hny (heq ▸ hnx)
    · have heq := eq_of_not_less horders hx hy
        (by simp [multiBoth_neg_iff, hn, hn ▸ hzero, hacc, UInt8.lt_irrefl])
        (by simp [multiBoth_neg_iff, hn, hn ▸ hzero, hacc, UInt8.lt_irrefl])
      exact hu (congrArg Letter.u heq)
    · have hless := horders.trans x hx z hz y hy (multiBoth_neg_iff.mpr (Or.inl ⟨Or.inr hnz, hxz⟩))
        (multiBoth_neg_iff.mpr (Or.inl ⟨Or.inl hnz, hzy⟩))
      rw [multiBoth_neg_iff] at hless
      rcases hless with ⟨hzero, -⟩ | ⟨-, -, hless⟩
      · exact absurd hzero (not_or.mpr ⟨hnx, hny⟩)
      · exact hless
  · intro h
    refine ⟨⟨fun x hx y hy => ?_, fun x hx y hy z hz => h.less_trans hx hy hz⟩, h.fork⟩
    have hxy := multiBoth_unit cdp x y
    have hyx := multiBoth_unit cdp y x
    by_cases heq : x = y
    · have hself : both multiFirst (multiSecond cdp) x x = 0 := by
        simp [both, multiFirst, multiSecond]
      rw [← heq, hself]
      rfl
    · have hxyne : both multiFirst (multiSecond cdp) x y ≠ 0 :=
        fun hzero => heq ((multiLetters cdp).eq_of_both x y hzero)
      have hyxne : both multiFirst (multiSecond cdp) y x ≠ 0 :=
        fun hzero => heq ((multiLetters cdp).eq_of_both y x hzero).symm
      have hone := h.less_iff hx hy heq
      by_cases hless : both multiFirst (multiSecond cdp) x y < 0
      · have hnot := hone.mp hless
        omega
      · have hnot := fun h => hless (hone.mpr h)
        omega

theorem multi_orders_iff :
    Orders (multiCompare cdp weight char true) Set.univ ↔ Consistent cdp weight char := by
  rw [Orders.comap (letters cdp weight char) multiCompare_eq_scan,
    orders_scan_iff (multiLetters cdp) lettersClosed, multiBoth_orders_iff]

theorem multi_preorders_iff :
    Preorders (multiCompare cdp weight char true) Set.univ ↔ Consistent cdp weight char := by
  rw [Preorders.comap (letters cdp weight char) multiCompare_eq_scan,
    preorders_scan_iff (multiLetters cdp) lettersClosed, multiBoth_orders_iff]

/-- Exactly when the comparisons order the strings. -/
theorem collation_orders_iff (cdp : CodePage) (hsep : cdp.Separates) :
    (Orders (cdpStd_cmp cdp true) Set.univ ↔ OneLevel cdp id) ∧
      (Preorders (cdpStd_cmpi cdp true) Set.univ ↔ OneLevel cdp cdp.upper) ∧
      (Orders (cdpMulti_cmp cdp true) Set.univ ↔ Consistent cdp (cdpMulti_weight cdp) id) ∧
      (Preorders (cdpMulti_cmpi cdp true) Set.univ ↔
        Consistent cdp (cdpMulti_weightI cdp) cdp.upper) :=
  ⟨std_orders_iff hsep, std_preorders_iff hsep, multi_orders_iff, multi_preorders_iff⟩

/-- The character `ch` comes behind all others; the other bytes weigh what they are. -/
def digraphPage : CodePage where
  sort := id
  acc := none
  upper := id
  multi1 := fun u => u = 67 ∨ u = 99
  multi2 := fun u => u = 72 ∨ u = 104
  multi := [⟨(67, 99), (72, 104), 256, 257⟩]

/-- The letters `a` and `b` weigh the same. -/
def mixedPage : CodePage := { digraphPage with sort := fun u => if u = 98 then 97 else u }

theorem mixedPage_separates : mixedPage.Separates := by
  intro u v hne _
  exact hne

theorem digraphPage_separates : digraphPage.Separates := by
  intro u v hne _
  exact hne

theorem digraphPage_head {sz : Bytes} {xs : List Letter}
    (h : letters digraphPage (cdpMulti_weight digraphPage) id sz = x :: xs) :
    x.n = x.u.toNat ∨ x.n = 256 ∧ x.u = 67 ∨ x.n = 257 ∧ x.u = 99 := by
  have hsingle (c : UInt8) (hx : (⟨digraphPage.sortOf c, c⟩ : Letter) = x) :
      x.n = x.u.toNat := by
    rw [← hx]
    rfl
  rcases sz with _ | ⟨c, _ | ⟨d, sz⟩⟩
  · exact nomatch h
  · exact .inl (hsingle c (List.cons.inj h).1)
  · rw [letters] at h
    split_ifs at h with hmulti
    · obtain rfl := (List.cons.inj h).1
      obtain ⟨hfirst, -, hweight⟩ := of_decide_eq_true hmulti
      change cdpMulti_weight digraphPage c d = _ ∨ cdpMulti_weight digraphPage c d = 256 ∧ c = 67 ∨
        cdpMulti_weight digraphPage c d = 257 ∧ c = 99
      unfold cdpMulti_weight at hweight ⊢
      cases hfind : digraphPage.multi.find? (multiIs c d) with
      | none => exact absurd (by rw [hfind]) hweight
      | some pmulti =>
        obtain rfl := List.mem_singleton.mp (List.mem_of_find?_eq_some hfind)
        by_cases hc : c = 67
        · exact .inr (.inl ⟨if_pos hc, hc⟩)
        · exact .inr (.inr ⟨if_neg hc, (of_decide_eq_true hfirst).resolve_left hc⟩)
    · exact .inl (hsingle c (List.cons.inj h).1)

theorem digraphPage_consistent :
    Consistent digraphPage (cdpMulti_weight digraphPage) id := by
  have hhead (x : Letter) (hx : HasLetter digraphPage (cdpMulti_weight digraphPage) id x) :=
    digraphPage_head hx.choose_spec
  have hC : (67 : UInt8).toNat = 67 := rfl
  have hc : (99 : UInt8).toNat = 99 := rfl
  refine ⟨fun x y hx hy hnx hny hu => ?_, fun x y _ _ _ _ hu => hu,
    fun x y z _ _ hz _ _ hnz hxz _ => ?_, fun a b x xs y ys hx hy hn _ hacc => ?_⟩
  · have hx' := hhead x hx
    have hy' := hhead y hy
    simp only [← UInt8.toNat_inj, hC, hc] at hu hx' hy'
    omega
  · have hz' := hhead z hz
    have hlt := UInt8.lt_iff_toNat_lt.mp hxz
    omega
  · have hx' := digraphPage_head hx
    have hy' := digraphPage_head hy
    have hlt : x.u.toNat < y.u.toNat := UInt8.lt_iff_toNat_lt.mp hacc
    have hxu := x.u.toNat_lt
    have hyu := y.u.toNat_lt
    simp only [← UInt8.toNat_inj, hC, hc] at hx' hy'
    omega

/-- `ch` behind `a` and `d` behind `b` show that `mixedPage` is not consistent. -/
theorem mixedPage_not_consistent :
    ¬ Consistent mixedPage (cdpMulti_weight mixedPage) id := by
  intro h
  exact h.fork [97, 99, 104] [98, 100] ⟨97, 97⟩ [⟨257, 99⟩] ⟨97, 98⟩ [⟨100, 100⟩] (by decide)
    (by decide) rfl (by decide) (by decide) (by decide)

theorem collation_orders_iff_mixed :
    ¬ Orders (cdpMulti_cmp mixedPage true) Set.univ ∧
      Orders (cdpMulti_cmp digraphPage true) Set.univ :=
  ⟨fun h => mixedPage_not_consistent
    ((collation_orders_iff mixedPage mixedPage_separates).2.2.1.mp h),
    (collation_orders_iff digraphPage digraphPage_separates).2.2.1.mpr digraphPage_consistent⟩

/-- `ad` comes before `b`, `b` before `bc`, and `bc` before `ad`. -/
theorem cdpStd_cmp_not_trans : ¬∀ cdp : CodePage, cdp.Separates →
    Orders (cdpStd_cmp cdp true) Set.univ := by
  intro h
  have horders := h mixedPage mixedPage_separates
  have hless := horders.trans [97, 100] trivial [98] trivial [98, 99] trivial (by decide)
  exact absurd hless (by decide)

end Harbour.Rtl.CdpCollate
