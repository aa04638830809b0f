import Harbour.Compiler.FoldSums

/-!
What extended optimisation does to the operands of a sum: it joins two literals to one or drops a
literal that is zero.
-/

namespace Harbour.Compiler.FoldSums

open Vm.Operators Library.Rounding Harbour.Compiler.Expr Option Multiset Rounded

variable {n : Expr.Num} {part : Leaves} {e : HbExpr} {item : Item}

theorem maxDbl_ofInt {l : Int} (h : Fits (l : ℚ)) : (ofInt l : MaxDbl).value = l := by
  have hlim := fits_intCast h
  exact ofInt_value (abs_le.mpr ⟨by unfold LimLong at hlim; omega, by
    unfold LimLong at hlim; omega⟩)

theorem Num.rank_le (n : Expr.Num) : n.item.rank ≤ 1 := by
  cases n with
  | long l => exact Nat.zero_le 1
  | double d => exact le_rfl

theorem Num.normal (n : Expr.Num) : n.item.Normal := by
  cases n with
  | long l => trivial
  | double d => trivial

theorem Num.dbl_value (h : Representable 53 n.item.total) : n.dbl.value = n.item.total := by
  cases n with
  | long l => exact round_value h
  | double d => rfl

theorem addLongs {l1 l2 : Int} (h1 : Fits (l1 : ℚ)) (h2 : Fits (l2 : ℚ))
    (h : Fits ((l1 : ℚ) + l2)) :
    addNums (.long l1) (.long l2) = .long (l1 + l2) := by
  have hcast : (l1 : ℚ) + l2 = ((l1 + l2 : Int) : ℚ) := (Int.cast_add l1 l2).symm
  have hlim := fits_intCast (hcast ▸ h)
  have hbound : |l1 + l2| ≤ 2 ^ 64 := by
    unfold LimLong at hlim
    exact abs_le.mpr ⟨by omega, by omega⟩
  have hvalue : ((ofInt l1 : MaxDbl).add (ofInt l2)).value = l1 + l2 := by
    rw [add_value, maxDbl_ofInt h1, maxDbl_ofInt h2]
    rw [maxDbl_ofInt h1, maxDbl_ofInt h2, hcast]
    exact representable_intCast hbound (by decide)
  have hfits : DblLimLong ((ofInt l1 : MaxDbl).add (ofInt l2)).value := by
    rw [hvalue]
    exact h
  exact if_pos hfits

theorem addNums_sum (n1 n2 : Expr.Num) (h : Addable n1.item n2.item) :
    (addNums n1 n2).item.total = n1.item.total + n2.item.total ∧
      (addNums n1 n2).item.rank = max n1.item.rank n2.item.rank := by
  have hdouble : n1.item.rank = 1 ∨ n2.item.rank = 1 →
      (n1.dbl.add n2.dbl).value = n1.item.total + n2.item.total := by
    intro hrank
    obtain ⟨hexact1, hexact2, hsum⟩ := h.exact hrank (Num.rank_le n1) (Num.rank_le n2)
    rw [add_value, Num.dbl_value hexact1, Num.dbl_value hexact2]
    rw [Num.dbl_value hexact1, Num.dbl_value hexact2]
    exact hsum
  cases n1 with
  | long l1 =>
    cases n2 with
    | long l2 =>
      rw [addLongs h.fits1 h.fits2 h.fits]
      exact ⟨Int.cast_add l1 l2, rfl⟩
    | double d2 => exact ⟨hdouble (.inr rfl), rfl⟩
  | double d1 =>
    cases n2 with
    | long l2 | double d2 => exact ⟨hdouble (.inl rfl), rfl⟩

/-- Operands that take the place of others, beside further ones. -/
structure Rewritten (M M' C : Leaves) : Prop where
  exact : Exact (M' + C)
  sum : total M' = total M
  time : ∀ k, 2 ≤ k → ((∃ l ∈ M', l.item.rank = k) ↔ ∃ l ∈ M, l.item.rank = k)
  double : (∃ l ∈ M', l.item.rank = 1) → ∃ l ∈ M, l.item.rank = 1
  noZero : NoZero (M + C) →
    NoZero (M' + C) ∧ ((∃ l ∈ M, l.item.rank = 1) → ∃ l ∈ M', l.item.rank = 1)

/-- Operands that may take the place of others wherever these stand in an exact sum. -/
def Merges (M M' : Leaves) : Prop := ∀ C, Exact (M + C) → Rewritten M M' C

section Merges

variable {M M' M'' A A' B B' C : Leaves} {a b m : Leaf}

theorem Merges.refl (M : Leaves) : Merges M M := fun _ hexact =>
  ⟨hexact, rfl, fun _ _ => Iff.rfl, id, fun hzero => ⟨hzero, id⟩⟩

theorem Merges.trans (h : Merges M M') (h' : Merges M' M'') : Merges M M'' := by
  intro C hexact
  have hr := h C hexact
  have hr' := h' C hr.exact
  refine ⟨hr'.exact, hr'.sum.trans hr.sum, fun k hk => (hr'.time k hk).trans (hr.time k hk),
    fun hdouble => hr.double (hr'.double hdouble), fun hzero => ?_⟩
  obtain ⟨hzero', hkeeps⟩ := hr.noZero hzero
  obtain ⟨hzero'', hkeeps'⟩ := hr'.noZero hzero'
  exact ⟨hzero'', fun hdouble => hkeeps' (hkeeps hdouble)⟩

theorem exists_add {p : Leaf → Prop} : (∃ l ∈ A + B, p l) ↔ (∃ l ∈ A, p l) ∨ ∃ l ∈ B, p l := by
  constructor
  · rintro ⟨l, hl, hp⟩
    exact (mem_add.mp hl).imp (fun hl => ⟨l, hl, hp⟩) fun hl => ⟨l, hl, hp⟩
  · rintro (h | h)
    · exact exists_left h
    · exact exists_right h

theorem Merges.add_right (h : Merges A A') (B : Leaves) : Merges (A + B) (A' + B) := by
  intro C hexact
  rw [add_assoc] at hexact
  have hr := h (B + C) hexact
  refine ⟨?_, ?_, fun k hk => ?_, fun hdouble => ?_, fun hzero => ?_⟩
  · rw [add_assoc]
    exact hr.exact
  · rw [total_add, total_add, hr.sum]
  · rw [exists_add, exists_add, hr.time k hk]
  · exact exists_add.mpr ((exists_add.mp hdouble).imp_left hr.double)
  · rw [add_assoc] at hzero ⊢
    obtain ⟨hzero', hkeeps⟩ := hr.noZero hzero
    exact ⟨hzero', fun hdouble => exists_add.mpr ((exists_add.mp hdouble).imp_left hkeeps)⟩

theorem Merges.add_left (h : Merges B B') (A : Leaves) : Merges (A + B) (A + B') := by
  rw [add_comm A, add_comm A]
  exact h.add_right A

theorem Merges.add (h : Merges A A') (h' : Merges B B') : Merges (A + B) (A' + B') :=
  (h.add_right B).trans (h'.add_left A')

theorem part_cases (hsum : m.item.total = a.item.total + b.item.total) (h : part ≤ m ::ₘ C) :
    part ≤ C ∨ ∃ rest ≤ C, part = m ::ₘ rest ∧
      a ::ₘ b ::ₘ rest ≤ a ::ₘ b ::ₘ C ∧ total (a ::ₘ b ::ₘ rest) = total part := by
  refine (le_cons_cases h).imp_right ?_
  rintro ⟨rest, hle, rfl⟩
  refine ⟨rest, hle, rfl, cons_le_cons a (cons_le_cons b hle), ?_⟩
  rw [total_cons, total_cons, total_cons, hsum, add_assoc]

structure Joined (a b m : Leaf) : Prop where
  sum : m.item.total = a.item.total + b.item.total
  rank : m.item.rank = max a.item.rank b.item.rank
  rank1 : a.item.rank ≤ 1
  rank2 : b.item.rank ≤ 1
  normal : m.item.Normal
  literal : m.literal = true → a.literal = true ∧ b.literal = true

theorem Joined.rank_le (h : Joined a b m) : m.item.rank ≤ 1 := by
  rw [h.rank]
  exact max_le h.rank1 h.rank2

theorem le_behind (a b : Leaf) (C : Leaves) : C ≤ a ::ₘ b ::ₘ C :=
  (le_cons_self C b).trans (le_cons_self _ a)

section

variable (h : Joined a b m)

include h

theorem Joined.has {k : Nat} (hk : ∃ l ∈ m ::ₘ C, l.item.rank = k) :
    ∃ l ∈ a ::ₘ b ::ₘ C, l.item.rank = k := by
  obtain ⟨l, hl, hrank⟩ := hk
  rcases mem_cons.mp hl with rfl | hl
  · rcases max_choice a.item.rank b.item.rank with hmax | hmax
    · exact ⟨a, mem_cons_self a _, by rw [← hmax, ← h.rank, hrank]⟩
    · exact ⟨b, mem_cons_of_mem (mem_cons_self b _), by
        rw [← hmax, ← h.rank, hrank]⟩
  · exact ⟨l, mem_of_le (le_behind a b C) hl, hrank⟩

theorem Joined.time_behind (htime : ∃ l ∈ m ::ₘ part, 2 ≤ l.item.rank) :
    ∃ l ∈ part, 2 ≤ l.item.rank := by
  obtain ⟨l, hl, hrank⟩ := htime
  rcases mem_cons.mp hl with rfl | hl
  · have hle := h.rank_le
    omega
  · exact ⟨l, hl, hrank⟩

theorem Joined.exact (hexact : Exact (a ::ₘ b ::ₘ C)) : Exact (m ::ₘ C) := by
  have hC := le_behind a b C
  have ha : a ∈ a ::ₘ b ::ₘ C := mem_cons_self a _
  have hb : b ∈ a ::ₘ b ::ₘ C := mem_cons_of_mem (mem_cons_self b _)
  have hnums : ∀ rest : Leaves, (∀ l ∈ m ::ₘ rest, l.item.rank ≤ 1) →
      ∀ l ∈ a ::ₘ b ::ₘ rest, l.item.rank ≤ 1 := by
    intro rest hnum l hl
    rcases mem_cons.mp hl with rfl | hl
    · exact h.rank1
    · rcases mem_cons.mp hl with rfl | hl
      · exact h.rank2
      · exact hnum l (mem_cons_of_mem hl)
  refine ⟨fun l hl => ?_, fun l hl => ?_, fun part hpart => ?_, fun hdouble part hpart hnum => ?_,
    fun hdate l hl hrank => ?_, fun hstamp part hpart hnum hdouble => ?_,
    fun hstamp part hpart hhas => ?_⟩
  · rcases mem_cons.mp hl with rfl | hl
    · exact h.rank_le.trans (by decide)
    · exact hexact.typed l (mem_of_le hC hl)
  · rcases mem_cons.mp hl with rfl | hl
    · exact h.normal
    · exact hexact.normal l (mem_of_le hC hl)
  · rcases part_cases h.sum hpart with hle | ⟨rest, hle, rfl, hle', hsum⟩
    · exact hexact.fits part (hle.trans hC)
    · rw [← hsum]
      exact hexact.fits _ hle'
  · have hdouble' := h.has hdouble
    rcases part_cases h.sum hpart with hle | ⟨rest, hle, rfl, hle', hsum⟩
    · exact hexact.exact hdouble' part (hle.trans hC) hnum
    · rw [← hsum]
      exact hexact.exact hdouble' _ hle' (hnums rest hnum)
  · rcases mem_cons.mp hl with rfl | hl
    · obtain ⟨n1, hn1⟩ := hexact.whole (h.has hdate) a ha h.rank1
      obtain ⟨n2, hn2⟩ := hexact.whole (h.has hdate) b hb h.rank2
      exact ⟨n1 + n2, by rw [h.sum, hn1, hn2, Int.cast_add]⟩
    · exact hexact.whole (h.has hdate) l (mem_of_le hC hl) hrank
  · have hmillis := hexact.millis (h.has hstamp)
    rcases part_cases h.sum hpart with hle | ⟨rest, hle, rfl, hle', hsum⟩
    · exact hmillis part (hle.trans hC) hnum hdouble
    · rw [← hsum]
      exact hmillis _ hle' (hnums rest hnum) (h.has hdouble)
  · have hpos := hexact.stamp (h.has hstamp)
    rcases part_cases h.sum hpart with hle | ⟨rest, hle, rfl, hle', hsum⟩
    · exact hpos part (hle.trans hC) hhas
    · rw [← hsum]
      obtain ⟨l, hl, hrank⟩ := h.time_behind hhas
      exact hpos _ hle' ⟨l, mem_of_le (le_behind a b rest) hl, hrank⟩

theorem Joined.noZero (hzero : NoZero (a ::ₘ b ::ₘ C)) : NoZero (m ::ₘ C) := by
  intro part hpart hliteral hdouble
  rcases part_cases h.sum hpart with hle | ⟨rest, hle, rfl, hle', hsum⟩
  · exact hzero part (hle.trans (le_behind a b C)) hliteral hdouble
  · rw [← hsum]
    refine hzero _ hle' (fun l hl => ?_) (h.has hdouble)
    obtain ⟨hliteral1, hliteral2⟩ := h.literal (hliteral m (mem_cons_self m _))
    rcases mem_cons.mp hl with rfl | hl
    · exact hliteral1
    · rcases mem_cons.mp hl with rfl | hl
      · exact hliteral2
      · exact hliteral l (mem_cons_of_mem hl)

theorem Joined.rewritten (hexact : Exact (a ::ₘ b ::ₘ C)) : Rewritten (a ::ₘ {b}) {m} C := by
  refine ⟨?_, ?_, fun k hk => ⟨?_, ?_⟩, fun hdouble => h.has (C := 0) hdouble,
    fun hzero => ⟨?_, ?_⟩⟩
  · rw [singleton_add]
    exact h.exact hexact
  · rw [total_cons, total_singleton, total_singleton, h.sum]
  · exact fun hhas => h.has (C := 0) hhas
  · rintro ⟨l, hl, hrank⟩
    have hle : l.item.rank ≤ 1 := by
      rcases mem_cons.mp hl with rfl | hl
      · exact h.rank1
      · rw [mem_singleton.mp hl]
        exact h.rank2
    omega
  · rw [singleton_add]
    refine h.noZero ?_
    rw [cons_add, singleton_add] at hzero
    exact hzero
  · rintro ⟨l, hl, hrank⟩
    refine ⟨m, mem_singleton_self m, ?_⟩
    have hle := h.rank_le
    have hge : l.item.rank ≤ m.item.rank := by
      rw [h.rank]
      rcases mem_cons.mp hl with rfl | hl
      · exact le_max_left _ _
      · rw [mem_singleton.mp hl]
        exact le_max_right _ _
    omega

end

def literal (n : Expr.Num) : Leaf := ⟨true, n.item⟩

theorem merges_literals (n1 n2 : Expr.Num) :
    Merges (literal n1 ::ₘ {literal n2}) {literal (addNums n1 n2)} := by
  intro C hexact
  rw [cons_add, singleton_add] at hexact
  have hle : literal n1 ::ₘ {literal n2} ≤ literal n1 ::ₘ literal n2 ::ₘ C :=
    cons_le_cons _ (singleton_le.mpr (mem_cons_self _ _))
  have hpair : Exact ({literal n1} + {literal n2}) := hexact.mono hle
  have h1 : Sums n1.item {literal n1} := Sums.singleton (hpair.mono (le_add_right _ _))
  have h2 : Sums n2.item {literal n2} := Sums.singleton (hpair.mono (le_add_left _ _))
  obtain ⟨hsum, hrank⟩ := addNums_sum n1 n2 (h1.addable hpair h2)
  have hjoined : Joined (literal n1) (literal n2) (literal (addNums n1 n2)) :=
    ⟨hsum, hrank, Num.rank_le n1, Num.rank_le n2, Num.normal _, fun _ => ⟨rfl, rfl⟩⟩
  exact hjoined.rewritten hexact

theorem merges_zero (hzero : n.isZero = true) (M : Leaves) :
    Merges (literal n ::ₘ M) M := by
  have htotal : n.item.total = 0 := by
    cases n with
    | long l =>
      have hl : l = 0 := of_decide_eq_true hzero
      change (l : ℚ) = 0
      rw [hl, Int.cast_zero]
    | double d => exact of_decide_eq_true hzero
  intro C hexact
  have hle : M + C ≤ literal n ::ₘ M + C := add_le_add_left (le_cons_self M _) C
  refine ⟨hexact.mono hle, ?_, fun k hk => ⟨?_, ?_⟩, ?_, fun hno => ⟨?_, ?_⟩⟩
  · rw [total_cons]
    change _ = n.item.total + _
    rw [htotal, zero_add]
  · rintro ⟨l, hl, hrank⟩
    exact ⟨l, mem_cons_of_mem hl, hrank⟩
  · rintro ⟨l, hl, hrank⟩
    rcases mem_cons.mp hl with rfl | hl
    · have hle := Num.rank_le n
      change n.item.rank = k at hrank
      omega
    · exact ⟨l, hl, hrank⟩
  · rintro ⟨l, hl, hrank⟩
    exact ⟨l, mem_cons_of_mem hl, hrank⟩
  · exact fun part hpart => hno part (hpart.trans hle)
  · rintro ⟨l, hl, hrank⟩
    rcases mem_cons.mp hl with rfl | hl
    · have hsingle : {literal n} ≤ literal n ::ₘ M + C :=
        singleton_le.mpr (mem_add.mpr (.inl (mem_cons_self _ _)))
      have hliteral : ∀ l ∈ ({literal n} : Leaves), l.literal = true := by
        intro l hl
        rw [mem_singleton.mp hl]
        rfl
      refine absurd ?_ (hno _ hsingle hliteral ⟨_, mem_singleton_self _, hrank⟩)
      rw [total_singleton]
      exact htotal
    · exact ⟨l, hl, hrank⟩

end Merges

section Reduce

variable {modes : Modes} {env : String → Item}

/-- A sum tree that takes the place of operands. -/
def Replaces (env : String → Item) (M : Leaves) (e : HbExpr) : Prop :=
  SumTree e ∧ Merges M (leaves env e)

theorem merges_add {M M' N : Leaves} (n1 n2 : Expr.Num) (hM : M = {literal n2} + {literal n1} + N)
    (hM' : M' = {literal (addNums n1 n2)} + N) : Merges M M' := by
  rw [hM, hM', add_comm {literal n2}, singleton_add]
  exact (merges_literals n1 n2).add_right N

theorem reducePlusNums_replaces {e' : HbExpr} (htree : SumTree e)
    (h : reducePlusNums e n = some e') : Replaces env ({literal n} + leaves env e) e' := by
  induction e, n using reducePlusNums.induct generalizing e' with
  | case1 n pRight pAdd =>
    obtain rfl := Option.some.inj h
    cases htree with
    | plus _ hright =>
      refine ⟨.plus (.numeric _) hright, ?_⟩
      exact merges_add n pAdd (add_assoc _ _ _).symm rfl
  | case2 pLeft n pAdd hno =>
    rw [reducePlusNums] at h
    · obtain rfl := Option.some.inj h
      cases htree with
      | plus hleft _ =>
        refine ⟨.plus hleft (.numeric _), ?_⟩
        refine merges_add n pAdd (N := leaves env pLeft) ?_ (add_comm _ _)
        change _ + (leaves env pLeft + {literal n}) = _
        rw [add_comm (leaves env pLeft), add_assoc]
    · exact hno
  | case3 pLeft pRight pOther pAdd hno ih =>
    rw [reducePlusNums] at h
    · obtain ⟨pSum, hsum, rfl⟩ := map_eq_some_iff.mp h
      cases htree with
      | plus hleft hright =>
        obtain ⟨hsumTree, hmerges⟩ := ih hleft hsum
        refine ⟨.plus hsumTree hright, ?_⟩
        have hright := hmerges.add_right (leaves env pOther)
        rw [add_assoc] at hright
        exact hright
    · exact hno
  | case4 pOther pLeft pRight pAdd hno hno' ih =>
    rw [reducePlusNums] at h
    · obtain ⟨pSum, hsum, rfl⟩ := map_eq_some_iff.mp h
      cases htree with
      | plus hleft hright =>
        obtain ⟨hsumTree, hmerges⟩ := ih hright hsum
        refine ⟨.plus hleft hsumTree, ?_⟩
        have hadd := hmerges.add_left (leaves env pOther)
        rw [add_left_comm] at hadd
        exact hadd
    · exact hno
    · exact hno'
  | case5 e n hno1 hno2 hno3 hno4 =>
    rw [reducePlusNums] at h
    · exact absurd h.symm (some_ne_none _)
    · exact hno1
    · exact hno2
    · exact hno3
    · exact hno4

theorem reducePlusNum_replaces {pOther pSelf : HbExpr} (n : Expr.Num) (hother : SumTree pOther)
    (hself : SumTree pSelf) (hleaves : leaves env pSelf = {literal n} + leaves env pOther) :
    Replaces env ({literal n} + leaves env pOther) (reducePlusNum modes n pOther pSelf) := by
  have hsame : Replaces env ({literal n} + leaves env pOther) pSelf :=
    ⟨hself, hleaves ▸ Merges.refl _⟩
  unfold reducePlusNum
  split_ifs with hzero hext
  · refine ⟨hother, ?_⟩
    exact merges_zero hzero.2 _
  · cases hnums : reducePlusNums pOther n with
    | none => exact hsame
    | some e' => exact reducePlusNums_replaces hother hnums
  · exact hsame

theorem reducePlus_replaces {pLeft pRight : HbExpr} (hleft : SumTree pLeft)
    (hright : SumTree pRight) :
    Replaces env (leaves env pLeft + leaves env pRight) (reducePlus modes pLeft pRight) := by
  have hself := SumTree.plus hleft hright
  cases hright with
  | numeric n2 =>
    cases hleft with
    | numeric n1 => exact ⟨.numeric _, merges_literals n1 n2⟩
    | var name =>
      rw [add_comm]
      exact reducePlusNum_replaces n2 (.var name) hself (add_comm _ _)
    | plus hleft1 hleft2 =>
      rw [add_comm]
      exact reducePlusNum_replaces n2 (.plus hleft1 hleft2) hself (add_comm _ _)
  | var name =>
    cases hleft with
    | numeric n1 => exact reducePlusNum_replaces n1 (.var name) hself rfl
    | var name1 => exact ⟨hself, .refl _⟩
    | plus hleft1 hleft2 => exact ⟨hself, .refl _⟩
  | plus hright1 hright2 =>
    cases hleft with
    | numeric n1 => exact reducePlusNum_replaces n1 (.plus hright1 hright2) hself rfl
    | var name1 => exact ⟨hself, .refl _⟩
    | plus hleft1 hleft2 => exact ⟨hself, .refl _⟩

theorem SumTree.reduce_replaces (htree : SumTree e) (modes : Modes) (env : String → Item) :
    Replaces env (leaves env e) (reduce modes e) := by
  induction htree with
  | numeric n => exact ⟨.numeric n, .refl _⟩
  | var name => exact ⟨.var name, .refl _⟩
  | plus _ _ ihleft ihright =>
    obtain ⟨hleft, hmergesLeft⟩ := ihleft
    obtain ⟨hright, hmergesRight⟩ := ihright
    obtain ⟨htree, hmerges⟩ := @reducePlus_replaces modes env _ _ hleft hright
    exact ⟨htree, (hmergesLeft.add hmergesRight).trans hmerges⟩

end Reduce

section Value

variable {M M' : Leaves} {item' : Item}

theorem same_of_total (hrank : item.rank = item'.rank) (htotal : item.total = item'.total)
    (hle : item.rank ≤ 3) (hnormal : item.Normal) (hnormal' : item'.Normal) :
    Item.Same item item' := by
  cases item with
  | numInt fLong n =>
    cases item' with
    | numInt fLong' n' => exact Int.cast_injective htotal
    | double _ | date _ | timestamp _ _ | nil | logical _ | string _ => exact nomatch hrank
  | double d =>
    cases item' with
    | double d' => exact congrArg Item.double (ext htotal)
    | numInt _ _ | date _ | timestamp _ _ | nil | logical _ | string _ => exact nomatch hrank
  | date j =>
    cases item' with
    | date j' => exact congrArg Item.date (Int.cast_injective htotal)
    | numInt _ _ | double _ | timestamp _ _ | nil | logical _ | string _ => exact nomatch hrank
  | timestamp j t =>
    cases item' with
    | timestamp j' t' =>
      have hday := millisecsPerDay_pos
      have hmul : (j : ℚ) * millisecsPerDay + t = j' * millisecsPerDay + t' := by
        have heq : (j : ℚ) + t / millisecsPerDay = j' + t' / millisecsPerDay := htotal
        field_simp at heq
        linarith
      have hint : j * millisecsPerDay + t = j' * millisecsPerDay + t' := by exact_mod_cast hmul
      obtain ⟨hlow, hhigh⟩ := hnormal
      obtain ⟨hlow', hhigh'⟩ := hnormal'
      unfold millisecsPerDay at hint hhigh hhigh'
      have hj : j = j' := by omega
      have ht : t = t' := by omega
      rw [hj, ht]
      rfl
    | numInt _ _ | double _ | date _ | nil | logical _ | string _ => exact nomatch hrank
  | nil | logical _ | string _ => exact absurd hle (Nat.not_succ_le_self 3)

theorem rank_cases (hr : Rewritten M M' 0) (h : Sums item M) (h' : Sums item' M') :
    item.rank = item'.rank ∨ item.rank = 1 ∧ item'.rank = 0 := by
  have hup : 2 ≤ item.rank → item.rank ≤ item'.rank := by
    intro hrank
    obtain ⟨l, hl, heq⟩ := (hr.time _ hrank).mpr (h.has rfl)
    exact heq ▸ h'.bound l hl
  have hdown : 2 ≤ item'.rank → item'.rank ≤ item.rank := by
    intro hrank
    obtain ⟨l, hl, heq⟩ := (hr.time _ hrank).mp (h'.has rfl)
    exact heq ▸ h.bound l hl
  have hone : item'.rank = 1 → 1 ≤ item.rank := by
    intro hrank
    obtain ⟨l, hl, heq⟩ := hr.double (h'.has hrank)
    exact heq ▸ h.bound l hl
  omega

theorem double_of_rank (h : item.rank = 1) : ∃ d, item = .double d := by
  cases item with
  | double d => exact ⟨d, rfl⟩
  | numInt _ _ | date _ | timestamp _ _ | nil | logical _ | string _ => exact nomatch h

theorem numInt_of_rank (h : item.rank = 0) : ∃ fLong n, item = .numInt fLong n := by
  cases item with
  | numInt fLong n => exact ⟨fLong, n, rfl⟩
  | double _ | date _ | timestamp _ _ | nil | logical _ | string _ => exact nomatch h

end Value

/-- Where all partial sums are exact, extended optimisation keeps the value of a sum of numbers,
dates and timestamps. Its type may only change from a double to an integer, and only where literals
with a decimal among them add up to zero. -/
theorem reduce_sum (modes : Modes) (env : String → Item) (e : HbExpr) (htree : SumTree e)
    (hexact : Exact (leaves env e)) :
    ∃ item item', eval modes env e = .ok item ∧ eval modes env (reduce modes e) = .ok item' ∧
      (item.Same item' ∨
        ∃ d fLong n, item = .double d ∧ item' = .numInt fLong n ∧ d.value = n) ∧
      (NoZero (leaves env e) → item.Same item') := by
  obtain ⟨htree', hmerges⟩ := htree.reduce_replaces modes env
  have hr := hmerges 0 (by rw [add_zero]; exact hexact)
  have hexact' := hr.exact
  rw [add_zero] at hexact'
  obtain ⟨item, heq, h⟩ := htree.eval_sums modes env hexact
  obtain ⟨item', heq', h'⟩ := htree'.eval_sums modes env hexact'
  have htotal : item.total = item'.total := by rw [h.sum, h'.sum, hr.sum]
  have hsame : item.rank = item'.rank → item.Same item' := fun hrank =>
    same_of_total hrank htotal (h.rank_le hexact) h.normal h'.normal
  refine ⟨item, item', heq, heq', ?_, fun hzero => ?_⟩
  · rcases rank_cases hr h h' with hrank | ⟨hrank, hrank'⟩
    · exact .inl (hsame hrank)
    · obtain ⟨d, rfl⟩ := double_of_rank hrank
      obtain ⟨fLong, n, rfl⟩ := numInt_of_rank hrank'
      exact .inr ⟨d, fLong, n, rfl, rfl, htotal⟩
  · rcases rank_cases hr h h' with hrank | ⟨hrank, hrank'⟩
    · exact hsame hrank
    · obtain ⟨-, hkeeps⟩ := hr.noZero (by rw [add_zero]; exact hzero)
      obtain ⟨l, hl, hone⟩ := hkeeps (h.has hrank)
      have hbound := h'.bound l hl
      omega

section Bounded

variable {M : Leaves}

def size (M : Leaves) : ℚ := (M.map fun l => |l.item.total|).sum

theorem size_add (A B : Leaves) : size (A + B) = size A + size B := by
  unfold size
  rw [map_add, sum_add]

theorem size_singleton (l : Leaf) : size {l} = |l.item.total| := sum_singleton _

theorem size_nonneg (M : Leaves) : 0 ≤ size M := by
  refine sum_nonneg fun q hq => ?_
  obtain ⟨l, -, rfl⟩ := mem_map.mp hq
  exact abs_nonneg _

theorem abs_total_le (M : Leaves) : |total M| ≤ size M := by
  exact Multiset.abs_sum_le_sum_abs.trans_eq (by rw [Multiset.map_map]; rfl)

theorem fits_of_size (hsize : size M ≤ 2 ^ 63 - 1) (hle : part ≤ M) : Fits (total part) := by
  obtain ⟨rest, rfl⟩ := Multiset.le_iff_exists_add.mp hle
  rw [size_add] at hsize
  have hrest := size_nonneg rest
  have habs := abs_le.mp (abs_total_le part)
  exact ⟨by linarith [habs.1], by linarith [habs.2]⟩

end Bounded

def defaultModes : Modes := ⟨true, true, true, true, true⟩

def sumTree (n1 n2 : Expr.Num) : HbExpr :=
  .binary .plus (.binary .plus (.var "x") (.numeric n1)) (.numeric n2)

theorem sumTree_sum (n1 n2 : Expr.Num) : SumTree (sumTree n1 n2) :=
  .plus (.plus (.var _) (.numeric _)) (.numeric _)

theorem sumTree_leaves (x : Item) (n1 n2 : Expr.Num) :
    leaves (fun _ => x) (sumTree n1 n2) = ⟨false, x⟩ ::ₘ literal n1 ::ₘ {literal n2} := by
  change {_} + {_} + {_} = _
  rw [add_assoc, singleton_add, singleton_add]
  rfl

def dbl (q : ℚ) : Expr.Num := .double (round q)

def noon : Item := .timestamp 2460000 43200000

theorem quarter_value : (round (1 / 4) : Double).value = 1 / 4 :=
  round_value ⟨1, -2, by decide, by norm_num⟩

theorem half_total : (literal (dbl (1 / 2))).item.total = 1 / 2 := half_value

theorem quarter_total : (literal (dbl (1 / 4))).item.total = 1 / 4 := quarter_value

theorem noon_total : noon.total = 2460000 + 1 / 2 := by
  change ((2460000 : Int) : ℚ) + ((43200000 : Int) : ℚ) / millisecsPerDay = _
  unfold millisecsPerDay
  norm_num

/-- The sums of the numbers beside the timestamp. -/
theorem noon_parts {part : Leaves}
    (hle : part ≤ ⟨false, noon⟩ ::ₘ literal (dbl (1 / 2)) ::ₘ {literal (dbl (1 / 4))})
    (hnum : ∀ l ∈ part, l.item.rank ≤ 1) :
    part = 0 ∨ ∃ m : ℤ, 0 < m ∧ m < 4 ∧ total part = m / 4 := by
  have hnot : (⟨false, noon⟩ : Leaf) ∉ part := fun hmem => absurd (hnum _ hmem) (by decide)
  rw [le_cons_of_notMem hnot] at hle
  have hquarter : total {literal (dbl (1 / 4))} = 1 / 4 :=
    (total_singleton _).trans quarter_total
  rcases le_cons_cases hle with hle | ⟨rest, hrest, rfl⟩
  · rcases le_singleton.mp hle with rfl | rfl
    · exact .inl rfl
    · exact .inr ⟨1, by decide, by decide, by rw [hquarter]; norm_num⟩
  · right
    rw [total_cons, half_total]
    rcases le_singleton.mp hrest with rfl | rfl
    · exact ⟨2, by decide, by decide, by rw [total, map_zero, sum_zero]; norm_num⟩
    · exact ⟨3, by decide, by decide, by rw [hquarter]; norm_num⟩

theorem noon_exact : Exact (leaves (fun _ => noon) (sumTree (dbl (1 / 2)) (dbl (1 / 4)))) := by
  rw [sumTree_leaves]
  have hcases :
      ∀ l ∈ (⟨false, noon⟩ ::ₘ literal (dbl (1 / 2)) ::ₘ {literal (dbl (1 / 4))} : Leaves),
        l = ⟨false, noon⟩ ∨ l = literal (dbl (1 / 2)) ∨ l = literal (dbl (1 / 4)) := by
    intro l hl
    rcases mem_cons.mp hl with rfl | hl
    · exact .inl rfl
    · rcases mem_cons.mp hl with rfl | hl
      · exact .inr (.inl rfl)
      · exact .inr (.inr (mem_singleton.mp hl))
  have hnonneg : ∀ part ≤ (⟨false, noon⟩ ::ₘ literal (dbl (1 / 2)) ::ₘ
      {literal (dbl (1 / 4))} : Leaves), 0 ≤ total part := by
    intro part hle
    refine sum_nonneg fun q hq => ?_
    obtain ⟨l, hl, rfl⟩ := mem_map.mp hq
    rcases hcases l (mem_of_le hle hl) with rfl | rfl | rfl
    · rw [noon_total]
      norm_num
    · rw [half_total]
      norm_num
    · rw [quarter_total]
      norm_num
  refine ⟨fun l hl => ?_, fun l hl => ?_, fun part hle => fits_of_size ?_ hle,
    fun _ part hle hnum => ?_, fun hdate => ?_, fun _ part hle hnum hdouble => ?_,
    fun _ part hle _ => hnonneg part hle⟩
  · rcases hcases l hl with rfl | rfl | rfl <;> decide
  · rcases hcases l hl with rfl | rfl | rfl
    · exact ⟨by decide, by decide⟩
    · trivial
    · trivial
  · rw [← singleton_add, size_add, ← singleton_add, size_add, size_singleton, size_singleton,
      size_singleton, noon_total, half_total, quarter_total]
    norm_num
  · rcases noon_parts hle hnum with rfl | ⟨m, hlow, hhigh, hm⟩
    · exact ⟨0, 0, by decide, by rw [total, map_zero, sum_zero]; norm_num⟩
    · refine ⟨m, -2, abs_lt.mpr ⟨by omega, by omega⟩, ?_⟩
      rw [hm]
      norm_num
      ring
  · obtain ⟨l, hl, hrank⟩ := hdate
    rcases hcases l hl with rfl | rfl | rfl <;> exact absurd hrank (by decide)
  · rcases noon_parts hle hnum with rfl | ⟨m, hlow, hhigh, hm⟩
    · obtain ⟨l, hl, -⟩ := hdouble
      exact absurd hl (notMem_zero l)
    · refine ⟨m * 21600000, ?_, by omega, by omega⟩
      rw [hm]
      unfold millisecsPerDay
      push_cast
      ring

theorem reduce_sum_noon : ∃ item item',
    eval defaultModes (fun _ => noon) (sumTree (dbl (1 / 2)) (dbl (1 / 4))) = .ok item ∧
      eval defaultModes (fun _ => noon)
        (reduce defaultModes (sumTree (dbl (1 / 2)) (dbl (1 / 4)))) = .ok item' ∧
      (item.Same item' ∨
        ∃ d fLong n, item = .double d ∧ item' = .numInt fLong n ∧ d.value = n) ∧
      (NoZero (leaves (fun _ => noon) (sumTree (dbl (1 / 2)) (dbl (1 / 4)))) → item.Same item') :=
  reduce_sum defaultModes _ _ (sumTree_sum _ _) noon_exact

theorem ok_of_toOption {r : Except VmError Item} (h : r.toOption = some item) : r = .ok item := by
  cases r with
  | error e => exact nomatch h
  | ok item' => exact congrArg Except.ok (Option.some.inj h)

/-- The values of a sum of a variable and two literals, before and after the reduction. -/
def values (x : Item) (n1 n2 : Expr.Num) : Option Item × Option Item :=
  ((eval defaultModes (fun _ => x) (sumTree n1 n2)).toOption,
    (eval defaultModes (fun _ => x) (reduce defaultModes (sumTree n1 n2))).toOption)

/-- A date drops the half of a day twice, but not the day that two halves are. A timestamp rounds
parts of a millisecond, negative doubles and large ones each time, and does not carry over the first
day as it does behind it. Doubles round each sum, and a decimal zero is dropped with its type. -/
theorem reduce_sum_halves :
    (¬ ∀ (modes : Modes) (env : String → Item) (e : HbExpr), SumTree e →
      (∀ name, (env name).rank = 0 ∨ (env name).rank = 2 ∨ (env name).rank = 3) →
      (∀ part ≤ leaves env e, Fits (total part)) → ∀ item, eval modes env e = .ok item →
      ∃ item', eval modes env (reduce modes e) = .ok item' ∧ item.Same item') ∧
    values (.timestamp 0 0) (dbl (1 / 2 ^ 28)) (dbl (1 / 2 ^ 28)) =
      (some (.timestamp 0 0), some (.timestamp 0 1)) ∧
    values (.timestamp 5 0) (dbl (-1)) (dbl (-1)) =
      (some (.timestamp 3 2), some (.timestamp 3 1)) ∧
    values (.timestamp 0 0) (dbl (55000000 + 1 / 1024)) (dbl (55000000 + 1 / 1024)) =
      (some (.timestamp 110000000 168752), some (.timestamp 110000000 168750)) ∧
    values (.timestamp 0 1) (.long (-2)) (.long 1) =
      (some (.timestamp (-1) 1), some (.timestamp 0 (1 - millisecsPerDay))) ∧
    values (.numInt true (2 ^ 53)) (dbl 1) (dbl 1) =
      (some (.double (round (2 ^ 53))), some (.double (round (2 ^ 53 + 2)))) ∧
    values (.numInt false 1) (dbl 0) (.long 1) =
      (some (.double (round 2)), some (.numInt false 2)) := by
  refine ⟨fun h => ?_, by decide +kernel, by decide +kernel, by decide +kernel, by decide +kernel,
    by decide +kernel, by decide +kernel⟩
  have hvalues : values (.date 0) (dbl (1 / 2)) (dbl (1 / 2)) =
      (some (.date 0), some (.date 1)) := by decide +kernel
  obtain ⟨hbefore, hafter⟩ := Prod.mk.inj hvalues
  have hfits : ∀ part ≤ leaves (fun _ => .date 0) (sumTree (dbl (1 / 2)) (dbl (1 / 2))),
      Fits (total part) := by
    intro part hle
    refine fits_of_size ?_ hle
    rw [sumTree_leaves, ← singleton_add, size_add, ← singleton_add, size_add, size_singleton,
      size_singleton, half_total]
    change |((0 : Int) : ℚ)| + (|(1 / 2 : ℚ)| + |(1 / 2 : ℚ)|) ≤ _
    norm_num
  obtain ⟨item', heval, hsame⟩ := h defaultModes (fun _ => .date 0) _ (sumTree_sum _ _)
    (fun _ => .inr (.inl rfl)) hfits _ (ok_of_toOption hbefore)
  obtain rfl := Except.ok.inj (heval.symm.trans (ok_of_toOption hafter))
  have hday : Item.date 0 = Item.date 1 := hsame
  exact absurd hday (by decide)

end Harbour.Compiler.FoldSums
