import Harbour.Compiler.Expr
import Harbour.Vm.Sums

/-!
The sums that extended optimisation orders anew: when they keep their value.
-/

namespace Harbour.Compiler.FoldSums

open Vm.Operators Library.Rounding Harbour.Compiler.Expr Multiset

structure Leaf where
  literal : Bool
  item : Item

abbrev Leaves := Multiset Leaf

def leaves (env : String → Item) : HbExpr → Leaves
  | .numeric n => {⟨true, n.item⟩}
  | .var name => {⟨false, env name⟩}
  | .binary .plus pLeft pRight => leaves env pLeft + leaves env pRight
  | _ => 0

/-- Variables and numeric literals joined by `+`. -/
inductive SumTree : HbExpr → Prop
  | numeric (n : Expr.Num) : SumTree (.numeric n)
  | var (name : String) : SumTree (.var name)
  | plus {pLeft pRight : HbExpr} :
      SumTree pLeft → SumTree pRight → SumTree (.binary .plus pLeft pRight)

def total (M : Leaves) : ℚ := (M.map fun l => l.item.total).sum

/-- The operands of a sum all of whose partial sums are exact: they fit in 64 bits, those of numbers
in a double if there is a double. Beside a date the numbers are whole; beside a timestamp doubles
add up to milliseconds, and no sum is in front of the first day. -/
structure Exact (M : Leaves) : Prop where
  typed : ∀ l ∈ M, l.item.rank ≤ 3
  normal : ∀ l ∈ M, l.item.Normal
  fits : ∀ part ≤ M, Fits (total part)
  exact : (∃ l ∈ M, l.item.rank = 1) →
    ∀ part ≤ M, (∀ l ∈ part, l.item.rank ≤ 1) → Representable 53 (total part)
  whole : (∃ l ∈ M, l.item.rank = 2) → ∀ l ∈ M, l.item.rank ≤ 1 → ∃ n : ℤ, l.item.total = n
  millis : (∃ l ∈ M, l.item.rank = 3) → ∀ part ≤ M, (∀ l ∈ part, l.item.rank ≤ 1) →
    (∃ l ∈ part, l.item.rank = 1) → Millis (total part)
  stamp : (∃ l ∈ M, l.item.rank = 3) → ∀ part ≤ M, (∃ l ∈ part, 2 ≤ l.item.rank) →
    0 ≤ total part

/-- No partial sum of literals with a decimal among them is zero. -/
def NoZero (M : Leaves) : Prop :=
  ∀ part ≤ M, (∀ l ∈ part, l.literal = true) → (∃ l ∈ part, l.item.rank = 1) → total part ≠ 0

section Leaves

variable {M M' A B C : Leaves} {k : Nat}

theorem total_add (A B : Leaves) : total (A + B) = total A + total B := by
  unfold total
  rw [map_add, sum_add]

theorem total_cons (l : Leaf) (M : Leaves) : total (l ::ₘ M) = l.item.total + total M := by
  unfold total
  rw [map_cons, sum_cons]

theorem total_singleton (l : Leaf) : total {l} = l.item.total := sum_singleton _

theorem Exact.mono (h : Exact M) (hle : M' ≤ M) : Exact M' where
  typed l hl := h.typed l (mem_of_le hle hl)
  normal l hl := h.normal l (mem_of_le hle hl)
  fits part hpart := h.fits part (hpart.trans hle)
  exact := by
    rintro ⟨l, hl, hrank⟩ part hpart
    exact h.exact ⟨l, mem_of_le hle hl, hrank⟩ part (hpart.trans hle)
  whole := by
    rintro ⟨l, hl, hrank⟩ l' hl'
    exact h.whole ⟨l, mem_of_le hle hl, hrank⟩ l' (mem_of_le hle hl')
  millis := by
    rintro ⟨l, hl, hrank⟩ part hpart
    exact h.millis ⟨l, mem_of_le hle hl, hrank⟩ part (hpart.trans hle)
  stamp := by
    rintro ⟨l, hl, hrank⟩ part hpart
    exact h.stamp ⟨l, mem_of_le hle hl, hrank⟩ part (hpart.trans hle)

theorem le_cons_cases {l : Leaf} {part : Leaves} (h : part ≤ l ::ₘ M) :
    part ≤ M ∨ ∃ rest ≤ M, part = l ::ₘ rest := by
  by_cases hmem : l ∈ part
  · obtain ⟨rest, rfl⟩ := exists_cons_of_mem hmem
    exact .inr ⟨rest, (cons_le_cons_iff l).mp h, rfl⟩
  · exact .inl ((le_cons_of_notMem hmem).mp h)

theorem total_whole (h : ∀ l ∈ M, ∃ n : ℤ, l.item.total = n) : ∃ n : ℤ, total M = n := by
  induction M using Multiset.induction with
  | empty => exact ⟨0, by rw [total, map_zero, sum_zero, Int.cast_zero]⟩
  | cons l M ih =>
    obtain ⟨n, hn⟩ := h l (mem_cons_self l M)
    obtain ⟨m, hm⟩ := ih fun l' hl' => h l' (mem_cons_of_mem hl')
    exact ⟨n + m, by rw [total_cons, hn, hm, Int.cast_add]⟩

end Leaves

structure Sums (item : Item) (M : Leaves) : Prop where
  sum : item.total = total M
  greatest : ∃ l ∈ M, l.item.rank = item.rank
  bound : ∀ l ∈ M, l.item.rank ≤ item.rank
  normal : item.Normal

section Eval

variable {M A B : Leaves} {item item1 item2 : Item}

theorem Sums.singleton {l : Leaf} (h : Exact {l}) : Sums l.item {l} where
  sum := (total_singleton l).symm
  greatest := ⟨l, mem_singleton_self l, rfl⟩
  bound l' hl' := by rw [mem_singleton.mp hl']
  normal := h.normal l (mem_singleton_self l)

theorem Sums.has (h : Sums item A) {k : Nat} (hrank : item.rank = k) :
    ∃ l ∈ A, l.item.rank = k := by
  obtain ⟨l, hl, heq⟩ := h.greatest
  exact ⟨l, hl, heq.trans hrank⟩

theorem Sums.has_time (h : Sums item A) (hrank : 2 ≤ item.rank) : ∃ l ∈ A, 2 ≤ l.item.rank := by
  obtain ⟨l, hl, heq⟩ := h.greatest
  exact ⟨l, hl, heq ▸ hrank⟩

theorem exists_left {p : Leaf → Prop} (h : ∃ l ∈ A, p l) : ∃ l ∈ A + B, p l := by
  obtain ⟨l, hl, hp⟩ := h
  exact ⟨l, mem_add.mpr (.inl hl), hp⟩

theorem exists_right {p : Leaf → Prop} (h : ∃ l ∈ B, p l) : ∃ l ∈ A + B, p l := by
  obtain ⟨l, hl, hp⟩ := h
  exact ⟨l, mem_add.mpr (.inr hl), hp⟩

theorem Sums.whole (hM : Exact M) (hle : A ≤ M) (h : Sums item A) (hrank : item.rank ≤ 1)
    (hdate : ∃ l ∈ M, l.item.rank = 2) : ∃ n : ℤ, item.total = n := by
  rw [h.sum]
  refine total_whole fun l hl => ?_
  exact hM.whole hdate l (mem_of_le hle hl) ((h.bound l hl).trans hrank)

theorem Sums.millis (hM : Exact M) (hle : A ≤ M) (h : Sums item A) (hrank : item.rank = 1)
    (hstamp : ∃ l ∈ M, l.item.rank = 3) : Millis item.total := by
  rw [h.sum]
  exact hM.millis hstamp A hle (fun l hl => hrank ▸ h.bound l hl) (h.has hrank)

theorem Sums.addable (hM : Exact (A + B)) (h1 : Sums item1 A) (h2 : Sums item2 B) :
    Addable item1 item2 := by
  have hA : A ≤ A + B := le_add_right A B
  have hB : B ≤ A + B := le_add_left B A
  have hsum : item1.total + item2.total = total (A + B) := by rw [h1.sum, h2.sum, total_add]
  refine ⟨?_, ?_, ?_, ?_, ?_, ?_, ?_, ?_, h1.normal, h2.normal⟩
  · rw [h1.sum]
    exact hM.fits A hA
  · rw [h2.sum]
    exact hM.fits B hB
  · rw [hsum]
    exact hM.fits _ le_rfl
  · intro hdouble hrank1 hrank2
    have hhas : ∃ l ∈ A + B, l.item.rank = 1 := by
      rcases hdouble with hdouble | hdouble
      · exact exists_left (h1.has hdouble)
      · exact exists_right (h2.has hdouble)
    have hnumA : ∀ l ∈ A, l.item.rank ≤ 1 := fun l hl => (h1.bound l hl).trans hrank1
    have hnumB : ∀ l ∈ B, l.item.rank ≤ 1 := fun l hl => (h2.bound l hl).trans hrank2
    refine ⟨?_, ?_, ?_⟩
    · rw [h1.sum]
      exact hM.exact hhas A hA hnumA
    · rw [h2.sum]
      exact hM.exact hhas B hB hnumB
    · rw [hsum]
      exact hM.exact hhas _ le_rfl fun l hl => (mem_add.mp hl).elim (hnumA l) (hnumB l)
  · intro hdate hrank
    exact h1.whole hM hA hrank (exists_right (h2.has hdate))
  · intro hdate hrank
    exact h2.whole hM hB hrank (exists_left (h1.has hdate))
  · intro hstamp
    have hhas : ∃ l ∈ A + B, l.item.rank = 3 := exists_left (h1.has hstamp)
    have hpos := hM.stamp hhas
    have htime := h1.has_time (hstamp ▸ Nat.le_succ 2)
    refine ⟨fun hrank => h2.millis hM hB hrank hhas, ?_, ?_, ?_⟩
    · rw [h1.sum]
      exact hpos A hA htime
    · rw [hsum]
      exact hpos _ le_rfl (exists_left htime)
    · intro htime2
      rw [h2.sum]
      exact hpos B hB (h2.has_time htime2)
  · intro hstamp
    have hhas : ∃ l ∈ A + B, l.item.rank = 3 := exists_right (h2.has hstamp)
    have hpos := hM.stamp hhas
    have htime := h2.has_time (hstamp ▸ Nat.le_succ 2)
    refine ⟨fun hrank => h1.millis hM hA hrank hhas, ?_, ?_, ?_⟩
    · rw [h2.sum]
      exact hpos B hB htime
    · rw [hsum]
      exact hpos _ le_rfl (exists_right htime)
    · intro htime1
      rw [h1.sum]
      exact hpos A hA (h1.has_time htime1)

theorem Sums.rank_le (hM : Exact M) (h : Sums item M) : item.rank ≤ 3 := by
  obtain ⟨l, hl, heq⟩ := h.greatest
  exact heq ▸ hM.typed l hl

theorem Sums.plus (hM : Exact (A + B)) (h1 : Sums item1 A) (h2 : Sums item2 B) :
    ∃ item, vmPlus item1 item2 = .ok item ∧ Sums item (A + B) := by
  have hrank1 := h1.rank_le (hM.mono (le_add_right A B))
  have hrank2 := h2.rank_le (hM.mono (le_add_left B A))
  obtain ⟨item, heq, hsum⟩ := vmPlus_sum (h1.addable hM h2) hrank1 hrank2
  refine ⟨item, heq, ?_, ?_, ?_, hsum.normal⟩
  · rw [hsum.total, h1.sum, h2.sum, total_add]
  · rw [hsum.rank]
    rcases le_total item1.rank item2.rank with hle | hle
    · rw [max_eq_right hle]
      exact exists_right (h2.has rfl)
    · rw [max_eq_left hle]
      exact exists_left (h1.has rfl)
  · intro l hl
    rw [hsum.rank]
    rcases mem_add.mp hl with hl | hl
    · exact (h1.bound l hl).trans (le_max_left _ _)
    · exact (h2.bound l hl).trans (le_max_right _ _)

theorem SumTree.eval_sums {e : HbExpr} (htree : SumTree e) (modes : Modes) (env : String → Item)
    (hexact : Exact (leaves env e)) :
    ∃ item, eval modes env e = .ok item ∧ Sums item (leaves env e) := by
  induction htree with
  | numeric n => exact ⟨n.item, rfl, Sums.singleton hexact⟩
  | var name => exact ⟨env name, rfl, Sums.singleton hexact⟩
  | plus hleft hright ihleft ihright =>
    rename_i pLeft pRight
    obtain ⟨item1, heq1, h1⟩ := ihleft (hexact.mono (le_add_right _ _))
    obtain ⟨item2, heq2, h2⟩ := ihright (hexact.mono (le_add_left _ _))
    obtain ⟨item, heq, hsum⟩ := h1.plus hexact h2
    refine ⟨item, ?_, hsum⟩
    rw [eval_binary modes env pLeft pRight (by decide) (by decide), heq1, heq2]
    exact heq

end Eval

end Harbour.Compiler.FoldSums
