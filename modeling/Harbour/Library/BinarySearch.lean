import Mathlib.Data.List.Perm.Basic

namespace Harbour.Library.BinarySearch

open List

/-- Bisection of `[left, right)` driven by a three-way comparison of each
position with the sought key: the position of a match, or the boundary between
the smaller and the greater positions. -/
def search (cmpAt : Nat → Int) (left right : Nat) : Bool × Nat :=
  if left < right then
    let middle := (left + right) / 2
    if cmpAt middle = 0 then (true, middle)
    else if cmpAt middle < 0 then search cmpAt (middle + 1) right
    else search cmpAt left middle
  else (false, left)
termination_by right - left

/-- Bisection that walks past every position not greater than the key. -/
def upperBound (cmpAt : Nat → Int) (left right : Nat) : Nat :=
  if left < right then
    let middle := (left + right) / 2
    if cmpAt middle > 0 then upperBound cmpAt left middle
    else upperBound cmpAt (middle + 1) right
  else left
termination_by right - left

/-- The comparisons of an ordered sequence of length `n` with one key: their
signs never go down. -/
def Ascending (cmpAt : Nat → Int) (n : Nat) : Prop :=
  ∀ i j, i < j → j < n → (cmpAt j < 0 → cmpAt i < 0) ∧ (0 < cmpAt i → 0 < cmpAt j)

/-- The comparisons of a strictly increasing sequence of length `n` with one
key: once a position is not greater, all earlier ones are smaller. -/
def Increasing (cmpAt : Nat → Int) (n : Nat) : Prop :=
  ∀ i j, i < j → j < n → cmpAt j ≤ 0 → cmpAt i < 0

variable {left n right : Nat}

theorem Increasing.ascending {cmpAt : Nat → Int} (h : Increasing cmpAt n) :
    Ascending cmpAt n := by
  intro i j hij hj
  refine ⟨fun hneg => h i j hij hj (Int.le_of_lt hneg), fun hpos => ?_⟩
  by_contra hle
  have hneg := h i j hij hj (Int.not_lt.mp hle)
  omega

/-- What a bisection of `[0, n)` promises of its answer. -/
def Located (cmpAt : Nat → Int) (n : Nat) : Bool × Nat → Prop
  | (true, position) => position < n ∧ cmpAt position = 0
  | (false, position) => position ≤ n ∧ (∀ i < position, cmpAt i < 0) ∧
      ∀ i, position ≤ i → i < n → 0 < cmpAt i

section

variable (cmpAt : Nat → Int)

include cmpAt

theorem search_located (hascending : Ascending cmpAt n) (hleft : left ≤ right) (hright : right ≤ n)
    (hsmaller : ∀ i < left, cmpAt i < 0) (hgreater : ∀ i, right ≤ i → i < n → 0 < cmpAt i) :
    Located cmpAt n (search cmpAt left right) := by
  fun_induction search cmpAt left right with
  | case1 left right hlt middle hzero =>
    exact ⟨by omega, hzero⟩
  | case2 left right hlt middle hzero hneg ih =>
    apply ih (by omega) hright
    · intro i hi
      rcases Nat.lt_or_eq_of_le (Nat.lt_succ_iff.mp hi) with him | rfl
      · exact (hascending i middle him (by omega)).1 hneg
      · exact hneg
    · exact hgreater
  | case3 left right hlt middle hzero hneg ih =>
    have hpos : 0 < cmpAt middle := by omega
    apply ih (by omega) (by omega) hsmaller
    intro i hi hin
    rcases Nat.eq_or_lt_of_le hi with rfl | him
    · exact hpos
    · exact (hascending middle i him hin).2 hpos
  | case4 left right hlt =>
    obtain rfl : left = right := by omega
    exact ⟨hright, hsmaller, hgreater⟩

theorem search_zero_located (hascending : Ascending cmpAt n) :
    Located cmpAt n (search cmpAt 0 n) :=
  search_located cmpAt hascending (Nat.zero_le n) Nat.le.refl (by simp) (by omega)

theorem search_bounds (hle : left ≤ right) :
    (search cmpAt left right).2 ≤ right ∧
      ((search cmpAt left right).1 = true →
        (search cmpAt left right).2 < right ∧ cmpAt (search cmpAt left right).2 = 0) := by
  fun_induction search cmpAt left right with
  | case1 left right hlt middle hzero =>
    exact ⟨by dsimp only; omega, fun _ => ⟨by dsimp only; omega, hzero⟩⟩
  | case2 left right hlt middle hzero hneg ih =>
    exact ih (by omega)
  | case3 left right hlt middle hzero hneg ih =>
    obtain ⟨hbound, hhit⟩ := ih (by omega)
    refine ⟨by omega, fun hfound => ?_⟩
    obtain ⟨hlt', hmatch⟩ := hhit hfound
    exact ⟨by omega, hmatch⟩
  | case4 left right hlt =>
    exact ⟨hle, fun hfound => absurd hfound Bool.false_ne_true⟩

theorem search_ge (left right : Nat) : left ≤ (search cmpAt left right).2 := by
  fun_induction search cmpAt left right with
  | case1 left right hlt middle hzero => exact Nat.le_div_iff_mul_le (by decide) |>.mpr (by omega)
  | case2 left right hlt middle hzero hneg ih => omega
  | case3 left right hlt middle hzero hneg ih => exact ih
  | case4 left right hlt => exact Nat.le_refl left

end

theorem increasing_of_search (cmp : Nat → Nat → Int) (left right : Nat)
    (hswap : ∀ i < right, ∀ j < right, 0 < cmp i j ↔ cmp j i < 0)
    (htrans : ∀ i < right, ∀ j < right, ∀ k < right, cmp i j < 0 → cmp j k < 0 → cmp i k < 0)
    (hself : ∀ i, left ≤ i → i < right → search (fun n => cmp n i) left right = (true, i)) :
    ∀ i j, left ≤ i → i < j → j < right → cmp i j < 0 := by
  obtain hle | hlt := Nat.lt_or_ge left right |>.symm
  · intro i j hi hij hj
    omega
  have hmiddle : left ≤ (left + right) / 2 ∧ (left + right) / 2 < right := by omega
  generalize hdef : (left + right) / 2 = middle at hmiddle
  have hstep : ∀ i, search (fun n => cmp n i) left right =
      if cmp middle i = 0 then (true, middle)
      else if cmp middle i < 0 then search (fun n => cmp n i) (middle + 1) right
      else search (fun n => cmp n i) left middle := by
    intro i
    rw [search, if_pos hlt, hdef]
  -- a bisection never leaves the half that it goes to
  have hbelow : ∀ i, left ≤ i → i < middle →
      0 < cmp middle i ∧ search (fun n => cmp n i) left middle = (true, i) := by
    intro i hi him
    have hfound := hself i hi (by omega)
    rw [hstep] at hfound
    split_ifs at hfound with hzero hneg
    · have hsame := congrArg Prod.snd hfound
      omega
    · have hge := search_ge (fun n => cmp n i) (middle + 1) right
      rw [hfound] at hge
      omega
    · exact ⟨by omega, hfound⟩
  have habove : ∀ i, middle < i → i < right →
      cmp middle i < 0 ∧ search (fun n => cmp n i) (middle + 1) right = (true, i) := by
    intro i him hi
    have hfound := hself i (by omega) hi
    rw [hstep] at hfound
    split_ifs at hfound with hzero hneg
    · have hsame := congrArg Prod.snd hfound
      omega
    · exact ⟨hneg, hfound⟩
    · have hle := (search_bounds (fun n => cmp n i) hmiddle.1).1
      rw [hfound] at hle
      omega
  have hleft := increasing_of_search cmp left middle
    (fun i hi j hj => hswap i (by omega) j (by omega))
    (fun i hi j hj k hk => htrans i (by omega) j (by omega) k (by omega))
    (fun i hi him => (hbelow i hi him).2)
  have hright := increasing_of_search cmp (middle + 1) right hswap htrans
    (fun i hi hir => (habove i hi hir).2)
  have hlow : ∀ i, left ≤ i → i < middle → cmp i middle < 0 := fun i hi him =>
    (hswap middle hmiddle.2 i (by omega)).mp (hbelow i hi him).1
  intro i j hi hij hj
  rcases Nat.lt_trichotomy j middle with hjm | rfl | hjm
  · exact hleft i j hi hij hjm
  · exact hlow i hi hij
  · rcases Nat.lt_trichotomy i middle with him | rfl | him
    · exact htrans i (by omega) middle hmiddle.2 j hj (hlow i hi him) (habove j hjm hj).1
    · exact (habove j hjm hj).1
    · exact hright i j him hij hj
termination_by right - left

theorem upperBound_le (cmpAt : Nat → Int) (hle : left ≤ right) :
    upperBound cmpAt left right ≤ right := by
  fun_induction upperBound cmpAt left right with
  | case1 left right hlt middle hpos ih => exact Nat.le_trans (ih (by omega)) (by omega)
  | case2 left right hlt middle hpos ih => exact ih (by omega)
  | case3 left right hlt => exact hle

theorem upperBound_located (cmpAt : Nat → Int) (hascending : Ascending cmpAt n)
    (hleft : left ≤ right) (hright : right ≤ n) (hsmaller : ∀ i < left, cmpAt i ≤ 0)
    (hgreater : ∀ i, right ≤ i → i < n → 0 < cmpAt i) :
    (∀ i < upperBound cmpAt left right, cmpAt i ≤ 0) ∧
      ∀ i, upperBound cmpAt left right ≤ i → i < n → 0 < cmpAt i := by
  fun_induction upperBound cmpAt left right with
  | case1 left right hlt middle hpos ih =>
    apply ih (by omega) (by omega) hsmaller
    intro i hi hin
    rcases Nat.eq_or_lt_of_le hi with rfl | him
    · exact hpos
    · exact (hascending middle i him hin).2 hpos
  | case2 left right hlt middle hpos ih =>
    apply ih (by omega) hright
    · intro i hi
      rcases Nat.lt_or_eq_of_le (Nat.lt_succ_iff.mp hi) with him | rfl
      · by_contra hlt'
        exact hpos ((hascending i middle him (by omega)).2 (Int.not_le.mp hlt'))
      · exact Int.not_lt.mp hpos
    · exact hgreater
  | case3 left right hlt =>
    obtain rfl : left = right := by omega
    exact ⟨hsmaller, hgreater⟩

/-- Bisection for the first position at which a test fails. -/
def partitionPoint (passed : Nat → Bool) (left right : Nat) : Nat :=
  if left < right then
    let middle := (left + right) / 2
    if passed middle then partitionPoint passed (middle + 1) right
    else partitionPoint passed left middle
  else left
termination_by right - left

theorem partitionPoint_le (passed : Nat → Bool) (hle : left ≤ right) :
    partitionPoint passed left right ≤ right := by
  fun_induction partitionPoint passed left right with
  | case1 left right hlt middle hpassed ih => exact ih (by omega)
  | case2 left right hlt middle hpassed ih => exact Nat.le_trans (ih (by omega)) (by omega)
  | case3 left right hlt => exact hle

theorem partitionPoint_located (passed : Nat → Bool)
    (hdown : ∀ i j, i < j → j < n → passed j = true → passed i = true) (hleft : left ≤ right)
    (hright : right ≤ n) (hbefore : ∀ i < left, passed i = true)
    (hafter : ∀ i, right ≤ i → i < n → passed i = false) :
    (∀ i < partitionPoint passed left right, passed i = true) ∧
      ∀ i, partitionPoint passed left right ≤ i → i < n → passed i = false := by
  fun_induction partitionPoint passed left right with
  | case1 left right hlt middle hpassed ih =>
    apply ih (by omega) hright
    · intro i hi
      rcases Nat.lt_or_eq_of_le (Nat.lt_succ_iff.mp hi) with him | rfl
      · exact hdown i middle him (by omega) hpassed
      · exact hpassed
    · exact hafter
  | case2 left right hlt middle hpassed ih =>
    apply ih (by omega) (by omega) hbefore
    intro i hi hin
    rcases Nat.eq_or_lt_of_le hi with rfl | him
    · exact Bool.eq_false_iff.mpr hpassed
    · exact Bool.eq_false_iff.mpr fun hi' => hpassed (hdown middle i him hin hi')
  | case3 left right hlt =>
    obtain rfl : left = right := by omega
    exact ⟨hbefore, hafter⟩

theorem pairwise_insertIdx {α : Type*} {R : α → α → Prop} {l : List α} {a : α} (h : l.Pairwise R)
    (hn : n ≤ l.length) (hbefore : ∀ x ∈ l.take n, R x a) (hafter : ∀ x ∈ l.drop n, R a x) :
    (l.insertIdx n a).Pairwise R := by
  induction l generalizing n with
  | nil =>
    have : n = 0 := by simpa using hn
    subst this
    simp
  | cons b l ih =>
    cases n with
    | zero =>
      exact pairwise_cons.mpr ⟨fun x hx => hafter x (by simpa using hx), h⟩
    | succ n =>
      obtain ⟨hb, hl⟩ := pairwise_cons.mp h
      refine pairwise_cons.mpr ⟨?_, ih hl (by simpa using hn) ?_ ?_⟩
      · intro x hx
        rcases eq_or_mem_of_mem_insertIdx hx with rfl | hx
        · exact hbefore b (by simp)
        · exact hb x hx
      · exact fun x hx => hbefore x (by simp [hx])
      · exact fun x hx => hafter x (by simpa using hx)

end Harbour.Library.BinarySearch
