import Mathlib.Data.Fintype.Card
import Mathlib.Data.Fintype.Pigeonhole

/-!
Runs of slots in a table, and how many keys of one residue there are to fill them.
-/

namespace Harbour.Library.Slots

/-- The first of `n` slots from `pos` on that passes the test. -/
def scan (test : Nat → Bool) (pos : Nat) : Nat → Option Nat
  | 0 => none
  | n + 1 => if test pos then some pos else scan test (pos + 1) n

theorem scan_eq_none_iff {test : Nat → Bool} {pos n : Nat} :
    scan test pos n = none ↔ ∀ p, pos ≤ p → p < pos + n → test p = false := by
  induction n generalizing pos with
  | zero =>
    refine iff_of_true rfl fun p hle hlt => ?_
    omega
  | succ n ih =>
    unfold scan
    constructor
    · intro hnone p hle hlt
      split_ifs at hnone with htest
      rcases Nat.eq_or_lt_of_le hle with rfl | hlt'
      · exact Bool.eq_false_iff.mpr htest
      · exact ih.mp hnone p hlt' (by omega)
    · intro hall
      rw [if_neg (Bool.eq_false_iff.mp (hall pos (Nat.le_refl _) (by omega)))]
      exact ih.mpr fun p hle hlt => hall p (by omega) (by omega)

theorem scan_eq_some_iff {test : Nat → Bool} {pos n p : Nat} :
    scan test pos n = some p ↔
      pos ≤ p ∧ p < pos + n ∧ test p = true ∧ ∀ q, pos ≤ q → q < p → test q = false := by
  induction n generalizing pos with
  | zero =>
    refine iff_of_false (fun hsome => Option.some_ne_none p hsome.symm) ?_
    omega
  | succ n ih =>
    unfold scan
    constructor
    · intro hsome
      split_ifs at hsome with htest
      · obtain rfl := Option.some.inj hsome
        exact ⟨Nat.le_refl _, by omega, htest, fun q hle hlt => by omega⟩
      · obtain ⟨hle, hlt, hp, hbefore⟩ := ih.mp hsome
        refine ⟨by omega, by omega, hp, fun q hle' hlt' => ?_⟩
        rcases Nat.eq_or_lt_of_le hle' with rfl | hlt''
        · exact Bool.eq_false_iff.mpr htest
        · exact hbefore q hlt'' hlt'
    · rintro ⟨hle, hlt, hp, hbefore⟩
      rcases Nat.eq_or_lt_of_le hle with rfl | hlt'
      · rw [if_pos hp]
      · rw [if_neg (Bool.eq_false_iff.mp (hbefore pos (Nat.le_refl _) hlt'))]
        exact ih.mpr ⟨hlt', by omega, hp, fun q hle' hlt'' => hbefore q (by omega) hlt''⟩

theorem residues_not_injective (n modulus : Nat) (f : Fin (n + 1) → Nat)
    (hlt : ∀ i, f i < n * modulus) (hmod : ∀ i j, f i % modulus = f j % modulus) :
    ∃ i j, i ≠ j ∧ f i = f j := by
  obtain ⟨i, j, hne, heq⟩ := Fintype.exists_ne_map_eq_of_card_lt
    (fun i : Fin (n + 1) => (⟨f i / modulus, Nat.div_lt_of_lt_mul (by
      rw [Nat.mul_comm]; exact hlt i)⟩ : Fin n)) (by simp)
  refine ⟨i, j, hne, ?_⟩
  have hdiv : f i / modulus = f j / modulus := congrArg Fin.val heq
  rw [← Nat.div_add_mod (f i) modulus, ← Nat.div_add_mod (f j) modulus, hdiv, hmod i j]

end Harbour.Library.Slots
