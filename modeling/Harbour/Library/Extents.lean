import Mathlib.Data.List.Pairwise
import Mathlib.Algebra.BigOperators.Group.List.Basic
import Mathlib.Algebra.GroupWithZero.Nat

/-!
Extents of blocks, and how often a list of them covers a block.

Lists of extents are compared by their covers: taking a piece out of an extent, joining two
extents and reordering a list are then equations between sums, and extents are apart exactly
when no block is covered twice.
-/

namespace Harbour.Library.Extents

structure Extent where
  off : Nat
  size : Nat
  deriving DecidableEq, Repr

def under (n b : Nat) : Nat := if b < n then 1 else 0

def Extent.at (e : Extent) (b : Nat) : Nat := if e.off ≤ b ∧ b < e.off + e.size then 1 else 0

def cover (es : List Extent) (b : Nat) : Nat := (es.map fun e => e.at b).sum

def Apart (e e' : Extent) : Prop := ∀ b, ¬ (e.at b = 1 ∧ e'.at b = 1)

theorem under_le (n b : Nat) : under n b ≤ 1 := by
  unfold under
  split_ifs <;> omega

variable {b n : Nat} {e : Extent} {es es' : List Extent}

theorem under_eq_one : under n b = 1 ↔ b < n := by
  unfold under
  split_ifs with h <;> simp [h]

@[simp]
theorem under_zero (b : Nat) : under 0 b = 0 := rfl

theorem at_eq_one : e.at b = 1 ↔ e.off ≤ b ∧ b < e.off + e.size := by
  unfold Extent.at
  split_ifs with h <;> simp [h]

theorem under_add_at (off size b : Nat) :
    under off b + (⟨off, size⟩ : Extent).at b = under (off + size) b := by
  unfold under Extent.at
  dsimp only
  split_ifs <;> omega

theorem at_split (off n m b : Nat) :
    (⟨off, n + m⟩ : Extent).at b = (⟨off, n⟩ : Extent).at b + (⟨off + n, m⟩ : Extent).at b := by
  have h := under_add_at off (n + m) b
  have h' := under_add_at off n b
  have h'' := under_add_at (off + n) m b
  rw [← Nat.add_assoc] at h
  omega

theorem at_empty (off b : Nat) : (⟨off, 0⟩ : Extent).at b = 0 := by
  have h := under_add_at off 0 b
  rw [Nat.add_zero] at h
  omega

theorem at_mono (off b : Nat) {m : Nat} (h : n ≤ m) :
    (⟨off, n⟩ : Extent).at b ≤ (⟨off, m⟩ : Extent).at b := by
  obtain ⟨k, rfl⟩ := Nat.exists_eq_add_of_le h
  rw [at_split]
  exact Nat.le_add_right _ _

@[simp]
theorem cover_nil (b : Nat) : cover [] b = 0 := rfl

@[simp]
theorem cover_cons (e : Extent) (es : List Extent) (b : Nat) :
    cover (e :: es) b = e.at b + cover es b := by
  simp [cover]

@[simp]
theorem cover_append (es es' : List Extent) (b : Nat) :
    cover (es ++ es') b = cover es b + cover es' b := by
  simp [cover]

def total (es : List Extent) : Nat := (es.map Extent.size).sum

@[simp]
theorem total_nil : total [] = 0 := rfl

@[simp]
theorem total_cons (e : Extent) (es : List Extent) : total (e :: es) = e.size + total es := by
  simp [total]

@[simp]
theorem total_append (es es' : List Extent) : total (es ++ es') = total es + total es' := by
  simp [total]

theorem cover_perm (h : es.Perm es') (b : Nat) : cover es b = cover es' b :=
  (h.map _).sum_eq

theorem cover_sublist (h : es.Sublist es') (b : Nat) :
    cover es b ≤ cover es' b := by
  induction h with
  | slnil => exact Nat.le_refl _
  | cons e h ih =>
    exact Nat.le_trans ih (Nat.le_add_left _ _)
  | cons_cons e h ih =>
    exact Nat.add_le_add_left ih _

theorem at_le_cover (h : e ∈ es) (b : Nat) :
    e.at b ≤ cover es b := by
  have := cover_sublist (List.singleton_sublist.mpr h) b
  simpa using this

theorem pairwise_apart (h : ∀ b, cover es b ≤ 1) : es.Pairwise Apart := by
  induction es with
  | nil => exact .nil
  | cons e es ih =>
    refine .cons (fun e' hmem b hboth => ?_) (ih fun b => ?_)
    · have hsum := h b
      have hle := at_le_cover hmem b
      rw [cover_cons] at hsum
      omega
    · have hsum := h b
      rw [cover_cons] at hsum
      omega

theorem Apart.ordered {e' : Extent} (h : Apart e e') (hpos : 0 < e.size) (hpos' : 0 < e'.size) :
    e.off + e.size ≤ e'.off ∨ e'.off + e'.size ≤ e.off := by
  rcases Nat.le_total e.off e'.off with hle | hle
  · refine .inl (Nat.le_of_not_lt fun hlt => h e'.off ⟨?_, ?_⟩)
    · exact at_eq_one.mpr ⟨hle, hlt⟩
    · exact at_eq_one.mpr ⟨Nat.le_refl _, by omega⟩
  · refine .inr (Nat.le_of_not_lt fun hlt => h e.off ⟨?_, ?_⟩)
    · exact at_eq_one.mpr ⟨Nat.le_refl _, by omega⟩
    · exact at_eq_one.mpr ⟨hle, hlt⟩

end Harbour.Library.Extents
