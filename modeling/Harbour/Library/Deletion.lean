import Harbour.Library.Chunks

/-!
Positions deleted from a sequence: what is kept, where it goes to, and the loop that moves
it there in place.
-/

namespace Harbour.Library.Deletion

open Chunks List

variable {α : Type*}

/-- The elements whose positions are not dropped, the first one at `base`. -/
def keepFrom (drop : List Nat) : (base : Nat) → List α → List α
  | _, [] => []
  | base, x :: xs => if base ∈ drop then keepFrom drop (base + 1) xs
      else x :: keepFrom drop (base + 1) xs

def below (drop : List Nat) (position : Nat) : Nat := drop.countP (· < position)

def rank (drop : List Nat) (position : Nat) : Nat := position - below drop position

variable {drop : List Nat} {base position position' : Nat} {xs ys : List α}

theorem keepFrom_append (drop : List Nat) (base : Nat) (xs ys : List α) :
    keepFrom drop base (xs ++ ys) = keepFrom drop base xs ++ keepFrom drop
    (base + xs.length) ys := by
  induction xs generalizing base with
  | nil => rfl
  | cons x xs ih =>
    have hlength : base + (x :: xs).length = base + 1 + xs.length := by
      rw [length_cons]
      omega
    rw [cons_append, keepFrom, keepFrom, ih, hlength]
    split
    · rfl
    · rw [cons_append]

theorem keepFrom_nil (h : ∀ position ∈ drop, position < base ∨ base + xs.length ≤ position) :
    keepFrom drop base xs = xs := by
  induction xs generalizing base with
  | nil => rfl
  | cons x xs ih =>
    rw [length_cons] at h
    have hnot : base ∉ drop := by
      intro hmem
      have hbase := h base hmem
      omega
    rw [keepFrom, if_neg hnot, ih]
    intro position hmem
    have hposition := h position hmem
    omega

theorem keepFrom_all (h : ∀ i < xs.length, base + i ∈ drop) : keepFrom drop base xs = [] := by
  induction xs generalizing base with
  | nil => rfl
  | cons x xs ih =>
    have hfirst : base ∈ drop := h 0 (Nat.succ_pos _)
    rw [keepFrom, if_pos hfirst, ih]
    intro i hi
    have hmem := h (i + 1) (Nat.succ_lt_succ hi)
    rwa [show base + 1 + i = base + (i + 1) by omega]

theorem keepFrom_range' (xs ys : List α) :
    keepFrom (range' xs.length ys.length) 0 (xs ++ ys) = xs := by
  rw [keepFrom_append, keepFrom_nil, keepFrom_all, append_nil]
  · intro i hi
    exact mem_range'_1.mpr (by omega)
  · intro position hmem
    have := mem_range'_1.mp hmem
    omega

theorem below_mono (drop : List Nat) (hle : position ≤ position') :
    below drop position ≤ below drop position' := by
  refine countP_mono_left fun dropped _ hlt => ?_
  simp only [decide_eq_true_eq] at hlt ⊢
  omega

section Rank

variable (hnodup : drop.Nodup)
include hnodup

theorem below_succ (position : Nat) :
    below drop (position + 1) = below drop position + if position ∈ drop then 1 else 0 := by
  induction drop with
  | nil => rfl
  | cons dropped drop ih =>
    obtain ⟨hnot, hnodup⟩ := nodup_cons.mp hnodup
    have hih := ih hnodup
    unfold below at hih ⊢
    rw [countP_cons, countP_cons, hih]
    by_cases heq : position = dropped
    · subst heq
      simp [hnot]
    · have hlt : dropped < position + 1 ↔ dropped < position := by omega
      simp only [mem_cons, heq, false_or, decide_eq_true_eq, hlt]
      omega

theorem below_le (position : Nat) : below drop position ≤ position := by
  induction position with
  | zero => exact Nat.le_of_eq (countP_eq_zero.mpr fun _ _ => by simp)
  | succ position ih =>
    rw [below_succ hnodup]
    split <;> omega

theorem rank_add_below (position : Nat) : rank drop position + below drop position = position :=
  Nat.sub_add_cancel (below_le hnodup position)

theorem rank_succ (position : Nat) :
    rank drop (position + 1) = rank drop position + if position ∈ drop then 0 else 1 := by
  have hle := below_le hnodup position
  have hsucc := below_succ hnodup position
  unfold rank
  split at hsucc
  · rw [if_pos (by assumption)]
    omega
  · rw [if_neg (by assumption)]
    omega

theorem keepFrom_length (xs : List α) :
    (keepFrom drop base xs).length + rank drop base = rank drop (base + xs.length) := by
  induction xs generalizing base with
  | nil => exact Nat.zero_add _
  | cons x xs ih =>
    have hih := @ih (base + 1)
    rw [length_cons, show base + (xs.length + 1) = base + 1 + xs.length by omega, ← hih,
      rank_succ hnodup, keepFrom]
    split
    · rfl
    · rw [length_cons]
      omega

theorem rank_mono (hle : position ≤ position') : rank drop position ≤ rank drop position' := by
  obtain ⟨n, rfl⟩ := Nat.exists_eq_add_of_le hle
  induction n with
  | zero => exact Nat.le_refl _
  | succ n ih =>
    have hsucc := rank_succ hnodup (position + n)
    rw [Nat.add_assoc] at hsucc
    omega

theorem rank_lt (hnot : position ∉ drop) (hlt : position < position') :
    rank drop position < rank drop position' := by
  have hsucc := rank_succ hnodup position
  have hmono := rank_mono hnodup (show position + 1 ≤ position' from hlt)
  rw [if_neg hnot] at hsucc
  omega

theorem rank_eq (h : ∀ i, position ≤ i → i < position' → i ∈ drop) (hle : position ≤ position') :
    rank drop position' = rank drop position := by
  obtain ⟨n, rfl⟩ := Nat.exists_eq_add_of_le hle
  induction n with
  | zero => rfl
  | succ n ih =>
    have hmem := h (position + n) (Nat.le_add_right _ _) (by omega)
    have hsucc := rank_succ hnodup (position + n)
    rw [if_pos hmem, Nat.add_zero] at hsucc
    rw [← Nat.add_assoc, hsucc]
    exact ih (fun i hi hlt => h i hi (by omega)) (Nat.le_add_right _ _)

theorem starts_keepFrom (base : Nat) (chunks : List (List α)) :
    starts (rank drop base) (mapChunks (keepFrom drop) base chunks) =
      (starts base chunks).map fun entry => (rank drop entry.1, keepFrom drop entry.1 entry.2) := by
  induction chunks generalizing base with
  | nil => rfl
  | cons chunk chunks ih =>
    have hlength := @keepFrom_length _ _ base hnodup chunk
    have hrest := ih (base + chunk.length)
    rw [← hlength, Nat.add_comm] at hrest
    change (rank drop base, keepFrom drop base chunk) ::
      starts (rank drop base + (keepFrom drop base chunk).length)
        (mapChunks (keepFrom drop) (base + chunk.length) chunks) = _
    rw [hrest]
    rfl

end Rank

theorem keepFrom_flatten (drop : List Nat) (base : Nat) (chunks : List (List α)) :
    keepFrom drop base chunks.flatten = (mapChunks (keepFrom drop) base chunks).flatten := by
  induction chunks generalizing base with
  | nil => rfl
  | cons chunk chunks ih =>
    rw [flatten_cons, keepFrom_append, ih]
    rfl

section Compaction

def memmove (buffer : List α) (target source n : Nat) : List α :=
  buffer.take target ++ (buffer.drop source).take n ++ buffer.drop (target + n)

/-- The pieces between the dropped positions are moved to the front one after another. -/
def compactFrom : (drop : List Nat) → (buffer : List α) → (filled next : Nat) →
    List α × Nat × Nat
  | [], buffer, filled, next => (buffer, filled, next)
  | dropped :: drop, buffer, filled, next =>
    let n := dropped - next
    compactFrom drop (memmove buffer filled next n) (filled + n) (next + n + 1)

/-- The loop, and the rest of the buffer moved behind what it has moved. -/
def compact (drop : List Nat) (buffer : List α) : List α :=
  let (moved, filled, next) := compactFrom drop buffer 0 0
  (memmove moved filled next (buffer.length - next)).take (filled + (buffer.length - next))

variable {buffer moved : List α} {filled next n : Nat}

theorem memmove_spec (hle : filled ≤ next) (hfits : next + n ≤ buffer.length) :
    (memmove buffer filled next n).take (filled + n) =
        buffer.take filled ++ (buffer.drop next).take n ∧
      (memmove buffer filled next n).drop (next + n) = buffer.drop (next + n) ∧
      (memmove buffer filled next n).length = buffer.length := by
  have hfront : (buffer.take filled).length = filled := length_take_of_le (by omega)
  have hpiece : ((buffer.drop next).take n).length = n := by
    rw [length_take, length_drop]
    omega
  have hboth : (buffer.take filled ++ (buffer.drop next).take n).length = filled + n := by
    rw [length_append, hfront, hpiece]
  unfold memmove
  refine ⟨?_, ?_, ?_⟩
  · rw [← hboth, take_left]
  · have hmore : next + n = (buffer.take filled ++ (buffer.drop next).take n).length +
        (next - filled) := by
      omega
    rw [hmore, drop_append, drop_of_length_le (by omega), nil_append,
      Nat.add_sub_cancel_left, drop_drop, hboth]
  · rw [length_append, hboth, length_drop]
    omega

/-- What the loop has done when it stands at `next`. -/
structure Compacted (drop : List Nat) (original buffer : List α) (filled next : Nat) : Prop where
  front : buffer.take filled = keepFrom drop 0 (original.take next)
  rest : buffer.drop next = original.drop next
  length : buffer.length = original.length
  le : filled ≤ next
  fits : next ≤ original.length

section

variable {original : List α} (h : Compacted drop original buffer filled next)

include h

theorem Compacted.move (hfits : next + n ≤ original.length)
    (hkept : ∀ dropped ∈ drop, dropped < next ∨ next + n ≤ dropped) :
    Compacted drop original (memmove buffer filled next n) (filled + n) (next + n) := by
  have hlength := h.length
  have hle := h.le
  obtain ⟨hfront, hrest, hsame⟩ := memmove_spec hle (show next + n ≤ buffer.length by omega)
  have htake : (original.take next).length = next := length_take_of_le h.fits
  have hpiece : ((original.drop next).take n).length = n := by
    rw [length_take, length_drop]
    omega
  refine ⟨?_, ?_, hsame.trans hlength, by omega, hfits⟩
  · rw [hfront, h.front, h.rest, take_add, keepFrom_append, htake, Nat.zero_add,
      @keepFrom_nil _ _ next]
    rw [hpiece]
    exact hkept
  · rw [hrest, ← drop_drop, h.rest, drop_drop]

theorem Compacted.skip (hlt : next < original.length) (hmem : next ∈ drop) :
    Compacted drop original buffer filled (next + 1) := by
  refine ⟨?_, ?_, h.length, Nat.le_succ_of_le h.le, hlt⟩
  · have hsplit : original.take (next + 1) = original.take next ++ [original[next]] :=
      (take_append_getElem hlt).symm
    have htake : (original.take next).length = next := length_take_of_le h.fits
    rw [hsplit, keepFrom_append, htake, Nat.zero_add, keepFrom, if_pos hmem, keepFrom,
      append_nil]
    exact h.front
  · rw [← drop_drop, h.rest, drop_drop]

theorem compactFrom_spec {todo : List Nat} (hsorted : todo.Pairwise (· < ·))
    (htodo : ∀ dropped, next ≤ dropped → (dropped ∈ todo ↔ dropped ∈ drop))
    (hnext : ∀ dropped ∈ todo, next ≤ dropped)
    (hfits : ∀ dropped ∈ todo, dropped < original.length) :
    ∃ buffer' filled' next', compactFrom todo buffer filled next = (buffer', filled', next') ∧
      Compacted drop original buffer' filled' next' ∧ ∀ dropped ∈ drop, dropped < next' := by
  induction todo generalizing buffer filled next with
  | nil =>
    refine ⟨buffer, filled, next, rfl, h, fun dropped hmem => ?_⟩
    by_contra hge
    have hnil := (htodo dropped (Nat.le_of_not_lt hge)).mpr hmem
    cases hnil
  | cons dropped todo ih =>
    obtain ⟨hfirst, hsorted⟩ := pairwise_cons.mp hsorted
    have hge := hnext dropped mem_cons_self
    have hlt := hfits dropped mem_cons_self
    have hpiece : next + (dropped - next) = dropped := by omega
    have hkept : ∀ other ∈ drop, other < next ∨ next + (dropped - next) ≤ other := by
      intro other hother
      by_contra hbetween
      have hmem := (htodo other (by omega)).mpr hother
      rcases mem_cons.mp hmem with rfl | hmem
      · omega
      · have := hfirst other hmem
        omega
    have hmoved := h.move (by omega) hkept
    rw [hpiece] at hmoved
    have hskipped := hmoved.skip hlt ((htodo dropped hge).mp mem_cons_self)
    rw [compactFrom, hpiece]
    apply ih hskipped hsorted
    · intro other hother
      rw [← htodo other (by omega), mem_cons]
      have hne : other ≠ dropped := by omega
      simp only [hne, false_or]
    · intro other hmem
      have := hfirst other hmem
      omega
    · exact fun other hmem => hfits other (mem_cons_of_mem _ hmem)

end

theorem compact_eq (hsorted : drop.Pairwise (· < ·))
    (hfits : ∀ dropped ∈ drop, dropped < buffer.length) :
    compact drop buffer = keepFrom drop 0 buffer := by
  have hstart : Compacted drop buffer buffer 0 0 :=
    ⟨rfl, rfl, rfl, Nat.le_refl _, Nat.zero_le _⟩
  obtain ⟨moved, filled, next, hloop, hmoved, hlast⟩ := compactFrom_spec hstart hsorted
    (fun _ _ => Iff.rfl) (fun _ _ => Nat.zero_le _) hfits
  have hend : next + (buffer.length - next) = buffer.length := by
    have := hmoved.fits
    omega
  have hdone := hmoved.move (n := buffer.length - next) (by omega)
    fun dropped hmem => .inl (hlast dropped hmem)
  rw [compact, hloop]
  dsimp only
  rw [hdone.front, hend, take_length]

end Compaction

end Harbour.Library.Deletion
