import Mathlib.Data.List.Basic

/-!
A sequence that is made of chunks, the positions where they start, and the sequence with
each chunk replaced by another one.
-/

namespace Harbour.Library.Chunks

open List

variable {α : Type*}

def starts : (base : Nat) → List (List α) → List (Nat × List α)
  | _, [] => []
  | base, chunk :: chunks => (base, chunk) :: starts (base + chunk.length) chunks

variable {base position position' : Nat} {chunk chunk' : List α} {chunks : List (List α)}

theorem starts_append (base : Nat) (before after : List (List α)) :
    starts base (before ++ after) =
      starts base before ++ starts (base + before.flatten.length) after := by
  induction before generalizing base with
  | nil => rfl
  | cons chunk before ih =>
    rw [cons_append, starts, ih, starts, cons_append, flatten_cons,
      length_append, Nat.add_assoc]

theorem starts_chunks (base : Nat) (chunks : List (List α)) :
    ((starts base chunks).map fun entry => entry.2) = chunks := by
  induction chunks generalizing base with
  | nil => rfl
  | cons chunk chunks ih => rw [starts, map_cons, ih]

theorem mem_starts_split (h : (position, chunk) ∈ starts base chunks) :
    ∃ before after, chunks = before ++ chunk :: after ∧
      position = base + before.flatten.length := by
  induction chunks generalizing base with
  | nil => cases h
  | cons first chunks ih =>
    rcases mem_cons.mp h with heq | h
    · cases heq
      exact ⟨[], chunks, rfl, rfl⟩
    · obtain ⟨before, after, rfl, rfl⟩ := ih h
      refine ⟨first :: before, after, rfl, ?_⟩
      rw [flatten_cons, length_append, Nat.add_assoc]

section

variable (h : (position, chunk) ∈ starts 0 chunks)

include h

theorem drop_of_mem_starts : ∃ behind, chunks.flatten.drop position = chunk ++ behind := by
  obtain ⟨before, after, rfl, rfl⟩ := mem_starts_split h
  refine ⟨after.flatten, ?_⟩
  rw [flatten_append, Nat.zero_add, drop_left, flatten_cons]

theorem getElem?_of_mem_starts {k : Nat} (hk : k < chunk.length) :
    chunks.flatten[position + k]? = chunk[k]? := by
  obtain ⟨behind, hdrop⟩ := drop_of_mem_starts h
  rw [← getElem?_drop, hdrop, getElem?_append_left hk]

theorem starts_next : (∃ next, (position + chunk.length, next) ∈ starts 0 chunks) ∨
      position + chunk.length = chunks.flatten.length := by
  obtain ⟨before, after, rfl, rfl⟩ := mem_starts_split h
  cases after with
  | nil =>
    right
    rw [flatten_append, flatten_cons, flatten_nil, append_nil,
      length_append, Nat.zero_add]
  | cons next after =>
    left
    refine ⟨next, ?_⟩
    rw [starts_append, starts, starts]
    exact mem_append_right _ (mem_cons_of_mem _ mem_cons_self)

end

theorem exists_start (base : Nat) (h : chunk ∈ chunks) :
    ∃ position, (position, chunk) ∈ starts base chunks := by
  rw [← starts_chunks base chunks, mem_map] at h
  obtain ⟨⟨position, chunk'⟩, hmem, rfl⟩ := h
  exact ⟨position, hmem⟩

theorem mem_of_mem_starts (h : (position, chunk) ∈ starts base chunks) : chunk ∈ chunks := by
  obtain ⟨before, after, rfl, -⟩ := mem_starts_split h
  exact mem_append_right _ mem_cons_self

theorem starts_bounds (h : (position, chunk) ∈ starts base chunks) :
    base ≤ position ∧ position + chunk.length ≤ base + chunks.flatten.length := by
  obtain ⟨before, after, rfl, rfl⟩ := mem_starts_split h
  rw [flatten_append, flatten_cons, length_append, length_append]
  omega

theorem exists_chunk {n : Nat} (hle : base ≤ n) (hlt : n < base + chunks.flatten.length) :
    ∃ position chunk, (position, chunk) ∈ starts base chunks ∧ position ≤ n ∧
      n < position + chunk.length := by
  induction chunks generalizing base with
  | nil =>
    rw [flatten_nil, length_nil] at hlt
    omega
  | cons first chunks ih =>
    by_cases hfirst : n < base + first.length
    · exact ⟨base, first, mem_cons_self, hle, hfirst⟩
    · rw [flatten_cons, length_append] at hlt
      obtain ⟨position, chunk, hmem, hbounds⟩ :=
        @ih (base + first.length) (by omega) (by omega)
      exact ⟨position, chunk, mem_cons_of_mem _ hmem, hbounds⟩

def Solid (chunks : List (List α)) : Prop := ∀ chunk ∈ chunks, chunk ≠ []

theorem Solid.length_pos (h : Solid chunks) (hmem : (position, chunk) ∈ starts base chunks) :
    0 < chunk.length :=
  length_pos_iff.mpr (h chunk (mem_of_mem_starts hmem))

theorem starts_apart (hmem : (position, chunk) ∈ starts base chunks)
    (hmem' : (position', chunk') ∈ starts base chunks) (hlt : position < position') :
    position + chunk.length ≤ position' := by
  induction chunks generalizing base with
  | nil => cases hmem
  | cons first chunks ih =>
    rcases mem_cons.mp hmem with heq | hmem <;> rcases mem_cons.mp hmem' with heq' | hmem'
    · cases heq
      cases heq'
      exact absurd hlt (Nat.lt_irrefl _)
    · cases heq
      exact (starts_bounds hmem').1
    · cases heq'
      have hbounds := (starts_bounds hmem).1
      omega
    · exact ih hmem hmem'

theorem starts_unique (h : Solid chunks) (hmem : (position, chunk) ∈ starts base chunks)
    (hmem' : (position, chunk') ∈ starts base chunks) : chunk = chunk' := by
  induction chunks generalizing base with
  | nil => cases hmem
  | cons first chunks ih =>
    have hfirst : 0 < first.length := length_pos_iff.mpr (h first mem_cons_self)
    rcases mem_cons.mp hmem with heq | hmem <;> rcases mem_cons.mp hmem' with heq' | hmem'
    · cases heq
      cases heq'
      rfl
    · cases heq
      have hbounds := (starts_bounds hmem').1
      omega
    · cases heq'
      have hbounds := (starts_bounds hmem).1
      omega
    · exact ih (fun chunk hchunk => h chunk (mem_cons_of_mem _ hchunk)) hmem hmem'

theorem starts_filter (base : Nat) (chunks : List (List α)) :
    starts base (chunks.filter fun chunk => !chunk.isEmpty) =
      (starts base chunks).filter fun entry => !entry.2.isEmpty := by
  induction chunks generalizing base with
  | nil => rfl
  | cons chunk chunks ih =>
    cases chunk with
    | nil => exact ih base
    | cons a chunk =>
      rw [filter_cons_of_pos rfl, starts, ih, starts, filter_cons_of_pos rfl]

theorem flatten_filter (chunks : List (List α)) :
    (chunks.filter fun chunk => !chunk.isEmpty).flatten = chunks.flatten := by
  induction chunks with
  | nil => rfl
  | cons chunk chunks ih =>
    cases chunk with
    | nil => exact ih
    | cons a chunk => rw [filter_cons_of_pos rfl, flatten_cons, flatten_cons, ih]

theorem starts_flatMap {pieces : List α → List (List α)}
    (h : ∀ chunk ∈ chunks, (pieces chunk).flatten.length = chunk.length) :
    starts base (chunks.flatMap pieces) =
      (starts base chunks).flatMap fun entry => starts entry.1 (pieces entry.2) := by
  induction chunks generalizing base with
  | nil => rfl
  | cons chunk chunks ih =>
    rw [flatMap_cons, starts_append, h chunk mem_cons_self,
      ih fun chunk hmem => h chunk (mem_cons_of_mem _ hmem), starts, flatMap_cons]

theorem starts_replicate (base n : Nat) (a : α) :
    starts base (replicate n [a]) = (range' base n).map fun position => (position, [a]) := by
  induction n generalizing base with
  | zero => rfl
  | succ n ih =>
    rw [replicate_succ, starts, ih, range'_succ, map_cons]
    rfl

section Mapped

variable {β : Type*}

def mapChunks (f : Nat → List α → List β) (base : Nat) (chunks : List (List α)) : List (List β) :=
  (starts base chunks).map fun entry => f entry.1 entry.2

variable {f g : Nat → List α → List β}

theorem mapChunks_congr (h : ∀ position chunk, (position, chunk) ∈ starts base chunks →
    f position chunk = g position chunk) : mapChunks f base chunks = mapChunks g base chunks :=
  map_congr_left fun entry hentry => h entry.1 entry.2 hentry

theorem mapChunks_const (f : List α → List β) (base : Nat) (chunks : List (List α)) :
    mapChunks (fun _ chunk => f chunk) base chunks = chunks.map f := by
  conv_rhs => rw [← starts_chunks base chunks, map_map]
  rfl

section

variable
  (h : ∀ position chunk, (position, chunk) ∈ starts base chunks →
    (f position chunk).length = chunk.length)

include h

theorem starts_mapChunks : starts base (mapChunks f base chunks) =
      (starts base chunks).map fun entry => (entry.1, f entry.1 entry.2) := by
  induction chunks generalizing base with
  | nil => rfl
  | cons chunk chunks ih =>
    have hfirst := h base chunk mem_cons_self
    have hrest := ih fun position chunk hmem => h position chunk (mem_cons_of_mem _ hmem)
    rw [mapChunks, starts, map_cons, starts, map_cons, hfirst]
    congr 1

theorem mapChunks_mapChunks {γ : Type*} {g : Nat → List β → List γ} :
    mapChunks g base (mapChunks f base chunks) =
      mapChunks (fun position chunk => g position (f position chunk)) base chunks := by
  rw [mapChunks, starts_mapChunks h, map_map]
  rfl

theorem flatten_length : (mapChunks f base chunks).flatten.length = chunks.flatten.length := by
  induction chunks generalizing base with
  | nil => rfl
  | cons chunk chunks ih =>
    have hrest := ih fun position chunk hmem => h position chunk (mem_cons_of_mem _ hmem)
    change (f base chunk ++ (mapChunks f (base + chunk.length) chunks).flatten).length = _
    rw [flatten_cons, length_append, length_append, hrest,
      h base chunk mem_cons_self]

end

theorem mapChunks_swap (hsolid : Solid chunks) (hmem : (position, chunk) ∈ starts 0 chunks)
    (hlength : ∀ position chunk, (position, chunk) ∈ starts 0 chunks →
      (f position chunk).length = chunk.length)
    (hsame : ∀ position' chunk', (position', chunk') ∈ starts 0 chunks → position' ≠ position →
      f position' chunk' = g position' chunk') :
    ∃ before after, before.length = position ∧
      (mapChunks f 0 chunks).flatten = before ++ (f position chunk ++ after) ∧
      (mapChunks g 0 chunks).flatten = before ++ (g position chunk ++ after) := by
  obtain ⟨before, after, rfl, rfl⟩ := mem_starts_split hmem
  have hmem' : ∀ position' chunk', (position', chunk') ∈ starts 0 before →
      (position', chunk') ∈ starts 0 (before ++ chunk :: after) := by
    intro position' chunk' h
    rw [starts_append]
    exact mem_append_left _ h
  have hbefore : ∀ position' chunk', (position', chunk') ∈ starts 0 before →
      f position' chunk' = g position' chunk' := by
    intro position' chunk' h
    apply hsame position' chunk' (hmem' position' chunk' h)
    have hpos := hsolid.length_pos (hmem' position' chunk' h)
    have hbounds := (starts_bounds h).2
    omega
  have hafter : ∀ position' chunk',
      (position', chunk') ∈ starts (0 + before.flatten.length + chunk.length) after →
      f position' chunk' = g position' chunk' := by
    intro position' chunk' h
    have hpos := hsolid.length_pos hmem
    have hbounds := (starts_bounds h).1
    apply hsame position' chunk' _ (by omega)
    rw [starts_append]
    exact mem_append_right _ (mem_cons_of_mem _ h)
  have hsplit : ∀ h : Nat → List α → List β, (mapChunks h 0 (before ++ chunk :: after)).flatten =
      (mapChunks h 0 before).flatten ++ (h (0 + before.flatten.length) chunk ++
        (mapChunks h (0 + before.flatten.length + chunk.length) after).flatten) := by
    intro h
    rw [mapChunks, starts_append, map_append, flatten_append]
    rfl
  refine ⟨_, _, ?_, hsplit f, ?_⟩
  · rw [flatten_length fun position' chunk' h =>
      hlength position' chunk' (hmem' position' chunk' h),
      Nat.zero_add]
  · rw [hsplit g, mapChunks_congr hbefore, mapChunks_congr hafter]

end Mapped

end Harbour.Library.Chunks
