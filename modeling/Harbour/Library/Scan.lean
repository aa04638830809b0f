import Mathlib.Data.List.Basic
import Mathlib.Algebra.BigOperators.Group.List.Basic
import Mathlib.Algebra.GroupWithZero.Nat

/-!
Loops over what a source yields, which add up sizes up to a limit or fill a buffer.
-/

namespace Harbour.Library.Scan

open List

variable {σ α β τ : Type*}

section Loop

/-- A loop over a source: `next` gives nothing at its end, and else an element or none with what is
left; `body` gives the new state and whether the loop goes on while there is `more`. -/
def loop (next : σ → Option (Option α × σ)) (more : τ → Bool) (body : τ → α → τ × Bool) :
    (fuel : Nat) → σ → τ → Option (σ × τ)
  | 0, _, _ => none
  | fuel + 1, source, t =>
    if more t then
      match next source with
      | none => some (source, t)
      | some (none, rest) => loop next more body fuel rest t
      | some (some a, rest) =>
        if (body t a).2 then loop next more body fuel rest (body t a).1
        else some (rest, (body t a).1)
    else some (source, t)

def drain (next : σ → Option (Option α × σ)) : (fuel : Nat) → σ → List α × σ
  | 0, source => ([], source)
  | fuel + 1, source =>
    match next source with
    | none => ([], source)
    | some (none, rest) => drain next fuel rest
    | some (some a, rest) => (a :: (drain next fuel rest).1, (drain next fuel rest).2)

def consume (more : τ → Bool) (body : τ → α → τ × Bool) : τ → List α → τ
  | t, [] => t
  | t, a :: rest =>
    if more t then
      if (body t a).2 then consume more body (body t a).1 rest else (body t a).1
    else t

def Shrinks (next : σ → Option (Option α × σ)) (size : σ → Nat) : Prop :=
  ∀ source a rest, next source = some (a, rest) → size rest < size source

variable {next : σ → Option (Option α × σ)} {more : τ → Bool} {body : τ → α → τ × Bool}
  {size : σ → Nat}

section

variable (hshrinks : Shrinks next size) {fuel : Nat} {source : σ}

include hshrinks

theorem loop_eq (t : τ) (hfuel : size source < fuel) : ∃ rest, loop next more body fuel source t =
      some (rest, consume more body t (drain next fuel source).1) := by
  induction fuel generalizing source t with
  | zero => exact absurd hfuel (Nat.not_lt_zero _)
  | succ fuel ih =>
    unfold loop drain
    cases hmore : more t with
    | false =>
      refine ⟨source, ?_⟩
      rw [if_neg Bool.false_ne_true]
      split
      · rfl
      · cases (drain next fuel _).1 with
        | nil => rfl
        | cons a rest => simp [consume, hmore]
      · simp [consume, hmore]
    | true =>
      cases hnext : next source with
      | none => exact ⟨source, rfl⟩
      | some r =>
        obtain ⟨a, rest⟩ := r
        have hrest : size rest < fuel :=
          Nat.lt_of_lt_of_le (hshrinks _ _ _ hnext) (Nat.le_of_lt_succ hfuel)
        cases a with
        | none => exact ih t hrest
        | some a =>
          simp only [consume, hmore, if_true]
          cases (body t a).2 with
          | false => exact ⟨rest, rfl⟩
          | true => exact ih (body t a).1 hrest

theorem loop_all (hmore : ∀ t, more t = true) (hbody : ∀ t a, (body t a).2 = true) (t : τ)
    (hfuel : size source < fuel) : loop next more body fuel source t =
      some ((drain next fuel source).2, consume more body t (drain next fuel source).1) := by
  induction fuel generalizing source t with
  | zero => exact absurd hfuel (Nat.not_lt_zero _)
  | succ fuel ih =>
    unfold loop drain
    rw [if_pos (hmore t)]
    cases hnext : next source with
    | none => rfl
    | some r =>
      obtain ⟨a, rest⟩ := r
      have hrest : size rest < fuel :=
        Nat.lt_of_lt_of_le (hshrinks _ _ _ hnext) (Nat.le_of_lt_succ hfuel)
      cases a with
      | none => exact ih t hrest
      | some a => simpa [consume, hmore, hbody] using ih (body t a).1 hrest

end

end Loop

/-- The sizes that fit within a limit, in their order; no limit is zero. -/
def fit (nMax : Nat) : Nat → List Nat → Nat
  | n, [] => n
  | n, i :: sizes => if nMax ≠ 0 ∧ nMax < n + i then n else fit nMax (n + i) sizes

def sizeBody (nMax : Nat) (len : α → Nat) (n : Nat) (a : α) : Nat × Bool :=
  if nMax ≠ 0 ∧ nMax < n + len a then (n, false) else (n + len a, true)

def countBody (nMax : Nat) (n : Nat) (_ : α) : Nat × Bool :=
  (n + 1, !decide (nMax ≠ 0 ∧ nMax ≤ n + 1))

def atMost (nMax n : Nat) : Nat := if nMax ≠ 0 ∧ nMax < n then nMax else n

theorem consume_sizeBody (nMax : Nat) (len : α → Nat) (n : Nat) (as : List α) :
    consume (fun _ => true) (sizeBody nMax len) n as = fit nMax n (as.map len) := by
  induction as generalizing n with
  | nil => rfl
  | cons a as ih =>
    rw [map_cons, consume, fit, sizeBody]
    by_cases hlimit : nMax ≠ 0 ∧ nMax < n + len a
    · simp only [if_pos hlimit, if_true, Bool.false_eq_true, if_false]
    · simp only [if_neg hlimit, if_true]
      exact ih _

theorem fit_ones {nMax n : Nat} (hn : nMax = 0 ∨ n ≤ nMax) (as : List α) :
    fit nMax n (as.map fun _ => 1) = atMost nMax (n + as.length) := by
  induction as generalizing n with
  | nil =>
    rw [atMost, if_neg (by simp only [length_nil]; omega)]
    rfl
  | cons a as ih =>
    rw [map_cons, fit, length_cons]
    split
    · rename_i hlimit
      rw [atMost, if_pos (by omega)]
      omega
    · rename_i hlimit
      rw [ih (by omega), Nat.add_right_comm, Nat.add_assoc]

theorem fit_zero (n : Nat) (sizes : List Nat) : fit 0 n sizes = n + sizes.sum := by
  induction sizes generalizing n with
  | nil => rfl
  | cons i sizes ih =>
    rw [fit, if_neg (fun h => h.1 rfl), ih, sum_cons, Nat.add_assoc]

theorem consume_countBody {nMax n : Nat} (hn : nMax = 0 ∨ n < nMax) (as : List α) :
    consume (fun _ => true) (countBody nMax) n as = fit nMax n (as.map fun _ => 1) := by
  induction as generalizing n with
  | nil => rfl
  | cons a as ih =>
    have hone : ¬(nMax ≠ 0 ∧ nMax < n + 1) := by omega
    rw [map_cons, consume, fit, if_neg hone, if_pos rfl]
    by_cases hlast : nMax ≠ 0 ∧ nMax ≤ n + 1
    · have hstop : countBody nMax n a = (n + 1, false) := by simp [countBody, hlast]
      rw [hstop, if_neg Bool.false_ne_true]
      cases as with
      | nil => rfl
      | cons a as =>
        have hfull : nMax ≠ 0 ∧ nMax < n + 1 + 1 := by omega
        rw [map_cons, fit, if_pos hfull]
    · have hgo : countBody nMax n a = (n + 1, true) := by simp [countBody, hlast]
      rw [hgo, if_pos rfl]
      exact ih (by omega)

structure Longest (nMax n : Nat) (sizes : List Nat) (j : Nat) : Prop where
  within : nMax = 0 ∨ n + (sizes.take j).sum ≤ nMax
  next : j < sizes.length → nMax ≠ 0 ∧ nMax < n + (sizes.take (j + 1)).sum

theorem exists_longest {nMax n : Nat} (hn : nMax = 0 ∨ n ≤ nMax) (sizes : List Nat) :
    ∃ j, Longest nMax n sizes j := by
  induction sizes generalizing n with
  | nil => exact ⟨0, by simpa using hn, fun h => absurd h (Nat.not_lt_zero _)⟩
  | cons i sizes ih =>
    by_cases hlimit : nMax ≠ 0 ∧ nMax < n + i
    · exact ⟨0, by simpa using hn, fun _ => by simpa using hlimit⟩
    · obtain ⟨j, hwithin, hnext⟩ := ih (by omega : nMax = 0 ∨ n + i ≤ nMax)
      refine ⟨j + 1, ?_, fun h => ?_⟩
      · simpa [Nat.add_assoc] using hwithin
      · simpa [Nat.add_assoc] using hnext (by simpa using h)

theorem exists_longest_zero (nMax : Nat) (sizes : List Nat) : ∃ j, Longest nMax 0 sizes j :=
  exists_longest (.inr (Nat.zero_le _)) sizes

theorem Longest.fit_eq {nMax n j : Nat} {sizes : List Nat} (h : Longest nMax n sizes j) :
    fit nMax n sizes = n + (sizes.take j).sum := by
  induction sizes generalizing n j with
  | nil => simp [fit]
  | cons i sizes ih =>
    rw [fit]
    cases j with
    | zero =>
      have hstop := h.next (Nat.succ_pos _)
      rw [take_succ_cons, take_zero, sum_cons, sum_nil] at hstop
      rw [if_pos (by omega), take_zero, sum_nil]
      rfl
    | succ j =>
      have hwithin := h.within
      rw [take_succ_cons, sum_cons] at hwithin
      have hrest : Longest nMax (n + i) sizes j := by
        refine ⟨by rwa [Nat.add_assoc], fun hj => ?_⟩
        have hnext := h.next (Nat.succ_lt_succ hj)
        rwa [take_succ_cons, sum_cons, ← Nat.add_assoc] at hnext
      rw [if_neg (by omega), ih hrest, take_succ_cons, sum_cons, Nat.add_assoc]

section Buffers

def putBody (put : List β → α → Option (List β)) (out : List β) (a : α) : List β × Bool :=
  match put out a with
  | some out => (out, true)
  | none => (out, false)

/-- `put` stores an element of a size in a buffer of `nDst` places, behind what is there, where
there is room for all of it. -/
structure Puts (put : Nat → List β → α → Option (List β)) (len : α → Nat) : Prop where
  pos : ∀ a, 0 < len a
  room : ∀ {nDst out a}, out.length + len a ≤ nDst →
    ∃ out', put nDst out a = some out' ∧ out'.length = out.length + len a
  full : ∀ {nDst out a}, nDst < out.length + len a → put nDst out a = none

/-- `put` stores as much of an element as there is room for, unless the buffer is full. -/
structure Crams (put : Nat → List β → α → Option (List β)) (size : α → Nat) : Prop where
  room : ∀ {nDst out a}, out.length < nDst →
    ∃ out', put nDst out a = some out' ∧ out'.length = min nDst (out.length + size a)
  full : ∀ {nDst out a}, nDst ≤ out.length → put nDst out a = none

variable {put : Nat → List β → α → Option (List β)} {len : α → Nat} {more : List β → Bool}
  {nDst : Nat} {out : List β}

theorem Puts.consume_length_iff (h : Puts put len)
    (hmore : ∀ out : List β, out.length < nDst → more out = true) (hout : out.length ≤ nDst)
    (as : List α) :
    (consume more (putBody (put nDst)) out as).length = nDst ↔
      ∃ k, out.length + ((as.map len).take k).sum = nDst := by
  induction as generalizing out with
  | nil => simp [consume]
  | cons a as ih =>
    have hpos := h.pos a
    rcases Nat.lt_or_ge nDst (out.length + len a) with hfull | hroom
    · have hstay : consume more (putBody (put nDst)) out (a :: as) = out := by
        simp [consume, putBody, h.full hfull]
      rw [hstay]
      constructor
      · exact fun heq => ⟨0, by simpa using heq⟩
      · rintro ⟨k, hk⟩
        cases k with
        | zero => simpa using hk
        | succ k =>
          rw [map_cons, take_succ_cons, sum_cons] at hk
          omega
    · obtain ⟨out', hput, hlength⟩ := h.room hroom
      have hstep : consume more (putBody (put nDst)) out (a :: as) =
          consume more (putBody (put nDst)) out' as := by
        simp [consume, putBody, hput, hmore out (by omega)]
      rw [hstep, ih (by omega), hlength]
      constructor
      · rintro ⟨k, hk⟩
        exact ⟨k + 1, by simpa [Nat.add_assoc] using hk⟩
      · rintro ⟨k, hk⟩
        cases k with
        | zero =>
          rw [take_zero, sum_nil] at hk
          omega
        | succ k => exact ⟨k, by simpa [Nat.add_assoc] using hk⟩

theorem Puts.consume_length_le (h : Puts put len) (hout : out.length ≤ nDst) (as : List α) :
    (consume more (putBody (put nDst)) out as).length ≤ nDst := by
  induction as generalizing out with
  | nil => exact hout
  | cons a as ih =>
    rw [consume]
    split
    · rcases Nat.lt_or_ge nDst (out.length + len a) with hfull | hroom
      · simpa [putBody, h.full hfull] using hout
      · obtain ⟨out', hput, hlength⟩ := h.room hroom
        simpa [putBody, hput] using ih (by omega)
    · exact hout

theorem consume_store {bytes : α → List β} (hbytes : ∀ a, bytes a ≠ [])
    (hput : ∀ {out a}, out.length + (bytes a).length ≤ nDst →
      put nDst out a = some (out ++ bytes a))
    (hmore : ∀ out : List β, out.length < nDst → more out = true) {as : List α}
    (hroom : out.length + (as.flatMap bytes).length ≤ nDst) :
    consume more (putBody (put nDst)) out as = out ++ as.flatMap bytes := by
  induction as generalizing out with
  | nil => simp [consume]
  | cons a as ih =>
    have hpos := length_pos_iff.mpr (hbytes a)
    rw [flatMap_cons, length_append] at hroom
    have hstep : consume more (putBody (put nDst)) out (a :: as) =
        consume more (putBody (put nDst)) (out ++ bytes a) as := by
      simp [consume, putBody, hput (by omega : out.length + (bytes a).length ≤ nDst),
        hmore out (by omega)]
    rw [hstep, ih (by rw [length_append]; omega), flatMap_cons, append_assoc]

theorem Puts.consume_all (h : Puts put len)
    (hmore : ∀ out : List β, out.length < nDst → more out = true) {as : List α}
    (hroom : out.length + (as.map len).sum ≤ nDst) :
    (consume more (putBody (put nDst)) out as).length = out.length + (as.map len).sum := by
  induction as generalizing out with
  | nil => rfl
  | cons a as ih =>
    have hpos := h.pos a
    rw [map_cons, sum_cons] at hroom ⊢
    obtain ⟨out', hput, hlength⟩ := h.room (by omega : out.length + len a ≤ nDst)
    have hstep : consume more (putBody (put nDst)) out (a :: as) =
        consume more (putBody (put nDst)) out' as := by
      simp [consume, putBody, hput, hmore out (by omega)]
    rw [hstep, ih (by omega), hlength, Nat.add_assoc]

theorem Crams.consume_length {size : α → Nat} (h : Crams put size)
    (hmore : ∀ out : List β, out.length < nDst → more out = true) (hout : out.length ≤ nDst)
    (as : List α) :
    (consume more (putBody (put nDst)) out as).length =
      min nDst (out.length + (as.map size).sum) := by
  induction as generalizing out with
  | nil =>
    rw [consume, map_nil, sum_nil]
    omega
  | cons a as ih =>
    rw [map_cons, sum_cons]
    rcases Nat.lt_or_ge out.length nDst with hroom | hfull
    · obtain ⟨out', hput, hlength⟩ := h.room (a := a) hroom
      have hstep : consume more (putBody (put nDst)) out (a :: as) =
          consume more (putBody (put nDst)) out' as := by
        simp [consume, putBody, hput, hmore out hroom]
      rw [hstep, ih (by omega), hlength]
      omega
    · have hstay : consume more (putBody (put nDst)) out (a :: as) = out := by
        simp [consume, putBody, h.full hfull]
      rw [hstay]
      omega

end Buffers

end Harbour.Library.Scan
