import Mathlib.Tactic.IntervalCases
import Harbour.Library.Bytes

/-!
Bit signatures: byte strings in which bits are set, the first bit of a byte being its highest, and
neighbours in a list.
-/

namespace Harbour.Library.BitSignature

open Bytes List

section Bits

variable {key key' : Bytes} {n m : Nat} {x y z : UInt8}

def mask (n : Nat) : UInt8 := 0x80 >>> UInt8.ofNat (n % 8)

def setBit (key : Bytes) (n : Nat) : Bytes := key.modify (n / 8) (· ||| mask n)

def Contains (x y : UInt8) : Prop := x &&& y = y

def HasBit (key : Bytes) (n : Nat) : Prop := Contains (key.getD (n / 8) 0) (mask n)

def Covers (key key' : Bytes) : Prop := ∀ i, Contains (key.getD i 0) (key'.getD i 0)

theorem contains_iff :
    Contains x y ↔ ∀ i, y.toBitVec.getLsbD i = true → x.toBitVec.getLsbD i = true := by
  unfold Contains
  rw [← UInt8.toBitVec_inj, UInt8.toBitVec_and]
  constructor
  · intro h i hi
    have hbit := congrArg (fun v => BitVec.getLsbD v i) h
    rw [BitVec.getLsbD_and, hi, Bool.and_true] at hbit
    exact hbit
  · intro h
    refine BitVec.eq_of_getLsbD_eq fun i _ => ?_
    rw [BitVec.getLsbD_and]
    cases hy : y.toBitVec.getLsbD i with
    | false => exact Bool.and_false _
    | true => rw [h i hy, Bool.and_true]

theorem contains_zero (x : UInt8) : Contains x 0 := UInt8.and_zero

theorem contains_or_left (h : Contains x z) : Contains (x ||| y) z := by
  rw [contains_iff] at h ⊢
  intro i hi
  rw [UInt8.toBitVec_or, BitVec.getLsbD_or, h i hi, Bool.true_or]

theorem contains_or_self (x y : UInt8) : Contains (x ||| y) y := by
  rw [contains_iff]
  intro i hi
  rw [UInt8.toBitVec_or, BitVec.getLsbD_or, hi, Bool.or_true]

theorem contains_or (hy : Contains x y) (hz : Contains x z) : Contains x (y ||| z) := by
  rw [contains_iff] at hy hz ⊢
  intro i hi
  rw [UInt8.toBitVec_or, BitVec.getLsbD_or, Bool.or_eq_true] at hi
  exact hi.elim (hy i) (hz i)

theorem setBit_length (key : Bytes) (n : Nat) : (setBit key n).length = key.length :=
  length_modify _ _ _

theorem setBit_getD (key : Bytes) (n i : Nat) :
    (setBit key n).getD i 0 =
      if n / 8 = i ∧ i < key.length then key.getD i 0 ||| mask n else key.getD i 0 := by
  rw [setBit, getD_eq_getElem?_getD, getElem?_modify, getD_eq_getElem?_getD]
  by_cases hlt : i < key.length
  · rw [getElem?_eq_getElem hlt]
    by_cases heq : n / 8 = i
    · simp [heq, hlt]
    · simp [heq]
  · rw [getElem?_eq_none (Nat.le_of_not_lt hlt)]
    simp [hlt]

theorem hasBit_setBit (hlt : n / 8 < key.length) : HasBit (setBit key n) n := by
  rw [HasBit, setBit_getD, if_pos ⟨rfl, hlt⟩]
  exact contains_or_self _ _

theorem HasBit.setBit (h : HasBit key n) (m : Nat) : HasBit (setBit key m) n := by
  rw [HasBit, setBit_getD]
  split
  · exact contains_or_left h
  · exact h

theorem Covers.setBit (h : Covers key key') (hbit : HasBit key n) : Covers key (setBit key' n) := by
  intro i
  rw [setBit_getD]
  split
  · rename_i hi
    exact contains_or (h i) (hi.1 ▸ hbit)
  · exact h i

theorem covers_replicate (key : Bytes) (n : Nat) : Covers key (replicate n 0) := by
  intro i
  have hzero : (replicate n (0 : UInt8)).getD i 0 = 0 := by
    rw [getD_eq_getElem?_getD, getElem?_replicate]
    split <;> rfl
  rw [hzero]
  exact contains_zero _

theorem and_top_eq_zero (x : UInt8) : x &&& 0x80 = 0 ↔ x.toBitVec.getLsbD 7 = false := by
  obtain ⟨⟨⟨n, hn⟩⟩⟩ := x
  revert n
  decide +kernel

theorem or_top_and (x : UInt8) (h : x &&& 0x80 = 0) : (x ||| 0x80) &&& 0x7F = x := by
  obtain ⟨⟨⟨n, hn⟩⟩⟩ := x
  revert n
  decide +kernel

theorem or_top_ne (x : UInt8) : (x ||| 0x80) &&& 0x80 ≠ 0 := by
  obtain ⟨⟨⟨n, hn⟩⟩⟩ := x
  revert n
  decide +kernel

theorem mask_top (h : n % 8 ≠ 0) : mask n &&& 0x80 = 0 := by
  have hlt : n % 8 < 8 := Nat.mod_lt _ (by decide)
  unfold mask
  generalize n % 8 = r at h hlt
  interval_cases r <;> first | exact absurd rfl h | rfl

theorem setBit_top (h : key.getD 0 0 &&& 0x80 = 0) (hn : n ≠ 0) :
    (setBit key n).getD 0 0 &&& 0x80 = 0 := by
  rw [setBit_getD]
  split
  · rename_i hfirst
    have hmask : mask n &&& 0x80 = 0 := mask_top (by omega)
    rw [and_top_eq_zero] at h hmask ⊢
    rw [UInt8.toBitVec_or, BitVec.getLsbD_or, h, hmask]
    rfl
  · exact h

end Bits

section Neighbours

variable {α : Type*} {a b b' c : α} {l l' : List α}

def Adjacent (l : List α) (a b : α) : Prop := [a, b] <:+: l

theorem adjacent_cons_cons :
    Adjacent (c :: a :: l) b b' ↔ (b = c ∧ b' = a) ∨ Adjacent (a :: l) b b' := by
  rw [Adjacent, infix_cons_iff]
  refine or_congr ?_ Iff.rfl
  simp

theorem not_adjacent_singleton (c a b : α) : ¬ Adjacent [c] a b := by
  intro h
  have hlength := h.length_le
  simp at hlength

theorem Adjacent.map {β : Type*} (f : α → β) (h : Adjacent l a b) :
    Adjacent (l.map f) (f a) (f b) := IsInfix.map f h

theorem adjacent_of_map {β : Type*} {f : α → β} {a b : β} (h : Adjacent (l.map f) a b) :
    ∃ a' b', Adjacent l a' b' ∧ f a' = a ∧ f b' = b := by
  obtain ⟨m, hm, heq⟩ := infix_map_iff.mp h
  obtain ⟨a', b', rfl⟩ : ∃ a' b', m = [a', b'] := by
    match m, heq with
    | [a', b'], _ => exact ⟨a', b', rfl⟩
  simp only [map_cons, map_nil, List.cons.injEq, and_true] at heq
  exact ⟨a', b', hm, heq.1.symm, heq.2.symm⟩

theorem Adjacent.split (h : Adjacent (l ++ c :: l') a b) (ha : a ≠ c) (hb : b ≠ c) :
    Adjacent l a b ∨ Adjacent l' a b := by
  induction l with
  | nil =>
    cases l' with
    | nil => exact absurd h (not_adjacent_singleton _ _ _)
    | cons d l' =>
      rcases adjacent_cons_cons.mp h with ⟨rfl, -⟩ | h
      · exact absurd rfl ha
      · exact .inr h
  | cons d l ih =>
    cases l with
    | nil =>
      rcases adjacent_cons_cons.mp h with ⟨-, rfl⟩ | h
      · exact absurd rfl hb
      · exact (ih h).imp (fun h => absurd h (by simp [Adjacent])) id
    | cons e l =>
      rcases adjacent_cons_cons.mp h with ⟨rfl, rfl⟩ | h
      · exact .inl (adjacent_cons_cons.mpr (.inl ⟨rfl, rfl⟩))
      · exact (ih h).imp (fun h => adjacent_cons_cons.mpr (.inr h)) id

theorem Adjacent.dropWhile [DecidableEq α] (h : Adjacent l a b) (ha : a ≠ c) :
    Adjacent (l.dropWhile (· = c)) a b := by
  induction l with
  | nil => exact h
  | cons d l ih =>
    rw [dropWhile_cons]
    split
    · rename_i hd
      cases l with
      | nil => exact absurd h (not_adjacent_singleton _ _ _)
      | cons e l =>
        rcases adjacent_cons_cons.mp h with ⟨rfl, -⟩ | h
        · exact absurd (of_decide_eq_true hd) ha
        · exact ih h
    · exact h

end Neighbours

end Harbour.Library.BitSignature
