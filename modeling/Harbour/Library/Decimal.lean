import Harbour.Library.Bytes
import Mathlib.Tactic.IntervalCases

/-!
Decimal texts of natural numbers.
-/

namespace Harbour.Library.Decimal

open List

def digit (k : Nat) : UInt8 := UInt8.ofNat (48 + k)

def isDigit (c : UInt8) : Bool := 48 ≤ c && c ≤ 57

@[irreducible] def digitValue (c : UInt8) : Nat := c.toNat - 48

def text (n : Nat) : Bytes :=
  if n < 10 then [digit n] else text (n / 10) ++ [digit (n % 10)]

def field : (width : Nat) → Nat → Bytes
  | 0, _ => []
  | width + 1, n => field width (n / 10) ++ [digit (n % 10)]

def padded (width n : Nat) : Bytes := replicate (width - (text n).length) 48 ++ text n

/-- The number that digits stand for, after those of another number. -/
def valueFrom : Nat → Bytes → Nat
  | v, [] => v
  | v, c :: digits => valueFrom (v * 10 + digitValue c) digits

def value (digits : Bytes) : Nat := valueFrom 0 digits

variable {k n v width : Nat}

theorem toNat_digit (h : k < 10) : (digit k).toNat = 48 + k := by
  interval_cases k <;> rfl

theorem isDigit_digit (h : k < 10) : isDigit (digit k) = true := by
  interval_cases k <;> rfl

theorem digitValue_digit (h : k < 10) : digitValue (digit k) = k := by
  unfold digitValue
  rw [toNat_digit h, Nat.add_sub_cancel_left]

@[simp]
theorem isDigit_digit_mod (n : Nat) : isDigit (digit (n % 10)) = true :=
  isDigit_digit (Nat.mod_lt n (by decide))

@[simp]
theorem digitValue_digit_mod (n : Nat) : digitValue (digit (n % 10)) = n % 10 :=
  digitValue_digit (Nat.mod_lt n (by decide))

@[simp]
theorem field_length (width n : Nat) : (field width n).length = width := by
  induction width generalizing n with
  | zero => rfl
  | succ width ih => simp [field, ih]

theorem text_of_lt (h : n < 10) : text n = [digit n] := by
  unfold text
  exact if_pos h

theorem text_of_ge (h : 10 ≤ n) : text n = text (n / 10) ++ [digit (n % 10)] := by
  conv_lhs => unfold text
  exact if_neg (Nat.not_lt.mpr h)

theorem padded_succ (hwidth : 0 < width) (n : Nat) :
    padded (width + 1) n = padded width (n / 10) ++ [digit (n % 10)] := by
  unfold padded
  rcases Nat.lt_or_ge n 10 with hn | hn
  · rw [text_of_lt hn, Nat.div_eq_of_lt hn, text_of_lt (by decide), Nat.mod_eq_of_lt hn]
    rcases width with _ | width
    · omega
    simp [replicate_succ', digit]
  · rw [text_of_ge hn, length_append, length_singleton, Nat.add_sub_add_right,
      append_assoc]

theorem padded_eq_field (hwidth : 0 < width) (hn : n < 10 ^ width) :
    padded width n = field width n := by
  induction width generalizing n with
  | zero => exact absurd hwidth (Nat.lt_irrefl 0)
  | succ width ih =>
    rcases Nat.eq_zero_or_pos width with rfl | hpos
    · have hn : n < 10 := by omega
      simp [padded, text_of_lt hn, field, Nat.mod_eq_of_lt hn]
    · have hdiv : n / 10 < 10 ^ width := by
        omega
      rw [padded_succ hpos, ih hpos hdiv, field]

theorem digitValue_lt {c : UInt8} (hc : isDigit c = true) : digitValue c < 10 := by
  unfold isDigit at hc
  simp only [Bool.and_eq_true, decide_eq_true_eq, UInt8.le_iff_toNat_le] at hc
  unfold digitValue
  have hle : c.toNat ≤ 57 := hc.2
  omega

theorem le_valueFrom (v : Nat) (digits : Bytes) : v ≤ valueFrom v digits := by
  induction digits generalizing v with
  | nil => exact le_refl v
  | cons c digits ih =>
    have hle := ih (v * 10 + digitValue c)
    rw [valueFrom]
    omega

theorem valueFrom_append (v : Nat) (digits digits' : Bytes) :
    valueFrom v (digits ++ digits') = valueFrom (valueFrom v digits) digits' := by
  induction digits generalizing v with
  | nil => rfl
  | cons c digits ih => rw [cons_append, valueFrom, valueFrom, ih]

theorem length_text_le (hk : 0 < k) (hn : n < 10 ^ k) : (text n).length ≤ k := by
  have hlength := congrArg length (padded_eq_field hk hn)
  rw [field_length, padded, length_append, length_replicate] at hlength
  omega

theorem isDigit_of_mem_text {c : UInt8} (h : c ∈ text n) : isDigit c = true := by
  induction n using Nat.strongRecOn with
  | ind n ih =>
    rcases Nat.lt_or_ge n 10 with hn | hn
    · rw [text_of_lt hn, mem_singleton] at h
      rw [h]
      exact isDigit_digit hn
    · rw [text_of_ge hn, mem_append, mem_singleton] at h
      rcases h with h | rfl
      · exact ih (n / 10) (by omega) h
      · exact isDigit_digit_mod n

theorem value_text (n : Nat) : value (text n) = n := by
  induction n using Nat.strongRecOn with
  | ind n ih =>
    rcases Nat.lt_or_ge n 10 with hn | hn
    · rw [text_of_lt hn, value, valueFrom, valueFrom, digitValue_digit hn, Nat.zero_mul,
        Nat.zero_add]
    · rw [text_of_ge hn, value, valueFrom_append, ← value, ih (n / 10) (by omega),
        valueFrom, valueFrom, digitValue_digit_mod, Nat.mul_comm]
      exact Nat.div_add_mod n 10

end Harbour.Library.Decimal
