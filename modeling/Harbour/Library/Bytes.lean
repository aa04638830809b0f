import Mathlib.Data.List.Basic
import Mathlib.Tactic.Positivity
import Mathlib.Tactic.Ring
import Mathlib.Tactic.Zify

namespace Harbour

abbrev Bytes := List UInt8

namespace Library.Bytes

/-- The `width` low bytes of a number, the least significant byte first. -/
def leBytes : (width : Nat) → Nat → Bytes
  | 0, _ => []
  | width + 1, n => UInt8.ofNat n :: leBytes width (n / 256)

/-- The same with the most significant byte first. -/
def beBytes (width n : Nat) : Bytes := (leBytes width n).reverse

def leValue : Bytes → Nat
  | [] => 0
  | b :: bytes => b.toNat + 256 * leValue bytes

@[simp]
theorem leBytes_length (width n : Nat) : (leBytes width n).length = width := by
  induction width generalizing n with
  | zero => rfl
  | succ width ih => simp [leBytes, ih]

theorem leValue_leBytes (width n : Nat) : leValue (leBytes width n) = n % 256 ^ width := by
  induction width generalizing n with
  | zero => simp [leBytes, leValue, Nat.mod_one]
  | succ width ih =>
    rw [leBytes, leValue, ih, Nat.pow_succ', Nat.mod_mul]
    simp

theorem leValue_append (bytes bytes' : Bytes) :
    leValue (bytes ++ bytes') = leValue bytes + 256 ^ bytes.length * leValue bytes' := by
  induction bytes with
  | nil => simp [leValue]
  | cons b bytes ih =>
    rw [List.cons_append, leValue, leValue, ih, List.length_cons, Nat.pow_succ']
    ring

theorem leValue_lt (bytes : Bytes) : leValue bytes < 256 ^ bytes.length := by
  induction bytes with
  | nil => simp [leValue]
  | cons b bytes ih =>
    have hb : b.toNat < 256 := b.toNat_lt
    rw [leValue, List.length_cons, Nat.pow_succ']
    omega

/-- Two's complement: the signed reading of a number of `bits` bits. -/
def signed (bits n : Nat) : Int :=
  if n < 2 ^ (bits - 1) then n else (n : Int) - 2 ^ bits

/-- The unsigned number of `bits` bits stored for a signed one. -/
def unsigned (bits : Nat) (n : Int) : Nat := (n % 2 ^ bits).toNat

theorem unsigned_lt (bits : Nat) (n : Int) : unsigned bits n < 2 ^ bits := by
  have hpos : (0 : Int) < 2 ^ bits := by positivity
  have hlt := Int.emod_lt_of_pos n hpos
  have hnonneg := Int.emod_nonneg n (ne_of_gt hpos)
  unfold unsigned
  zify
  rw [Int.toNat_of_nonneg hnonneg]
  exact hlt

theorem unsigned_of_nonneg (bits : Nat) {n : Int} (hnonneg : 0 ≤ n) (hlt : n < 2 ^ bits) :
    (unsigned bits n : Int) = n := by
  unfold unsigned
  rw [Int.emod_eq_of_lt hnonneg hlt, Int.toNat_of_nonneg hnonneg]

theorem unsigned_of_neg (bits : Nat) {n : Int} (hneg : n < 0) (hle : -2 ^ bits ≤ n) :
    (unsigned bits n : Int) = n + 2 ^ bits := by
  have hmod : n % 2 ^ bits = n + 2 ^ bits := by
    rw [← Int.add_emod_right, Int.emod_eq_of_lt (by omega) (by omega)]
  unfold unsigned
  rw [hmod, Int.toNat_of_nonneg (by omega)]

theorem signed_range {bits n : Nat} (hbits : 0 < bits) (hlt : n < 2 ^ bits) :
    -2 ^ (bits - 1) ≤ signed bits n ∧ signed bits n < 2 ^ (bits - 1) := by
  rcases bits with _ | bits
  · omega
  unfold signed
  rw [Nat.add_sub_cancel]
  split
  · zify at *
    omega
  · zify at *
    omega

theorem leValue_unsigned_mod {width bits : Nat} (hle : 8 * width ≤ bits) (n : Int) :
    leValue (leBytes width (unsigned bits n)) = unsigned (8 * width) n := by
  have hdvd : (2 : Int) ^ (8 * width) ∣ 2 ^ bits := pow_dvd_pow 2 hle
  have hnonneg : 0 ≤ n % 2 ^ bits := Int.emod_nonneg n (by positivity)
  have hbase : (256 : Nat) ^ width = 2 ^ (8 * width) := (Nat.pow_mul 2 8 width).symm
  rw [leValue_leBytes, hbase]
  unfold unsigned
  zify
  rw [Int.toNat_of_nonneg hnonneg, Int.toNat_of_nonneg (Int.emod_nonneg n (by positivity)),
    Int.emod_emod_of_dvd n hdvd]

theorem signed_unsigned {bits : Nat} (hbits : 0 < bits) {n : Int} (hle : -2 ^ (bits - 1) ≤ n)
    (hlt : n < 2 ^ (bits - 1)) : signed bits (unsigned bits n) = n := by
  rcases bits with _ | bits
  · omega
  rw [Nat.add_sub_cancel] at hle hlt
  unfold signed
  rw [Nat.add_sub_cancel]
  rcases lt_or_ge n 0 with hneg | hnonneg
  · have hunsigned := unsigned_of_neg (bits + 1) hneg (by omega)
    rw [if_neg (by zify; omega), hunsigned]
    omega
  · have hunsigned := unsigned_of_nonneg (bits + 1) hnonneg (by omega)
    rw [if_pos (by zify; omega), hunsigned]

end Library.Bytes

end Harbour
