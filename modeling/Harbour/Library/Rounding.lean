import Mathlib.Data.Int.Log
import Mathlib.Data.Rat.Floor
import Mathlib.Tactic.Ring
import Mathlib.Tactic.Linarith
import Mathlib.Tactic.Positivity

/-!
Binary numbers of a fixed count of significant bits, and rounding to the nearest of them, in a
range without limits.
-/

namespace Harbour.Library.Rounding

/-- The integer nearest to a rational, the even one of two. -/
def nearestEven (q : ℚ) : ℤ :=
  if q - ⌊q⌋ < 1 / 2 ∨ q - ⌊q⌋ = 1 / 2 ∧ ⌊q⌋ % 2 = 0 then ⌊q⌋ else ⌊q⌋ + 1

/-- The value of the last of `bits` significant bits. -/
def lastPlace (bits : ℕ) (q : ℚ) : ℚ := 2 ^ (Int.log 2 |q| + 1 - bits)

def roundTo (bits : ℕ) (q : ℚ) : ℚ := nearestEven (q / lastPlace bits q) * lastPlace bits q

def Representable (bits : ℕ) (q : ℚ) : Prop := ∃ m e : ℤ, |m| < 2 ^ bits ∧ q = m * 2 ^ e

section NearestEven

variable {q : ℚ} {n : ℤ}

theorem nearestEven_intCast (n : ℤ) : nearestEven n = n := by
  unfold nearestEven
  rw [Int.floor_intCast, sub_self]
  exact if_pos (.inl one_half_pos)

theorem floor_le_nearestEven (q : ℚ) : ⌊q⌋ ≤ nearestEven q := by
  unfold nearestEven
  split_ifs
  · exact le_refl _
  · exact (lt_add_one _).le

theorem nearestEven_le_succ (q : ℚ) : nearestEven q ≤ ⌊q⌋ + 1 := by
  unfold nearestEven
  split_ifs
  · exact (lt_add_one _).le
  · exact le_refl _

theorem le_nearestEven (h : (n : ℚ) ≤ q) : n ≤ nearestEven q :=
  (Int.le_floor.mpr h).trans (floor_le_nearestEven q)

theorem nearestEven_le (h : q ≤ n) : nearestEven q ≤ n := by
  rcases h.eq_or_lt with rfl | hlt
  · exact (nearestEven_intCast n).le
  · exact (nearestEven_le_succ q).trans (Int.add_one_le_of_lt (Int.floor_lt.mpr hlt))

theorem nearestEven_mono {r : ℚ} (h : q ≤ r) : nearestEven q ≤ nearestEven r := by
  rcases (Int.floor_le_floor h).eq_or_lt with hfloor | hfloor
  · unfold nearestEven
    rw [hfloor]
    by_cases hdown : r - ⌊r⌋ < 1 / 2 ∨ r - ⌊r⌋ = 1 / 2 ∧ ⌊r⌋ % 2 = 0
    · have hdown' : q - ⌊r⌋ < 1 / 2 ∨ q - ⌊r⌋ = 1 / 2 ∧ ⌊r⌋ % 2 = 0 := by
        rcases hdown with hless | ⟨heq, heven⟩
        · exact .inl (by linarith)
        · rcases h.eq_or_lt with rfl | hlt
          · exact .inr ⟨heq, heven⟩
          · exact .inl (by linarith)
      rw [if_pos hdown, if_pos hdown']
    · rw [if_neg hdown]
      split_ifs
      · exact (lt_add_one _).le
      · exact le_refl _
  · calc nearestEven q ≤ ⌊q⌋ + 1 := nearestEven_le_succ q
      _ ≤ ⌊r⌋ := hfloor
      _ ≤ nearestEven r := floor_le_nearestEven r

end NearestEven

section RoundTo

variable {bits : ℕ} {q : ℚ}

theorem lastPlace_pos (bits : ℕ) (q : ℚ) : 0 < lastPlace bits q := zpow_pos two_pos _

theorem roundTo_zero (bits : ℕ) : roundTo bits 0 = 0 := by
  have hzero : nearestEven 0 = 0 := by
    have h := nearestEven_intCast 0
    rwa [Int.cast_zero] at h
  unfold roundTo
  rw [zero_div, hzero, Int.cast_zero, zero_mul]

theorem pow_mul_lastPlace (bits : ℕ) (q : ℚ) :
    2 ^ bits * lastPlace bits q = 2 ^ (Int.log 2 |q| + 1) := by
  unfold lastPlace
  rw [← zpow_natCast, ← zpow_add₀ two_ne_zero, add_sub_cancel]

theorem lt_pow_lastPlace (bits : ℕ) (q : ℚ) : |q| < 2 ^ bits * lastPlace bits q := by
  have hlt := Int.lt_zpow_succ_log_self (b := 2) (by decide) |q|
  rw [pow_mul_lastPlace]
  exact_mod_cast hlt

theorem high_bit (hbits : 0 < bits) (q : ℚ) :
    (2 : ℚ) ^ Int.log 2 |q| = ((2 ^ (bits - 1) : ℕ) : ℤ) * lastPlace bits q := by
  unfold lastPlace
  push_cast
  rw [← zpow_natCast, ← zpow_add₀ two_ne_zero]
  congr 1
  omega

theorem high_bit_le (hq : q ≠ 0) : (2 : ℚ) ^ Int.log 2 |q| ≤ |q| := by
  have hle := Int.zpow_log_le_self (b := 2) (by decide) (abs_pos.mpr hq)
  exact_mod_cast hle

theorem roundTo_of_representable (h : Representable bits q) : roundTo bits q = q := by
  obtain ⟨m, e, hm, hq⟩ := h
  by_cases hzero : q = 0
  · rw [hzero, roundTo_zero]
  have hm' : |(m : ℚ)| < 2 ^ bits := by exact_mod_cast hm
  have hpow : (0 : ℚ) < 2 ^ e := zpow_pos two_pos e
  have habs : |q| = |(m : ℚ)| * 2 ^ e := by rw [hq, abs_mul, abs_of_pos hpow]
  have hbound : |q| < 2 ^ ((bits : ℤ) + e) := by
    rw [habs, zpow_add₀ two_ne_zero, zpow_natCast]
    exact mul_lt_mul_of_pos_right hm' hpow
  have hlog : Int.log 2 |q| < bits + e :=
    (zpow_lt_zpow_iff_right₀ one_lt_two).mp ((high_bit_le hzero).trans_lt hbound)
  obtain ⟨k, hk⟩ := Int.eq_ofNat_of_zero_le (by omega : 0 ≤ e - (Int.log 2 |q| + 1 - bits))
  have hplace : q / lastPlace bits q = ((m * 2 ^ k : ℤ) : ℚ) := by
    rw [div_eq_iff (lastPlace_pos bits q).ne']
    nth_rewrite 1 [hq]
    push_cast
    unfold lastPlace
    rw [mul_assoc, ← zpow_natCast, ← zpow_add₀ two_ne_zero]
    congr 2
    omega
  unfold roundTo
  rw [hplace, nearestEven_intCast, ← hplace, div_mul_cancel₀ _ (lastPlace_pos bits q).ne']

theorem representable_roundTo (hbits : 0 < bits) (q : ℚ) : Representable bits (roundTo bits q) := by
  have hpos := lastPlace_pos bits q
  have hlt := lt_pow_lastPlace bits q
  have hquot : |q / lastPlace bits q| < 2 ^ bits := by
    rw [abs_div, abs_of_pos hpos, div_lt_iff₀ hpos]
    exact hlt
  obtain ⟨hlow, hhigh⟩ := abs_lt.mp hquot
  have hle : nearestEven (q / lastPlace bits q) ≤ 2 ^ bits :=
    nearestEven_le (by push_cast; exact hhigh.le)
  have hge : -2 ^ bits ≤ nearestEven (q / lastPlace bits q) :=
    le_nearestEven (by push_cast; exact hlow.le)
  have hone : (1 : ℤ) < 2 ^ bits := one_lt_pow₀ one_lt_two (Nat.pos_iff_ne_zero.mp hbits)
  unfold roundTo
  generalize nearestEven (q / lastPlace bits q) = m at hle hge
  rcases hle.lt_or_eq with hle | rfl
  · rcases hge.lt_or_eq with hge | rfl
    · exact ⟨m, _, abs_lt.mpr ⟨hge, hle⟩, rfl⟩
    · refine ⟨-1, Int.log 2 |q| + 1, by rw [abs_neg, abs_one]; exact hone, ?_⟩
      push_cast
      rw [neg_mul, neg_mul, one_mul, pow_mul_lastPlace]
  · refine ⟨1, Int.log 2 |q| + 1, by rw [abs_one]; exact hone, ?_⟩
    push_cast
    rw [one_mul, pow_mul_lastPlace]

theorem high_bit_le_roundTo (hbits : 0 < bits) (hq : 0 < q) :
    (2 : ℚ) ^ Int.log 2 |q| ≤ roundTo bits q := by
  have hle := high_bit_le hq.ne'
  rw [high_bit hbits, abs_of_pos hq] at hle
  rw [high_bit hbits]
  refine mul_le_mul_of_nonneg_right ?_ (lastPlace_pos bits q).le
  exact_mod_cast le_nearestEven ((le_div_iff₀ (lastPlace_pos bits q)).mpr hle)

theorem roundTo_le_neg_high_bit (hbits : 0 < bits) (hq : q < 0) :
    roundTo bits q ≤ -(2 : ℚ) ^ Int.log 2 |q| := by
  have hle := high_bit_le hq.ne
  rw [high_bit hbits, abs_of_neg hq, le_neg, ← neg_mul] at hle
  rw [high_bit hbits, ← neg_mul]
  refine mul_le_mul_of_nonneg_right ?_ (lastPlace_pos bits q).le
  have hdiv := (div_le_iff₀ (lastPlace_pos bits q)).mpr hle
  exact_mod_cast nearestEven_le (by exact_mod_cast hdiv)

theorem abs_roundTo_le (bits : ℕ) (q : ℚ) : |roundTo bits q| ≤ 2 ^ (Int.log 2 |q| + 1) := by
  have hpos := lastPlace_pos bits q
  have hlt := lt_pow_lastPlace bits q
  have hquot : |q / lastPlace bits q| < ((2 ^ bits : ℕ) : ℤ) := by
    rw [abs_div, abs_of_pos hpos, div_lt_iff₀ hpos]
    exact_mod_cast hlt
  obtain ⟨hlow, hhigh⟩ := abs_lt.mp hquot
  have hle : nearestEven (q / lastPlace bits q) ≤ ((2 ^ bits : ℕ) : ℤ) := nearestEven_le hhigh.le
  have hge : -((2 ^ bits : ℕ) : ℤ) ≤ nearestEven (q / lastPlace bits q) :=
    le_nearestEven (by push_cast at hlow ⊢; exact hlow.le)
  have hnear : |(nearestEven (q / lastPlace bits q) : ℚ)| ≤ 2 ^ bits := by
    exact_mod_cast abs_le.mpr ⟨hge, hle⟩
  rw [← pow_mul_lastPlace bits, roundTo, abs_mul, abs_of_pos hpos]
  exact mul_le_mul_of_nonneg_right hnear hpos.le

theorem roundTo_mono (hbits : 0 < bits) {r : ℚ} (h : q ≤ r) : roundTo bits q ≤ roundTo bits r := by
  have hsame (hlog : Int.log 2 |q| = Int.log 2 |r|) : roundTo bits q ≤ roundTo bits r := by
    have hplace : lastPlace bits q = lastPlace bits r := by rw [lastPlace, lastPlace, hlog]
    have hpos := lastPlace_pos bits r
    have hquot : q / lastPlace bits r ≤ r / lastPlace bits r := div_le_div_of_nonneg_right h hpos.le
    rw [roundTo, roundTo, hplace]
    exact mul_le_mul_of_nonneg_right (by exact_mod_cast nearestEven_mono hquot) hpos.le
  have hpow {m n : ℤ} (hmn : m < n) : (2 : ℚ) ^ (m + 1) ≤ 2 ^ n :=
    zpow_le_zpow_right₀ one_le_two hmn
  have hsign (k : ℤ) : (0 : ℚ) < 2 ^ k := zpow_pos two_pos k
  rcases lt_trichotomy q 0 with hq | rfl | hq
  · rcases lt_or_ge r 0 with hr | hr
    · have habs : |r| ≤ |q| := by
        rw [abs_of_neg hq, abs_of_neg hr]
        exact neg_le_neg h
      rcases (Int.log_mono_right (abs_pos.mpr hr.ne) habs).eq_or_lt with hlog | hlog
      · exact hsame hlog.symm
      · calc roundTo bits q ≤ -2 ^ Int.log 2 |q| := roundTo_le_neg_high_bit hbits hq
          _ ≤ -2 ^ (Int.log 2 |r| + 1) := neg_le_neg (hpow hlog)
          _ ≤ roundTo bits r := neg_le_of_abs_le (abs_roundTo_le bits r)
    · have hneg := roundTo_le_neg_high_bit hbits hq
      have hnonneg : 0 ≤ roundTo bits r := by
        rcases hr.eq_or_lt with rfl | hr
        · exact (roundTo_zero bits).ge
        · exact (hsign _).le.trans (high_bit_le_roundTo hbits hr)
      linarith [hsign (Int.log 2 |q|)]
  · rw [roundTo_zero]
    rcases h.eq_or_lt with rfl | hr
    · exact (roundTo_zero bits).ge
    · exact (hsign _).le.trans (high_bit_le_roundTo hbits hr)
  · have hr := hq.trans_le h
    have habs : |q| ≤ |r| := by rwa [abs_of_pos hq, abs_of_pos hr]
    rcases (Int.log_mono_right (abs_pos.mpr hq.ne') habs).eq_or_lt with hlog | hlog
    · exact hsame hlog
    · calc roundTo bits q ≤ 2 ^ (Int.log 2 |q| + 1) := le_of_abs_le (abs_roundTo_le bits q)
        _ ≤ 2 ^ Int.log 2 |r| := hpow hlog
        _ ≤ roundTo bits r := high_bit_le_roundTo hbits hr

theorem pow_le_roundTo (hbits : 0 < bits) {k : ℕ} (h : 2 ^ k ≤ q) : 2 ^ k ≤ roundTo bits q := by
  have hpos : 0 < q := lt_of_lt_of_le (pow_pos two_pos k) h
  have hlog : (k : ℤ) ≤ Int.log 2 |q| := by
    refine (Int.zpow_le_iff_le_log (by decide) (abs_pos.mpr hpos.ne')).mp ?_
    rw [abs_of_pos hpos]
    exact_mod_cast h
  refine le_trans ?_ (high_bit_le_roundTo hbits hpos)
  exact zpow_le_zpow_right₀ one_le_two hlog

theorem roundTo_le_neg_pow (hbits : 0 < bits) {k : ℕ} (h : q ≤ -2 ^ k) :
    roundTo bits q ≤ -2 ^ k := by
  have hneg : q < 0 := lt_of_le_of_lt h (neg_neg_of_pos (pow_pos two_pos k))
  have hlog : (k : ℤ) ≤ Int.log 2 |q| := by
    refine (Int.zpow_le_iff_le_log (by decide) (abs_pos.mpr hneg.ne)).mp ?_
    rw [abs_of_neg hneg]
    have hle := neg_le_neg h
    rw [neg_neg] at hle
    exact_mod_cast hle
  refine (roundTo_le_neg_high_bit hbits hneg).trans (neg_le_neg ?_)
  exact zpow_le_zpow_right₀ one_le_two hlog

theorem representable_intCast {n : ℤ} (h : |n| ≤ 2 ^ bits) (hbits : 0 < bits) :
    Representable bits n := by
  rcases h.lt_or_eq with hlt | heq
  · exact ⟨n, 0, hlt, by rw [zpow_zero, mul_one]⟩
  · have hone : (1 : ℤ) < 2 ^ bits := one_lt_pow₀ one_lt_two (Nat.pos_iff_ne_zero.mp hbits)
    rcases abs_choice n with hn | hn
    · refine ⟨1, bits, by rw [abs_one]; exact hone, ?_⟩
      rw [← hn, heq]
      push_cast
      rw [one_mul, zpow_natCast]
    · refine ⟨-1, bits, by rw [abs_neg, abs_one]; exact hone, ?_⟩
      have hn' : n = -2 ^ bits := by omega
      rw [hn']
      push_cast
      rw [neg_mul, one_mul, zpow_natCast]

end RoundTo

structure Rounded (bits : ℕ) where
  value : ℚ
  representable : Representable bits value

namespace Rounded

variable {bits : ℕ}

@[ext] theorem ext {a b : Rounded bits} (h : a.value = b.value) : a = b := by
  cases a
  subst h
  rfl

instance : DecidableEq (Rounded bits) := fun a b =>
  decidable_of_iff (a.value = b.value) ⟨ext, congrArg value⟩

instance : LinearOrder (Rounded bits) := LinearOrder.lift' value fun _ _ => ext

instance : NeZero 53 := ⟨by decide⟩

instance : NeZero 64 := ⟨by decide⟩

variable [NeZero bits]

def round (q : ℚ) : Rounded bits := ⟨roundTo bits q, representable_roundTo (NeZero.pos bits) q⟩

def ofInt (n : ℤ) : Rounded bits := round n
def neg (a : Rounded bits) : Rounded bits := round (-a.value)
def add (a b : Rounded bits) : Rounded bits := round (a.value + b.value)
def sub (a b : Rounded bits) : Rounded bits := round (a.value - b.value)
def mul (a b : Rounded bits) : Rounded bits := round (a.value * b.value)
def div (a b : Rounded bits) : Rounded bits := round (a.value / b.value)

theorem round_value {q : ℚ} (h : Representable bits q) : (round q : Rounded bits).value = q :=
  roundTo_of_representable h

theorem ofInt_value {n : ℤ} (h : |n| ≤ 2 ^ bits) : (ofInt n : Rounded bits).value = n :=
  round_value (representable_intCast h (NeZero.pos bits))

theorem ofInt_mono {m n : ℤ} (h : m ≤ n) : (ofInt m : Rounded bits) ≤ ofInt n :=
  roundTo_mono (NeZero.pos bits) (Int.cast_le.mpr h)

end Rounded

end Harbour.Library.Rounding
