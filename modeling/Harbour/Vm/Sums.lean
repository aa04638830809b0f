import Harbour.Vm.Relations
import Mathlib.Algebra.BigOperators.Group.Multiset.Basic
import Mathlib.Tactic.FieldSimp

/-!
What an addition of the virtual machine adds, where nothing is rounded or lost.
-/

namespace Harbour.Vm.Operators

open Library.Rounding Rounded

namespace Item

/-- The order of the types that can be added; the sum has the greater one. -/
def rank : Item → Nat
  | .numInt _ _ => 0
  | .double _ => 1
  | .date _ => 2
  | .timestamp _ _ => 3
  | _ => 4

def total : Item → ℚ
  | .numInt _ n => n
  | .double d => d.value
  | .date julian => julian
  | .timestamp julian time => julian + time / millisecsPerDay
  | _ => 0

def Normal : Item → Prop
  | .timestamp _ time => 0 ≤ time ∧ time < millisecsPerDay
  | _ => True

/-- The same value of the same type; a small integer may be stored as an integer or as a long. -/
def Same (item1 item2 : Item) : Prop :=
  match item1, item2 with
  | .numInt _ n1, .numInt _ n2 => n1 = n2
  | item1, item2 => item1 = item2

end Item

variable {d : Double} {julian lJulian lMilliSec n time : Int}

def Fits (q : ℚ) : Prop := -2 ^ 63 ≤ q ∧ q ≤ 2 ^ 63 - 1

theorem fits_intCast (h : Fits n) : LimLong n := by
  obtain ⟨hlow, hhigh⟩ := h
  exact ⟨by exact_mod_cast hlow, by exact_mod_cast hhigh⟩

theorem truncate_intCast (n : Int) : truncate n = n := by
  exact Int.tdiv_one n

theorem castLong_whole (h : d.value = n) (hfits : LimLong n) :
    castLong d = n := by
  unfold castLong
  rw [h, truncate_intCast, wrap64_of_lim hfits]

theorem add_value {bits : ℕ} [NeZero bits] {a b : Rounded bits}
    (h : Representable bits (a.value + b.value)) : (a.add b).value = a.value + b.value :=
  round_value h

theorem normalize_normal (hjulian : 0 ≤ lJulian) (hlow : 0 ≤ lMilliSec)
    (hhigh : lMilliSec < millisecsPerDay) : normalize lJulian lMilliSec = (lJulian, lMilliSec) := by
  unfold normalize
  rw [if_neg hjulian.not_gt, if_neg hhigh.not_ge, if_neg hlow.not_gt]

theorem normalize_carry (hjulian : 0 ≤ lJulian) (hlow : millisecsPerDay ≤ lMilliSec) :
    normalize lJulian lMilliSec = (lJulian + 1, lMilliSec - millisecsPerDay) := by
  unfold normalize
  rw [if_neg hjulian.not_gt, if_pos hlow]

/-- A count of days that is one of milliseconds as well, in the range of halves of a double. -/
def Millis (q : ℚ) : Prop := ∃ n : ℤ, q * millisecsPerDay = n ∧ 0 ≤ n ∧ n < 2 ^ 52

structure Addable (item1 item2 : Item) : Prop where
  fits1 : Fits item1.total
  fits2 : Fits item2.total
  fits : Fits (item1.total + item2.total)
  exact : item1.rank = 1 ∨ item2.rank = 1 → item1.rank ≤ 1 → item2.rank ≤ 1 →
    Representable 53 item1.total ∧ Representable 53 item2.total ∧
      Representable 53 (item1.total + item2.total)
  whole1 : item2.rank = 2 → item1.rank ≤ 1 → ∃ n : ℤ, item1.total = n
  whole2 : item1.rank = 2 → item2.rank ≤ 1 → ∃ n : ℤ, item2.total = n
  stamp1 : item1.rank = 3 → (item2.rank = 1 → Millis item2.total) ∧ 0 ≤ item1.total ∧
    0 ≤ item1.total + item2.total ∧ (2 ≤ item2.rank → 0 ≤ item2.total)
  stamp2 : item2.rank = 3 → (item1.rank = 1 → Millis item1.total) ∧ 0 ≤ item2.total ∧
    0 ≤ item1.total + item2.total ∧ (2 ≤ item1.rank → 0 ≤ item1.total)
  normal1 : item1.Normal
  normal2 : item2.Normal

structure IsSum (item1 item2 item : Item) : Prop where
  rank : item.rank = max item1.rank item2.rank
  total : item.total = item1.total + item2.total
  normal : item.Normal

section Plus

variable {item1 item2 : Item}

theorem millisecsPerDay_pos : (0 : ℚ) < millisecsPerDay := by
  unfold millisecsPerDay
  norm_num

theorem stamp_days (hhigh : time < millisecsPerDay)
    (h : (0 : ℚ) ≤ julian + time / millisecsPerDay) : 0 ≤ julian := by
  have hday := millisecsPerDay_pos
  have hpart : (time : ℚ) / millisecsPerDay < 1 := by
    rw [div_lt_one hday]
    exact_mod_cast hhigh
  have hneg : (-1 : ℚ) < julian := by linarith
  have hneg' : (-1 : Int) < julian := by exact_mod_cast hneg
  omega

theorem stamp_fits (hlow : 0 ≤ time) (hjulian : 0 ≤ julian)
    (h : Fits (julian + time / millisecsPerDay)) : LimLong julian := by
  have hday := millisecsPerDay_pos
  have hpart : (0 : ℚ) ≤ time / millisecsPerDay := div_nonneg (by exact_mod_cast hlow) hday.le
  have hle : (julian : ℚ) ≤ 2 ^ 63 - 1 := by linarith [h.2]
  have hle' : julian ≤ 2 ^ 63 - 1 := by exact_mod_cast hle
  exact ⟨by omega, hle'⟩

theorem timeStampPut_sum (hjulian : 0 ≤ julian) (hlow : 0 ≤ time)
    (hhigh : time < 2 * millisecsPerDay) :
    (timeStampPut julian time).rank = 3 ∧
      (timeStampPut julian time).total = julian + time / millisecsPerDay ∧
      (timeStampPut julian time).Normal := by
  have hday := millisecsPerDay_pos
  unfold timeStampPut
  by_cases hcarry : millisecsPerDay ≤ time
  · rw [normalize_carry hjulian hcarry]
    refine ⟨rfl, ?_, ?_⟩
    · unfold Item.total
      push_cast
      field_simp
      ring
    · exact ⟨by dsimp only; omega, by dsimp only; omega⟩
  · rw [normalize_normal hjulian hlow (not_le.mp hcarry)]
    exact ⟨rfl, rfl, hlow, not_le.mp hcarry⟩

theorem long_sum {a b : Int} (h : Fits ((a : ℚ) + b)) : wrap64 (a + b) = a + b :=
  wrap64_of_lim (fits_intCast (by push_cast; exact h))

theorem numInt_sum {fLong1 fLong2 : Bool} {n1 n2 : Int} (h : Fits ((n1 : ℚ) + n2)) :
    vmPlus (.numInt fLong1 n1) (.numInt fLong2 n2) = .ok (putNumIntRaw (n1 + n2)) := by
  have hno : if n2 ≥ 0 then n1 + n2 ≥ n1 else n1 + n2 < n1 := by
    split_ifs
    · omega
    · omega
  unfold vmPlus
  dsimp only
  rw [long_sum h, if_pos hno]

theorem double_sum {d1 d2 : Double} {q1 q2 : ℚ} (h1 : d1.value = q1) (h2 : d2.value = q2)
    (h : Representable 53 (q1 + q2)) :
    (Item.double (d1.add d2)).rank = 1 ∧ (Item.double (d1.add d2)).total = q1 + q2 := by
  refine ⟨rfl, ?_⟩
  change (d1.add d2).value = _
  rw [add_value (by rw [h1, h2]; exact h), h1, h2]

theorem stamp_sum (hlow : 0 ≤ time) (hhigh : time < millisecsPerDay)
    (hpos : (0 : ℚ) ≤ (julian + time / millisecsPerDay) + n)
    (hfits : Fits ((julian + time / millisecsPerDay) + n)) :
    (timeStampPut (wrap64 (julian + n)) time).rank = 3 ∧
      (timeStampPut (wrap64 (julian + n)) time).total = (julian + time / millisecsPerDay) + n ∧
      (timeStampPut (wrap64 (julian + n)) time).Normal := by
  have hcast : ((julian + n : Int) : ℚ) + time / millisecsPerDay =
      (julian + time / millisecsPerDay) + n := by
    push_cast
    ring
  have hdays : 0 ≤ julian + n := stamp_days hhigh (by rw [hcast]; exact hpos)
  have hlim : LimLong (julian + n) := stamp_fits hlow hdays (by rw [hcast]; exact hfits)
  have hsum := timeStampPut_sum hdays hlow (by unfold millisecsPerDay at hhigh ⊢; omega)
  rw [wrap64_of_lim hlim, ← hcast]
  exact hsum

theorem stamps_sum {j1 t1 j2 t2 : Int} (hlow1 : 0 ≤ t1) (hhigh1 : t1 < millisecsPerDay)
    (hlow2 : 0 ≤ t2) (hhigh2 : t2 < millisecsPerDay) (hpos1 : 0 ≤ j1) (hpos2 : 0 ≤ j2)
    (hfits : Fits ((j1 + t1 / millisecsPerDay) + (j2 + t2 / millisecsPerDay))) :
    (timeStampPut (wrap64 (j1 + j2)) (t1 + t2)).rank = 3 ∧
      (timeStampPut (wrap64 (j1 + j2)) (t1 + t2)).total =
        (j1 + t1 / millisecsPerDay) + (j2 + t2 / millisecsPerDay) ∧
      (timeStampPut (wrap64 (j1 + j2)) (t1 + t2)).Normal := by
  have hcast : ((j1 + j2 : Int) : ℚ) + ((t1 + t2 : Int) : ℚ) / millisecsPerDay =
      (j1 + t1 / millisecsPerDay) + (j2 + t2 / millisecsPerDay) := by
    push_cast
    ring
  have hlim : LimLong (j1 + j2) :=
    stamp_fits (by omega : 0 ≤ t1 + t2) (by omega) (by rw [hcast]; exact hfits)
  have hsum := timeStampPut_sum (by omega : 0 ≤ j1 + j2) (by omega : 0 ≤ t1 + t2) (by omega)
  rw [wrap64_of_lim hlim, ← hcast]
  exact hsum

theorem ofInt_millisecsPerDay : (ofInt millisecsPerDay : Double).value = (millisecsPerDay : ℚ) :=
  round_value (representable_intCast (by decide) (by decide))

theorem half_value : (round (1 / 2) : Double).value = 1 / 2 :=
  round_value ⟨1, -1, by decide, by norm_num⟩

theorem timeStampUnpackDT_millis (h : d.value * millisecsPerDay = n) (hlow : 0 ≤ n)
    (hhigh : n < 2 ^ 52) :
    timeStampUnpackDT d = (n.tdiv millisecsPerDay, n.tmod millisecsPerDay) := by
  have hproduct : (d.mul (ofInt millisecsPerDay)).value = n := by
    have hvalue : d.value * (ofInt millisecsPerDay : Double).value = n := by
      rw [ofInt_millisecsPerDay, h]
    have hrep : Representable 53 (n : ℚ) :=
      representable_intCast (abs_le.mpr ⟨by omega, by omega⟩) (by decide)
    exact (congrArg (fun q => (round q : Double).value) hvalue).trans (round_value hrep)
  have hsum : (n : ℚ) + 1 / 2 = ((2 * n + 1 : ℤ) : ℚ) * 2 ^ (-1 : ℤ) := by
    push_cast
    norm_num
    ring
  have hrounded : ((d.mul (ofInt millisecsPerDay)).add (round (1 / 2))).value = n + 1 / 2 := by
    rw [add_value, hproduct, half_value]
    rw [hproduct, half_value]
    exact ⟨2 * n + 1, -1, abs_lt.mpr ⟨by omega, by omega⟩, hsum⟩
  have htruncate : truncate ((n : ℚ) + 1 / 2) = n := by
    have hnonneg : (0 : ℚ) ≤ n + 1 / 2 := add_nonneg (by exact_mod_cast hlow) one_half_pos.le
    unfold truncate
    rw [Int.tdiv_eq_ediv_of_nonneg (Rat.num_nonneg.mpr hnonneg), ← Rat.floor_def', Int.floor_eq_iff]
    constructor
    · linarith
    · linarith
  have hcast : castLong ((d.mul (ofInt millisecsPerDay)).add (round (1 / 2))) = n := by
    unfold castLong
    rw [hrounded, htruncate]
    exact wrap64_of_lim ⟨by omega, by omega⟩
  unfold timeStampUnpackDT
  rw [hcast]

theorem timeStampAdd_sum (hnormal : 0 ≤ time ∧ time < millisecsPerDay) (hmillis : Millis d.value)
    (hpos : (0 : ℚ) ≤ julian + time / millisecsPerDay)
    (hfits : Fits ((julian + time / millisecsPerDay) + d.value)) :
    (timeStampAdd julian time d).rank = 3 ∧
      (timeStampAdd julian time d).total = (julian + time / millisecsPerDay) + d.value ∧
      (timeStampAdd julian time d).Normal := by
  obtain ⟨n, hn, hlow, hhigh⟩ := hmillis
  have hday := millisecsPerDay_pos
  have hjulian : 0 ≤ julian := stamp_days hnormal.2 hpos
  have hdays : n.tdiv millisecsPerDay * millisecsPerDay + n.tmod millisecsPerDay = n :=
    Int.tdiv_mul_add_tmod n millisecsPerDay
  have hquotient : 0 ≤ n.tdiv millisecsPerDay := Int.tdiv_nonneg hlow (by decide)
  have hrest : 0 ≤ n.tmod millisecsPerDay := Int.tmod_nonneg _ hlow
  have hlt : n.tmod millisecsPerDay < millisecsPerDay := Int.tmod_lt_of_pos n (by decide)
  have hcast : ((n.tdiv millisecsPerDay + julian : Int) : ℚ) +
      ((n.tmod millisecsPerDay + time : Int) : ℚ) / millisecsPerDay =
        (julian + time / millisecsPerDay) + d.value := by
    have hvalue : d.value = n / millisecsPerDay := by
      rw [eq_div_iff hday.ne', hn]
    have hdays' : (n.tdiv millisecsPerDay : ℚ) * millisecsPerDay + n.tmod millisecsPerDay = n := by
      exact_mod_cast hdays
    rw [hvalue, ← hdays']
    push_cast
    field_simp
    ring
  have hlim : LimLong (n.tdiv millisecsPerDay + julian) :=
    stamp_fits (by omega : 0 ≤ n.tmod millisecsPerDay + time) (by omega)
      (by rw [hcast]; exact hfits)
  have hsum := timeStampPut_sum (by omega : 0 ≤ n.tdiv millisecsPerDay + julian)
    (by omega : 0 ≤ n.tmod millisecsPerDay + time) (by omega)
  unfold timeStampAdd
  rw [timeStampUnpackDT_millis hn hlow hhigh]
  dsimp only
  rw [wrap64_of_lim hlim, ← hcast]
  exact hsum

theorem castLong_sum (hwhole : ∃ n : ℤ, d.value = n) (hfits : Fits d.value) :
    (castLong d : ℚ) = d.value := by
  obtain ⟨n, hn⟩ := hwhole
  rw [castLong_whole hn (fits_intCast (hn ▸ hfits)), hn]

theorem date_sum {q : ℚ} (hn : (n : ℚ) = q) (hfits : Fits (julian + q)) :
    (Item.date (wrap64 (julian + n))).rank = 2 ∧
      (Item.date (wrap64 (julian + n))).total = julian + q := by
  subst hn
  refine ⟨rfl, ?_⟩
  unfold Item.total
  rw [long_sum hfits]
  push_cast
  rfl

theorem Addable.symm (h : Addable item1 item2) : Addable item2 item1 := by
  obtain ⟨fits1, fits2, fits, exact, whole1, whole2, stamp1, stamp2, normal1, normal2⟩ := h
  rw [add_comm] at fits exact stamp1 stamp2
  have exact' := fun hdouble hle2 hle1 => and_left_comm.mp (exact (Or.symm hdouble) hle1 hle2)
  exact ⟨fits2, fits1, fits, exact', whole2, whole1, stamp2, stamp1, normal2, normal1⟩

/-- A sum is the same in the other order. -/
theorem vmPlus_swap (hlt : item1.rank < item2.rank) (h2 : item2.rank ≤ 3) :
    vmPlus item1 item2 = vmPlus item2 item1 := by
  have hadd (d1 d2 : Double) : d1.add d2 = d2.add d1 := congrArg Rounded.round (add_comm _ _)
  have hdate (n j : Int) : wrap64 (n + j) = wrap64 (j + n) := congrArg wrap64 (add_comm n j)
  cases item1 with
  | numInt fLong n =>
    cases item2 with
    | double d2 => exact congrArg (fun d => Except.ok (Item.double d)) (hadd _ _)
    | date j2 => exact congrArg (fun j => Except.ok (Item.date j)) (hdate n j2)
    | timestamp j2 t2 => exact congrArg (fun j => Except.ok (timeStampPut j t2)) (hdate n j2)
    | _ => simp [Item.rank] at hlt h2
  | double d =>
    cases item2 with
    | date j2 => exact congrArg (fun j => Except.ok (Item.date j)) (hdate (castLong d) j2)
    | timestamp j2 t2 => rfl
    | _ => simp [Item.rank] at hlt h2
  | date j =>
    cases item2 with
    | timestamp j2 t2 =>
      exact congrArg₂ (fun j t => Except.ok (timeStampPut j t)) (hdate j j2) (add_comm 0 t2)
    | _ => simp [Item.rank] at hlt h2
  | _ => exact absurd (hlt.trans_le h2) (by simp [Item.rank])

theorem vmPlus_double (d : Double) (h : Addable (.double d) item2) (h2 : item2.rank ≤ 1) :
    ∃ item, vmPlus (.double d) item2 = .ok item ∧ IsSum (.double d) item2 item := by
  cases item2 with
  | numInt fLong2 n2 =>
    obtain ⟨-, hexact, hsum⟩ := h.exact (.inl rfl) (Nat.le_refl 1) (Nat.zero_le 1)
    obtain ⟨hrank, htotal⟩ := double_sum rfl (round_value hexact) hsum
    exact ⟨_, rfl, hrank, htotal, trivial⟩
  | double d2 =>
    obtain ⟨-, -, hsum⟩ := h.exact (.inl rfl) (Nat.le_refl 1) (Nat.le_refl 1)
    obtain ⟨hrank, htotal⟩ := double_sum rfl rfl hsum
    exact ⟨_, rfl, hrank, htotal, trivial⟩
  | _ => simp [Item.rank] at h2

theorem vmPlus_date (j : Int) (h : Addable (.date j) item2) (h2 : item2.rank ≤ 2) :
    ∃ item, vmPlus (.date j) item2 = .ok item ∧ IsSum (.date j) item2 item := by
  cases item2 with
  | numInt fLong2 n2 =>
    obtain ⟨hrank, htotal⟩ := date_sum (rfl : (n2 : ℚ) = n2) h.fits
    exact ⟨_, rfl, hrank, htotal, trivial⟩
  | double d2 =>
    have hcast := castLong_sum (h.whole2 rfl (Nat.le_refl 1)) h.fits2
    obtain ⟨hrank, htotal⟩ := date_sum hcast h.fits
    exact ⟨_, rfl, hrank, htotal, trivial⟩
  | date j2 =>
    obtain ⟨hrank, htotal⟩ := date_sum (rfl : (j2 : ℚ) = j2) h.fits
    exact ⟨_, rfl, hrank, htotal, trivial⟩
  | _ => simp [Item.rank] at h2

theorem vmPlus_timestamp (j t : Int) (h : Addable (.timestamp j t) item2) (h2 : item2.rank ≤ 3) :
    ∃ item, vmPlus (.timestamp j t) item2 = .ok item ∧ IsSum (.timestamp j t) item2 item := by
  obtain ⟨fits1, fits2, fits, exact, whole1, whole2, stamp1, stamp2, normal1, normal2⟩ := h
  obtain ⟨hmillis, hpos1, hpos, hpos2⟩ := stamp1 rfl
  cases item2 with
  | numInt fLong2 n2 =>
    obtain ⟨hrank, htotal, hnormal⟩ := stamp_sum normal1.1 normal1.2 hpos fits
    exact ⟨_, rfl, hrank, htotal, hnormal⟩
  | double d2 =>
    obtain ⟨hrank, htotal, hnormal⟩ := timeStampAdd_sum normal1 (hmillis rfl) hpos1 fits
    exact ⟨_, rfl, hrank, htotal, hnormal⟩
  | date j2 =>
    have hj1 := stamp_days normal1.2 hpos1
    have hj2 : 0 ≤ j2 := Int.cast_nonneg_iff.mp (hpos2 (Nat.le_refl 2))
    have hzero : (j2 : ℚ) = j2 + ((0 : Int) : ℚ) / millisecsPerDay := by
      rw [Int.cast_zero, zero_div, add_zero]
    have hcomm : Item.total (.timestamp j t) + Item.total (.date j2) =
        (j + t / millisecsPerDay) + (j2 + ((0 : Int) : ℚ) / millisecsPerDay) := by
      rw [← hzero]
      rfl
    rw [hcomm] at fits
    obtain ⟨hrank, htotal, hnormal⟩ := stamps_sum normal1.1 normal1.2 (le_refl 0) (by decide)
      hj1 hj2 fits
    exact ⟨_, rfl, hrank, htotal.trans hcomm.symm, hnormal⟩
  | timestamp j2 t2 =>
    have hj1 := stamp_days normal1.2 hpos1
    have hj2 := stamp_days normal2.2 (hpos2 (Nat.le_succ 2))
    obtain ⟨hrank, htotal, hnormal⟩ := stamps_sum normal1.1 normal1.2 normal2.1 normal2.2
      hj1 hj2 fits
    exact ⟨_, rfl, hrank, htotal, hnormal⟩
  | nil | logical _ | string _ => exact absurd h2 (Nat.not_succ_le_self 3)

theorem vmPlus_ordered (h : Addable item1 item2) (hle : item2.rank ≤ item1.rank)
    (h1 : item1.rank ≤ 3) : ∃ item, vmPlus item1 item2 = .ok item ∧ IsSum item1 item2 item := by
  cases item1 with
  | numInt fLong n =>
    cases item2 with
    | numInt fLong2 n2 =>
      refine ⟨_, numInt_sum h.fits, rfl, ?_, trivial⟩
      change ((n + n2 : Int) : ℚ) = _
      push_cast
      rfl
    | _ => simp [Item.rank] at hle
  | double d => exact vmPlus_double d h hle
  | date j => exact vmPlus_date j h hle
  | timestamp j t => exact vmPlus_timestamp j t h hle
  | nil | logical _ | string _ => exact absurd h1 (Nat.not_succ_le_self 3)

theorem vmPlus_sum (h : Addable item1 item2) (h1 : item1.rank ≤ 3) (h2 : item2.rank ≤ 3) :
    ∃ item, vmPlus item1 item2 = .ok item ∧ IsSum item1 item2 item := by
  rcases Nat.lt_or_ge item1.rank item2.rank with hlt | hle
  · obtain ⟨item, hok, hrank, htotal, hnormal⟩ := vmPlus_ordered h.symm hlt.le h2
    exact ⟨item, (vmPlus_swap hlt h2).trans hok, hrank.trans (max_comm _ _),
      htotal.trans (add_comm _ _), hnormal⟩
  · exact vmPlus_ordered h hle h1

end Plus

end Harbour.Vm.Operators
