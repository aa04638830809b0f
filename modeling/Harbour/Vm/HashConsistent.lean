import Mathlib.Data.Nat.Log
import Mathlib.Data.Prod.Lex
import Mathlib.Order.WithBot
import Harbour.Library.Rounding
import Harbour.Vm.HashKey

/-!
Which keys `hb_hashItemCmp` compares as a total preorder does, with integers rounded to doubles of
53 bits.
-/

namespace Harbour.Vm.HashConsistent

open Common.CharClass Library.KeyOrder Library.Rounding HashTable HashKey List Rounded

/-- The doubles that are numbers, and the two infinite ones. -/
abbrev Double := WithBot (WithTop (Rounded 53))

def ofMaxInt (n : Int) : Double := ((ofInt n : Rounded 53) : WithTop (Rounded 53))

def doubleEnv (vmCDP : Option Collation) : KeyEnv Double where
  vmCDP
  less a b := a < b
  ofMaxInt := ofMaxInt

def collation (vmCDP : Option Collation) (iFlags : HashFlags) : Option (Bytes → Bytes → Int) :=
  if iFlags.binary then none
  else if iFlags.ignoreCase then vmCDP.map Collation.cdpicmp
  else vmCDP.map Collation.cdpcmp

/-- Two different integers around a double that both are rounded to. -/
def RoundedTogether (a b c : KeyItem Double) : Prop :=
  ∃ m n d, a = .numInt m ∧ b = .double d ∧ c = .numInt n ∧ m ≠ n ∧ ofMaxInt m = d ∧ ofMaxInt n = d

/-- The collation is asked about strings that are not empty, and it treats these as a total preorder
does. -/
structure CollatedConsistently (collate : Option (Bytes → Bytes → Int)) (a b c : KeyItem Double) :
    Prop where
  swap : ∀ cdpcmp ∈ collate, ∀ x y, a = .string x → b = .string y → x ≠ [] → y ≠ [] →
    Swaps cdpcmp x y
  consistent : ∀ cdpcmp ∈ collate, ∀ x y z, a = .string x → b = .string y → c = .string z →
    x ≠ [] → y ≠ [] → z ≠ [] → Consistent cdpcmp x y z

section Strings

variable {fold : UInt8 → UInt8} {cdpcmp : Bytes → Bytes → Int} {x y z : Bytes}

def codes (fold : UInt8 → UInt8) (x : Bytes) : List Nat := x.map fun c => (fold c).toNat

theorem bytesCmp_compares (fold : UInt8 → UInt8) (x y : Bytes) :
    Compares (bytesCmp fold x y) (codes fold x) (codes fold y) := by
  fun_induction bytesCmp fold x y with
  | case1 | case2 c rest | case3 c rest => exact ⟨by simp [codes], by simp [codes]⟩
  | case4 c1 rest1 c2 rest2 hne hlt =>
    have hlt := UInt8.lt_iff_toNat_lt.mp hlt
    constructor
    · simp [codes, cons_lt_cons_iff, hlt]
    · simp [codes, cons_lt_cons_iff, Nat.lt_asymm hlt, hlt.ne']
  | case5 c1 rest1 c2 rest2 hne hnlt =>
    have hgt := UInt8.lt_of_le_of_ne (UInt8.not_lt.mp hnlt) (Ne.symm hne)
    have hgt := UInt8.lt_iff_toNat_lt.mp hgt
    constructor
    · simp [codes, cons_lt_cons_iff, Nat.lt_asymm hgt, hgt.ne']
    · simp [codes, cons_lt_cons_iff, hgt]
  | case6 c1 rest1 c2 rest2 heq ih =>
    have heq := not_not.mp heq
    have hless := ih.less
    have hmore := ih.more
    constructor
    · simp [codes, heq, hless]
    · simp [codes, heq, hmore]

theorem binaryCmp_compares (x y : Bytes) :
    Compares (binaryCmp x y) (toLex (x.length, codes id x)) (toLex (y.length, codes id y)) := by
  have hbytes := bytesCmp_compares id x y
  unfold binaryCmp
  constructor
  · rw [Prod.Lex.toLex_lt_toLex]
    split_ifs with hlt hgt
    · simp [hlt]
    · simp [Nat.lt_asymm hgt, hgt.ne']
    · have heq : x.length = y.length := by omega
      simp [heq, hbytes.less]
  · rw [Prod.Lex.toLex_lt_toLex]
    split_ifs with hlt hgt
    · simp [Nat.lt_asymm hlt, hlt.ne']
    · simp [hgt]
    · have heq : x.length = y.length := by omega
      simp [heq, hbytes.more]

theorem strCmp_nonempty (hx : x ≠ []) (hy : y ≠ []) :
    strCmp (some cdpcmp) fold x y = cdpcmp x y := by simp [strCmp, hx, hy]

theorem strCmp_nil_left (y : Bytes) :
    strCmp (some cdpcmp) fold [] y = if y = [] then 0 else -1 := by
  cases y with
  | nil => rfl
  | cons c rest => rfl

theorem strCmp_nil_right (x : Bytes) :
    strCmp (some cdpcmp) fold x [] = if x = [] then 0 else 1 := by
  cases x with
  | nil => rfl
  | cons c rest => rfl

theorem strCmp_nil_right_le (h : strCmp (some cdpcmp) fold x [] ≤ 0) : x = [] := by
  rw [strCmp_nil_right] at h
  by_contra hx
  rw [if_neg hx] at h
  exact absurd h (by decide)

theorem strCmp_swaps_iff :
    Swaps (strCmp (some cdpcmp) fold) x y ↔ (x ≠ [] → y ≠ [] → Swaps cdpcmp x y) := by
  by_cases hx : x = []
  · subst hx
    refine iff_of_true ?_ fun hne => absurd rfl hne
    unfold Swaps
    rw [strCmp_nil_left, strCmp_nil_right]
    split_ifs <;> rfl
  · by_cases hy : y = []
    · subst hy
      refine iff_of_true ?_ fun _ hne => absurd rfl hne
      unfold Swaps
      rw [strCmp_nil_left, strCmp_nil_right]
      split_ifs
      rfl
    · unfold Swaps
      rw [strCmp_nonempty hx hy, strCmp_nonempty hy hx]
      exact ⟨fun h _ _ => h, fun h => h hx hy⟩

theorem strCmp_consistent_iff :
    Consistent (strCmp (some cdpcmp) fold) x y z ↔
      (x ≠ [] → y ≠ [] → Swaps cdpcmp x y) ∧
      (x ≠ [] → y ≠ [] → z ≠ [] → Consistent cdpcmp x y z) := by
  have hswap : Swaps (strCmp (some cdpcmp) fold) x y ↔ (x ≠ [] → y ≠ [] → Swaps cdpcmp x y) :=
    strCmp_swaps_iff
  by_cases hempty : x = [] ∨ y = [] ∨ z = []
  · have hvacuous : x ≠ [] → y ≠ [] → z ≠ [] → Consistent cdpcmp x y z := by tauto
    refine ⟨fun h => ⟨hswap.mp h.swap, hvacuous⟩, fun h => ⟨hswap.mpr h.1, ?_, ?_⟩⟩
    · rcases hempty with rfl | rfl | rfl
      · rw [strCmp_nil_left z]
        intro _ _
        split_ifs <;> decide
      · intro hx hz
        rwa [strCmp_nil_right_le hx]
      · intro hxy hy
        rwa [strCmp_nil_right_le hy] at hxy
    · rcases hempty with rfl | rfl | rfl
      · rw [strCmp_nil_left y]
        split_ifs with hy
        · rw [hy]
          exact fun _ h => h
        · exact fun h => absurd h (by decide)
      · intro hx hz
        rwa [strCmp_nil_right_le hx.le]
      · intro hxy hy
        rwa [strCmp_nil_right_le hy.le] at hxy
  · obtain ⟨hx, hy, hz⟩ : x ≠ [] ∧ y ≠ [] ∧ z ≠ [] := by tauto
    constructor
    · intro h
      have hc : Consistent cdpcmp x y z := by
        refine ⟨hswap.mp h.swap hx hy, ?_, ?_⟩
        · have htrans := h.trans
          rwa [strCmp_nonempty hx hy, strCmp_nonempty hy hz, strCmp_nonempty hx hz] at htrans
        · have hequal := h.equal
          rwa [strCmp_nonempty hx hy, strCmp_nonempty hy hz, strCmp_nonempty hx hz] at hequal
      exact ⟨fun _ _ => hc.swap, fun _ _ _ => hc⟩
    · rintro ⟨-, hc⟩
      have hc := hc hx hy hz
      refine ⟨hswap.mpr fun _ _ => hc.swap, ?_, ?_⟩
      · rw [strCmp_nonempty hx hy, strCmp_nonempty hy hz, strCmp_nonempty hx hz]
        exact hc.trans
      · rw [strCmp_nonempty hx hy, strCmp_nonempty hy hz, strCmp_nonempty hx hz]
        exact hc.equal

end Strings

section Kinds

variable {vmCDP : Option Collation} {iFlags : HashFlags} {a b c : KeyItem Double}

theorem threeWay_compares {R : Type} [LinearOrder R] (x y : R) :
    Compares (threeWay (fun x y => decide (x < y)) x y) x y := by
  unfold threeWay
  rcases lt_trichotomy x y with hlt | rfl | hlt
  · exact ⟨by simp [hlt], by simp [hlt, hlt.not_gt]⟩
  · exact ⟨by simp, by simp⟩
  · exact ⟨by simp [hlt, hlt.not_gt], by simp [hlt, hlt.not_gt]⟩

theorem bytesCmp_consistent (fold : UInt8 → UInt8) (x y z : Bytes) :
    Consistent (bytesCmp fold) x y z :=
  .of_compares (bytesCmp_compares fold x y) (bytesCmp_compares fold y x)
    (bytesCmp_compares fold y z) (bytesCmp_compares fold x z)

theorem binaryCmp_consistent (x y z : Bytes) : Consistent binaryCmp x y z :=
  .of_compares (binaryCmp_compares x y) (binaryCmp_compares y x) (binaryCmp_compares y z)
    (binaryCmp_compares x z)

theorem stringCmp_cases (vmCDP : Option Collation) (iFlags : HashFlags) :
    ∃ cmp : Bytes → Bytes → Int,
      (∀ x y, hashItemCmp (doubleEnv vmCDP) iFlags (.string x) (.string y) = cmp x y) ∧
      ((collation vmCDP iFlags = none ∧ ∀ x y z, Consistent cmp x y z) ∨
        ∃ cdpcmp fold, collation vmCDP iFlags = some cdpcmp ∧ cmp = strCmp (some cdpcmp) fold) := by
  unfold collation
  cases hbinary : iFlags.binary with
  | true =>
    exact ⟨binaryCmp, fun x y => by simp [hashItemCmp, hbinary], .inl ⟨rfl, binaryCmp_consistent⟩⟩
  | false =>
    cases hcase : iFlags.ignoreCase with
    | true =>
      refine ⟨strCmp (vmCDP.map Collation.cdpicmp) HB_TOUPPER,
        fun x y => by simp [hashItemCmp, hbinary, hcase, doubleEnv], ?_⟩
      cases vmCDP with
      | none => exact .inl ⟨rfl, bytesCmp_consistent HB_TOUPPER⟩
      | some cdp => exact .inr ⟨cdp.cdpicmp, HB_TOUPPER, rfl, rfl⟩
    | false =>
      refine ⟨strCmp (vmCDP.map Collation.cdpcmp) id,
        fun x y => by simp [hashItemCmp, hbinary, hcase, doubleEnv], ?_⟩
      cases vmCDP with
      | none => exact .inl ⟨rfl, bytesCmp_consistent id⟩
      | some cdp => exact .inr ⟨cdp.cdpcmp, id, rfl, rfl⟩

theorem datetimeLess_eq (x y : Int × Int) : datetimeLess x y = decide (toLex x < toLex y) := by
  rw [Bool.eq_iff_iff]
  simp [datetimeLess, Prod.Lex.toLex_lt_toLex]

theorem datetimes_consistent (x y z x' y' z' : Int) :
    Consistent (hashItemCmp (doubleEnv vmCDP) iFlags)
      (.datetime x x') (.datetime y y') (.datetime z z') := by
  have hcompares (p q : Int × Int) : Compares (threeWay datetimeLess p q) (toLex p) (toLex q) := by
    have h := threeWay_compares (toLex p) (toLex q)
    unfold threeWay at h ⊢
    rw [datetimeLess_eq, datetimeLess_eq]
    exact h
  exact .of_compares (hcompares (x, x') (y, y')) (hcompares (y, y') (x, x'))
    (hcompares (y, y') (z, z')) (hcompares (x, x') (z, z'))

theorem pointers_consistent (x y z : Nat) :
    Consistent (hashItemCmp (doubleEnv vmCDP) iFlags) (.pointer x) (.pointer y) (.pointer z) :=
  .of_compares (threeWay_compares x y) (threeWay_compares y x) (threeWay_compares y z)
    (threeWay_compares x z)

theorem ofMaxInt_mono {m n : Int} (h : m ≤ n) : ofMaxInt m ≤ ofMaxInt n := by
  unfold ofMaxInt
  exact_mod_cast (ofInt_mono h : (ofInt m : Rounded 53) ≤ ofInt n)

theorem integers_compare (m n : Int) :
    Compares (hashItemCmp (doubleEnv vmCDP) iFlags (.numInt m) (.numInt n)) m n :=
  threeWay_compares m n

theorem integer_double_compare (m : Int) (d : Double) :
    Compares (hashItemCmp (doubleEnv vmCDP) iFlags (.numInt m) (.double d)) (ofMaxInt m) d :=
  threeWay_compares (ofMaxInt m) d

theorem double_integer_compare (d : Double) (m : Int) :
    Compares (hashItemCmp (doubleEnv vmCDP) iFlags (.double d) (.numInt m)) d (ofMaxInt m) :=
  threeWay_compares d (ofMaxInt m)

theorem doubles_compare (d e : Double) :
    Compares (hashItemCmp (doubleEnv vmCDP) iFlags (.double d) (.double e)) d e :=
  threeWay_compares d e

theorem numbers_swap (ha : a.isNumeric) (hb : b.isNumeric) :
    Swaps (hashItemCmp (doubleEnv vmCDP) iFlags) a b := by
  rcases a with _ | _ | _ | _ | m | d | _ <;> cases ha <;>
    rcases b with _ | _ | _ | _ | n | e | _ <;> cases hb
  · exact (integers_compare m n).swaps (integers_compare n m)
  · exact (integer_double_compare m e).swaps (double_integer_compare e m)
  · exact (double_integer_compare d n).swaps (integer_double_compare n d)
  · exact (doubles_compare d e).swaps (doubles_compare e d)

theorem numbers_consistent_iff (ha : a.isNumeric) (hb : b.isNumeric) (hc : c.isNumeric) :
    Consistent (hashItemCmp (doubleEnv vmCDP) iFlags) a b c ↔ ¬ RoundedTogether a b c := by
  have hswap : Swaps (hashItemCmp (doubleEnv vmCDP) iFlags) a b := numbers_swap ha hb
  rcases a with _ | _ | _ | _ | m | d | _ <;> cases ha <;>
    rcases b with _ | _ | _ | _ | n | e | _ <;> cases hb <;>
      rcases c with _ | _ | _ | _ | k | f | _ <;> cases hc
  · exact iff_of_true (.of_compares (integers_compare m n) (integers_compare n m)
      (integers_compare n k) (integers_compare m k)) (by simp [RoundedTogether])
  · refine iff_of_true ⟨hswap, ?_, ?_⟩ (by simp [RoundedTogether])
    · rw [(integers_compare m n).nonpos, (integer_double_compare n f).nonpos,
        (integer_double_compare m f).nonpos]
      exact fun hmn => (ofMaxInt_mono hmn).trans
    · rw [(integers_compare m n).zero, (integer_double_compare n f).zero,
        (integer_double_compare m f).zero]
      rintro rfl h
      exact h
  · constructor
    · rintro h ⟨_, _, _, ⟨⟩, ⟨⟩, ⟨⟩, hne, hm, hk⟩
      have hequal := h.equal ((integer_double_compare m e).zero.mpr hm)
        ((double_integer_compare e k).zero.mpr hk.symm)
      exact hne ((integers_compare m k).zero.mp hequal)
    · intro hnot
      refine ⟨hswap, ?_, ?_⟩
      · rw [(integer_double_compare m e).nonpos, (double_integer_compare e k).nonpos,
          (integers_compare m k).nonpos]
        intro hm hk
        by_contra hkm
        have hmono := ofMaxInt_mono (not_le.mp hkm).le
        exact hnot ⟨m, k, e, rfl, rfl, rfl, (not_le.mp hkm).ne', le_antisymm hm (hk.trans hmono),
          le_antisymm (hmono.trans hm) hk⟩
      · rw [(integer_double_compare m e).zero, (double_integer_compare e k).zero,
          (integers_compare m k).zero]
        intro hm hk
        by_contra hne
        exact hnot ⟨m, k, e, rfl, rfl, rfl, hne, hm, hk.symm⟩
  · exact iff_of_true (.of_compares (integer_double_compare m e)
      (double_integer_compare e m) (doubles_compare e f) (integer_double_compare m f))
      (by simp [RoundedTogether])
  · refine iff_of_true ⟨hswap, ?_, ?_⟩ (by simp [RoundedTogether])
    · rw [(double_integer_compare d n).nonpos, (integers_compare n k).nonpos,
        (double_integer_compare d k).nonpos]
      exact fun h hnk => h.trans (ofMaxInt_mono hnk)
    · rw [(double_integer_compare d n).zero, (integers_compare n k).zero,
        (double_integer_compare d k).zero]
      rintro h rfl
      exact h
  · exact iff_of_true (.of_compares (double_integer_compare d n)
      (integer_double_compare n d) (integer_double_compare n f) (doubles_compare d f))
      (by simp [RoundedTogether])
  · exact iff_of_true (.of_compares (doubles_compare d e) (doubles_compare e d)
      (double_integer_compare e k) (double_integer_compare d k)) (by simp [RoundedTogether])
  · exact iff_of_true (.of_compares (doubles_compare d e) (doubles_compare e d)
      (doubles_compare e f) (doubles_compare d f)) (by simp [RoundedTogether])

theorem strings_swap_iff (x y : Bytes) :
    Swaps (hashItemCmp (doubleEnv vmCDP) iFlags) (.string x) (.string y) ↔
      ∀ cdpcmp ∈ collation vmCDP iFlags, x ≠ [] → y ≠ [] → Swaps cdpcmp x y := by
  obtain ⟨cmp, hcmp, hcases⟩ := stringCmp_cases vmCDP iFlags
  unfold Swaps
  rw [hcmp, hcmp]
  rcases hcases with ⟨hnone, hconsistent⟩ | ⟨cdpcmp, fold, hsome, rfl⟩
  · rw [hnone]
    exact iff_of_true (hconsistent x y x).swap fun cdpcmp hmem => by cases hmem
  · rw [hsome]
    have hiff : Swaps (strCmp (some cdpcmp) fold) x y ↔ (x ≠ [] → y ≠ [] → Swaps cdpcmp x y) :=
      strCmp_swaps_iff
    refine hiff.trans ⟨?_, fun h => h cdpcmp rfl⟩
    rintro h _ ⟨⟩
    exact h

theorem strings_consistent_iff (x y z : Bytes) :
    Consistent (hashItemCmp (doubleEnv vmCDP) iFlags) (.string x) (.string y) (.string z) ↔
      ∀ cdpcmp ∈ collation vmCDP iFlags, (x ≠ [] → y ≠ [] → Swaps cdpcmp x y) ∧
        (x ≠ [] → y ≠ [] → z ≠ [] → Consistent cdpcmp x y z) := by
  obtain ⟨cmp, hcmp, hcases⟩ := stringCmp_cases vmCDP iFlags
  have himage : Consistent (hashItemCmp (doubleEnv vmCDP) iFlags) (.string x) (.string y)
      (.string z) ↔ Consistent cmp x y z := by
    constructor
    · rintro ⟨hswap, htrans, hequal⟩
      unfold Swaps at hswap
      simp only [hcmp] at hswap htrans hequal
      exact ⟨hswap, htrans, hequal⟩
    · rintro ⟨hswap, htrans, hequal⟩
      refine ⟨?_, ?_, ?_⟩
      · unfold Swaps
        rw [hcmp, hcmp]
        exact hswap
      · rwa [hcmp, hcmp, hcmp]
      · rwa [hcmp, hcmp, hcmp]
  rw [himage]
  rcases hcases with ⟨hnone, hconsistent⟩ | ⟨cdpcmp, fold, hsome, rfl⟩
  · rw [hnone]
    exact iff_of_true (hconsistent x y z) fun cdpcmp hmem => by cases hmem
  · rw [hsome, strCmp_consistent_iff]
    refine ⟨?_, fun h => h cdpcmp rfl⟩
    rintro h _ ⟨⟩
    exact h

section

variable (ha : a ∈ hashKeys) (hb : b ∈ hashKeys)

include ha hb

theorem kinds_consistent (hc : c ∈ hashKeys) (hkinds : a.kind ≠ b.kind ∨ b.kind ≠ c.kind)
    (hswap : a.kind = b.kind → Swaps (hashItemCmp (doubleEnv vmCDP) iFlags) a b) :
    Consistent (hashItemCmp (doubleEnv vmCDP) iFlags) a b c := by
  have hrank {x y : KeyItem Double} (hx : x ∈ hashKeys) (hy : y ∈ hashKeys)
      (h : hashItemCmp (doubleEnv vmCDP) iFlags x y ≤ 0) : x.kind ≤ y.kind := by
    by_contra hyx
    have hlt := (kinds_order (doubleEnv vmCDP) iFlags y hy x hx (not_le.mp hyx)).2
    omega
  have hless := kinds_order (doubleEnv vmCDP) iFlags
  refine ⟨?_, fun hab hbc => ?_, fun hab hbc => ?_⟩
  · unfold Swaps
    rcases Nat.lt_trichotomy a.kind b.kind with hlt | heq | hlt
    · rw [Int.sign_eq_neg_one_of_neg (hless a ha b hb hlt).1,
        Int.sign_eq_one_of_pos (hless a ha b hb hlt).2]
    · exact hswap heq
    · rw [Int.sign_eq_neg_one_of_neg (hless b hb a ha hlt).1,
        Int.sign_eq_one_of_pos (hless b hb a ha hlt).2]
      rfl
  · have hab' := hrank ha hb hab
    have hbc' := hrank hb hc hbc
    exact (hless a ha c hc (by omega)).1.le
  · have hab' := hrank ha hb hab.le
    have hbc' := hrank hb hc hbc.le
    have hne {x y : KeyItem Double} (hx : x ∈ hashKeys) (hy : y ∈ hashKeys)
        (hlt : x.kind < y.kind) : hashItemCmp (doubleEnv vmCDP) iFlags x y ≠ 0 :=
      (hless x hx y hy hlt).1.ne
    rcases hab'.eq_or_lt with heq | hlt
    · exact absurd hbc (hne hb hc (by omega))
    · exact absurd hab (hne ha hb hlt)

theorem swap_iff (hkind : a.kind = b.kind) : Swaps (hashItemCmp (doubleEnv vmCDP) iFlags) a b ↔
      ∀ cdpcmp ∈ collation vmCDP iFlags, ∀ x y, a = .string x → b = .string y → x ≠ [] → y ≠ [] →
        Swaps cdpcmp x y := by
  rcases a with _ | x | ⟨x, x'⟩ | x | m | d | _ <;> cases ha <;>
    rcases b with _ | y | ⟨y, y'⟩ | y | n | e | _ <;> cases hb <;> cases hkind
  · rw [strings_swap_iff]
    refine ⟨?_, fun h cdpcmp hmem => h cdpcmp hmem x y rfl rfl⟩
    rintro h cdpcmp hmem _ _ ⟨⟩ ⟨⟩
    exact h cdpcmp hmem
  · exact iff_of_true (datetimes_consistent x y x x' y' x').swap (by simp)
  · exact iff_of_true (pointers_consistent x y x).swap (by simp)
  · exact iff_of_true (numbers_swap rfl rfl) (by simp)
  · exact iff_of_true (numbers_swap rfl rfl) (by simp)
  · exact iff_of_true (numbers_swap rfl rfl) (by simp)
  · exact iff_of_true (numbers_swap rfl rfl) (by simp)

theorem same_kind_iff (hc : c ∈ hashKeys) (hab : a.kind = b.kind) (hbc : b.kind = c.kind) :
    Consistent (hashItemCmp (doubleEnv vmCDP) iFlags) a b c ↔
      ¬ RoundedTogether a b c ∧ CollatedConsistently (collation vmCDP iFlags) a b c := by
  have hnumbers (ha : a.isNumeric) (hb : b.isNumeric) (hc : c.isNumeric) :
      Consistent (hashItemCmp (doubleEnv vmCDP) iFlags) a b c ↔
        ¬ RoundedTogether a b c ∧ CollatedConsistently (collation vmCDP iFlags) a b c := by
    rw [numbers_consistent_iff ha hb hc]
    refine ⟨fun h => ⟨h, ?_, ?_⟩, fun h => h.1⟩
    · rintro _ _ _ _ rfl
      cases ha
    · rintro _ _ _ _ _ rfl
      cases ha
  have hothers (hconsistent : Consistent (hashItemCmp (doubleEnv vmCDP) iFlags) a b c)
      (hint : ∀ m, a ≠ .numInt m) (hstring : ∀ x, a ≠ .string x) :
      Consistent (hashItemCmp (doubleEnv vmCDP) iFlags) a b c ↔
        ¬ RoundedTogether a b c ∧ CollatedConsistently (collation vmCDP iFlags) a b c := by
    refine iff_of_true hconsistent ⟨?_, ?_, ?_⟩
    · rintro ⟨m, _, _, ha, -⟩
      exact hint m ha
    · rintro _ _ x _ ha
      exact absurd ha (hstring x)
    · rintro _ _ x _ _ ha
      exact absurd ha (hstring x)
  rcases a with _ | x | ⟨x, x'⟩ | x | m | d | _ <;> cases ha <;>
    rcases b with _ | y | ⟨y, y'⟩ | y | n | e | _ <;> cases hb <;> cases hab <;>
      rcases c with _ | z | ⟨z, z'⟩ | z | k | f | _ <;> cases hc <;> cases hbc
  · rw [strings_consistent_iff]
    constructor
    · intro h
      refine ⟨by simp [RoundedTogether], ?_, ?_⟩
      · rintro cdpcmp hmem _ _ ⟨⟩ ⟨⟩
        exact (h cdpcmp hmem).1
      · rintro cdpcmp hmem _ _ _ ⟨⟩ ⟨⟩ ⟨⟩
        exact (h cdpcmp hmem).2
    · rintro ⟨-, h⟩ cdpcmp hmem
      exact ⟨h.swap cdpcmp hmem x y rfl rfl, h.consistent cdpcmp hmem x y z rfl rfl rfl⟩
  · exact hothers (datetimes_consistent x y z x' y' z') (by simp) (by simp)
  · exact hothers (pointers_consistent x y z) (by simp) (by simp)
  all_goals exact hnumbers rfl rfl rfl

end

/-- The comparison of hash keys treats three keys as a total preorder does, unless an integer, a
double and another integer come together in rounding, or the collation of the code page is not
one. -/
theorem hashItemCmp_consistent_iff (vmCDP : Option Collation) (iFlags : HashFlags)
    {a b c : KeyItem Double} (ha : a ∈ hashKeys) (hb : b ∈ hashKeys) (hc : c ∈ hashKeys) :
    Consistent (hashItemCmp (doubleEnv vmCDP) iFlags) a b c ↔
      ¬ RoundedTogether a b c ∧ CollatedConsistently (collation vmCDP iFlags) a b c := by
  by_cases hab : a.kind = b.kind
  · by_cases hbc : b.kind = c.kind
    · exact same_kind_iff ha hb hc hab hbc
    · constructor
      · intro h
        refine ⟨?_, (swap_iff ha hb hab).mp h.swap, ?_⟩
        · rintro ⟨_, _, _, rfl, rfl, rfl, -⟩
          exact hbc rfl
        · rintro _ _ _ _ _ rfl rfl rfl
          exact absurd rfl hbc
      · rintro ⟨-, h⟩
        exact kinds_consistent ha hb hc (.inr hbc) fun _ => (swap_iff ha hb hab).mpr h.swap
  · refine iff_of_true (kinds_consistent ha hb hc (.inl hab) fun h => absurd h hab) ⟨?_, ?_, ?_⟩
    · rintro ⟨_, _, _, rfl, rfl, rfl, -⟩
      exact hab rfl
    · rintro _ _ _ _ rfl rfl
      exact absurd rfl hab
    · rintro _ _ _ _ _ rfl rfl rfl
      exact absurd rfl hab

theorem ofMaxInt_odd : ofMaxInt (2 ^ 53 + 1) = ofMaxInt (2 ^ 53) := by
  have hlog : Int.log 2 |(((2 ^ 53 + 1 : ℤ)) : ℚ)| = 53 := by
    rfl
  have hround : roundTo 53 ((2 ^ 53 + 1 : ℤ) : ℚ) = 2 ^ 53 := by
    have hplace : lastPlace 53 ((2 ^ 53 + 1 : ℤ) : ℚ) = 2 := by
      unfold lastPlace
      rw [hlog]
      norm_num
    have hfloor : ⌊((2 ^ 53 + 1 : ℤ) : ℚ) / 2⌋ = 2 ^ 52 := by
      norm_num
    unfold roundTo nearestEven
    rw [hplace, hfloor, if_pos (.inr (by norm_num))]
    norm_num
  have hexact : (ofInt (2 ^ 53) : Rounded 53).value = 2 ^ 53 := by
    rw [ofInt_value (by norm_num)]
    norm_num
  have hsame : (ofInt (2 ^ 53 + 1) : Rounded 53) = ofInt (2 ^ 53) :=
    ext (hround.trans hexact.symm)
  unfold ofMaxInt
  rw [hsame]

/-- Two integers that no double tells apart are compared with each other as they are. -/
theorem hashItemCmp_circle :
    hashItemCmp (doubleEnv none) hashFlagDefault (.numInt (2 ^ 53 + 1))
      (.double (ofMaxInt (2 ^ 53))) = 0 ∧
    hashItemCmp (doubleEnv none) hashFlagDefault (.double (ofMaxInt (2 ^ 53)))
      (.numInt (2 ^ 53)) = 0 ∧
    ¬ hashItemCmp (doubleEnv none) hashFlagDefault (.numInt (2 ^ 53 + 1))
    (.numInt (2 ^ 53)) ≤ 0 := by
  refine ⟨?_, ?_, ?_⟩
  · rw [(integer_double_compare _ _).zero]
    exact ofMaxInt_odd
  · rw [(double_integer_compare _ _).zero]
  · rw [(integers_compare _ _).nonpos]
    norm_num

theorem hashItemCmp_consistent_iff_circle :
    ¬ Consistent (hashItemCmp (doubleEnv none) hashFlagDefault)
      (.numInt (2 ^ 53 + 1)) (.double (ofMaxInt (2 ^ 53))) (.numInt (2 ^ 53)) := by
  have hiff := hashItemCmp_consistent_iff none hashFlagDefault
    (rfl : KeyItem.numInt (2 ^ 53 + 1) ∈ hashKeys)
    (rfl : KeyItem.double (ofMaxInt (2 ^ 53)) ∈ hashKeys)
    (rfl : KeyItem.numInt (2 ^ 53) ∈ hashKeys)
  intro h
  exact (hiff.mp h).1 ⟨_, _, _, rfl, rfl, rfl, by norm_num, ofMaxInt_odd, rfl⟩

end Kinds

end Harbour.Vm.HashConsistent
