import Mathlib.Data.List.Lex
import Harbour.Common.CharClass
import Harbour.Library.Bytes
import Harbour.Library.KeyOrder
import Harbour.Vm.HashTable

/-!
The keys of a hash and `hb_hashItemCmp`.
-/

namespace Harbour.Vm.HashKey

open Common.CharClass Library.KeyOrder HashTable

/-- An item in the place of a key, over the type `D` of C doubles; `other` stands
for the items that are no hash keys. -/
inductive KeyItem (D : Type) where
  | nil
  | string (value : Bytes)
  | datetime (julian time : Int)
  | pointer (value : Nat)
  | numInt (value : Int)
  | double (value : D)
  | other
deriving DecidableEq, Repr

/-- `hb_cdpcmp` and `hb_cdpicmp` of a code page that does not sort by bytes. -/
structure Collation where
  cdpcmp : Bytes → Bytes → Int
  cdpicmp : Bytes → Bytes → Int

/-- What the comparison takes from the thread and the platform: the collation of
`hb_vmCDP()`, unless that page sorts by bytes, and the doubles. -/
structure KeyEnv (D : Type) where
  vmCDP : Option Collation
  less : D → D → Bool
  ofMaxInt : Int → D

variable {D : Type}

def KeyItem.isHashKey : KeyItem D → Bool
  | .nil | .other => false
  | _ => true

def KeyItem.isNumeric : KeyItem D → Bool
  | .numInt _ | .double _ => true
  | _ => false

def KeyItem.getND (env : KeyEnv D) : KeyItem D → D
  | .double value => value
  | .numInt value => env.ofMaxInt value
  | _ => env.ofMaxInt 0

def threeWay {α : Type} (less : α → α → Bool) (a b : α) : Int :=
  if less a b then -1 else if less b a then 1 else 0

/-- The byte by byte comparison of `hb_itemStrCmp` and `hb_itemStrICmp`, where a
string that ends first is the smaller one. -/
def bytesCmp (fold : UInt8 → UInt8) : Bytes → Bytes → Int
  | [], [] => 0
  | [], _ :: _ => -1
  | _ :: _, [] => 1
  | c1 :: rest1, c2 :: rest2 =>
    if fold c1 ≠ fold c2 then (if fold c1 < fold c2 then -1 else 1)
    else bytesCmp fold rest1 rest2

/-- `hb_itemStrCmp` and `hb_itemStrICmp` with exact comparison; the collation is
asked only when neither string is empty. -/
def strCmp (collate : Option (Bytes → Bytes → Int)) (fold : UInt8 → UInt8)
    (first second : Bytes) : Int :=
  match collate with
  | some cdpcmp =>
    if first = [] ∨ second = [] then bytesCmp fold first second else cdpcmp first second
  | none => bytesCmp fold first second

/-- The comparison of `HB_HASH_BINARY`: by length, then `memcmp`. -/
def binaryCmp (first second : Bytes) : Int :=
  if first.length < second.length then -1
  else if second.length < first.length then 1
  else bytesCmp id first second

def datetimeLess (a b : Int × Int) : Bool :=
  a.1 < b.1 || (a.1 == b.1 && a.2 < b.2)

def hashItemCmp (env : KeyEnv D) (iFlags : HashFlags) : KeyItem D → KeyItem D → Int
  | .string value1, .string value2 =>
    if iFlags.binary then binaryCmp value1 value2
    else if iFlags.ignoreCase then strCmp (env.vmCDP.map Collation.cdpicmp) HB_TOUPPER value1 value2
    else strCmp (env.vmCDP.map Collation.cdpcmp) id value1 value2
  | .string _, _ => 1
  | .datetime julian1 time1, .datetime julian2 time2 =>
    threeWay datetimeLess (julian1, time1) (julian2, time2)
  | .datetime _ _, .string _ => -1
  | .datetime _ _, _ => 1
  | .pointer value1, .pointer value2 => threeWay (· < ·) value1 value2
  | .pointer _, .string _ => -1
  | .pointer _, .datetime _ _ => -1
  | .pointer _, _ => 1
  | .numInt value1, .numInt value2 => threeWay (· < ·) value1 value2
  | key1, key2 =>
    if key2.isNumeric then threeWay env.less (key1.getND env) (key2.getND env) else -1

theorem hashItemCmp_congr (env : KeyEnv D) {iFlags iFlags' : HashFlags}
    (hbinary : iFlags'.binary = iFlags.binary) (hcase : iFlags'.ignoreCase = iFlags.ignoreCase) :
    hashItemCmp env iFlags' = hashItemCmp env iFlags := by
  funext key1 key2
  cases key1 <;> cases key2 <;> simp only [hashItemCmp, hbinary, hcase]

theorem threeWay_neg {α : Type} {less : α → α → Bool} {a b : α} :
    threeWay less a b < 0 ↔ less a b = true := by
  unfold threeWay
  split_ifs <;> simp_all

theorem threeWay_orders {α : Type} {less : α → α → Bool} {keys : Set α}
    (hasymm : ∀ a ∈ keys, ∀ b ∈ keys, less a b = true → less b a = false)
    (htrans : ∀ a ∈ keys, ∀ b ∈ keys, ∀ c ∈ keys,
      less a b = true → less b c = true → less a c = true) :
    OrdersKeys (threeWay less) keys where
  swap := by
    intro a ha b hb
    rw [threeWay_neg]
    unfold threeWay
    have hab := hasymm a ha b hb
    split_ifs <;> simp_all
  trans := by
    intro a ha b hb c hc hab hbc
    rw [threeWay_neg] at hab hbc ⊢
    exact htrans a ha b hb c hc hab hbc

theorem bytesCmp_orders (fold : UInt8 → UInt8) : OrdersKeys (bytesCmp fold) Set.univ where
  swap := by
    intro a _ b _
    fun_induction bytesCmp fold a b with
    | case1 => simp [bytesCmp]
    | case2 c rest => simp [bytesCmp]
    | case3 c rest => simp [bytesCmp]
    | case4 c1 rest1 c2 rest2 hne hlt =>
      have hgt : ¬ fold c2 < fold c1 := UInt8.lt_asymm hlt
      simp [bytesCmp, Ne.symm hne, hgt]
    | case5 c1 rest1 c2 rest2 hne hnlt =>
      have hgt : fold c2 < fold c1 := UInt8.lt_of_le_of_ne (UInt8.not_lt.mp hnlt) (Ne.symm hne)
      simp [bytesCmp, Ne.symm hne, hgt]
    | case6 c1 rest1 c2 rest2 heq ih =>
      have heq := not_not.mp heq
      simpa [bytesCmp, heq] using ih
  trans := by
    intro a _ b _ c _
    induction a generalizing b c with
    | nil =>
      cases c with
      | nil => cases b <;> simp [bytesCmp]
      | cons c3 rest3 => simp [bytesCmp]
    | cons c1 rest1 ih =>
      cases b with
      | nil => simp [bytesCmp]
      | cons c2 rest2 =>
        cases c with
        | nil => simp [bytesCmp]
        | cons c3 rest3 =>
          simp only [bytesCmp]
          intro hab hbc
          split_ifs at hab hbc ⊢ with h12 l12 h23 l23 h13 l13 <;> grind

theorem binaryCmp_orders : OrdersKeys binaryCmp Set.univ := by
  refine .of_rank List.length ?_ fun n => ?_
  · intro a _ b _ hab
    unfold binaryCmp
    rw [if_pos hab, if_neg (Nat.lt_asymm hab), if_pos hab]
    decide
  · refine (bytesCmp_orders id).comap id (fun _ _ => trivial) ?_
    rintro a ⟨-, ha⟩ b ⟨-, hb⟩
    unfold binaryCmp
    rw [ha, hb, if_neg (Nat.lt_irrefl n), if_neg (Nat.lt_irrefl n)]
    rfl

structure Collation.Orders (c : Collation) : Prop where
  cdpcmp : OrdersKeys c.cdpcmp {value | value ≠ []}
  cdpicmp : OrdersKeys c.cdpicmp {value | value ≠ []}

/-- The comparison of doubles is that of numbers, to which integers are rounded
without changing places, and a collation orders the strings. -/
structure KeyEnv.Orders (env : KeyEnv D) : Prop where
  asymm : ∀ a b, env.less a b = true → env.less b a = false
  trans : ∀ a b c, env.less a b = true → env.less b c = true → env.less a c = true
  int_left : ∀ a b c, a ≤ b → env.less (env.ofMaxInt b) c = true →
    env.less (env.ofMaxInt a) c = true
  int_right : ∀ a b c, a ≤ b → env.less c (env.ofMaxInt a) = true →
    env.less c (env.ofMaxInt b) = true
  int_both : ∀ a b, env.less (env.ofMaxInt a) (env.ofMaxInt b) = true → a < b
  collation : ∀ c, env.vmCDP = some c → c.Orders

theorem strCmp_orders {collate : Option (Bytes → Bytes → Int)} (fold : UInt8 → UInt8)
    (h : ∀ cdpcmp, collate = some cdpcmp → OrdersKeys cdpcmp {value | value ≠ []}) :
    OrdersKeys (strCmp collate fold) Set.univ := by
  cases collate with
  | none => exact bytesCmp_orders fold
  | some cdpcmp =>
    refine .of_rank (fun value => if value = [] then 0 else 1) ?_ fun n => ?_
    · intro a _ b _ hab
      obtain ⟨rfl, hb⟩ : a = [] ∧ b ≠ [] := by grind
      obtain ⟨c, rest, rfl⟩ := List.exists_cons_of_ne_nil hb
      simp [strCmp, bytesCmp]
    · rcases Nat.eq_zero_or_pos n with rfl | hpos
      · refine (bytesCmp_orders fold).comap id (fun _ _ => trivial) ?_
        rintro a ⟨-, ha⟩ b -
        obtain rfl : a = [] := by grind
        simp [strCmp]
      · have hne : ∀ a : Bytes, (if a = [] then 0 else 1) = n → a ≠ [] := by grind
        refine (h cdpcmp rfl).comap id (fun a ha => hne a ha.2) ?_
        rintro a ⟨-, ha⟩ b ⟨-, hb⟩
        simp [strCmp, hne a ha, hne b hb]

/-- `HB_IS_HASHKEY`, as a set of keys. -/
def hashKeys : Set (KeyItem D) := {key | key.isHashKey = true}

/-- The kinds of keys in the order of the comparison. -/
def KeyItem.kind : KeyItem D → Nat
  | .string _ => 3
  | .datetime _ _ => 2
  | .pointer _ => 1
  | _ => 0

/-- The comparison of two numbers: integers are rounded only beside a double. -/
def numberLess (env : KeyEnv D) : KeyItem D → KeyItem D → Bool
  | .numInt value1, .numInt value2 => value1 < value2
  | key1, key2 => env.less (key1.getND env) (key2.getND env)

theorem numbers_order {env : KeyEnv D} (h : env.Orders) (iFlags : HashFlags) :
    OrdersKeys (hashItemCmp env iFlags) {key | key.isNumeric = true} := by
  have hcmp : ∀ a ∈ {key : KeyItem D | key.isNumeric = true},
      ∀ b ∈ {key : KeyItem D | key.isNumeric = true},
        hashItemCmp env iFlags a b = threeWay (numberLess env) a b := by
    rintro (_ | _ | _ | _ | a | a | _) ⟨⟩ (_ | _ | _ | _ | b | b | _) ⟨⟩ <;> rfl
  refine (threeWay_orders ?_ ?_).comap id (fun _ ha => ha) hcmp
  · rintro (_ | _ | _ | _ | a | a | _) ⟨⟩ (_ | _ | _ | _ | b | b | _) ⟨⟩ hab
    · exact decide_eq_false (Int.lt_asymm (of_decide_eq_true hab))
    · exact h.asymm _ _ hab
    · exact h.asymm _ _ hab
    · exact h.asymm _ _ hab
  · rintro (_ | _ | _ | _ | a | a | _) ⟨⟩ (_ | _ | _ | _ | b | b | _) ⟨⟩
      (_ | _ | _ | _ | c | c | _) ⟨⟩ hab hbc
    · exact decide_eq_true (Int.lt_trans (of_decide_eq_true hab) (of_decide_eq_true hbc))
    · exact h.int_left a b c (Int.le_of_lt (of_decide_eq_true hab)) hbc
    · exact decide_eq_true (h.int_both a c (h.trans _ _ _ hab hbc))
    · exact h.trans _ _ _ hab hbc
    · exact h.int_right b c a (Int.le_of_lt (of_decide_eq_true hbc)) hab
    · exact h.trans _ _ _ hab hbc
    · exact h.trans _ _ _ hab hbc
    · exact h.trans _ _ _ hab hbc

theorem kinds_order (env : KeyEnv D) (iFlags : HashFlags) : ∀ a ∈ hashKeys, ∀ b ∈ hashKeys,
    a.kind < b.kind → hashItemCmp env iFlags a b < 0 ∧ 0 < hashItemCmp env iFlags b a := by
  have hsmaller : (-1 : Int) < 0 := by decide
  have hgreater : (0 : Int) < 1 := by decide
  rintro (_ | a | a | a | a | a | _) ⟨⟩ (_ | b | b | b | b | b | _) ⟨⟩ hlt <;>
    first
    | exact ⟨hsmaller, hgreater⟩
    | exact absurd hlt (by simp [KeyItem.kind])

theorem strings_order {env : KeyEnv D} (h : env.Orders) (iFlags : HashFlags) :
    OrdersKeys (fun value1 value2 => hashItemCmp env iFlags (.string value1) (.string value2))
      Set.univ := by
  simp only [hashItemCmp]
  cases iFlags.binary with
  | true => exact binaryCmp_orders
  | false =>
    cases iFlags.ignoreCase with
    | true =>
      refine strCmp_orders HB_TOUPPER fun cdpcmp hsome => ?_
      obtain ⟨c, hc, rfl⟩ := Option.map_eq_some_iff.mp hsome
      exact (h.collation c hc).cdpicmp
    | false =>
      refine strCmp_orders id fun cdpcmp hsome => ?_
      obtain ⟨c, hc, rfl⟩ := Option.map_eq_some_iff.mp hsome
      exact (h.collation c hc).cdpcmp

theorem datetimes_order : OrdersKeys (threeWay datetimeLess) Set.univ := by
  refine threeWay_orders ?_ ?_
  · rintro ⟨a, a'⟩ - ⟨b, b'⟩ -
    simp [datetimeLess]
    omega
  · rintro ⟨a, a'⟩ - ⟨b, b'⟩ - ⟨c, c'⟩ -
    simp [datetimeLess]
    omega

theorem pointers_order : OrdersKeys (threeWay fun a b : Nat => decide (a < b)) Set.univ := by
  refine threeWay_orders ?_ ?_
  · intro a _ b _
    simp
    omega
  · intro a _ b _ c _
    simp
    omega

theorem hashItemCmp_orders {env : KeyEnv D} (h : env.Orders) (iFlags : HashFlags) :
    OrdersKeys (hashItemCmp env iFlags) hashKeys := by
  refine .of_rank KeyItem.kind (kinds_order env iFlags) fun n => ?_
  match n with
  | 0 =>
    refine (numbers_order h iFlags).mono ?_
    rintro (_ | a | a | a | a | a | _) ⟨⟨⟩, ⟨⟩⟩ <;> rfl
  | 1 =>
    refine pointers_order.comap (fun | .pointer a => a | _ => 0) (fun _ _ => trivial) ?_
    rintro (_ | a | a | a | a | a | _) ⟨⟨⟩, ⟨⟩⟩ (_ | b | b | b | b | b | _) ⟨⟨⟩, ⟨⟩⟩
    rfl
  | 2 =>
    refine datetimes_order.comap (fun | .datetime a b => (a, b) | _ => (0, 0))
      (fun _ _ => trivial) ?_
    rintro (_ | a | a | a | a | a | _) ⟨⟨⟩, ⟨⟩⟩ (_ | b | b | b | b | b | _) ⟨⟨⟩, ⟨⟩⟩
    rfl
  | 3 =>
    refine (strings_order h iFlags).comap (fun | .string a => a | _ => []) (fun _ _ => trivial) ?_
    rintro (_ | a | a | a | a | a | _) ⟨⟨⟩, ⟨⟩⟩ (_ | b | b | b | b | b | _) ⟨⟨⟩, ⟨⟩⟩
    rfl
  | n + 4 =>
    refine (numbers_order h iFlags).mono ?_
    rintro (_ | a | a | a | a | a | _) ⟨-, ⟨⟩⟩

end Harbour.Vm.HashKey
