import Harbour.Library.Slots
import Mathlib.Data.Nat.Bitwise

/-!
The dictionary of the messages of a class: buckets of four indices into its table of methods.
-/

namespace Harbour.Vm.ClassDict

open Library.Slots List Option

def bucketBits : Nat := 2

def bucketSize : Nat := 1 <<< bucketBits

def hashKey : Nat := (1 <<< 3) - 1

def hashKeyMax : Nat := 1 <<< (16 - bucketBits)

/-- A method: the number of the symbol of its message, 0 for none, and its other fields. -/
structure Method (β : Type) where
  pMessage : Nat
  body : β
  deriving DecidableEq, Repr

def Method.cleared {β : Type} [Inhabited β] : Method β := ⟨0, default⟩

structure Dict (β : Type) where
  uiHashKey : Nat
  puiMsgIdx : List Nat
  pMethods : List (Method β)
  uiMethodCount : Nat
  uiMethods : Nat
  deriving DecidableEq, Repr

def bucketPos (uiSymNum uiMask : Nat) : Nat := (uiSymNum &&& uiMask) <<< bucketBits

variable {β : Type} [Inhabited β]

namespace Dict

variable (pClass : Dict β)

omit [Inhabited β] in
def idx (p : Nat) : Nat := pClass.puiMsgIdx.getD p 0

def method (k : Nat) : Method β := pClass.pMethods.getD k Method.cleared

def msg (p : Nat) : Nat := (pClass.method (pClass.idx p)).pMessage

def dictInit (uiHashKey : Nat) : Dict β :=
  ⟨uiHashKey, replicate ((uiHashKey + 1) <<< bucketBits) 0, [Method.cleared], 1, 0⟩

def findMsg (pMsg : Nat) : Option (Method β) :=
  (scan (fun p => pClass.msg p == pMsg) (bucketPos pMsg pClass.uiHashKey) bucketSize).map
    fun p => pClass.method (pClass.idx p)

/-- The loop of `hb_clsDictRealloc` over the old indices: `none` where a bucket of the new
table has no empty slot. -/
def reinsert (uiMask : Nat) : Option (List Nat) :=
  (range ((pClass.uiHashKey + 1) <<< bucketBits)).foldlM (fun puiMsgIdx n =>
    if pClass.idx n = 0 then some puiMsgIdx
    else
      (scan (fun p => puiMsgIdx.getD p 0 == 0) (bucketPos (pClass.msg n) uiMask) bucketSize).map
        fun p => puiMsgIdx.set p (pClass.idx n))
    (replicate ((uiMask + 1) <<< bucketBits) 0)

/-- `uiMask` is one less than the number of buckets tried last; `none` is the internal
error 6002. -/
def dictReallocFrom (pClass : Dict β) (uiMask : Nat) : Option (Dict β) :=
  let nNewHashKey := (uiMask + 1) <<< 1
  if nNewHashKey > hashKeyMax then none
  else
    match pClass.reinsert (nNewHashKey - 1) with
    | some puiMsgIdx =>
      some { pClass with uiHashKey := nNewHashKey - 1, puiMsgIdx := puiMsgIdx }
    | none => pClass.dictReallocFrom (nNewHashKey - 1)
termination_by hashKeyMax - uiMask
decreasing_by
  simp only [Nat.shiftLeft_eq] at *
  omega

def dictRealloc : Option (Dict β) := pClass.dictReallocFrom pClass.uiHashKey

theorem dictReallocFrom_lt {pClass pClass' : Dict β} {uiMask : Nat}
    (h : pClass.dictReallocFrom uiMask = some pClass') :
    uiMask < pClass'.uiHashKey ∧ pClass'.uiHashKey < hashKeyMax := by
  fun_induction dictReallocFrom pClass uiMask with
  | case1 uiMask nNewHashKey hgt => exact absurd h.symm (some_ne_none _)
  | case2 uiMask nNewHashKey hle puiMsgIdx hfill =>
    obtain rfl := Option.some.inj h
    dsimp only [nNewHashKey] at hle ⊢
    omega
  | case3 uiMask nNewHashKey hle hfill ih =>
    obtain ⟨hlt, hmax⟩ := ih h
    exact ⟨by omega, hmax⟩

/-- The index of the method allocated, or found, and the dictionary afterwards. -/
def allocMsg (pClass : Dict β) (pMsg : Nat) : Option (Nat × Dict β) :=
  match scan (fun p => pClass.idx p == 0 || pClass.msg p == pMsg)
      (bucketPos pMsg pClass.uiHashKey) bucketSize with
  | some p =>
    if pClass.idx p = 0 then
      some (pClass.uiMethodCount,
        { pClass with
          pMethods := pClass.pMethods.take pClass.uiMethodCount ++ [Method.cleared]
          puiMsgIdx := pClass.puiMsgIdx.set p pClass.uiMethodCount
          uiMethodCount := (pClass.uiMethodCount + 1) % 2 ^ 16 })
    else some (pClass.idx p, pClass)
  | none =>
    match _hrealloc : pClass.dictRealloc with
    | some pClass' => pClass'.allocMsg pMsg
    | none => none
termination_by hashKeyMax - pClass.uiHashKey
decreasing_by
  have hlt := dictReallocFrom_lt _hrealloc
  omega

/-- What the callers of `hb_clsAllocMsg` do with the method: count it when it is new, and fill
it, from what it was before when it is not. -/
def addMsg (pMsg : Nat) (fill : Option β → β) : Option (Dict β) :=
  (pClass.allocMsg pMsg).map fun (k, pClass') =>
    let pNewMeth := pClass'.method k
    { pClass' with
      uiMethods := if pNewMeth.pMessage = 0 then (pClass'.uiMethods + 1) % 2 ^ 16
        else pClass'.uiMethods
      pMethods := pClass'.pMethods.set k
        ⟨pMsg, fill (if pNewMeth.pMessage = 0 then none else some pNewMeth.body)⟩ }

def freeMsg (pMsg : Nat) : Dict β :=
  match scan (fun p => pClass.idx p != 0 && pClass.msg p == pMsg)
      (bucketPos pMsg pClass.uiHashKey) bucketSize with
  | some p =>
    { pClass with
      pMethods := pClass.pMethods.set (pClass.idx p) Method.cleared
      puiMsgIdx := pClass.puiMsgIdx.set p 0
      uiMethods := (pClass.uiMethods + (2 ^ 16 - 1)) % 2 ^ 16 }
  | none => pClass

/-- The dictionary of a class copied from `pClsSrc`, with the message that casts to it, and its
methods updated in place. -/
def copyClass (pClsSrc : Dict β) (pClassSym : Nat) (fill : Option β → β) (update : Nat → β → β) :
    Option (Dict β) :=
  let pClsDst : Dict β :=
    { (dictInit pClsSrc.uiHashKey : Dict β) with
      puiMsgIdx := pClsSrc.puiMsgIdx
      uiMethodCount := pClsSrc.uiMethodCount
      pMethods := pClsSrc.pMethods
      uiMethods := pClsSrc.uiMethods }
  (pClsDst.addMsg pClassSym fill).map fun pClsDst =>
    { pClsDst with
      pMethods := pClsDst.pMethods.map fun pMethod =>
        if pMethod.pMessage = 0 then pMethod
        else ⟨pMethod.pMessage, update pMethod.pMessage pMethod.body⟩ }

end Dict

end Harbour.Vm.ClassDict

/-!
The dictionary of a class as a finite map from messages to methods.
-/

namespace Harbour.Vm.ClassDict

open Library.Slots

variable {β : Type} [Inhabited β]

/-- The symbols that can be messages are numbered from 1 in 16 bits. -/
def IsMsg (m : Nat) : Prop := 1 ≤ m ∧ m ≤ 65535

namespace Dict

/-- Every index used leads to a method whose message belongs to the bucket, and no message has
two of them. -/
structure Sound (d : Dict β) : Prop where
  mask : ∃ k ≤ 14, d.uiHashKey + 1 = 2 ^ k
  size : d.puiMsgIdx.length = (d.uiHashKey + 1) * 4
  count : d.uiMethodCount = d.pMethods.length
  zero : (d.method 0).pMessage = 0
  index_lt : ∀ p, d.idx p < d.pMethods.length
  isMsg : ∀ p, d.idx p ≠ 0 → IsMsg (d.msg p)
  bucket : ∀ p, d.idx p ≠ 0 →
    bucketPos (d.msg p) d.uiHashKey ≤ p ∧ p < bucketPos (d.msg p) d.uiHashKey + 4
  single : ∀ p q, d.idx p ≠ 0 → d.idx q ≠ 0 → d.msg p = d.msg q → p = q

def Content (d : Dict β) (m : Nat) (x : β) : Prop :=
  ∃ p, d.idx p ≠ 0 ∧ d.method (d.idx p) = ⟨m, x⟩

/-- The dictionary is the finite map, and counts its messages. -/
structure Represents (d : Dict β) (M : Nat → Option β) : Prop where
  sound : d.Sound
  content : ∀ m x, d.Content m x ↔ M m = some x
  methods : d.uiMethods = ((Finset.range 65536).filter fun m => (M m).isSome).card

/-- No slot before that of the message is free in its bucket. -/
def Clear (d : Dict β) (m : Nat) : Prop :=
  ∀ p q, bucketPos m d.uiHashKey ≤ p → p < q → q < bucketPos m d.uiHashKey + 4 →
    d.idx p = 0 → d.idx q ≠ 0 → d.msg q ≠ m

end Dict

omit [Inhabited β] in
theorem bucketPos_eq (m mask : Nat) : bucketPos m mask = (m &&& mask) * 4 := by
  unfold bucketPos bucketBits
  rw [Nat.shiftLeft_eq]

omit [Inhabited β] in
theorem bucketPos_le (m mask : Nat) : bucketPos m mask + 4 ≤ (mask + 1) * 4 := by
  have hle : m &&& mask ≤ mask := Nat.and_le_right
  rw [bucketPos_eq]
  omega

omit [Inhabited β] in
theorem bucketPos_pow (m : Nat) {mask k : Nat} (h : mask + 1 = 2 ^ k) :
    bucketPos m mask = m % 2 ^ k * 4 := by
  obtain rfl : mask = 2 ^ k - 1 := by omega
  rw [bucketPos_eq, Nat.and_two_pow_sub_one_eq_mod]

namespace Dict

omit [Inhabited β] in
theorem idx_of_le {d : Dict β} {p : Nat} (h : d.puiMsgIdx.length ≤ p) : d.idx p = 0 := by
  simp [idx, List.getD, List.getElem?_eq_none h]

section Sound

variable {d : Dict β} (h : d.Sound)

include h

theorem Sound.msg_of_unused {p : Nat} (hp : d.idx p = 0) : d.msg p = 0 := by
  unfold msg
  rw [hp]
  exact h.zero

theorem Sound.used_of_msg {p m : Nat} (hm : IsMsg m) (hp : d.msg p = m) : d.idx p ≠ 0 := by
  intro hzero
  have hmsg := h.msg_of_unused hzero
  have hpos := hm.1
  omega

theorem findMsg_eq_some_iff {m : Nat} (hm : IsMsg m) {x : Method β} :
    d.findMsg m = some x ↔ ∃ p, d.idx p ≠ 0 ∧ d.msg p = m ∧ d.method (d.idx p) = x := by
  unfold findMsg
  rw [Option.map_eq_some_iff]
  constructor
  · rintro ⟨p, hscan, rfl⟩
    obtain ⟨-, -, htest, -⟩ := scan_eq_some_iff.mp hscan
    have hmsg := beq_iff_eq.mp htest
    exact ⟨p, h.used_of_msg hm hmsg, hmsg, rfl⟩
  · rintro ⟨p, hused, hmsg, rfl⟩
    obtain ⟨hle, hlt⟩ := h.bucket p hused
    rw [hmsg] at hle hlt
    cases hscan : scan (fun p => d.msg p == m) (bucketPos m d.uiHashKey) bucketSize with
    | none =>
      have hfail := scan_eq_none_iff.mp hscan p hle hlt
      exact absurd (beq_iff_eq.mpr hmsg) (Bool.eq_false_iff.mp hfail)
    | some q =>
      obtain ⟨-, -, htest, -⟩ := scan_eq_some_iff.mp hscan
      have hmsg' := beq_iff_eq.mp htest
      obtain rfl := h.single p q hused (h.used_of_msg hm hmsg') (by rw [hmsg, hmsg'])
      exact ⟨p, rfl, rfl⟩

end Sound

theorem Represents.findMsg_eq {d : Dict β} {M : Nat → Option β} (h : d.Represents M) {m : Nat}
    (hm : IsMsg m) : d.findMsg m = (M m).map (Method.mk m) := by
  refine Option.ext fun x => ?_
  rw [findMsg_eq_some_iff h.sound hm, Option.map_eq_some_iff]
  constructor
  · rintro ⟨p, hused, hmsg, rfl⟩
    refine ⟨(d.method (d.idx p)).body, (h.content _ _).mp ⟨p, hused, ?_⟩, ?_⟩
    · rw [← hmsg]
      rfl
    · rw [← hmsg]
      rfl
  · rintro ⟨x, hx, rfl⟩
    obtain ⟨p, hused, hmethod⟩ := (h.content m x).mpr hx
    exact ⟨p, hused, by unfold msg; rw [hmethod], hmethod⟩

omit [Inhabited β] in
theorem idx_set {d : Dict β} {p q k : Nat} (hp : p < d.puiMsgIdx.length) :
    (d.puiMsgIdx.set p k).getD q 0 = if q = p then k else d.idx q := by
  simp only [idx, List.getD, List.getElem?_set]
  split_ifs with heq hne hne
  · rfl
  · omega
  · omega
  · rfl

end Dict

end Harbour.Vm.ClassDict
