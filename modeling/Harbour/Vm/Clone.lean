import Harbour.Library.KeyTable
import Harbour.Vm.HashPairs
import Mathlib.Logic.Function.Basic

/-!
Clones of arrays and hashes with all that they hold.
-/

namespace Harbour.Vm.Clone

open Library.KeyTable HashTable List Option Function

/-- `R` are the references to variables. -/
inductive Item (V R : Type) where
  | nil
  | array (value : Nat)
  | hash (value : Nat)
  | byRef (ref : R)
  | other (value : V)

inductive Container (V R : Type) where
  | array (uiClass : Nat) (pItems : List (Item V R))
  | hash (value : BaseHash V (Item V R))

/-- Where an item is stored: by the caller, or in an array or in a pair of a hash. -/
inductive Place where
  | top
  | inside (value nPos : Nat)
deriving DecidableEq

/-- Addresses from `next` on are free. -/
structure Heap (V R : Type) where
  body : Nat → Option (Container V R)
  next : Nat
  top : Item V R

variable {V R : Type}

namespace Container

def item : Container V R → Nat → Option (Item V R)
  | .array _ pItems, nPos => pItems[nPos]?
  | .hash t, nPos => t.pPairs[nPos]?.map Prod.snd

def setItem (x : Item V R) : Container V R → Nat → Container V R
  | .array uiClass pItems, nPos => .array uiClass (pItems.set nPos x)
  | .hash t, nPos => .hash { t with pPairs := t.pPairs.modify nPos fun pair => (pair.1, x) }

end Container

namespace Heap

variable (h : Heap V R)

def item : Place → Option (Item V R)
  | .top => some h.top
  | .inside value nPos => (h.body value).bind fun c => c.item nPos

def setItem (x : Item V R) : Place → Heap V R
  | .top => { h with top := x }
  | .inside value nPos =>
    { h with
      body := update h.body value ((h.body value).map fun c => c.setItem x nPos) }

def alloc (c : Container V R) : Heap V R :=
  { h with body := update h.body h.next (some c), next := h.next + 1 }

def arrayNew (pItem : Place) (nLen uiClass : Nat) : Heap V R :=
  (h.alloc (.array uiClass (replicate nLen .nil))).setItem (.array h.next) pItem

def hashNew (pItem : Place) (t : BaseHash V (Item V R)) : Heap V R :=
  (h.alloc (.hash t)).setItem (.hash h.next) pItem

def addPair (pHash : Nat) (key : V) : Heap V R :=
  match h.body pHash with
  | some (.hash t) =>
    { h with
      body := update h.body pHash
        (some (.hash { t with pPairs := t.pPairs ++ [(key, .nil)] })) }
  | _ => h

def isObject (value : Nat) : Bool :=
  match h.body value with
  | some (.array uiClass _) => uiClass ≠ 0
  | _ => false

end Heap

/-- What has been visited, with the places of the copies. `nSize` entries fit in the table. -/
structure NestedCloned where
  pRefs : Table Nat Place
  nSize : Nat
  size : 16 ≤ nSize
  room : pRefs.entries.length ≤ nSize

def nestedCloneInit (pValue : Nat) (pDest : Place) : NestedCloned :=
  ⟨.single pValue pDest, 16, Nat.le_refl 16, Nat.le_of_ble_eq_true rfl⟩

theorem find_lt {t : Table Nat Place} {pValue nMiddle : Nat} (h : t.find pValue = (true, nMiddle)) :
    nMiddle < t.entries.length := by
  obtain ⟨pDest, hget⟩ := Table.find_found h
  exact (List.getElem?_eq_some_iff.mp hget).1

/-- The place of the copy, or the table with the new entry. -/
def nestedCloneFind (cloned : NestedCloned) (pValue : Nat) (pDest : Place) : Place ⊕ NestedCloned :=
  match h : cloned.pRefs.find pValue with
  | (true, nMiddle) => .inl (cloned.pRefs.entries.get ⟨nMiddle, find_lt h⟩).2
  | (false, nMiddle) =>
    .inr {
      pRefs := cloned.pRefs.insert pValue pDest nMiddle h
      nSize :=
        if cloned.nSize ≤ cloned.pRefs.entries.length then cloned.nSize + cloned.nSize / 2
        else cloned.nSize
      size := by
        have hsize := cloned.size
        split_ifs <;> omega
      room := by
        have hsize := cloned.size
        have hroom := cloned.room
        rw [Table.insert_length]
        split_ifs <;> omega }

structure Cloning (V R : Type) where
  heap : Heap V R
  cloned : NestedCloned

namespace Cloning

variable (s : Cloning V R)

def setItem (x : Item V R) (pDest : Place) : Cloning V R :=
  { s with heap := s.heap.setItem x pDest }

/-- `hb_itemCopy` from the place of another copy. -/
def itemCopy (pDest pSource : Place) : Cloning V R :=
  s.setItem ((s.heap.item pSource).getD .nil) pDest

end Cloning

def BaseHash.cloneHead (t : BaseHash V (Item V R)) : BaseHash V (Item V R) :=
  let pDest := hashGrow { hashNew with iFlags := t.iFlags } t.nLen
  { pDest with
    pDefault := t.pDefault
    pnPos := match t.pnPos with
      | some pnPos => pDest.pnPos.map fun _ => pnPos
      | none => pDest.pnPos }

abbrev Visit (V R : Type) := Place → Item V R → Cloning V R → Option (Cloning V R)

section Bodies

variable (nestedCloneDo : Visit V R)

def cloneItems (value : Nat) : Nat → List (Item V R) → Cloning V R → Option (Cloning V R)
  | _, [], s => some s
  | nPos, pSrcItem :: pItems, s =>
    (nestedCloneDo (.inside value nPos) pSrcItem s).bind (cloneItems value (nPos + 1) pItems)

def arrayCloneBody (pDest : Place) (pArray : Nat) (s : Cloning V R) : Option (Cloning V R) :=
  match s.heap.body pArray with
  | some (.array uiClass pItems) =>
    cloneItems nestedCloneDo s.heap.next 0 pItems
      { s with heap := s.heap.arrayNew pDest pItems.length uiClass }
  | _ => some s

variable (itemUnRef : R → Item V R)

def Item.unRef : Item V R → Item V R
  | .byRef ref => itemUnRef ref
  | pValue => pValue

def clonePairs (value : Nat) : Nat → List (V × Item V R) → Cloning V R → Option (Cloning V R)
  | _, [], s => some s
  | nPos, (key, pValue) :: pPairs, s =>
    (nestedCloneDo (.inside value nPos) (pValue.unRef itemUnRef)
      { s with heap := s.heap.addPair value key }).bind (clonePairs value (nPos + 1) pPairs)

def hashCloneBody (pDest : Place) (pHash : Nat) (s : Cloning V R) : Option (Cloning V R) :=
  match s.heap.body pHash with
  | some (.hash t) =>
    clonePairs nestedCloneDo itemUnRef s.heap.next 0 t.pPairs
      { s with heap := s.heap.hashNew pDest (BaseHash.cloneHead t) }
  | _ => some s

end Bodies

def objCloneBody (pDest : Place) (pObject : Nat) (s : Cloning V R) : Cloning V R :=
  s.setItem (.array pObject) pDest

variable (itemUnRef : R → Item V R)

/-- The first argument is how deep arrays and hashes may be nested. -/
def nestedCloneDo : Nat → Visit V R
  | 0, _, _, _ => none
  | depth + 1, pDstItem, pSrcItem, s =>
    match pSrcItem with
    | .array value =>
      match nestedCloneFind s.cloned value pDstItem with
      | .inl pDest => some (s.itemCopy pDstItem pDest)
      | .inr cloned =>
        if s.heap.isObject value then
          some (objCloneBody pDstItem value { s with cloned })
        else arrayCloneBody (nestedCloneDo depth) pDstItem value { s with cloned }
    | .hash value =>
      match nestedCloneFind s.cloned value pDstItem with
      | .inl pDest => some (s.itemCopy pDstItem pDest)
      | .inr cloned =>
        hashCloneBody (nestedCloneDo depth) itemUnRef pDstItem value { s with cloned }
    | pSrcItem => some (s.setItem pSrcItem pDstItem)

def arrayCloneTo (depth : Nat) (pArray : Nat) (heap : Heap V R) : Option (Cloning V R) :=
  arrayCloneBody (nestedCloneDo itemUnRef depth) .top pArray ⟨heap, nestedCloneInit pArray .top⟩

def hashCloneTo (depth : Nat) (pHash : Nat) (heap : Heap V R) : Option (Cloning V R) :=
  hashCloneBody (nestedCloneDo itemUnRef depth) itemUnRef .top pHash
    ⟨heap, nestedCloneInit pHash .top⟩

end Harbour.Vm.Clone

/-!
What a clone is: new arrays and hashes that hold copies of the items of those they are cloned from.
-/

namespace Harbour.Vm.Clone

open Library.KeyTable HashTable HashPairs

variable {V R : Type}

def Item.value : Item V R → Option Nat
  | .array value => some value
  | .hash value => some value
  | _ => none

def Item.image (φ : Nat → Option Nat) : Item V R → Item V R
  | .array value => .array ((φ value).getD value)
  | .hash value => .hash ((φ value).getD value)
  | item => item

def Container.ref (value : Nat) : Container V R → Item V R
  | .array .. => .array value
  | .hash _ => .hash value

def Heap.Refers (h : Heap V R) (item : Item V R) : Prop :=
  ∀ a, item.value = some a → ∃ c, h.body a = some c ∧ item = c.ref a

section Links

variable (itemUnRef : R → Item V R)

def Container.links : Container V R → List (Item V R)
  | .array _ pItems => pItems
  | .hash t => t.pPairs.map fun pair => pair.2.unRef itemUnRef

structure Heap.Sound (h : Heap V R) : Prop where
  bound : ∀ a c, h.body a = some c → a < h.next
  hashes : ∀ a t, h.body a = some (.hash t) → Coherent t
  links : ∀ a c item, h.body a = some c → item ∈ c.links itemUnRef → h.Refers item

/-- What is cloned: what is reached from the first array or hash, but not by what objects hold, or
defaults. -/
inductive Heap.Reaches (h : Heap V R) (first : Nat) : Nat → Prop
  | first : h.Reaches first first
  | link {a b : Nat} {c : Container V R} {item : Item V R} : h.Reaches first a →
      h.body a = some c → item ∈ c.links itemUnRef → item.value = some b → h.isObject b = false →
      h.Reaches first b

def Heap.Held (h : Heap V R) (first : Nat) (item : Item V R) : Prop :=
  ∃ a c, h.Reaches itemUnRef first a ∧ h.body a = some c ∧ item ∈ c.links itemUnRef

def Container.copy (φ : Nat → Option Nat) : Container V R → Container V R
  | .array uiClass pItems => .array uiClass (pItems.map (Item.image φ))
  | .hash t =>
    .hash { BaseHash.cloneHead t with
      pPairs := t.pPairs.map fun pair => (pair.1, (pair.2.unRef itemUnRef).image φ) }

end Links

section Heaps

variable {h : Heap V R} {p q : Place} {x : Item V R} {c : Container V R} {a b : Nat}
  {φ : Nat → Option Nat}

theorem image_none {item : Item V R} (h : ∀ a, item.value = some a → φ a = none) :
    item.image φ = item := by
  cases item with
  | array value => exact congrArg (fun b => Item.array (b.getD value)) (h value rfl)
  | hash value => exact congrArg (fun b => Item.hash (b.getD value)) (h value rfl)
  | _ => rfl

theorem image_congr {φ' : Nat → Option Nat} {item : Item V R}
    (h : ∀ a, item.value = some a → φ' a = φ a) : item.image φ' = item.image φ := by
  cases item with
  | array value => exact congrArg (fun b => Item.array (b.getD value)) (h value rfl)
  | hash value => exact congrArg (fun b => Item.hash (b.getD value)) (h value rfl)
  | _ => rfl

theorem ref_value : (c.ref a).value = some a := by
  cases c with
  | array uiClass pItems => rfl
  | hash t => rfl

theorem image_ref (h : φ a = some b) : (c.ref a).image φ = c.ref b := by
  cases c with
  | array uiClass pItems => exact congrArg (fun b => Item.array (b.getD a)) h
  | hash t => exact congrArg (fun b => Item.hash (b.getD a)) h

theorem setItem_item (hp : (c.item a).isSome) : (c.setItem x a).item a = some x := by
  cases c with
  | array uiClass pItems =>
    obtain ⟨y, hy⟩ := Option.isSome_iff_exists.mp hp
    exact List.getElem?_set_self (List.getElem?_eq_some_iff.mp hy).1
  | hash t =>
    change ((t.pPairs.modify a fun pair => (pair.1, x))[a]?).map Prod.snd = some x
    obtain ⟨y, hy⟩ := Option.isSome_iff_exists.mp hp
    obtain ⟨pair, hpair, -⟩ := Option.map_eq_some_iff.mp hy
    rw [List.getElem?_modify_eq, hpair]
    rfl

theorem setItem_item_ne (hne : a ≠ b) : (c.setItem x a).item b = c.item b := by
  cases c with
  | array uiClass pItems => exact List.getElem?_set_ne hne
  | hash t =>
    change ((t.pPairs.modify a fun pair => (pair.1, x))[b]?).map Prod.snd = _
    rw [List.getElem?_modify_ne _ _ hne]
    rfl

theorem heap_setItem (hp : (h.item p).isSome) : (h.setItem x p).item p = some x := by
  cases p with
  | top => rfl
  | inside value nPos =>
    change (Function.update h.body value _ value).bind _ = _
    rw [Function.update_self]
    obtain ⟨y, hy⟩ := Option.isSome_iff_exists.mp hp
    obtain ⟨c, hc, hitem⟩ := Option.bind_eq_some_iff.mp hy
    rw [hc]
    exact setItem_item (hitem ▸ rfl)

theorem heap_setItem_ne (hne : p ≠ q) : (h.setItem x p).item q = h.item q := by
  cases p with
  | top =>
    cases q with
    | top => exact absurd rfl hne
    | inside value nPos => rfl
  | inside value nPos =>
    cases q with
    | top => rfl
    | inside value' nPos' =>
      change (Function.update h.body value _ value').bind _ = (h.body value').bind _
      by_cases hvalue : value' = value
      · subst hvalue
        rw [Function.update_self]
        have hpos : nPos ≠ nPos' := fun h => hne (h ▸ rfl)
        cases h.body value' with
        | none => rfl
        | some c => exact setItem_item_ne hpos
      · rw [Function.update_of_ne hvalue]

def Place.owner : Place → Option Nat
  | .top => none
  | .inside value _ => some value

theorem setItem_body (hb : p.owner ≠ some b) : (h.setItem x p).body b = h.body b := by
  cases p with
  | top => rfl
  | inside value nPos => exact Function.update_of_ne (fun heq => hb (congrArg some heq.symm)) ..

theorem setItem_none (hb : h.body b = none) : (h.setItem x p).body b = none := by
  cases p with
  | top => exact hb
  | inside value nPos =>
    change Function.update h.body value _ b = none
    by_cases hvalue : b = value
    · subst hvalue
      rw [Function.update_self, hb]
      rfl
    · rw [Function.update_of_ne hvalue, hb]

theorem setItem_next : (h.setItem x p).next = h.next := by
  cases p with
  | top => rfl
  | inside value nPos => rfl

theorem alloc_setItem (hb : b ≠ h.next) :
    ((h.alloc c).setItem x p).body b = (h.setItem x p).body b := by
  cases p with
  | top => exact Function.update_of_ne hb ..
  | inside value nPos =>
    have hbody : (h.alloc c).body b = h.body b := Function.update_of_ne hb ..
    change Function.update (h.alloc c).body value _ b = Function.update h.body value _ b
    by_cases hvalue : b = value
    · subst hvalue
      rw [Function.update_self, Function.update_self, hbody]
    · rw [Function.update_of_ne hvalue, Function.update_of_ne hvalue, hbody]

theorem alloc_top : ((h.alloc c).setItem x p).top = (h.setItem x p).top := by
  cases p with
  | top => rfl
  | inside value nPos => rfl

theorem alloc_item (hp : p.owner ≠ some h.next) : (h.alloc c).item p = h.item p := by
  cases p with
  | top => rfl
  | inside value nPos =>
    change (Function.update h.body h.next (some c) value).bind _ = _
    rw [Function.update_of_ne fun heq => hp (congrArg some heq)]
    rfl

end Heaps

end Harbour.Vm.Clone
