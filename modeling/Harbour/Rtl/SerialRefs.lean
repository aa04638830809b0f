import Harbour.Library.BinarySearch

/-!
`HB_REF_LIST` as the serialiser uses it: the containers that were met, by their address.
-/

namespace Harbour.Rtl.SerialRefs

open Library.BinarySearch List

structure RefItem where
  value : Nat
  nOffset : Nat
  iRefs : Nat
deriving Repr

abbrev RefList := List RefItem

def valueAt (refs : RefList) (value : Nat) (position : Nat) : Int :=
  match refs[position]? with
  | some ref => (ref.value : Int) - value
  | none => 0

def itemSerialValueFind (refs : RefList) (value : Nat) : Bool × Nat :=
  search (valueAt refs value) 0 refs.length

/-- `hb_itemSerialValueRef`: whether the container was met before. -/
def itemSerialValueRef (refs : RefList) (value nOffset : Nat) : Bool × RefList :=
  match itemSerialValueFind refs value with
  | (true, nPos) => (true, refs.modify nPos fun ref => { ref with iRefs := 1 })
  | (false, nPos) => (false, refs.insertIdx nPos { value, nOffset, iRefs := 0 })

def itemSerialUnusedFree (refs : RefList) : RefList :=
  refs.filter fun ref => ref.iRefs ≠ 0

/-- `hb_itemSerialValueOffset`: whether the container has been written, and its offset
unless it is met once only. -/
def itemSerialValueOffset (refs : RefList) (value nOffset : Nat) : Bool × Option Nat :=
  match itemSerialValueFind refs value with
  | (true, nPos) =>
    match refs[nPos]? with
    | some ref => (decide (ref.nOffset < nOffset), some ref.nOffset)
    | none => (false, none)
  | (false, _) => (false, none)

def Sorted (refs : RefList) : Prop := refs.Pairwise fun ref ref' => ref.value < ref'.value

variable {refs refs' refs'' : RefList} {value nOffset nPos : Nat} {ref ref' : RefItem}

section

variable (h : Sorted refs)

include h

theorem Sorted.ascending (value : Nat) : Ascending (valueAt refs value) refs.length := by
  intro i j hij hj
  have hi : i < refs.length := by omega
  have hlt := pairwise_iff_getElem.mp h i j hi hj hij
  unfold valueAt
  rw [getElem?_eq_getElem hi, getElem?_eq_getElem hj]
  dsimp only
  omega

theorem find_located : Located (valueAt refs value) refs.length (itemSerialValueFind refs value) :=
  search_zero_located _ (h.ascending value)

theorem find_true (hfind : itemSerialValueFind refs value = (true, nPos)) :
    ∃ ref, refs[nPos]? = some ref ∧ ref.value = value := by
  have hlocated := @find_located refs value h
  rw [hfind] at hlocated
  obtain ⟨hlt, hzero⟩ := hlocated
  refine ⟨refs[nPos], getElem?_eq_getElem hlt, ?_⟩
  unfold valueAt at hzero
  rw [getElem?_eq_getElem hlt] at hzero
  dsimp only at hzero
  omega

theorem find_false (hfind : itemSerialValueFind refs value = (false, nPos)) :
    nPos ≤ refs.length ∧ (∀ ref ∈ refs.take nPos, ref.value < value) ∧
      ∀ ref ∈ refs.drop nPos, value < ref.value := by
  have hlocated := @find_located refs value h
  rw [hfind] at hlocated
  obtain ⟨hle, hsmaller, hgreater⟩ := hlocated
  refine ⟨hle, fun ref hmem => ?_, fun ref hmem => ?_⟩
  · obtain ⟨i, hi, rfl⟩ := mem_take_iff_getElem.mp hmem
    have hlt := hsmaller i (by omega)
    unfold valueAt at hlt
    rw [getElem?_eq_getElem (by omega)] at hlt
    dsimp only at hlt
    omega
  · obtain ⟨i, hi, rfl⟩ := mem_drop_iff_getElem.mp hmem
    have hlt := hgreater (nPos + i) (Nat.le_add_right _ _) (by omega)
    unfold valueAt at hlt
    rw [getElem?_eq_getElem (by omega)] at hlt
    dsimp only at hlt
    omega

theorem Sorted.unique (hmem : ref ∈ refs) (hmem' : ref' ∈ refs) (heq : ref.value = ref'.value) :
    ref = ref' := by
  obtain ⟨i, hi, rfl⟩ := getElem_of_mem hmem
  obtain ⟨j, hj, rfl⟩ := getElem_of_mem hmem'
  rcases Nat.lt_trichotomy i j with hij | rfl | hij
  · have := pairwise_iff_getElem.mp h i j hi hj hij
    omega
  · rfl
  · have := pairwise_iff_getElem.mp h j i hj hi hij
    omega

theorem find_mem (hmem : ref ∈ refs) (hvalue : ref.value = value) :
    ∃ nPos, itemSerialValueFind refs value = (true, nPos) ∧ refs[nPos]? = some ref := by
  rcases hfind : itemSerialValueFind refs value with ⟨_ | _, nPos⟩
  · obtain ⟨-, hbefore, hafter⟩ := find_false h hfind
    rw [← take_append_drop nPos refs] at hmem
    rcases mem_append.mp hmem with hmem | hmem
    · have := hbefore ref hmem
      omega
    · have := hafter ref hmem
      omega
  · obtain ⟨found, hget, hfound⟩ := find_true h hfind
    have hsame := h.unique (mem_of_getElem? hget) hmem (hfound.trans hvalue.symm)
    exact ⟨nPos, rfl, hsame ▸ hget⟩

end

def Grows (refs refs' : RefList) : Prop :=
  ∀ ref ∈ refs, ∃ ref' ∈ refs', ref'.value = ref.value ∧ ref'.nOffset = ref.nOffset ∧
    (ref.iRefs ≠ 0 → ref'.iRefs ≠ 0)

theorem grows_refl (refs : RefList) : Grows refs refs :=
  fun ref hmem => ⟨ref, hmem, rfl, rfl, id⟩

theorem Grows.trans (h : Grows refs refs') (h' : Grows refs' refs'') : Grows refs refs'' := by
  intro ref hmem
  obtain ⟨ref', hmem', hvalue, hoffset, hused⟩ := h ref hmem
  obtain ⟨ref'', hmem'', hvalue', hoffset', hused'⟩ := h' ref' hmem'
  exact ⟨ref'', hmem'', hvalue'.trans hvalue, hoffset'.trans hoffset, fun hne => hused' (hused hne)⟩

theorem valueRef_true (h : Sorted refs)
    (href : itemSerialValueRef refs value nOffset = (true, refs')) :
    Sorted refs' ∧ Grows refs refs' ∧ (∃ ref ∈ refs', ref.value = value ∧ ref.iRefs ≠ 0) ∧
      ∀ ref' ∈ refs', ∃ ref ∈ refs, ref.value = ref'.value ∧ ref.nOffset = ref'.nOffset := by
  unfold itemSerialValueRef at href
  rcases hfind : itemSerialValueFind refs value with ⟨_ | _, nPos⟩
  · rw [hfind] at href
    cases href
  · rw [hfind] at href
    obtain rfl := (Prod.mk.inj href).2
    obtain ⟨found, hget, hfound⟩ := find_true h hfind
    obtain ⟨hlt, hfoundEq⟩ := List.getElem?_eq_some_iff.mp hget
    have hrefs : refs = refs.take nPos ++ found :: refs.drop (nPos + 1) := by
      rw [← hfoundEq, ← drop_eq_getElem_cons hlt, take_append_drop]
    rw [modify_eq_take_cons_drop hlt, hfoundEq]
    generalize refs.take nPos = before at hrefs ⊢
    generalize refs.drop (nPos + 1) = after at hrefs ⊢
    subst hrefs
    refine ⟨?_, ?_, ⟨{ found with iRefs := 1 }, by simp, hfound, Nat.one_ne_zero⟩, ?_⟩
    · unfold Sorted at h ⊢
      rw [pairwise_append, pairwise_cons] at h ⊢
      obtain ⟨hbefore, hafter, hacross⟩ := h
      refine ⟨hbefore, hafter, fun ref hmem ref' hmem' => ?_⟩
      rcases mem_cons.mp hmem' with rfl | hmem'
      · exact hacross ref hmem found mem_cons_self
      · exact hacross ref hmem ref' (mem_cons_of_mem _ hmem')
    · intro ref hmem
      rw [mem_append, mem_cons] at hmem
      rcases hmem with hmem | rfl | hmem
      · exact ⟨ref, by simp [hmem], rfl, rfl, id⟩
      · exact ⟨{ ref with iRefs := 1 }, by simp, rfl, rfl, fun _ => Nat.one_ne_zero⟩
      · exact ⟨ref, by simp [hmem], rfl, rfl, id⟩
    · intro ref hmem
      rw [mem_append, mem_cons] at hmem
      rcases hmem with hmem | rfl | hmem
      · exact ⟨ref, by simp [hmem], rfl, rfl⟩
      · exact ⟨found, by simp, rfl, rfl⟩
      · exact ⟨ref, by simp [hmem], rfl, rfl⟩

theorem valueRef_false (h : Sorted refs)
    (href : itemSerialValueRef refs value nOffset = (false, refs')) :
    Sorted refs' ∧ Grows refs refs' ∧
      ∀ ref, ref ∈ refs' ↔ ref = { value, nOffset, iRefs := 0 } ∨ ref ∈ refs := by
  unfold itemSerialValueRef at href
  rcases hfind : itemSerialValueFind refs value with ⟨_ | _, nPos⟩
  · rw [hfind] at href
    obtain rfl := (Prod.mk.inj href).2
    obtain ⟨hle, hbefore, hafter⟩ := find_false h hfind
    have hmem : ∀ ref, ref ∈ refs.insertIdx nPos { value, nOffset, iRefs := 0 } ↔
        ref = { value, nOffset, iRefs := 0 } ∨ ref ∈ refs := fun ref => mem_insertIdx hle
    refine ⟨pairwise_insertIdx h hle hbefore hafter, fun ref href => ?_, hmem⟩
    exact ⟨ref, (hmem ref).mpr (.inr href), rfl, rfl, id⟩
  · rw [hfind] at href
    cases href

theorem Sorted.unusedFree (h : Sorted refs) : Sorted (itemSerialUnusedFree refs) :=
  List.Pairwise.filter _ h

theorem mem_unusedFree : ref ∈ itemSerialUnusedFree refs ↔ ref ∈ refs ∧ ref.iRefs ≠ 0 := by
  rw [itemSerialUnusedFree, mem_filter, decide_eq_true_eq]

theorem valueOffset_mem (h : Sorted refs) (hmem : ref ∈ refs) (hvalue : ref.value = value) :
    itemSerialValueOffset refs value nOffset =
      (decide (ref.nOffset < nOffset), some ref.nOffset) := by
  obtain ⟨nPos, hfind, hget⟩ := find_mem h hmem hvalue
  rw [itemSerialValueOffset, hfind]
  dsimp only
  rw [hget]

theorem valueOffset_false (h : Sorted refs)
    (hge : ∀ ref ∈ refs, ref.value = value → nOffset ≤ ref.nOffset) :
    (itemSerialValueOffset refs value nOffset).1 = false := by
  rcases hfind : itemSerialValueFind refs value with ⟨_ | _, nPos⟩
  · rw [itemSerialValueOffset, hfind]
  · obtain ⟨found, hget, hfound⟩ := find_true h hfind
    have hmem := mem_of_getElem? hget
    rw [valueOffset_mem h hmem hfound]
    exact decide_eq_false (Nat.not_lt_of_le (hge found hmem hfound))

end Harbour.Rtl.SerialRefs
