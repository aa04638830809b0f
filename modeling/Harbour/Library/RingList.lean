import Mathlib.Data.List.Chain
import Mathlib.Data.List.Nodup
import Mathlib.Logic.Function.Basic

/-!
Rings of nodes that are linked both ways, several of them over one memory of links.
-/

namespace Harbour.Library.RingList

open List Function Option

variable {α : Type*}

structure Links (α : Type*) where
  next : α → α
  prev : α → α

namespace Links

def Joined (L : Links α) (a b : α) : Prop := L.next a = b ∧ L.prev b = a

/-- The nodes of the list, each once, in the order of the links around a ring. -/
def Ring (L : Links α) (l : List α) : Prop := l.Nodup ∧ (l ++ l.head?.toList).IsChain L.Joined

variable {L L' : Links α} {l m : List α} {a b h : α}

theorem ring_nil : L.Ring [] := ⟨nodup_nil, .nil⟩

theorem chain_congr (hchain : l.IsChain L.Joined) (hnext : ∀ x ∈ l.dropLast, L'.next x = L.next x)
    (hprev : ∀ x ∈ l.tail, L'.prev x = L.prev x) : l.IsChain L'.Joined := by
  induction l with
  | nil => exact .nil
  | cons a l ih =>
    cases l with
    | nil => exact .singleton a
    | cons b l =>
      rw [isChain_cons_cons] at hchain ⊢
      refine ⟨⟨?_, ?_⟩, ih hchain.2 (fun x hx => hnext x ?_) (fun x hx => hprev x ?_)⟩
      · rw [hnext a (by simp)]
        exact hchain.1.1
      · rw [hprev b (by simp)]
        exact hchain.1.2
      · rw [dropLast_cons_of_ne_nil (by simp)]
        exact mem_cons_of_mem a hx
      · exact mem_of_mem_tail hx

theorem Ring.congr (hring : L.Ring l) (hnext : ∀ x ∈ l, L'.next x = L.next x)
    (hprev : ∀ x ∈ l, L'.prev x = L.prev x) : L'.Ring l := by
  cases l with
  | nil => exact ring_nil
  | cons a rest =>
    refine ⟨hring.1, chain_congr hring.2 (fun x hx => hnext x ?_) (fun x hx => hprev x ?_)⟩
    · rwa [head?_cons, toList_some, dropLast_concat] at hx
    · simpa [or_comm] using hx

theorem ring_cons : L.Ring (a :: l) ↔
    (a :: l).Nodup ∧ (a :: l).IsChain L.Joined ∧ ∀ z ∈ (a :: l).getLast?, L.Joined z a := by
  rw [Ring, head?_cons, toList_some, isChain_append]
  constructor
  · rintro ⟨hnodup, hchain, -, hclose⟩
    exact ⟨hnodup, hchain, fun z hz => hclose z hz a rfl⟩
  · rintro ⟨hnodup, hchain, hclose⟩
    refine ⟨hnodup, hchain, .singleton a, ?_⟩
    intro z hz y hy
    obtain rfl : a = y := by simpa using hy
    exact hclose z hz

theorem Ring.prev_head (hring : L.Ring (a :: l)) : (a :: l).getLast? = some (L.prev a) := by
  obtain ⟨-, -, hclose⟩ := ring_cons.mp hring
  have hlast : (a :: l).getLast? = some ((a :: l).getLast (by simp)) :=
    getLast?_eq_some_getLast (by simp)
  rw [hlast, (hclose _ hlast).2]

theorem ring_singleton (hnext : L.next a = a) (hprev : L.prev a = a) : L.Ring [a] :=
  ring_cons.mpr ⟨by simp, .singleton a, fun z hz => by
    obtain rfl : a = z := by simpa using hz
    exact ⟨hnext, hprev⟩⟩

theorem Ring.rotate (hring : L.Ring (a :: l)) : L.Ring (l ++ [a]) := by
  cases l with
  | nil => exact hring
  | cons b l =>
    obtain ⟨hnodup, hchain⟩ := hring
    rw [head?_cons, toList_some, cons_append, cons_append,
      isChain_cons_cons] at hchain
    refine ⟨(perm_append_singleton a (b :: l)).nodup_iff.mpr hnodup, ?_⟩
    have hhead : ((b :: l) ++ [a]).head? = some b := rfl
    rw [hhead, toList_some, isChain_append]
    refine ⟨hchain.2, .singleton b, ?_⟩
    intro z hz y hy
    rw [getLast?_concat] at hz
    obtain rfl : a = z := some.inj hz
    obtain rfl : b = y := by simpa using hy
    exact hchain.1

theorem Ring.turn (hring : L.Ring (l ++ m)) : L.Ring (m ++ l) := by
  induction l generalizing m with
  | nil => simpa using hring
  | cons a l ih =>
    have hturned : L.Ring (l ++ m ++ [a]) := Ring.rotate hring
    rw [append_assoc] at hturned
    have hrest := ih hturned
    rwa [append_assoc, singleton_append] at hrest

theorem Ring.next_head (hring : L.Ring (a :: l)) : (l ++ [a]).head? = some (L.next a) := by
  cases l with
  | nil =>
    obtain ⟨-, -, hclose⟩ := ring_cons.mp hring
    rw [(hclose a rfl).1]
    rfl
  | cons b l =>
    obtain ⟨-, hchain, -⟩ := ring_cons.mp hring
    rw [isChain_cons_cons] at hchain
    rw [hchain.1.1]
    rfl

theorem Ring.prev_mem (hring : L.Ring (h :: l)) : L.prev h ∈ h :: l :=
  mem_of_getLast? hring.prev_head

theorem Ring.next_mem (hring : L.Ring l) (ha : a ∈ l) : L.next a ∈ l := by
  obtain ⟨before, behind, rfl⟩ := append_of_mem ha
  have hturned : L.Ring (a :: (behind ++ before)) := hring.turn
  have hmem := mem_of_head? hturned.next_head
  simp only [mem_append, mem_cons, not_mem_nil, or_false] at hmem ⊢
  tauto

theorem Ring.prev_mem_of_mem (hring : L.Ring l) (ha : a ∈ l) : L.prev a ∈ l := by
  obtain ⟨before, behind, rfl⟩ := append_of_mem ha
  have hturned : L.Ring (a :: (behind ++ before)) := hring.turn
  have hmem := hturned.prev_mem
  simp only [mem_append, mem_cons] at hmem ⊢
  tauto

theorem not_mem_dropLast (hnodup : l.Nodup) (hlast : l.getLast? = some a) : a ∉ l.dropLast := by
  intro ha
  rw [← dropLast_append_getLast? a hlast, nodup_append] at hnodup
  exact hnodup.2.2 a ha a mem_cons_self rfl

section Update

variable [DecidableEq α]

def insert (L : Links α) (h a : α) : Links α where
  next := update (update L.next a h) (L.prev h) a
  prev := update (update L.prev a (L.prev h)) h a

def alone (L : Links α) (a : α) : Links α where
  next := update L.next a a
  prev := update L.prev a a

def remove (L : Links α) (a : α) : Links α where
  next := update L.next (L.prev a) (L.next a)
  prev := update L.prev (L.next a) (L.prev a)

theorem alone_ring (L : Links α) (a : α) : (L.alone a).Ring [a] :=
  ring_singleton (update_self ..) (update_self ..)

theorem Ring.alone (hring : L.Ring l) (ha : a ∉ l) : (L.alone a).Ring l :=
  hring.congr (fun _ hx => update_of_ne (ne_of_mem_of_not_mem hx ha) ..)
    (fun _ hx => update_of_ne (ne_of_mem_of_not_mem hx ha) ..)

theorem Ring.insert (hring : L.Ring (h :: l)) (ha : a ∉ h :: l) :
    (L.insert h a).Ring (h :: l ++ [a]) := by
  obtain ⟨hnodup, hchain, -⟩ := ring_cons.mp hring
  have hlast := hring.prev_head
  have hah : h ≠ a := by
    rintro rfl
    exact ha mem_cons_self
  have hza : L.prev h ≠ a := by
    rintro rfl
    exact ha hring.prev_mem
  rw [cons_append, ring_cons, ← cons_append, isChain_append]
  refine ⟨?_, ⟨chain_congr hchain (fun x hx => ?_) (fun x hx => ?_), .singleton a, ?_⟩, ?_⟩
  · exact (perm_append_singleton a (h :: l)).nodup_iff.mpr (nodup_cons.mpr ⟨ha, hnodup⟩)
  · have hxl : x ≠ L.prev h := by
      rintro rfl
      exact not_mem_dropLast hnodup hlast hx
    have hxa : x ≠ a := ne_of_mem_of_not_mem (dropLast_subset _ hx) ha
    change update (update L.next a h) (L.prev h) a x = L.next x
    rw [update_of_ne hxl, update_of_ne hxa]
  · have hxh : x ≠ h := ne_of_mem_of_not_mem hx (nodup_cons.mp hnodup).1
    have hxa : x ≠ a := ne_of_mem_of_not_mem (mem_cons_of_mem h hx) ha
    change update (update L.prev a (L.prev h)) h a x = L.prev x
    rw [update_of_ne hxh, update_of_ne hxa]
  · intro z hz y hy
    obtain rfl : L.prev h = z := some.inj (hlast.symm.trans hz)
    obtain rfl : a = y := by simpa using hy
    refine ⟨update_self .., ?_⟩
    change update (update L.prev a (L.prev h)) h a a = L.prev h
    rw [update_of_ne hah.symm, update_self]
  · intro z hz
    rw [getLast?_concat] at hz
    obtain rfl : a = z := some.inj hz
    refine ⟨?_, update_self ..⟩
    change update (update L.next a h) (L.prev h) a a = h
    rw [update_of_ne hza.symm, update_self]

theorem Ring.insert_other (hring : L.Ring m) (hl : L.Ring (h :: l)) (ha : a ∉ m)
    (hm : ∀ x ∈ m, x ∉ h :: l) : (L.insert h a).Ring m := by
  refine hring.congr (fun x hx => ?_) (fun x hx => ?_)
  · have hxl : x ≠ L.prev h := (ne_of_mem_of_not_mem hl.prev_mem (hm x hx)).symm
    have hxa : x ≠ a := ne_of_mem_of_not_mem hx ha
    change update (update L.next a h) (L.prev h) a x = L.next x
    rw [update_of_ne hxl, update_of_ne hxa]
  · have hxh : x ≠ h := (ne_of_mem_of_not_mem mem_cons_self (hm x hx)).symm
    have hxa : x ≠ a := ne_of_mem_of_not_mem hx ha
    change update (update L.prev a (L.prev h)) h a x = L.prev x
    rw [update_of_ne hxh, update_of_ne hxa]

theorem Ring.remove_head (hring : L.Ring (a :: l)) : (L.remove a).Ring l := by
  cases l with
  | nil => exact ring_nil
  | cons b l =>
    have hlast := hring.prev_head
    have hnext : L.next a = b := (some.inj hring.next_head).symm
    obtain ⟨hnodup, hchain, -⟩ := ring_cons.mp hring
    rw [isChain_cons_cons] at hchain
    have hrest := (nodup_cons.mp hnodup).2
    have hlast' : (b :: l).getLast? = some (L.prev a) := by
      rwa [getLast?_cons_cons] at hlast
    refine ring_cons.mpr ⟨hrest, chain_congr hchain.2 (fun x hx => ?_) (fun x hx => ?_), ?_⟩
    · refine update_of_ne ?_ ..
      rintro rfl
      exact not_mem_dropLast hrest hlast' hx
    · refine update_of_ne ?_ ..
      rw [hnext]
      rintro rfl
      exact (nodup_cons.mp hrest).1 hx
    · intro z hz
      obtain rfl : L.prev a = z := some.inj (hlast'.symm.trans hz)
      refine ⟨(update_self ..).trans hnext, ?_⟩
      change update L.prev (L.next a) (L.prev a) b = L.prev a
      rw [hnext, update_self]

theorem Ring.remove (hring : L.Ring l) (ha : a ∈ l) : (L.remove a).Ring (l.erase a) := by
  obtain ⟨before, behind, hbefore, rfl, herase⟩ := exists_erase_eq ha
  rw [herase]
  have hturned : L.Ring (a :: (behind ++ before)) := hring.turn
  exact (Ring.remove_head hturned).turn

theorem Ring.remove_other (hring : L.Ring m) (hl : L.Ring l) (ha : a ∈ l) (hm : ∀ x ∈ m, x ∉ l) :
    (L.remove a).Ring m := by
  refine hring.congr (fun x hx => ?_) (fun x hx => ?_)
  · exact update_of_ne (ne_of_mem_of_not_mem (hl.prev_mem_of_mem ha) (hm x hx)).symm ..
  · exact update_of_ne (ne_of_mem_of_not_mem (hl.next_mem ha) (hm x hx)).symm ..

end Update

end Links

end Harbour.Library.RingList
