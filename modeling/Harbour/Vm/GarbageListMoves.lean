import Harbour.Vm.GarbageLists

/-!
What the operations of the collector do to its lists.
-/

namespace Harbour.Vm.GarbageLists

open Library.RingList List Function Option

variable {β : Type*} {p q : Pool β} {lists : ListId → List β} {a b : β} {i j : ListId}
  {w w' : β → ListId → Prop}

/-- The pool has lists whose blocks are those that `w` says. -/
def Holds (p : Pool β) (w : β → ListId → Prop) : Prop :=
  ∃ lists, Listed p lists ∧ ∀ i b, b ∈ lists i ↔ w b i

theorem Listed.congr (hlisted : Listed p lists) (hlinks : q.links = p.links)
    (hheads : q.heads = p.heads) : Listed q lists :=
  ⟨hlinks ▸ hlisted.ring, hheads ▸ hlisted.head, hlisted.disjoint⟩

theorem Holds.congr (hholds : Holds p w) (hlinks : q.links = p.links) (hheads : q.heads = p.heads)
    (hwhere : ∀ b i, w' b i ↔ w b i) : Holds q w' := by
  obtain ⟨lists, hlisted, hmem⟩ := hholds
  exact ⟨lists, hlisted.congr hlinks hheads, fun i b => (hmem i b).trans (hwhere b i).symm⟩

theorem Holds.head_mem (hholds : Holds p w) (hhead : p.heads i = some b) : w b i := by
  obtain ⟨lists, hlisted, hmem⟩ := hholds
  exact (hmem i b).mp (mem_of_head? ((hlisted.head i).symm.trans hhead))

theorem Listed.replace [DecidableEq β] {list : List β} (hlisted : Listed p lists)
    (hring : q.links.Ring list) (hhead : q.heads i = list.head?)
    (hother : ∀ k, k ≠ i → q.links.Ring (lists k) ∧ q.heads k = p.heads k)
    (hdisjoint : ∀ k, i ≠ k → ∀ x ∈ list, x ∉ lists k) : Listed q (update lists i list) := by
  refine ⟨fun k => ?_, fun k => ?_, fun k l hkl x hx hx' => ?_⟩
  · rcases eq_or_ne k i with rfl | hk
    · rwa [update_self]
    · rw [update_of_ne hk]
      exact (hother k hk).1
  · rcases eq_or_ne k i with rfl | hk
    · rwa [update_self]
    · rw [update_of_ne hk]
      exact (hother k hk).2.trans (hlisted.head k)
  · rcases eq_or_ne k i with rfl | hk
    · rw [update_self] at hx
      rw [update_of_ne hkl.symm] at hx'
      exact hdisjoint l hkl x hx hx'
    · rw [update_of_ne hk] at hx
      rcases eq_or_ne l i with rfl | hl
      · rw [update_self] at hx'
        exact hdisjoint k hk.symm x hx' hx
      · rw [update_of_ne hl] at hx'
        exact hlisted.disjoint k l hkl x hx hx'

theorem Listed.advance [DecidableEq β] {rest : List β} (hlisted : Listed p lists)
    (hlist : lists i = b :: rest) :
    Listed (p.advance i b) (update lists i (rest ++ [b])) := by
  have hring := hlist ▸ hlisted.ring i
  refine hlisted.replace hring.rotate ?_ (fun k hk => ⟨hlisted.ring k, update_of_ne hk ..⟩) ?_
  · rw [hring.next_head]
    exact update_self ..
  · intro k hk x hx
    refine hlisted.disjoint i k hk x ?_
    rw [hlist]
    exact (perm_append_singleton b rest).mem_iff.mp hx

theorem Holds.advance [DecidableEq β] (hholds : Holds p w) (hhead : p.heads i = some b) :
    Holds (p.advance i b) w := by
  obtain ⟨lists, hlisted, hmem⟩ := hholds
  obtain ⟨rest, hlist⟩ := List.head?_eq_some_iff.mp ((hlisted.head i).symm.trans hhead)
  refine ⟨_, hlisted.advance hlist, fun k x => ?_⟩
  rw [← hmem k x]
  rcases eq_or_ne k i with rfl | hk
  · rw [update_self, hlist]
    exact (perm_append_singleton b rest).mem_iff
  · rw [update_of_ne hk]

section Unlink

variable [DecidableEq β]

theorem gcUnlink_heads : (p.gcUnlink i b).heads =
    if p.heads i = some b then
      update p.heads i
        (if (p.links.remove b).next b = b then none else some ((p.links.remove b).next b))
    else p.heads := rfl

theorem Listed.unlink_head (hlisted : Listed p lists) (hb : b ∈ lists i) :
    (p.gcUnlink i b).heads i = ((lists i).erase b).head? := by
  have hhead := hlisted.head i
  obtain ⟨c, rest, hlist⟩ := exists_cons_of_ne_nil (ne_nil_of_mem hb)
  have hring := hlist ▸ hlisted.ring i
  rw [hlist, head?_cons] at hhead
  rcases eq_or_ne c b with rfl | hne
  · rw [hlist, erase_cons_head]
    have hnext := hring.next_head
    rw [gcUnlink_heads, if_pos hhead, update_self]
    cases rest with
    | nil =>
      have hself : p.links.next c = c := (some.inj hnext).symm
      have hlink : (p.links.remove c).next c = c := by
        change update p.links.next (p.links.prev c) (p.links.next c) c = c
        have hprev : p.links.prev c = c := (some.inj hring.prev_head).symm
        rw [hprev, update_self, hself]
      rw [if_pos hlink]
      rfl
    | cons d rest =>
      have hd : p.links.next c = d := (some.inj hnext).symm
      have hcd : c ≠ d := by
        rintro rfl
        exact (List.nodup_cons.mp hring.1).1 mem_cons_self
      have hprev : p.links.prev c ≠ c := by
        intro hprev
        have hlast := hring.prev_head
        rw [getLast?_cons_cons, hprev] at hlast
        exact (List.nodup_cons.mp hring.1).1 (mem_of_getLast? hlast)
      have hlink : (p.links.remove c).next c = d := by
        change update p.links.next (p.links.prev c) (p.links.next c) c = d
        rw [update_of_ne hprev.symm, hd]
      rw [hlink, if_neg hcd.symm]
      rfl
  · rw [hlist, erase_cons_tail (by simpa using hne), head?_cons]
    have hne' : p.heads i ≠ some b := by
      rw [hhead]
      exact fun h => hne (some.inj h)
    rw [gcUnlink_heads, if_neg hne', hhead]

theorem gcUnlink_heads_of_ne (hij : j ≠ i) : (p.gcUnlink i b).heads j = p.heads j := by
  rw [gcUnlink_heads]
  split_ifs
  · exact update_of_ne hij ..
  · exact update_of_ne hij ..
  · rfl

theorem Listed.gcUnlink (hlisted : Listed p lists) (hb : b ∈ lists i) :
    Listed (p.gcUnlink i b) (update lists i ((lists i).erase b)) := by
  refine hlisted.replace ((hlisted.ring i).remove hb) (hlisted.unlink_head hb) (fun k hk => ?_) ?_
  · exact ⟨(hlisted.ring k).remove_other (hlisted.ring i) hb (hlisted.disjoint k i hk),
      gcUnlink_heads_of_ne hk⟩
  · exact fun k hk x hx => hlisted.disjoint i k hk x (mem_of_mem_erase hx)

theorem Holds.gcUnlink (hholds : Holds p w) (hb : w b i) :
    Holds (p.gcUnlink i b) fun x k => x ≠ b ∧ w x k := by
  obtain ⟨lists, hlisted, hmem⟩ := hholds
  have hbi := (hmem i b).mpr hb
  refine ⟨_, hlisted.gcUnlink hbi, fun k x => ?_⟩
  dsimp only
  rw [← hmem k x]
  rcases eq_or_ne k i with rfl | hk
  · rw [update_self, (hlisted.ring k).1.mem_erase_iff]
  · rw [update_of_ne hk]
    refine ⟨fun hx => ⟨?_, hx⟩, And.right⟩
    rintro rfl
    exact hlisted.disjoint k i hk x hx hbi

end Unlink

section Link

variable [DecidableEq β]

theorem Listed.gcLink (hlisted : Listed p lists) (hb : ∀ k, b ∉ lists k) :
    Listed (p.gcLink i b) (update lists i (lists i ++ [b])) := by
  have hdisjoint : ∀ k, i ≠ k → ∀ x ∈ lists i ++ [b], x ∉ lists k := by
    intro k hk x hx
    rcases mem_append.mp hx with hx | hx
    · exact hlisted.disjoint i k hk x hx
    · rw [mem_singleton.mp hx]
      exact hb k
  have hhead := hlisted.head i
  unfold Pool.gcLink
  cases hlist : lists i with
  | nil =>
    rw [hlist] at hhead hdisjoint
    rw [hhead]
    exact hlisted.replace (Links.alone_ring ..) (update_self ..)
      (fun k hk => ⟨(hlisted.ring k).alone (hb k), update_of_ne hk ..⟩) hdisjoint
  | cons c rest =>
    have hring := hlist ▸ hlisted.ring i
    rw [hlist] at hhead hdisjoint
    rw [hhead]
    refine hlisted.replace (hring.insert (hlist ▸ hb i)) hhead (fun k hk => ⟨?_, rfl⟩) hdisjoint
    exact (hlisted.ring k).insert_other hring (hb k) (hlist ▸ hlisted.disjoint k i hk)

theorem Holds.gcLink (hholds : Holds p w) (hb : ∀ k, ¬w b k) :
    Holds (p.gcLink i b) fun x k => (x = b ∧ k = i) ∨ w x k := by
  obtain ⟨lists, hlisted, hmem⟩ := hholds
  refine ⟨_, hlisted.gcLink fun k hk => hb k ((hmem k b).mp hk), fun k x => ?_⟩
  dsimp only
  rw [← hmem k x]
  rcases eq_or_ne k i with rfl | hk
  · rw [update_self]
    simp [or_comm]
  · rw [update_of_ne hk]
    simp [hk]

theorem Holds.move (hholds : Holds p w) (hb : w b i) :
    Holds ((p.gcUnlink i b).gcLink j b) fun x k => (x = b ∧ k = j) ∨ (x ≠ b ∧ w x k) :=
  (hholds.gcUnlink hb).gcLink fun _ h => h.1 rfl

variable (p i b)

@[simp] theorem gcLink_used : (p.gcLink i b).used = p.used := by
  unfold Pool.gcLink
  split <;> rfl

@[simp] theorem gcLink_locked : (p.gcLink i b).locked = p.locked := by
  unfold Pool.gcLink
  split <;> rfl

@[simp] theorem gcLink_live : (p.gcLink i b).live = p.live := by
  unfold Pool.gcLink
  split <;> rfl

@[simp] theorem gcLink_freed : (p.gcLink i b).freed = p.freed := by
  unfold Pool.gcLink
  split <;> rfl

end Link

end Harbour.Vm.GarbageLists
