import Harbour.Vm.ClassDict

/-!
Widening the dictionary: every index finds a slot in the table with twice the buckets, or in a
wider one, for the symbol numbers have 16 bits.
-/

namespace Harbour.Vm.ClassDict

open Library.Slots Option List

variable {β : Type} [Inhabited β]

omit [Inhabited β] in
variable {k m n : Nat} {table : List Nat}

theorem fifth_in_bucket {mask : Nat} (hmask : mask + 1 = 2 ^ 14) (hm : IsMsg m) (f : Fin 4 → Nat)
    (hmsg : ∀ i, IsMsg (f i)) (hne : ∀ i j, i ≠ j → f i ≠ f j)
    (hbucket : ∀ i, bucketPos (f i) mask = bucketPos m mask) : ∃ i, f i = m := by
  by_contra hnone
  push Not at hnone
  have hrem : ∀ i, f i % 2 ^ 14 = m % 2 ^ 14 := by
    intro i
    have hi := hbucket i
    rw [bucketPos_pow _ hmask, bucketPos_pow _ hmask] at hi
    omega
  have hcons : ∀ i, (Fin.cons m f : Fin 5 → Nat) i % 2 ^ 14 = m % 2 ^ 14 := fun i =>
    Fin.cases rfl (fun i => by rw [Fin.cons_succ]; exact hrem i) i
  obtain ⟨i, j, hij, heq⟩ := residues_not_injective 4 (2 ^ 14)
    (Fin.cons m f : Fin 5 → Nat)
    (fun i => by
      refine Fin.cases ?_ (fun i => ?_) i
      · have hle := hm.2
        rw [Fin.cons_zero]
        omega
      · have hle := (hmsg i).2
        rw [Fin.cons_succ]
        omega)
    (fun i j => by rw [hcons i, hcons j])
  revert hij heq
  refine Fin.cases ?_ (fun i => ?_) i <;> refine Fin.cases ?_ (fun j => ?_) j
  · exact fun hij => absurd rfl hij
  · exact fun _ heq => hnone j heq.symm
  · exact fun _ heq => hnone i heq
  · exact fun hij heq => hne i j (fun hsame => hij (congrArg Fin.succ hsame)) heq

omit [Inhabited β] in
theorem bucketPos_unique {m' mask p : Nat} (h : bucketPos m mask ≤ p ∧ p < bucketPos m mask + 4)
    (h' : bucketPos m' mask ≤ p ∧ p < bucketPos m' mask + 4) :
    bucketPos m mask = bucketPos m' mask := by
  rw [bucketPos_eq] at h h' ⊢
  rw [bucketPos_eq]
  omega

namespace Dict

/-- The indices of the first `n` slots stand in the new table, each in its bucket. -/
structure Moved (d : Dict β) (mask n : Nat) (puiMsgIdx : List Nat) : Prop where
  size : puiMsgIdx.length = (mask + 1) * 4
  from_old : ∀ p, puiMsgIdx.getD p 0 ≠ 0 → ∃ q < n, d.idx q = puiMsgIdx.getD p 0 ∧
    bucketPos (d.msg q) mask ≤ p ∧ p < bucketPos (d.msg q) mask + 4
  to_new : ∀ q < n, d.idx q ≠ 0 → ∃ p, puiMsgIdx.getD p 0 = d.idx q
  single : ∀ p p', puiMsgIdx.getD p 0 ≠ 0 → puiMsgIdx.getD p 0 = puiMsgIdx.getD p' 0 → p = p'

def reinsertSlot (d : Dict β) (mask : Nat) (puiMsgIdx : List Nat) (n : Nat) : Option (List Nat) :=
  if d.idx n = 0 then some puiMsgIdx
  else
    (scan (fun p => puiMsgIdx.getD p 0 == 0) (bucketPos (d.msg n) mask) bucketSize).map
      fun p => puiMsgIdx.set p (d.idx n)

section Reinsert

variable {d : Dict β} (h : d.Sound) {mask : Nat}

theorem moved_init : Moved d mask 0 (replicate ((mask + 1) <<< bucketBits) 0) := by
  have hzero : ∀ p, (replicate ((mask + 1) <<< bucketBits) 0).getD p 0 = 0 := by
    intro p
    simp only [List.getD, List.getElem?_replicate]
    split_ifs <;> rfl
  refine ⟨?_, fun p hp => absurd (hzero p) hp, fun q hq => absurd hq (Nat.not_lt_zero q),
    fun p p' hp => absurd (hzero p) hp⟩
  rw [length_replicate, Nat.shiftLeft_eq]
  rfl

include h

theorem Moved.step {table' : List Nat} (hmoved : Moved d mask n table)
    (hstep : d.reinsertSlot mask table n = some table') : Moved d mask (n + 1) table' := by
  obtain ⟨hsize, hfrom, hto, hsingle⟩ := hmoved
  unfold reinsertSlot at hstep
  split_ifs at hstep with hunused
  · obtain rfl := some.inj hstep
    refine ⟨hsize, fun p hp => ?_, fun q hq hused => ?_, hsingle⟩
    · obtain ⟨q, hq, hrest⟩ := hfrom p hp
      exact ⟨q, by omega, hrest⟩
    · rcases Nat.lt_succ_iff_lt_or_eq.mp hq with hlt | rfl
      · exact hto q hlt hused
      · exact absurd hunused hused
  · obtain ⟨p₀, hscan, rfl⟩ := map_eq_some_iff.mp hstep
    obtain ⟨hle, hlt, hfree, -⟩ := scan_eq_some_iff.mp hscan
    have hfree : table.getD p₀ 0 = 0 := beq_iff_eq.mp hfree
    have hlt : p₀ < bucketPos (d.msg n) mask + 4 := hlt
    have hbound := bucketPos_le (d.msg n) mask
    have hset : ∀ q, (table.set p₀ (d.idx n)).getD q 0 =
        if q = p₀ then d.idx n else table.getD q 0 :=
      fun q => idx_set (d := { d with puiMsgIdx := table }) (by dsimp only; omega)
    -- the index of a slot belongs to its message alone
    have hold : ∀ p, table.getD p 0 ≠ 0 → table.getD p 0 ≠ d.idx n := by
      intro p hp heq
      obtain ⟨q, hq, hidx, -⟩ := hfrom p hp
      have hmsg : d.msg q = d.msg n := by unfold msg; rw [hidx, heq]
      have := h.single q n (by rw [hidx]; exact hp) hunused hmsg
      omega
    refine ⟨by rw [length_set, hsize], fun p hp => ?_, fun q hq hused => ?_, ?_⟩
    · rw [hset] at hp ⊢
      split_ifs at hp ⊢ with heq
      · subst heq
        exact ⟨n, Nat.lt_succ_self n, rfl, hle, hlt⟩
      · obtain ⟨q, hq, hrest⟩ := hfrom p hp
        exact ⟨q, by omega, hrest⟩
    · rcases Nat.lt_succ_iff_lt_or_eq.mp hq with hlt' | rfl
      · obtain ⟨p, hp⟩ := hto q hlt' hused
        refine ⟨p, ?_⟩
        rw [hset, if_neg, hp]
        rintro rfl
        exact hused (hp ▸ hfree)
      · exact ⟨p₀, by rw [hset, if_pos rfl]⟩
    · intro p p' hp heq
      rw [hset, hset] at heq
      rw [hset] at hp
      split_ifs at heq hp with hp₀ hp₀' hp₀'
      · rw [hp₀, hp₀']
      · exact absurd heq.symm (hold p' (by rw [← heq]; exact hp))
      · exact absurd heq (hold p hp)
      · exact hsingle p p' hp heq

theorem Moved.step_some (hmask : mask + 1 = 2 ^ 14) (hmoved : Moved d mask n table) :
    ∃ table', d.reinsertSlot mask table n = some table' := by
  unfold reinsertSlot
  split_ifs with hunused
  · exact ⟨table, rfl⟩
  rcases hscan : scan (fun p => table.getD p 0 == 0) (bucketPos (d.msg n) mask)
    bucketSize with _ | p
  · have hfull := scan_eq_none_iff.mp hscan
    have hused : ∀ i : Fin 4, table.getD (bucketPos (d.msg n) mask + i) 0 ≠ 0 := by
      intro i hzero
      have := hfull (bucketPos (d.msg n) mask + i) (Nat.le_add_right _ _)
        (Nat.add_lt_add_left i.isLt _)
      rw [hzero] at this
      exact absurd this (by decide)
    choose q hq hidx hbucket using fun i : Fin 4 => hmoved.from_old _ (hused i)
    have hqused : ∀ i, d.idx (q i) ≠ 0 := fun i => by rw [hidx i]; exact hused i
    obtain ⟨i, hsame⟩ := fifth_in_bucket hmask (h.isMsg n hunused) (fun i => d.msg (q i))
      (fun i => h.isMsg _ (hqused i))
      (fun i j hne hsame => by
        have hslot := h.single _ _ (hqused i) (hqused j) hsame
        have hidx' := hidx j
        rw [← hslot, hidx i] at hidx'
        have hpos := hmoved.single _ _ (hused i) hidx'
        exact hne (Fin.ext (by omega)))
      (fun i => bucketPos_unique (hbucket i) ⟨by omega, by omega⟩)
    have hslot := h.single _ _ (hqused i) hunused hsame
    have hlt := hq i
    omega
  · exact ⟨_, rfl⟩

theorem reinsert_moved (hdone : d.reinsert mask = some table) :
    Moved d mask ((d.uiHashKey + 1) <<< bucketBits) table := by
  have hall : ∀ n table, (range n).foldlM (d.reinsertSlot mask)
      (replicate ((mask + 1) <<< bucketBits) 0) = some table → Moved d mask n table := by
    intro n
    induction n with
    | zero =>
      intro table hnone
      obtain rfl := some.inj hnone
      exact moved_init
    | succ n ih =>
      intro table hfold
      rw [range_succ, foldlM_append] at hfold
      obtain ⟨before, hbefore, hlast⟩ := bind_eq_some_iff.mp hfold
      obtain ⟨after, hafter, hend⟩ := bind_eq_some_iff.mp hlast
      obtain rfl := some.inj hend
      exact (ih before hbefore).step h hafter
  exact hall _ table hdone

theorem reinsert_some (hmask : mask + 1 = 2 ^ 14) : ∃ table, d.reinsert mask = some table := by
  have hall : ∀ n, ∃ table, (range n).foldlM (d.reinsertSlot mask)
      (replicate ((mask + 1) <<< bucketBits) 0) = some table ∧ Moved d mask n table := by
    intro n
    induction n with
    | zero => exact ⟨_, rfl, moved_init⟩
    | succ n ih =>
      obtain ⟨before, hbefore, hmoved⟩ := ih
      obtain ⟨after, hafter⟩ := hmoved.step_some h hmask
      refine ⟨after, ?_, hmoved.step h hafter⟩
      rw [range_succ, foldlM_append, hbefore]
      simp [hafter]
  obtain ⟨table, hdone, -⟩ := hall ((d.uiHashKey + 1) <<< bucketBits)
  exact ⟨table, hdone⟩

theorem Moved.widened (hmoved : Moved d mask ((d.uiHashKey + 1) <<< bucketBits) table) (hk : k ≤ 14)
    (hmask : mask + 1 = 2 ^ k) :
    Sound { d with uiHashKey := mask, puiMsgIdx := table } ∧
      ∀ m x, Content { d with uiHashKey := mask, puiMsgIdx := table } m x ↔ d.Content m x := by
  obtain ⟨hsize, hfrom, hto, hsingle⟩ := hmoved
  have hidx : ∀ p, idx { d with uiHashKey := mask, puiMsgIdx := table } p = table.getD p 0 :=
    fun _ => rfl
  have hmethod : ∀ i, method { d with uiHashKey := mask, puiMsgIdx := table } i = d.method i :=
    fun _ => rfl
  have hmsg : ∀ p q, d.idx q = table.getD p 0 →
      msg { d with uiHashKey := mask, puiMsgIdx := table } p = d.msg q := by
    intro p q heq
    unfold msg
    rw [hidx, hmethod, heq]
  refine ⟨⟨⟨k, hk, hmask⟩, hsize, h.count, h.zero, fun p => ?_, fun p hp => ?_, fun p hp => ?_,
    fun p p' hp hp' heq => ?_⟩, fun m x => ⟨?_, ?_⟩⟩
  · rw [hidx]
    by_cases hp : table.getD p 0 = 0
    · rw [hp]
      exact Nat.lt_of_le_of_lt (Nat.zero_le _) (h.index_lt 0)
    · obtain ⟨q, -, heq, -⟩ := hfrom p hp
      rw [← heq]
      exact h.index_lt q
  · obtain ⟨q, -, heq, -⟩ := hfrom p hp
    rw [hmsg p q heq]
    exact h.isMsg q (by rw [heq]; exact hp)
  · obtain ⟨q, -, heq, hbucket⟩ := hfrom p hp
    rw [hmsg p q heq]
    exact hbucket
  · obtain ⟨q, -, hq, -⟩ := hfrom p hp
    obtain ⟨q', -, hq', -⟩ := hfrom p' hp'
    rw [hmsg p q hq, hmsg p' q' hq'] at heq
    have hslot := h.single q q' (by rw [hq]; exact hp) (by rw [hq']; exact hp') heq
    exact hsingle p p' hp (by rw [← hq, ← hq', hslot])
  · rintro ⟨p, hp, hx⟩
    obtain ⟨q, -, heq, -⟩ := hfrom p hp
    exact ⟨q, by rw [heq]; exact hp, by rw [heq]; exact hx⟩
  · rintro ⟨q, hq, hx⟩
    have hlt : q < (d.uiHashKey + 1) <<< bucketBits := by
      by_contra hge
      exact hq (idx_of_le (by rw [h.size]; unfold bucketBits at hge; omega))
    obtain ⟨p, hp⟩ := hto q hlt hq
    exact ⟨p, by rw [hidx, hp]; exact hq, by rw [hidx, hp]; exact hx⟩

end Reinsert

theorem dictRealloc_spec {d : Dict β} (h : d.Sound) (hk : k < 14) (hkey : d.uiHashKey + 1 = 2 ^ k) :
    ∃ d', d.dictRealloc = some d' ∧ d'.Sound ∧ (∀ m x, d'.Content m x ↔ d.Content m x) ∧
      d'.uiMethodCount = d.uiMethodCount ∧ d'.uiMethods = d.uiMethods := by
  have hall : ∀ n mask j, 14 - j = n → j < 14 → mask + 1 = 2 ^ j →
      ∃ d', d.dictReallocFrom mask = some d' ∧ d'.Sound ∧
        (∀ m x, d'.Content m x ↔ d.Content m x) ∧ d'.uiMethodCount = d.uiMethodCount ∧
        d'.uiMethods = d.uiMethods := by
    intro n
    induction n with
    | zero =>
      omega
    | succ n ih =>
      intro mask j hn hj hmask
      have hdouble : (mask + 1) <<< 1 = 2 ^ (j + 1) := by
        rw [Nat.shiftLeft_eq, hmask, Nat.pow_one, Nat.pow_succ]
      have hle : 2 ^ (j + 1) ≤ 2 ^ 14 := Nat.pow_le_pow_right (by decide) hj
      have hmask' : (mask + 1) <<< 1 - 1 + 1 = 2 ^ (j + 1) := by omega
      rw [dictReallocFrom]
      rw [if_neg (by rw [hdouble]; exact Nat.not_lt.mpr hle)]
      cases hdone : d.reinsert ((mask + 1) <<< 1 - 1) with
      | some table =>
        obtain ⟨hsound, hcontent⟩ := (reinsert_moved h hdone).widened h hj hmask'
        exact ⟨_, rfl, hsound, hcontent, rfl, rfl⟩
      | none =>
        -- only the widest table is sure to have room
        have hlast : j + 1 ≠ 14 := by
          intro hlast
          rw [hlast] at hmask'
          obtain ⟨table, hsome⟩ := reinsert_some h hmask'
          rw [hdone] at hsome
          exact some_ne_none table hsome.symm
        exact ih _ (j + 1) (by omega) (by omega) hmask'
  exact hall (14 - k) d.uiHashKey k rfl hk hkey

end Dict

end Harbour.Vm.ClassDict
