import Harbour.Vm.GarbageMark
import Mathlib.Algebra.BigOperators.Group.Finset.Basic

/-!
Releasing references: counters stay exact, and what a set of memory that holds itself consists of
is not released.
-/

namespace Harbour.Vm.Garbage

open List Function

def holds (items : List Item) (r : Ref) : Nat := items.countP fun item => item.counted = some r

@[simp]
theorem holds_nil (r : Ref) : holds [] r = 0 := rfl

theorem holds_cons (item : Item) (items : List Item) (r : Ref) :
    holds (item :: items) r = holds items r + if item.counted = some r then 1 else 0 := by
  unfold holds
  rw [countP_cons]
  simp only [decide_eq_true_eq]

variable {r : Ref} {h : Heap}

theorem holds_pos {items : List Item} :
    0 < holds items r ↔ ∃ item ∈ items, item.counted = some r := by
  unfold holds
  rw [countP_pos_iff]
  simp only [decide_eq_true_eq]

variable {E K clearing clearing' : Ref → Prop} {b : Nat} {h' h'' : Heap} {item : Item}
  {list : List Nat} {live : Finset Ref} {n : Ref} {outer pending : Ref → Nat} {rest : List Item}
  {used : Used}

namespace Heap

def references (h : Heap) (r : Ref) : Nat := ∑ m ∈ h.live, holds (h.items m) r

/-- A block with the flag is not released when its counter drops to zero. -/
def Spared (h : Heap) (r : Ref) : Prop := ∃ b, r = .gc b ∧ (h.used b).delete = true

/-- Counters are exact, with `outer` references from elsewhere and `pending` ones that are being
released; only what is being cleared has none. -/
structure Balanced (h : Heap) (outer pending : Ref → Nat) (clearing : Ref → Prop) : Prop where
  closed : ∀ n ∈ h.live, ∀ item ∈ h.items n, ∀ r, item.counted = some r → r ∈ h.live
  pending_live : ∀ r, 0 < pending r → r ∈ h.live
  counter : ∀ r ∈ h.live, h.counter r = h.references r + outer r + pending r
  settled : ∀ r ∈ h.live, h.counter r = 0 → h.Spared r ∨ clearing r
  nodup : (h.currBlock ++ h.lockedBlock).Nodup
  unlocked : ∀ b ∈ h.currBlock, h.locked b = 0
  locked : ∀ b ∈ h.lockedBlock, h.locked b ≠ 0

/-- Memory of a set that holds itself: each is referenced from elsewhere or from the set. -/
def Grounded (h : Heap) (outer : Ref → Nat) (K : Ref → Prop) : Prop :=
  ∀ r, K r → r ∈ h.live ∧ (0 < outer r ∨ ∃ m, K m ∧ ∃ item ∈ h.items m, item.counted = some r)

/-- What releasing references does to the heap, apart from the contents and the flags of `E`. -/
structure Released (E : Ref → Prop) (h h' : Heap) : Prop where
  live : h'.live ⊆ h.live
  items : ∀ r ∈ h'.live, ¬ E r → h'.items r = h.items r
  used : ∀ b, .gc b ∈ h'.live → ¬ E (.gc b) → h'.used b = h.used b
  spared : ∀ r ∈ h'.live, h.Spared r → h'.Spared r
  counter : ∀ r, h'.counter r ≤ h.counter r
  freed : ∀ r ∈ h.live, r ∉ h'.live → 0 < h.counter r ∧ ¬ h.Spared r
  currBlock : h'.currBlock = h.currBlock.filter fun b => .gc b ∈ h'.live ∨ .gc b ∉ h.live
  lockedBlock : h'.lockedBlock = h.lockedBlock.filter fun b => .gc b ∈ h'.live ∨ .gc b ∉ h.live
  locked : h'.locked = h.locked
  deletedBlock : h'.deletedBlock = h.deletedBlock
  usedFlag : h'.usedFlag = h.usedFlag
  roots : h'.roots = h.roots
  errors : h'.errors = h.errors

theorem filter_filter_live {l l' l'' : Finset Ref} (h : l' ⊆ l) (h' : l'' ⊆ l') :
    (list.filter fun b => decide (.gc b ∈ l' ∨ .gc b ∉ l)).filter
        (fun b => decide (.gc b ∈ l'' ∨ .gc b ∉ l')) =
      list.filter fun b => decide (.gc b ∈ l'' ∨ .gc b ∉ l) := by
  rw [filter_filter]
  refine filter_congr fun _ _ => ?_
  rw [← Bool.decide_and, decide_eq_decide]
  constructor
  · rintro ⟨hlast | hnot, hfirst⟩
    · exact .inl hlast
    · exact .inr (hfirst.resolve_left hnot)
  · rintro (hlast | hnot)
    · exact ⟨.inl hlast, .inl (h' hlast)⟩
    · exact ⟨.inr fun hmem => hnot (h hmem), .inr hnot⟩

theorem filter_live_self (list : List Nat) (l : Finset Ref) :
    list.filter (fun b => decide (.gc b ∈ l ∨ .gc b ∉ l)) = list :=
  filter_eq_self.mpr fun _ _ => decide_eq_true (em _)

theorem Released.refl (E : Ref → Prop) (h : Heap) : Released E h h where
  live := Finset.Subset.refl _
  items _ _ _ := rfl
  used _ _ _ := rfl
  spared _ _ hspared := hspared
  counter _ := Nat.le_refl _
  freed _ hr hnot := absurd hr hnot
  currBlock := (filter_live_self _ _).symm
  lockedBlock := (filter_live_self _ _).symm
  locked := rfl
  deletedBlock := rfl
  usedFlag := rfl
  roots := rfl
  errors := rfl

theorem Released.trans (hr : Released E h h') (hr' : Released E h' h'') :
    Released E h h'' where
  live := hr'.live.trans hr.live
  items r hmem hnot := (hr'.items r hmem hnot).trans (hr.items r (hr'.live hmem) hnot)
  used b hmem hnot := (hr'.used b hmem hnot).trans (hr.used b (hr'.live hmem) hnot)
  spared r hmem hspared := hr'.spared r hmem (hr.spared r (hr'.live hmem) hspared)
  counter r := Nat.le_trans (hr'.counter r) (hr.counter r)
  freed r hmem hnot := by
    by_cases hmid : r ∈ h'.live
    · obtain ⟨hpos, hnotspared⟩ := hr'.freed r hmid hnot
      exact ⟨Nat.lt_of_lt_of_le hpos (hr.counter r), fun hspared =>
        hnotspared (hr.spared r hmid hspared)⟩
    · exact hr.freed r hmem hmid
  currBlock := by
    rw [hr'.currBlock, hr.currBlock]
    exact filter_filter_live hr.live hr'.live
  lockedBlock := by
    rw [hr'.lockedBlock, hr.lockedBlock]
    exact filter_filter_live hr.live hr'.live
  locked := hr'.locked.trans hr.locked
  deletedBlock := hr'.deletedBlock.trans hr.deletedBlock
  usedFlag := hr'.usedFlag.trans hr.usedFlag
  roots := hr'.roots.trans hr.roots
  errors := hr'.errors.trans hr.errors

theorem Released.mono (E' : Ref → Prop) (hr : Released E h h') (hE : ∀ r, E r → E' r) :
    Released E' h h' :=
  { hr with
    items := fun r hmem hnot => hr.items r hmem fun he => hnot (hE r he)
    used := fun b hmem hnot => hr.used b hmem fun he => hnot (hE _ he) }

theorem references_erase (hr : r ∈ h.live) (n : Ref) :
    h.references n = holds (h.items r) n + ∑ m ∈ h.live.erase r, holds (h.items m) n :=
  (Finset.add_sum_erase h.live (fun m => holds (h.items m) n) hr).symm

theorem references_pop (hr : r ∈ h.live) (hitems : h.items r = item :: rest) (n : Ref) :
    h.references n = (h.pop r).references n + if item.counted = some n then 1 else 0 := by
  have hlive : r ∈ (h.pop r).live := hr
  have hself : (h.pop r).items r = rest := by
    unfold pop
    dsimp only
    rw [update_self, hitems, tail_cons]
  have hothers : ∑ m ∈ h.live.erase r, holds (h.items m) n =
      ∑ m ∈ (h.pop r).live.erase r, holds ((h.pop r).items m) n := by
    refine Finset.sum_congr rfl fun m hm => ?_
    unfold pop
    dsimp only
    rw [update_of_ne (Finset.ne_of_mem_erase hm)]
  rw [references_erase hr, references_erase hlive, hself, hothers, hitems, holds_cons]
  omega

theorem references_pos :
    0 < h.references n ↔ ∃ m ∈ h.live, ∃ item ∈ h.items m, item.counted = some n := by
  unfold references
  constructor
  · intro hpos
    obtain ⟨m, hm, hne⟩ := Finset.exists_ne_zero_of_sum_ne_zero (Nat.ne_of_gt hpos)
    exact ⟨m, hm, holds_pos.mp (Nat.pos_of_ne_zero hne)⟩
  · rintro ⟨m, hm, hitem⟩
    have hpos := holds_pos.mpr hitem
    have herase := references_erase hm n
    unfold references at herase
    omega

def plus (pending : Ref → Nat) (r n : Ref) : Nat := pending n + if n = r then 1 else 0

theorem Grounded.pos (hb : h.Balanced outer pending clearing) (hg : h.Grounded outer K) (hr : K r) :
    0 < h.counter r := by
  obtain ⟨hlive, hheld⟩ := hg r hr
  rw [hb.counter r hlive]
  rcases hheld with houter | ⟨m, hm, hitem⟩
  · omega
  · have hpos := references_pos.mpr ⟨m, (hg m hm).1, hitem⟩
    omega

theorem Grounded.released (hg : h.Grounded outer K) (hr : Released E h h') (hE : ∀ r, K r → ¬ E r)
    (hlive : ∀ r, K r → r ∈ h'.live) : h'.Grounded outer K := by
  intro r hK
  refine ⟨hlive r hK, ?_⟩
  rcases (hg r hK).2 with houter | ⟨m, hm, item, hitem, hcounted⟩
  · exact .inl houter
  · exact .inr ⟨m, hm, item, by rw [hr.items m (hlive m hm) (hE m hm)]; exact hitem, hcounted⟩

theorem Balanced.pop (hb : h.Balanced outer pending clearing) (hr : r ∈ h.live)
    (hitems : h.items r = item :: rest) :
    (h.pop r).Balanced outer
      (match item.counted with
        | some r' => plus pending r'
        | none => pending) clearing := by
  have hsub : ∀ n, ∀ x ∈ (h.pop r).items n, x ∈ h.items n := by
    intro n x hx
    unfold Heap.pop at hx
    dsimp only at hx
    by_cases hn : n = r
    · subst hn
      rw [update_self] at hx
      exact mem_of_mem_tail hx
    · rw [update_of_ne hn] at hx
      exact hx
  refine ⟨fun n hn x hx => hb.closed n hn x (hsub n x hx), fun n hn => ?_, fun n hn => ?_,
    hb.settled, hb.nodup, hb.unlocked, hb.locked⟩
  · cases hcounted : item.counted with
    | none =>
      rw [hcounted] at hn
      exact hb.pending_live n hn
    | some r' =>
      rw [hcounted] at hn
      dsimp only [plus] at hn
      split_ifs at hn with heq
      · exact hb.closed r hr item (by rw [hitems]; exact mem_cons_self) n
          (by rw [heq]; exact hcounted)
      · exact hb.pending_live n (by omega)
  · have hcounter := hb.counter n hn
    rw [references_pop hr hitems n] at hcounter
    change h.counter n = _
    rw [hcounter]
    cases hcounted : item.counted with
    | none => simp
    | some r' =>
      dsimp only [plus]
      by_cases heq : n = r'
      · rw [if_pos heq, if_pos (congrArg some heq.symm)]
        omega
      · rw [if_neg heq, if_neg fun hsome => heq (Option.some.inj hsome).symm]
        omega

theorem Released.pop (h : Heap) (r : Ref) : Released (fun n => n = r) h (h.pop r) :=
  { Released.refl (fun n => n = r) h with
    items := fun _ _ hne => update_of_ne hne _ _ }

/-- A reference released does not touch what is not released with it. -/
structure Done (h h' : Heap) (outer pending : Ref → Nat) (clearing : Ref → Prop) : Prop where
  released : Released (fun _ => False) h h'
  balanced : h'.Balanced outer pending clearing
  grounded : ∀ K, h.Grounded outer K → ∀ r, K r → r ∈ h'.live

def positive (h : Heap) : Finset Ref := h.live.filter fun r => 0 < h.counter r

theorem positive_subset (hr : Released E h h') :
    h'.positive ⊆ h.positive := by
  intro r hmem
  obtain ⟨hlive, hpos⟩ := Finset.mem_filter.mp hmem
  exact Finset.mem_filter.mpr ⟨hr.live hlive, Nat.lt_of_lt_of_le hpos (hr.counter r)⟩

def Releases (release : Heap → Ref → Heap) (fuel : Nat) : Prop :=
  ∀ (h : Heap) (outer pending : Ref → Nat) (clearing : Ref → Prop) (r : Ref),
    h.Balanced outer (plus pending r) clearing → r ∈ h.live → h.positive.card < fuel →
    Done h (release h r) outer pending clearing

/-- The items of the memory are set to NIL, and the memory is still there. -/
structure Cleared (h h' : Heap) (outer pending : Ref → Nat) (clearing : Ref → Prop) (r : Ref) :
    Prop where
  released : Released (fun n => n = r) h h'
  balanced : h'.Balanced outer pending clearing
  empty : h'.items r = []
  live : r ∈ h'.live
  grounded : ∀ K, h.Grounded outer K → ¬ K r → ∀ n, K n → n ∈ h'.live

theorem clearWith_spec {release : Heap → Ref → Heap} {fuel : Nat} (hrelease : Releases release fuel)
    (hb : h.Balanced outer pending clearing) (hr : r ∈ h.live)
    (hfixed : h.counter r = 0 ∨ h.Spared r) (hfuel : h.positive.card < fuel) :
    Cleared h (clearWith release h r) outer pending clearing r := by
  unfold clearWith
  generalize hitems : h.items r = items
  induction items generalizing h with
  | nil =>
    exact ⟨.refl _ h, hb, hitems, hr, fun K hg _ n hn => (hg n hn).1⟩
  | cons item rest ih =>
    rw [foldl_cons]
    have hpop := hb.pop hr hitems
    have hrest : (h.pop r).items r = rest := by
      unfold Heap.pop
      dsimp only
      rw [update_self, hitems, tail_cons]
    cases hcounted : item.counted with
    | none =>
      rw [hcounted] at hpop
      obtain ⟨hreleased, hbalanced, hempty, hlive, hground⟩ :=
        ih hpop hr hfixed hfuel hrest
      refine ⟨(Released.pop h r).trans hreleased, hbalanced, hempty, hlive,
        fun K hg hK n hn => ?_⟩
      refine hground K (hg.released (Released.pop h r) (fun m hm heq => hK (heq ▸ hm))
        fun m hm => (hg m hm).1) hK n hn
    | some r' =>
      rw [hcounted] at hpop
      have hr' : r' ∈ h.live :=
        hb.closed r hr item (by rw [hitems]; exact mem_cons_self) r' hcounted
      have hdone := hrelease (h.pop r) outer pending clearing r' hpop hr' hfuel
      have hrlive : r ∈ (release (h.pop r) r').live := by
        by_contra hnot
        obtain ⟨hpos, hspared⟩ := hdone.released.freed r hr hnot
        rcases hfixed with hzero | hdelete
        · exact absurd hzero (Nat.ne_of_gt hpos)
        · exact hspared hdelete
      have hfixed' : (release (h.pop r) r').counter r = 0 ∨ (release (h.pop r) r').Spared r := by
        rcases hfixed with hzero | hspared
        · exact .inl (Nat.le_zero.mp (hzero ▸ hdone.released.counter r))
        · exact .inr (hdone.released.spared r hrlive hspared)
      have hfuel' : (release (h.pop r) r').positive.card < fuel :=
        Nat.lt_of_le_of_lt (Finset.card_le_card (positive_subset hdone.released)) hfuel
      have hrest' : (release (h.pop r) r').items r = rest := by
        rw [hdone.released.items r hrlive (fun hfalse => hfalse), hrest]
      obtain ⟨hreleased, hbalanced, hempty, hlive, hground⟩ :=
        ih hdone.balanced hrlive hfixed' hfuel' hrest'
      have hstep := (Released.pop h r).trans
        (hdone.released.mono (fun n => n = r) fun _ hfalse => hfalse.elim)
      refine ⟨hstep.trans hreleased, hbalanced, hempty, hlive, fun K hg hK n hn => ?_⟩
      have hgpop : (h.pop r).Grounded outer K := hg.released (Released.pop h r)
        (fun m hm heq => hK (heq ▸ hm)) fun m hm => (hg m hm).1
      exact hground K (hg.released hstep (fun m hm heq => hK (heq ▸ hm))
        (hdone.grounded K hgpop)) hK n hn

structure Frees (h h' : Heap) (r : Ref) : Prop where
  live : h'.live = h.live.erase r
  items : h'.items = h.items
  used : h'.used = h.used
  counter : h'.counter = h.counter
  currBlock : h'.currBlock = h.currBlock.filter fun b => .gc b ∈ h'.live ∨ .gc b ∉ h.live
  lockedBlock : h'.lockedBlock = h.lockedBlock.filter fun b => .gc b ∈ h'.live ∨ .gc b ∉ h.live
  locked : h'.locked = h.locked
  deletedBlock : h'.deletedBlock = h.deletedBlock
  usedFlag : h'.usedFlag = h.usedFlag
  roots : h'.roots = h.roots
  errors : h'.errors = h.errors

theorem eq_filter_live (hkept : ∀ b ∈ list, .gc b ≠ r) :
    list = list.filter fun b => .gc b ∈ live.erase r ∨ .gc b ∉ live := by
  refine (filter_eq_self.mpr fun b hb => decide_eq_true ?_).symm
  rw [Finset.mem_erase]
  by_cases hmem : .gc b ∈ live
  · exact .inl ⟨hkept b hb, hmem⟩
  · exact .inr hmem

theorem memFree_frees (h : Heap) (c : Nat) : h.Frees (h.memFree c) (.mem c) := by
  have hkept : ∀ list : List Nat, ∀ b ∈ list, Ref.gc b ≠ .mem c := fun _ _ _ => Ref.noConfusion
  exact ⟨rfl, rfl, rfl, rfl, eq_filter_live (hkept _), eq_filter_live (hkept _), rfl, rfl, rfl,
    rfl, rfl⟩

theorem erase_eq_filter_live (hnodup : list.Nodup) (hlive : .gc b ∈ live) :
    list.erase b = list.filter fun b' => .gc b' ∈ live.erase (.gc b) ∨ .gc b' ∉ live := by
  rw [hnodup.erase_eq_filter]
  refine filter_congr fun b' _ => ?_
  rw [Bool.eq_iff_iff, bne_iff_ne, decide_eq_true_iff, Finset.mem_erase]
  constructor
  · intro hne
    by_cases hmem : .gc b' ∈ live
    · exact .inl ⟨fun heq => hne (Ref.gc.inj heq), hmem⟩
    · exact .inr hmem
  · rintro (⟨hne, -⟩ | hnot) heq
    · exact hne (congrArg Ref.gc heq)
    · exact hnot (heq ▸ hlive)

theorem gcFree_frees (hb : h.Balanced outer pending clearing) (hlive : .gc b ∈ h.live) :
    h.Frees (h.gcFree b) (.gc b) := by
  have hnodup := nodup_append.mp hb.nodup
  refine ⟨rfl, rfl, rfl, rfl, ?_, ?_, rfl, rfl, rfl, rfl, rfl⟩
  · change (if h.locked b ≠ 0 then h.currBlock else h.currBlock.erase b) = _
    split_ifs with hlocked
    · exact eq_filter_live fun b' hmem heq => hlocked (Ref.gc.inj heq ▸ hb.unlocked b' hmem)
    · exact erase_eq_filter_live hnodup.1 hlive
  · change (if h.locked b ≠ 0 then h.lockedBlock.erase b else h.lockedBlock) = _
    split_ifs with hlocked
    · exact erase_eq_filter_live hnodup.2.1 hlive
    · exact eq_filter_live fun b' hmem heq => hlocked (Ref.gc.inj heq ▸ hb.locked b' hmem)

theorem Released.free (hr : Released (fun n => n = r) h h') (hfree : h'.Frees h'' r)
    (hpos : 0 < h.counter r) (hspared : ¬ h.Spared r) :
    Released (fun _ => False) h h'' := by
  have hmem : ∀ n, n ∈ h''.live ↔ n ≠ r ∧ n ∈ h'.live := by
    intro n
    rw [hfree.live, Finset.mem_erase]
  have hsub : h''.live ⊆ h'.live := fun n hn => ((hmem n).mp hn).2
  refine ⟨hsub.trans hr.live, fun n hn _ => ?_, fun b hb _ => ?_, fun n hn hsp => ?_, fun n => ?_,
    fun n hn hnot => ?_, ?_, ?_, hfree.locked.trans hr.locked,
    hfree.deletedBlock.trans hr.deletedBlock, hfree.usedFlag.trans hr.usedFlag,
    hfree.roots.trans hr.roots, hfree.errors.trans hr.errors⟩
  · rw [hfree.items]
    exact hr.items n (hsub hn) ((hmem n).mp hn).1
  · rw [hfree.used]
    exact hr.used b (hsub hb) ((hmem _).mp hb).1
  · obtain ⟨b, rfl, hdelete⟩ := hr.spared n (hsub hn) hsp
    exact ⟨b, rfl, by rw [hfree.used]; exact hdelete⟩
  · rw [hfree.counter]
    exact hr.counter n
  · by_cases heq : n = r
    · subst heq
      exact ⟨hpos, hspared⟩
    · exact hr.freed n hn fun hlive => hnot ((hmem n).mpr ⟨heq, hlive⟩)
  · rw [hfree.currBlock, hr.currBlock]
    exact filter_filter_live hr.live hsub
  · rw [hfree.lockedBlock, hr.lockedBlock]
    exact filter_filter_live hr.live hsub

theorem Balanced.free (hb : h.Balanced outer pending clearing) (hr : r ∈ h.live)
    (hfree : h.Frees h' r) (hempty : h.items r = []) (hzero : h.counter r = 0) :
    h'.Balanced outer pending clearing := by
  have hcount := hb.counter r hr
  have hnone : ∀ m ∈ h.live, ∀ item ∈ h.items m, item.counted ≠ some r := by
    intro m hm item hitem hcounted
    have hpos := references_pos.mpr ⟨m, hm, item, hitem, hcounted⟩
    omega
  have hrefs : ∀ n, h'.references n = h.references n := by
    intro n
    rw [references_erase hr, hempty, holds_nil, Nat.zero_add]
    unfold references
    rw [hfree.live, hfree.items]
  have hsub : ∀ n, n ∈ h'.live → n ≠ r ∧ n ∈ h.live := by
    intro n hn
    rw [hfree.live] at hn
    exact Finset.mem_erase.mp hn
  have hcurr : ∀ b ∈ h'.currBlock, b ∈ h.currBlock := by
    intro b hmem
    rw [hfree.currBlock] at hmem
    exact mem_of_mem_filter hmem
  have hlocked : ∀ b ∈ h'.lockedBlock, b ∈ h.lockedBlock := by
    intro b hmem
    rw [hfree.lockedBlock] at hmem
    exact mem_of_mem_filter hmem
  refine ⟨fun n hn item hitem r' hcounted => ?_, fun n hn => ?_, fun n hn => ?_, fun n hn hz => ?_,
    ?_, fun b hmem => ?_, fun b hmem => ?_⟩
  · rw [hfree.items] at hitem
    have hr' := hb.closed n (hsub n hn).2 item hitem r' hcounted
    rw [hfree.live]
    refine Finset.mem_erase.mpr ⟨fun heq => ?_, hr'⟩
    exact hnone n (hsub n hn).2 item hitem (heq ▸ hcounted)
  · rw [hfree.live]
    refine Finset.mem_erase.mpr ⟨fun heq => ?_, hb.pending_live n hn⟩
    subst heq
    omega
  · rw [hfree.counter, hrefs]
    exact hb.counter n (hsub n hn).2
  · rw [hfree.counter] at hz
    rcases hb.settled n (hsub n hn).2 hz with ⟨b, rfl, hdelete⟩ | hclearing
    · exact .inl ⟨b, rfl, by rw [hfree.used]; exact hdelete⟩
    · exact .inr hclearing
  · rw [hfree.currBlock, hfree.lockedBlock]
    exact hb.nodup.sublist (filter_sublist.append filter_sublist)
  · rw [hfree.locked]
    exact hb.unlocked b (hcurr b hmem)
  · rw [hfree.locked]
    exact hb.locked b (hlocked b hmem)

@[simp]
theorem plus_self (pending : Ref → Nat) (r : Ref) : plus pending r r = pending r + 1 := by
  unfold plus
  rw [if_pos rfl]

theorem plus_of_ne (pending : Ref → Nat) (hne : n ≠ r) :
    plus pending r n = pending n := by
  unfold plus
  rw [if_neg hne, Nat.add_zero]

theorem refDec_counter_of_ne (h : Heap) (hne : n ≠ r) :
    (h.refDec r).counter n = h.counter n :=
  update_of_ne hne _ _

theorem refDec_counter_self (h : Heap) (r : Ref) : (h.refDec r).counter r = h.counter r - 1 :=
  update_self ..

theorem refDec_released (E : Ref → Prop) (h : Heap) (r : Ref) : Released E h (h.refDec r) :=
  { Released.refl E h with
    counter := fun n => by
      by_cases heq : n = r
      · rw [heq, refDec_counter_self]
        exact Nat.sub_le _ 1
      · rw [refDec_counter_of_ne h heq] }

theorem Balanced.refDec (hb : h.Balanced outer (plus pending r) clearing)
    (hsettled : h.counter r ≠ 1 ∨ h.Spared r ∨ clearing r) :
    (h.refDec r).Balanced outer pending clearing := by
  refine ⟨hb.closed, fun n hn => hb.pending_live n ?_, fun n hn => ?_, fun n hn hz => ?_, hb.nodup,
    hb.unlocked, hb.locked⟩
  · unfold plus
    omega
  · have hcounter := hb.counter n hn
    change (h.refDec r).counter n = h.references n + outer n + pending n
    by_cases heq : n = r
    · subst heq
      rw [plus_self] at hcounter
      rw [refDec_counter_self]
      omega
    · rw [plus_of_ne pending heq] at hcounter
      rw [refDec_counter_of_ne h heq, hcounter]
  · by_cases heq : n = r
    · subst heq
      have hcounter := hb.counter n hn
      rw [plus_self] at hcounter
      rw [refDec_counter_self] at hz
      exact hsettled.resolve_left (by omega)
    · rw [refDec_counter_of_ne h heq] at hz
      exact hb.settled n hn hz

theorem Balanced.setUsed (hb : h.Balanced outer pending fun n => clearing n ∨ n = .gc b)
    (hdelete : used.delete = true) : (h.setUsed b used).Balanced outer pending clearing := by
  refine ⟨hb.closed, hb.pending_live, hb.counter, fun n hn hz => ?_, hb.nodup, hb.unlocked,
    hb.locked⟩
  have hself : (h.setUsed b used).Spared (.gc b) :=
    ⟨b, rfl, by
      change (update h.used b used b).delete = true
      rw [update_self]
      exact hdelete⟩
  rcases hb.settled n hn hz with ⟨b', rfl, hdelete'⟩ | hclearing | rfl
  · by_cases heq : b' = b
    · rw [heq]
      exact .inl hself
    · refine .inl ⟨b', rfl, ?_⟩
      change (update h.used b used b').delete = true
      rw [update_of_ne heq]
      exact hdelete'
  · exact .inr hclearing
  · exact .inl hself

theorem setUsed_released (h : Heap) (b : Nat) (hdelete : used.delete = true) :
    Released (fun n => n = .gc b) h (h.setUsed b used) :=
  { Released.refl (fun n => n = .gc b) h with
    used := fun b' _ hne => update_of_ne (fun heq => hne (congrArg Ref.gc heq)) _ _
    spared := fun n _ hspared => by
      obtain ⟨b', rfl, hdelete'⟩ := hspared
      refine ⟨b', rfl, ?_⟩
      change (update h.used b used b').delete = true
      by_cases heq : b' = b
      · rw [heq, update_self]
        exact hdelete
      · rw [update_of_ne heq]
        exact hdelete' }

theorem Balanced.mono (hb : h.Balanced outer pending clearing)
    (hsettled : ∀ r ∈ h.live, clearing r → h.counter r = 0 → h.Spared r ∨ clearing' r) :
    h.Balanced outer pending clearing' :=
  { hb with
    settled := fun r hr hz =>
      (hb.settled r hr hz).elim .inl fun hclearing => hsettled r hr hclearing hz }

theorem positive_card_lt (hr : Released E h h') (hlive : r ∈ h.live) (hpos : 0 < h.counter r)
    (hzero : h'.counter r = 0) :
    h'.positive.card < h.positive.card := by
  refine Finset.card_lt_card (Finset.ssubset_iff_subset_ne.mpr ⟨positive_subset hr, fun heq => ?_⟩)
  have hmem : r ∈ h.positive := Finset.mem_filter.mpr ⟨hlive, hpos⟩
  rw [← heq] at hmem
  have hpos' := (Finset.mem_filter.mp hmem).2
  omega

theorem Cleared.done {h₁ : Heap} (hc : Cleared h' h'' outer pending clearing' r)
    (hb : h.Balanced outer (plus pending r) clearing) (hlive : r ∈ h.live) (hone : h.counter r = 1)
    (hspared : ¬ h.Spared r) (hstart : Released (fun n => n = r) h h') (hmem : h'.live = h.live)
    (hitems : h'.items = h.items) (hzero : h'.counter r = 0) (hfree : h''.Frees h₁ r)
    (hclearing : ∀ n, clearing' n → n ≠ r → clearing n) : Done h h₁ outer pending clearing := by
  have hzero' : h''.counter r = 0 := Nat.le_zero.mp (hzero ▸ hc.released.counter r)
  have hgone : ∀ n ∈ h₁.live, n ≠ r := by
    intro n hn
    rw [hfree.live] at hn
    exact Finset.ne_of_mem_erase hn
  refine ⟨(hstart.trans hc.released).free hfree (by omega) hspared,
    (hc.balanced.free hc.live hfree hc.empty hzero').mono fun n hn hcl _ =>
      .inr (hclearing n hcl (hgone n hn)), fun K hg n hn => ?_⟩
  -- memory whose only reference is the one released does not hold itself
  have hnot : ¬ K r := by
    intro hK
    have hcounter := hb.counter r hlive
    rw [plus_self] at hcounter
    rcases (hg r hK).2 with houter | ⟨m, hm, hitem⟩
    · omega
    · have hpos := references_pos.mpr ⟨m, (hg m hm).1, hitem⟩
      omega
  have hground : h'.Grounded outer K := by
    unfold Grounded
    rw [hmem, hitems]
    exact hg
  rw [hfree.live]
  exact Finset.mem_erase.mpr ⟨fun heq => hnot (heq ▸ hn), hc.grounded K hground hnot n hn⟩

theorem not_spared_gc (hdelete : (h.used b).delete ≠ true) :
    ¬ h.Spared (.gc b) := by
  rintro ⟨b', heq, hdelete'⟩
  exact hdelete (Ref.gc.inj heq ▸ hdelete')

theorem not_spared_mem {c : Nat} : ¬ h.Spared (.mem c) := by
  rintro ⟨b, heq, -⟩
  exact Ref.noConfusion heq

theorem Done.refDec (hb : h.Balanced outer (plus pending r) clearing) (hlive : r ∈ h.live)
    (hsettled : (h.refDec r).counter r ≠ 0 ∨ h.Spared r) :
    Done h (h.refDec r) outer pending clearing := by
  rw [refDec_counter_self] at hsettled
  refine ⟨refDec_released _ h r, hb.refDec ?_, fun K hg n hn => (hg n hn).1⟩
  rcases hsettled with hne | hspared
  · exact .inl (by omega)
  · exact .inr (.inl hspared)

theorem refFree_releases (fuel : Nat) : Releases (refFree fuel) fuel := by
  induction fuel with
  | zero =>
    intro h outer pending clearing r hb hr hfuel
    exact absurd hfuel (Nat.not_lt_zero _)
  | succ fuel ih =>
    intro h outer pending clearing r hb hr hfuel
    have hcounter := hb.counter r hr
    rw [plus_self] at hcounter
    have hdec := refDec_counter_self h r
    cases r with
    | mem c =>
      unfold refFree
      by_cases hzero : (h.refDec (.mem c)).counter (.mem c) = 0
      · rw [if_neg (not_not.mpr hzero)]
        have hstart := refDec_released (fun n => n = .mem c) h (.mem c)
        have hb' : (h.refDec (.mem c)).Balanced outer pending
            fun n => clearing n ∨ n = .mem c :=
          Balanced.refDec (hb.mono fun _ _ hcl _ => .inr (.inl hcl)) (.inr (.inr (.inr rfl)))
        have hcard := positive_card_lt hstart hr (by omega) hzero
        have hc := clearWith_spec ih hb' hr (.inl hzero) (by omega)
        exact hc.done hb hr (by omega) not_spared_mem hstart rfl rfl hzero
          (memFree_frees _ c) fun n hcl hne => hcl.resolve_right hne
      · rw [if_pos hzero]
        exact .refDec hb hr (.inl hzero)
    | gc b =>
      unfold refFree
      by_cases hkeep : (h.refDec (.gc b)).counter (.gc b) ≠ 0 ∨
          ((h.refDec (.gc b)).used b).delete = true
      · rw [if_pos hkeep]
        refine .refDec hb hr (hkeep.imp_right fun hdelete => ⟨b, rfl, hdelete⟩)
      · rw [if_neg hkeep]
        obtain ⟨hzero, hdelete⟩ := not_or.mp hkeep
        rw [not_not] at hzero
        generalize hused : ({ (h.refDec (.gc b)).used b with delete := true } : Used) = used
        have hused' : used.delete = true := by rw [← hused]
        have hstart := (refDec_released (fun n => n = .gc b) h (.gc b)).trans
          (setUsed_released (h.refDec (.gc b)) b hused')
        have hb' : ((h.refDec (.gc b)).setUsed b used).Balanced outer pending clearing :=
          Balanced.setUsed (Balanced.refDec (hb.mono fun _ _ hcl _ => .inr (.inl hcl))
            (.inr (.inr (.inr rfl)))) hused'
        have hcard := positive_card_lt hstart hr (by omega) hzero
        have hc := clearWith_spec ih hb' hr (.inl hzero) (by omega)
        have hzero' := Nat.le_zero.mp (hzero ▸ hc.released.counter (.gc b))
        rw [if_neg (not_not.mpr hzero')]
        exact hc.done hb hr (by omega) (not_spared_gc hdelete) hstart rfl rfl hzero
          (gcFree_frees hc.balanced hc.live) fun n hcl _ => hcl

end Heap

end Harbour.Vm.Garbage
