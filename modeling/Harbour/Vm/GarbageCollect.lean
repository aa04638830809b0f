import Mathlib.Data.List.Nodup
import Harbour.Vm.GarbageRelease
import Mathlib.Data.List.GetD
import Mathlib.Logic.Relation

/-!
Sweeping, and one collection: of the memory in use exactly what was alive is left, and the lists,
the flags and the counters are ready for the next one.
-/

namespace Harbour.Vm.Garbage

open List Function

variable {b fuel : Nat} {deleted kept todo : List Nat} {r : Ref}
  {result : List Nat × List Nat × (Nat → Used)} {used : Nat → Used} {usedFlag : Bool}

variable {D : List Nat} {bound : Nat} {depth : Item → Nat}

namespace Heap

/-- What the sweep leaves: the list without the blocks not in use, those on the list to delete,
and their flags. -/
structure Swept (usedFlag : Bool) (todo kept deleted : List Nat) (used : Nat → Used)
    (result : List Nat × List Nat × (Nat → Used)) : Prop where
  kept : result.1 = kept ++ todo.filter fun b => used b ≠ ⟨usedFlag, false, false⟩
  deleted : result.2.1 = deleted ++ todo.filter fun b => used b = ⟨usedFlag, false, false⟩
  used : ∀ b, result.2.2 b =
    if b ∈ todo ∧ used b = ⟨usedFlag, false, false⟩ then ⟨usedFlag, true, true⟩ else used b

theorem Swept.keep (hs : Swept usedFlag todo (kept ++ [b]) deleted used result)
    (hb : used b ≠ ⟨usedFlag, false, false⟩) :
    Swept usedFlag (b :: todo) kept deleted used result where
  kept := by
    rw [hs.kept, filter_cons, if_pos (decide_eq_true hb), append_assoc,
      singleton_append]
  deleted := by
    rw [hs.deleted, filter_cons, if_neg (decide_eq_true_iff.not.mpr hb)]
  used b' := by
    rw [hs.used]
    by_cases heq : b' = b
    · rw [heq, if_neg fun hand => hb hand.2, if_neg fun hand => hb hand.2]
    · simp only [mem_cons, heq, false_or]

theorem Swept.delete (hs : Swept usedFlag todo kept (deleted ++ [b])
      (update used b ⟨usedFlag, true, true⟩) result) (hb : used b = ⟨usedFlag, false, false⟩)
    (hnot : b ∉ todo) :
    Swept usedFlag (b :: todo) kept deleted used result := by
  have hsame : ∀ b' ∈ todo, update used b ⟨usedFlag, true, true⟩ b' = used b' :=
    fun b' hb' => update_of_ne (fun heq : b' = b => hnot (heq ▸ hb')) _ _
  refine ⟨?_, ?_, fun b' => ?_⟩
  · rw [hs.kept, filter_cons, if_neg (decide_eq_true_iff.not.mpr (not_not.mpr hb))]
    refine congrArg (kept ++ ·) (filter_congr fun b' hb' => ?_)
    rw [hsame b' hb']
  · rw [hs.deleted, filter_cons, if_pos (decide_eq_true hb), append_assoc,
      singleton_append]
    refine congrArg (fun l => deleted ++ b :: l) (filter_congr fun b' hb' => ?_)
    rw [hsame b' hb']
  · rw [hs.used]
    by_cases heq : b' = b
    · rw [heq, update_self, if_neg fun hand => hnot hand.1,
        if_pos ⟨mem_cons_self, hb⟩]
    · rw [update_of_ne heq]
      simp only [mem_cons, heq, false_or]

theorem Swept.done :
    Swept usedFlag [] kept deleted used (kept, deleted, used) where
  kept := by rw [filter_nil, append_nil]
  deleted := by rw [filter_nil, append_nil]
  used b := by rw [if_neg fun hand => not_mem_nil hand.1]

theorem stop_iff (hnodup : (todo ++ kept).Nodup) :
    kept.head? = (todo ++ kept).head? ↔ todo = [] := by
  cases todo with
  | nil => exact iff_of_true rfl rfl
  | cons b rest =>
    refine iff_of_false (fun heq => ?_) (cons_ne_nil b rest)
    have hmem := mem_of_mem_head? (Option.mem_def.mpr heq)
    exact disjoint_of_nodup_append hnodup mem_cons_self hmem

theorem sweep_swept (usedFlag : Bool) {fuel : Nat} {todo kept deleted : List Nat}
    {used : Nat → Used} (hne : todo ≠ []) (hfuel : todo.length ≤ fuel)
    (hnodup : (todo ++ kept).Nodup) :
    Swept usedFlag todo kept deleted used
      (sweep usedFlag fuel (todo ++ kept) deleted used kept.head?) := by
  induction todo generalizing fuel kept deleted used with
  | nil => exact absurd rfl hne
  | cons b rest ih =>
    cases fuel with
    | zero => exact absurd hfuel (Nat.not_succ_le_zero _)
    | succ fuel =>
      have hrest : (rest ++ kept).Nodup := (nodup_cons.mp hnodup).2
      have hnot : b ∉ rest := fun hmem =>
        (nodup_cons.mp hnodup).1 (mem_append_left _ hmem)
      have hfuel' : rest.length ≤ fuel := Nat.le_of_succ_le_succ hfuel
      rw [cons_append]
      unfold sweep
      by_cases hb : used b = ⟨usedFlag, false, false⟩
      · rw [if_pos hb]
        have herase : gcUnlink (b :: (rest ++ kept)) b = rest ++ kept := erase_cons_head ..
        have hused : ({ used b with delete := true, deletelst := true } : Used) =
            ⟨usedFlag, true, true⟩ := by rw [hb]
        rw [herase, hused]
        refine Swept.delete ?_ hb hnot
        by_cases hstop : rest = []
        · rw [if_pos ((stop_iff hrest).mpr hstop), hstop]
          exact .done
        · rw [if_neg ((stop_iff hrest).not.mpr hstop)]
          exact ih hstop hfuel' hrest
      · rw [if_neg hb]
        have hhead : (if kept.head? = none then some b else kept.head?) =
            (kept ++ [b]).head? := by
          cases kept with
          | nil => rfl
          | cons first others => rfl
        have hrest' : (rest ++ (kept ++ [b])).Nodup := by
          rw [← append_assoc]
          exact (perm_append_singleton b (rest ++ kept)).nodup_iff.mpr hnodup
        rw [hhead, append_assoc]
        refine Swept.keep ?_ hb
        by_cases hstop : rest = []
        · rw [if_pos ((stop_iff hrest').mpr hstop), hstop]
          exact .done
        · rw [if_neg ((stop_iff hrest').not.mpr hstop)]
          exact ih hstop hfuel' hrest'

/-- The references from elsewhere than from memory in use. -/
def outer (h : Heap) (handles : Nat → Nat) (r : Ref) : Nat :=
  holds h.roots r +
    match r with
    | .gc b => handles b
    | .mem _ => 0

/-- Counters are exact: references from memory in use, from the roots, and from the holders of
locked blocks. What holds a locked block is not garbage. -/
structure Counted (h : Heap) (handles : Nat → Nat) : Prop where
  counter : ∀ r ∈ h.live, h.counter r = h.references r + h.outer handles r
  positive : ∀ r ∈ h.live, 0 < h.counter r
  holder : ∀ b, 0 < handles b → b ∈ h.lockedBlock
  unlocked : ∀ b ∈ h.currBlock, h.locked b = 0
  locked : ∀ b ∈ h.lockedBlock, h.locked b ≠ 0
  held : ∀ b ∈ h.lockedBlock, 0 < handles b ∨ (∃ item ∈ h.roots, item.counted = some (.gc b)) ∨
    ∃ r, h.Alive r ∧ ∃ item ∈ h.items r, item.counted = some (.gc b)

structure Collected (h h' : Heap) : Prop where
  live : ∀ r, r ∈ h'.live ↔ h.Alive r
  items : ∀ r, h.Alive r → h'.items r = h.items r
  currBlock : h'.currBlock = h.currBlock.filter fun b => .gc b ∈ h'.live
  lockedBlock : h'.lockedBlock = h.lockedBlock
  deletedBlock : h'.deletedBlock = []
  roots : h'.roots = h.roots
  errors : h'.errors = h.errors

section Collect

variable {h : Heap} {handles : Nat → Nat}

theorem Counted.alive_of_outer (hc : h.Counted handles) (hpos : 0 < h.outer handles r) :
    h.Alive r := by
  unfold outer at hpos
  by_cases hroots : 0 < holds h.roots r
  · obtain ⟨item, hitem, hcounted⟩ := holds_pos.mp hroots
    exact .root hitem hcounted
  · cases r with
    | mem c => exact absurd hpos hroots
    | gc b =>
      dsimp only at hpos
      exact .locked (hc.holder b (by omega))

theorem Counted.grounded (hl : h.Linked) (hc : h.Counted handles) :
    h.Grounded (h.outer handles) h.Alive := by
  have hroot : ∀ item ∈ h.roots, ∀ r, item.counted = some r → 0 < h.outer handles r := by
    intro item hitem r hcounted
    have hpos := holds_pos.mpr ⟨item, hitem, hcounted⟩
    unfold outer
    omega
  intro r hr
  refine ⟨hl.alive_live hr, ?_⟩
  cases hr with
  | root hitem hcounted => exact .inl (hroot _ hitem _ hcounted)
  | item halive hitem hcounted => exact .inr ⟨_, halive, _, hitem, hcounted⟩
  | @locked b hb =>
    rcases hc.held b hb with hpos | ⟨item, hitem, hcounted⟩ | hitem
    · refine .inl ?_
      unfold outer
      dsimp only
      omega
    · exact .inl (hroot item hitem _ hcounted)
    · exact .inr hitem

theorem clearAll_spec {outer : Ref → Nat} (hb : h.Balanced outer (fun _ => 0) fun _ => False)
    (hlive : ∀ b ∈ D, .gc b ∈ h.live) (hspared : ∀ b ∈ D, h.Spared (.gc b))
    (hfuel : h.positive.card < fuel) {h' : Heap}
    (hfold : D.foldl (fun h b => clearWith (refFree fuel) h (.gc b)) h = h') :
    Released (fun r => ∃ b ∈ D, r = .gc b) h h' ∧ h'.Balanced outer (fun _ => 0) (fun _ => False) ∧
      (∀ b ∈ D, h'.items (.gc b) = [] ∧ .gc b ∈ h'.live) ∧
      ∀ K, h.Grounded outer K → (∀ b ∈ D, ¬ K (.gc b)) → ∀ n, K n → n ∈ h'.live := by
  induction D generalizing h with
  | nil =>
    subst hfold
    exact ⟨.refl _ h, hb, fun b hmem => absurd hmem not_mem_nil, fun K hg _ n hn => (hg n hn).1⟩
  | cons b rest ih =>
    rw [foldl_cons] at hfold
    have hcleared := clearWith_spec (refFree_releases fuel) hb (hlive b mem_cons_self)
      (.inr (hspared b mem_cons_self)) hfuel
    generalize clearWith (refFree fuel) h (.gc b) = h₁ at hfold hcleared
    have hstays : ∀ b' ∈ b :: rest, .gc b' ∈ h₁.live := by
      intro b' hb'
      by_contra hnot
      exact (hcleared.released.freed _ (hlive b' hb') hnot).2 (hspared b' hb')
    have hspared₁ : ∀ b' ∈ b :: rest, h₁.Spared (.gc b') := fun b' hb' =>
      hcleared.released.spared _ (hstays b' hb') (hspared b' hb')
    obtain ⟨hreleased, hbalanced, hempty, hground⟩ := ih hcleared.balanced
      (fun b' hb' => hstays b' (mem_cons_of_mem _ hb'))
      (fun b' hb' => hspared₁ b' (mem_cons_of_mem _ hb'))
      (Nat.lt_of_le_of_lt (Finset.card_le_card (positive_subset hcleared.released)) hfuel) hfold
    have hfirst := hcleared.released.mono (fun r => ∃ b' ∈ b :: rest, r = .gc b')
      fun r heq => ⟨b, mem_cons_self, heq⟩
    have hothers := hreleased.mono (fun r => ∃ b' ∈ b :: rest, r = .gc b')
      fun r ⟨b', hb', heq⟩ => ⟨b', mem_cons_of_mem _ hb', heq⟩
    refine ⟨hfirst.trans hothers, hbalanced, fun b' hb' => ?_, fun K hg hK n hn => ?_⟩
    · by_cases hrest : b' ∈ rest
      · exact hempty b' hrest
      · obtain rfl := (mem_cons.mp hb').resolve_right hrest
        have hin : .gc b' ∈ h'.live := by
          by_contra hnot
          exact (hreleased.freed _ (hstays b' hb') hnot).2 (hspared₁ b' hb')
        refine ⟨?_, hin⟩
        rw [hreleased.items _ hin, hcleared.empty]
        rintro ⟨b'', hb'', heq⟩
        exact hrest (Ref.gc.inj heq ▸ hb'')
    · have hnotb := hK b mem_cons_self
      have hg₁ : h₁.Grounded outer K := hg.released hcleared.released
        (fun r hr heq => hnotb (heq ▸ hr)) (hcleared.grounded K hg hnotb)
      exact hground K hg₁ (fun b' hb' => hK b' (mem_cons_of_mem _ hb')) n hn

theorem releaseAll_spec (hdeleted : h.deletedBlock = D) (hzero : ∀ b ∈ D, h.counter (.gc b) = 0) :
    D.foldl releaseDeleted h =
      { h with deletedBlock := [], live := h.live.filter fun r => ∀ b ∈ D, r ≠ .gc b } := by
  induction D generalizing h with
  | nil =>
    have hall : h.live.filter (fun r => ∀ b ∈ ([] : List Nat), r ≠ .gc b) = h.live :=
      Finset.filter_true_of_mem fun r _ b hb => absurd hb not_mem_nil
    rw [foldl_nil, hall, ← hdeleted]
  | cons b rest ih =>
    have hunlink : gcUnlink h.deletedBlock b = rest := by
      rw [hdeleted]
      exact erase_cons_head ..
    have hfirst : h.releaseDeleted b =
        { h with deletedBlock := rest, live := h.live.erase (.gc b) } := by
      unfold releaseDeleted
      rw [hunlink]
      rw [if_neg (not_not.mpr (hzero b mem_cons_self))]
    have hrest := @ih { h with deletedBlock := rest, live := h.live.erase (.gc b) } rfl
      fun b' hb' => hzero b' (mem_cons_of_mem _ hb')
    rw [foldl_cons, hfirst, hrest]
    have hlive : (h.live.erase (.gc b)).filter (fun r => ∀ b ∈ rest, r ≠ .gc b) =
        h.live.filter fun r => ∀ b' ∈ b :: rest, r ≠ .gc b' := by
      ext r
      simp only [Finset.mem_filter, Finset.mem_erase, forall_mem_cons]
      exact and_assoc.trans and_left_comm
    rw [hlive]

end Collect

structure Sweeps (h h₁ : Heap) (D : List Nat) : Prop where
  live : h₁.live = h.live
  items : h₁.items = h.items
  counter : h₁.counter = h.counter
  roots : h₁.roots = h.roots
  currBlock : h₁.currBlock = h.currBlock.filter fun b => b ∉ D
  lockedBlock : h₁.lockedBlock = h.lockedBlock
  locked : h₁.locked = h.locked
  deletedBlock : h₁.deletedBlock = D
  errors : h₁.errors = h.errors
  garbage : ∀ b, b ∈ D ↔ b ∈ h.currBlock ∧ ¬ h.Alive (.gc b)
  delete : ∀ b ∈ D, (h₁.used b).delete = true
  flagged : h₁.Flagged

def finish (fuel : Nat) (h : Heap) : Heap :=
  let h := h.deletedBlock.foldl (fun h b => clearWith (refFree fuel) h (.gc b)) h
  h.deletedBlock.foldl releaseDeleted h

section Finish

variable {h h₁ h₂ : Heap} {handles : Nat → Nat}

section

variable (hs : Sweeps h h₁ D)

include hs

theorem Sweeps.references (r : Ref) : h₁.references r = h.references r := by
  unfold Heap.references
  rw [hs.live, hs.items]

theorem Sweeps.balanced (hl : h.Linked) (hc : h.Counted handles) :
    h₁.Balanced (h.outer handles) (fun _ => 0) fun _ => False := by
  refine ⟨fun n hn item hitem r hcounted => ?_, fun r hr => absurd hr (Nat.lt_irrefl 0),
    fun r hr => ?_, fun r hr hz => ?_, ?_, fun b hb => ?_, fun b hb => ?_⟩
  · rw [hs.live] at hn ⊢
    rw [hs.items] at hitem
    exact hl.items n hn item hitem r hcounted
  · rw [hs.live] at hr
    rw [hs.counter, hs.references]
    exact hc.counter r hr
  · rw [hs.live] at hr
    rw [hs.counter] at hz
    exact absurd hz (Nat.ne_of_gt (hc.positive r hr))
  · rw [hs.currBlock, hs.lockedBlock]
    exact hl.nodup.sublist (filter_sublist.append_right _)
  · rw [hs.currBlock] at hb
    rw [hs.locked]
    exact hc.unlocked b (mem_of_mem_filter hb)
  · rw [hs.lockedBlock] at hb
    rw [hs.locked]
    exact hc.locked b hb

theorem Sweeps.grounded (hl : h.Linked) (hc : h.Counted handles) :
    h₁.Grounded (h.outer handles) h.Alive := by
  unfold Grounded
  rw [hs.live, hs.items]
  exact hc.grounded hl

theorem Sweeps.not_alive (hr : ∃ b ∈ D, r = .gc b) : ¬ h.Alive r := by
  obtain ⟨b, hb, rfl⟩ := hr
  exact ((hs.garbage b).mp hb).2

theorem Sweeps.alive_or_deleted (hl : h.Linked) (hb : .gc b ∈ h.live) :
    h.Alive (.gc b) ∨ b ∈ D := by
  by_cases halive : h.Alive (.gc b)
  · exact .inl halive
  · refine .inr ((hs.garbage b).mpr ⟨?_, halive⟩)
    exact ((hl.listed b).mp hb).resolve_right fun hlocked => halive (.locked hlocked)

theorem mem_alive (hl : h.Linked) (hch : h.Chains depth bound) (hc : h.Counted handles)
    (hr : Released (fun r => ∃ b ∈ D, r = .gc b) h₁ h₂)
    (hb : h₂.Balanced (h.outer handles) (fun _ => 0) fun _ => False)
    (hempty : ∀ b ∈ D, h₂.items (.gc b) = []) {c : Nat} (hlive : .mem c ∈ h₂.live) :
    h.Alive (.mem c) := by
  have hsub : ∀ r ∈ h₂.live, r ∈ h.live := fun r hmem => hs.live ▸ hr.live hmem
  have hitems : ∀ r ∈ h₂.live, ¬ (∃ b ∈ D, r = .gc b) → h₂.items r = h.items r := by
    intro r hmem hnot
    rw [hr.items r hmem hnot, hs.items]
  by_contra hdead
  have key : ∀ n c, .mem c ∈ h₂.live → ¬ h.Alive (.mem c) →
      (∀ type, bound < depth (.mem type c) + n) → False := by
    intro n
    induction n with
    | zero =>
      intro c _ _ hdeep
      exact absurd (hch.le (.mem .memvar c)) (Nat.not_le_of_lt (hdeep .memvar))
    | succ n ih =>
      intro c hlive hdead hdeep
      have hpos : 0 < h₂.counter (.mem c) := by
        refine Nat.pos_of_ne_zero fun hz => ?_
        rcases hb.settled _ hlive hz with hspared | hfalse
        · exact not_spared_mem hspared
        · exact hfalse
      have hout : h.outer handles (.mem c) = 0 := by
        by_contra hne
        exact hdead (hc.alive_of_outer (Nat.pos_of_ne_zero hne))
      have hcounter := hb.counter _ hlive
      obtain ⟨m, hm, item, hitem, hcounted⟩ := references_pos.mp
        (show 0 < h₂.references (.mem c) by omega)
      cases m with
      | gc b =>
        by_cases hD : b ∈ D
        · rw [hempty b hD] at hitem
          exact not_mem_nil hitem
        · rw [hitems _ hm fun ⟨b', hb', heq⟩ => hD (Ref.gc.inj heq ▸ hb')] at hitem
          have halive := (hs.alive_or_deleted hl (hsub _ hm)).resolve_right hD
          exact hdead (.item halive hitem hcounted)
      | mem c' =>
        rw [hitems _ hm fun ⟨b', hb', heq⟩ => Ref.noConfusion heq] at hitem
        refine ih c' hm (fun halive => hdead (.item halive hitem hcounted)) fun type' => ?_
        have hstep := hch.mem type' c' item (hsub _ hm) hitem
        cases item with
        | simple | stackVar slot => exact absurd hcounted.symm (Option.some_ne_none _)
        | gc type b => exact Ref.noConfusion (Option.some.inj hcounted)
        | mem type c'' =>
          obtain rfl := Ref.mem.inj (Option.some.inj hcounted)
          have hdeep' := hdeep type
          omega
  refine key (bound + 1) c hlive hdead fun type => ?_
  omega

end

/-- The state after the clean-up functions have run. -/
structure Cleaned (h h₁ h₂ : Heap) (D : List Nat) (handles : Nat → Nat) : Prop where
  sweeps : Sweeps h h₁ D
  released : Released (fun r => ∃ b ∈ D, r = .gc b) h₁ h₂
  balanced : h₂.Balanced (h.outer handles) (fun _ => 0) fun _ => False
  empty : ∀ b ∈ D, h₂.items (.gc b) = [] ∧ .gc b ∈ h₂.live
  alive : ∀ r, h.Alive r → r ∈ h₂.live

namespace Cleaned

theorem items_eq (hd : Cleaned h h₁ h₂ D handles) (hr : h.Alive r) :
    h₂.items r = h.items r := by
  rw [hd.released.items r (hd.alive r hr) fun hD => hd.sweeps.not_alive hD hr, hd.sweeps.items]

section

variable (hd : Cleaned h h₁ h₂ D handles) (hl : h.Linked) (hch : h.Chains depth bound)
  (hc : h.Counted handles)

include hd hl hch hc

theorem live_iff (r : Ref) : (r ∈ h₂.live ∧ ∀ b ∈ D, r ≠ .gc b) ↔ h.Alive r := by
  constructor
  · rintro ⟨hlive, hnot⟩
    cases r with
    | mem c =>
      exact mem_alive hd.sweeps hl hch hc hd.released hd.balanced
        (fun b hb => (hd.empty b hb).1) hlive
    | gc b =>
      have hlive' : .gc b ∈ h.live := hd.sweeps.live ▸ hd.released.live hlive
      exact (hd.sweeps.alive_or_deleted hl hlive').resolve_right fun hD => hnot b hD rfl
  · intro halive
    exact ⟨hd.alive r halive, fun b hb heq => hd.sweeps.not_alive ⟨b, hb, heq⟩ halive⟩

theorem counter_deleted (hb : b ∈ D) : h₂.counter (.gc b) = 0 := by
  have hdead := ((hd.sweeps.garbage b).mp hb).2
  have hcounter := hd.balanced.counter _ (hd.empty b hb).2
  have hout : h.outer handles (.gc b) = 0 := by
    by_contra hne
    exact hdead (hc.alive_of_outer (Nat.pos_of_ne_zero hne))
  have hrefs : h₂.references (.gc b) = 0 := by
    by_contra hne
    obtain ⟨m, hm, item, hitem, hcounted⟩ := references_pos.mp (Nat.pos_of_ne_zero hne)
    by_cases hD : ∃ b' ∈ D, m = .gc b'
    · obtain ⟨b', hb', rfl⟩ := hD
      rw [(hd.empty b' hb').1] at hitem
      exact not_mem_nil hitem
    · have halive := (hd.live_iff hl hch hc m).mp ⟨hm, fun b' hb' heq => hD ⟨b', hb', heq⟩⟩
      rw [hd.items_eq halive] at hitem
      exact hdead (.item halive hitem hcounted)
  omega

end

def last (h₂ : Heap) (D : List Nat) : Heap :=
  { h₂ with deletedBlock := [], live := h₂.live.filter fun r => ∀ b ∈ D, r ≠ .gc b }

section

variable (hd : Cleaned h h₁ h₂ D handles) (hl : h.Linked) (hch : h.Chains depth bound)
  (hc : h.Counted handles)

include hd hl hch hc

theorem mem_last (r : Ref) : r ∈ (last h₂ D).live ↔ h.Alive r := by
  rw [← hd.live_iff hl hch hc r]
  exact Finset.mem_filter

theorem collected : Collected h (last h₂ D) where
  live := hd.mem_last hl hch hc
  items _ := hd.items_eq
  currBlock := by
    change h₂.currBlock = _
    rw [hd.released.currBlock, hd.sweeps.currBlock, filter_filter]
    refine filter_congr fun b hb => ?_
    rw [← Bool.decide_and, decide_eq_decide, hd.mem_last hl hch hc]
    have hlive : .gc b ∈ h.live := (hl.listed b).mpr (.inl hb)
    constructor
    · rintro ⟨-, hnot⟩
      exact (hd.sweeps.alive_or_deleted hl hlive).resolve_right hnot
    · intro halive
      exact ⟨.inl (hd.alive _ halive), fun hD => ((hd.sweeps.garbage b).mp hD).2 halive⟩
  lockedBlock := by
    change h₂.lockedBlock = _
    rw [hd.released.lockedBlock, hd.sweeps.lockedBlock]
    refine filter_eq_self.mpr fun b hb => decide_eq_true ?_
    exact .inl (hd.alive _ (.locked hb))
  deletedBlock := rfl
  roots := hd.released.roots.trans hd.sweeps.roots
  errors := hd.released.errors.trans hd.sweeps.errors

end

end Cleaned

section

variable {h' : Heap} (hco : Collected h h')

include hco

theorem Collected.alive (hr : h.Alive r) : h'.Alive r := by
  induction hr with
  | root hitem hcounted => exact .root (hco.roots ▸ hitem) hcounted
  | locked hb => exact .locked (hco.lockedBlock ▸ hb)
  | item halive hitem hcounted ih => exact .item ih (hco.items _ halive ▸ hitem) hcounted

theorem Collected.mem_currBlock (b : Nat) :
    b ∈ h'.currBlock ↔ b ∈ h.currBlock ∧ h.Alive (.gc b) := by
  rw [hco.currBlock, mem_filter, decide_eq_true_iff, hco.live]

theorem Collected.linked (hl : h.Linked) : h'.Linked where
  nodup := by
    rw [hco.currBlock, hco.lockedBlock]
    exact hl.nodup.sublist (filter_sublist.append_right _)
  listed b := by
    rw [hco.live, hco.mem_currBlock, hco.lockedBlock]
    constructor
    · intro halive
      exact ((hl.listed b).mp (hl.alive_live halive)).imp_left fun hb => ⟨hb, halive⟩
    · rintro (⟨-, halive⟩ | hb)
      · exact halive
      · exact .locked hb
  roots item hitem r hcounted := by
    rw [hco.live]
    exact .root (hco.roots ▸ hitem) hcounted
  items r hr item hitem r' hcounted := by
    rw [hco.live] at hr ⊢
    exact .item hr (hco.items r hr ▸ hitem) hcounted
  noDeleted := hco.deletedBlock

theorem Collected.chains (hl : h.Linked) (hch : h.Chains depth bound) : h'.Chains depth bound where
  mem type c item hc hitem := by
    rw [hco.live] at hc
    exact hch.mem type c item (hl.alive_live hc) (hco.items _ hc ▸ hitem)
  slot slot := by
    rw [hco.roots]
    exact hch.slot slot
  le := hch.le

end

namespace Cleaned

section

variable (hd : Cleaned h h₁ h₂ D handles) (hl : h.Linked) (hch : h.Chains depth bound)
  (hc : h.Counted handles)

include hd hl hch hc

theorem flagged : (last h₂ D).Flagged := by
  have hco := hd.collected hl hch hc
  have hused : ∀ b, h.Alive (.gc b) → (last h₂ D).used b = h₁.used b := fun b halive =>
    hd.released.used b (hd.alive _ halive) fun hD => hd.sweeps.not_alive hD halive
  refine ⟨fun b hb => ?_, fun b hb => ?_⟩
  · obtain ⟨hcurr, halive⟩ := (hco.mem_currBlock b).mp hb
    rw [hused b halive, hd.sweeps.flagged.curr b ?_]
    · exact congrArg (fun flag => (⟨flag, false, false⟩ : Used)) hd.released.usedFlag.symm
    · rw [hd.sweeps.currBlock]
      refine mem_filter.mpr ⟨hcurr, decide_eq_true fun hD => ?_⟩
      exact ((hd.sweeps.garbage b).mp hD).2 halive
  · rw [hco.lockedBlock] at hb
    rw [hused b (.locked hb)]
    exact hd.sweeps.flagged.locked b (hd.sweeps.lockedBlock ▸ hb)

theorem counted : (last h₂ D).Counted handles := by
  have hco := hd.collected hl hch hc
  have hrefs : ∀ r, (last h₂ D).references r = h₂.references r := by
    intro r
    refine Finset.sum_filter_of_ne fun m hm hne b hb heq => hne ?_
    change holds (h₂.items m) r = 0
    rw [heq, (hd.empty b hb).1, holds_nil]
  have houter : (last h₂ D).outer handles = h.outer handles := by
    unfold outer
    rw [hco.roots]
  have hlocked : (last h₂ D).locked = h.locked := hd.released.locked.trans hd.sweeps.locked
  have hground : h₂.Grounded (h.outer handles) h.Alive :=
    (hd.sweeps.grounded hl hc).released hd.released
      (fun r hr hD => hd.sweeps.not_alive hD hr) hd.alive
  refine ⟨fun r hr => ?_, fun r hr => ?_, fun b hb => ?_, fun b hb => ?_, fun b hb => ?_,
    fun b hb => ?_⟩
  · rw [hco.live] at hr
    rw [hrefs, houter]
    exact hd.balanced.counter r (hd.alive r hr)
  · rw [hco.live] at hr
    have hpos := hground.pos hd.balanced hr
    exact hpos
  · rw [hco.lockedBlock]
    exact hc.holder b hb
  · rw [hlocked]
    exact hc.unlocked b ((hco.mem_currBlock b).mp hb).1
  · rw [hco.lockedBlock] at hb
    rw [hlocked]
    exact hc.locked b hb
  · rw [hco.lockedBlock] at hb
    rw [hco.roots]
    refine (hc.held b hb).imp_right fun hheld => hheld.imp_right ?_
    rintro ⟨r, halive, item, hitem, hcounted⟩
    exact ⟨r, hco.alive halive, item, hco.items r halive ▸ hitem, hcounted⟩

end

end Cleaned

theorem Sweeps.finish_eq (hs : Sweeps h h₁ D) (hl : h.Linked) (hch : h.Chains depth bound)
    (hc : h.Counted handles) (hfuel : h.live.card < fuel) :
    ∃ h₂, Cleaned h h₁ h₂ D handles ∧ finish fuel h₁ = Cleaned.last h₂ D := by
  have hlive : ∀ b ∈ D, .gc b ∈ h₁.live := by
    intro b hb
    rw [hs.live]
    exact (hl.listed b).mpr (.inl ((hs.garbage b).mp hb).1)
  have hcard : h₁.positive.card < fuel :=
    Nat.lt_of_le_of_lt (Finset.card_filter_le _ _) (hs.live ▸ hfuel)
  obtain ⟨hreleased, hbalanced, hempty, hground⟩ := clearAll_spec (hs.balanced hl hc) hlive
    (fun b hb => ⟨b, rfl, hs.delete b hb⟩) hcard rfl
  have hd : Cleaned h h₁ _ D handles := ⟨hs, hreleased, hbalanced, hempty,
    hground h.Alive (hs.grounded hl hc) fun b hb => hs.not_alive ⟨b, hb, rfl⟩⟩
  refine ⟨_, hd, ?_⟩
  unfold finish
  dsimp only
  rw [hs.deletedBlock]
  have hdeleted := hreleased.deletedBlock.trans hs.deletedBlock
  rw [hdeleted]
  exact releaseAll_spec hdeleted fun b hb => hd.counter_deleted hl hch hc hb

theorem sweeps_of_nil (hl : h.Linked) (hf : h.Flagged) (hnil : h.currBlock = []) :
    Sweeps h h [] where
  live := rfl
  items := rfl
  counter := rfl
  roots := rfl
  currBlock := by rw [hnil, filter_nil]
  lockedBlock := rfl
  locked := rfl
  deletedBlock := hl.noDeleted
  errors := rfl
  garbage b := iff_of_false not_mem_nil fun hand =>
    not_mem_nil (a := b) (by rw [← hnil]; exact hand.1)
  delete b hb := absurd hb not_mem_nil
  flagged := hf

def swept (h : Heap) (fuel : Nat) : Heap :=
  let result := sweep h.usedFlag h.currBlock.length h.currBlock h.deletedBlock (h.mark fuel) none
  { h with
    currBlock := result.1
    deletedBlock := result.2.1
    used := result.2.2
    usedFlag := !h.usedFlag }

theorem collectAll_eq_finish (fuel : Nat) (hne : h.currBlock ≠ []) :
    h.collectAll fuel = finish fuel (h.swept fuel) := by
  unfold collectAll
  rw [if_neg hne]
  rfl

theorem swept_sweeps (hl : h.Linked) (hf : h.Flagged) (hch : h.Chains depth bound)
    (hfuel : h.depthBound bound ≤ fuel) (hne : h.currBlock ≠ []) :
    ∃ D, Sweeps h (h.swept fuel) D := by
  have hmark : ∀ b ∈ h.currBlock, h.mark fuel b = ⟨h.usedFlag, false, false⟩ ↔ ¬ h.Alive (.gc b) :=
    fun b hb => mark_eq_iff hl hf hch hfuel hb
  have hnodup := nodup_append.mp hl.nodup
  have hsw : Swept h.usedFlag h.currBlock [] [] (h.mark fuel)
      (sweep h.usedFlag h.currBlock.length h.currBlock h.deletedBlock (h.mark fuel) none) := by
    have hsweep := @sweep_swept h.usedFlag h.currBlock.length h.currBlock [] [] (h.mark fuel) hne
      (Nat.le_refl _) (by rw [append_nil]; exact hnodup.1)
    rw [append_nil] at hsweep
    rw [hl.noDeleted]
    exact hsweep
  obtain ⟨hm, -⟩ := mark_marks hl hch hfuel
  generalize hD : h.currBlock.filter (fun b => h.mark fuel b = ⟨h.usedFlag, false, false⟩) = D
  have hmem : ∀ b, b ∈ D ↔ b ∈ h.currBlock ∧ ¬ h.Alive (.gc b) := by
    intro b
    rw [← hD, mem_filter, decide_eq_true_iff]
    exact and_congr_right (hmark b)
  have hcurr : (h.swept fuel).currBlock = h.currBlock.filter fun b => b ∉ D := by
    change (sweep ..).1 = _
    rw [hsw.kept, nil_append]
    refine filter_congr fun b hb => ?_
    rw [decide_eq_decide, hmem]
    exact ⟨fun hused hand => hused ((hmark b hb).mpr hand.2),
      fun hnot hused => hnot ⟨hb, (hmark b hb).mp hused⟩⟩
  have hused : ∀ b, b ∉ D → (h.swept fuel).used b = h.mark fuel b := by
    intro b hb
    change (sweep ..).2.2 b = _
    rw [hsw.used]
    exact if_neg fun hand => hb ((hmem b).mpr ⟨hand.1, (hmark b hand.1).mp hand.2⟩)
  refine ⟨D, rfl, rfl, rfl, rfl, hcurr, rfl, rfl, ?_, rfl, hmem, fun b hb => ?_,
    fun b hb => ?_, fun b hb => ?_⟩
  · change (sweep ..).2.1 = _
    rw [hsw.deleted, nil_append, hD]
  · obtain ⟨hin, hdead⟩ := (hmem b).mp hb
    change ((sweep ..).2.2 b).delete = true
    rw [hsw.used, if_pos ⟨hin, (hmark b hin).mpr hdead⟩]
  · rw [hcurr, mem_filter, decide_eq_true_iff] at hb
    obtain ⟨hin, hnot⟩ := hb
    rw [hused b hnot]
    change h.mark fuel b = ⟨!h.usedFlag, false, false⟩
    rcases hm.step b with hsame | ⟨-, hflip⟩
    · rw [hf.curr b hin] at hsame
      exact absurd ((hmem b).mpr ⟨hin, (hmark b hin).mp hsame⟩) hnot
    · rw [hflip, hf.curr b hin]
  · have hlocked : b ∈ h.lockedBlock := hb
    have hnot : b ∉ D := fun hD => disjoint_of_nodup_append hl.nodup ((hmem b).mp hD).1 hlocked
    rw [hused b hnot]
    rcases hm.step b with hsame | ⟨-, hflip⟩
    · rw [hsame]
      exact hf.locked b hlocked
    · rw [hflip]
      exact hf.locked b hlocked

end Finish

end Heap

end Harbour.Vm.Garbage

/-!
Collections in a running program: each one is exact, and leaves the heap ready for the next.
-/

namespace Harbour.Vm.Garbage

namespace Heap

structure Ready (h : Heap) : Prop where
  linked : h.Linked
  flagged : h.Flagged
  chains : ∃ depth bound, h.Chains depth bound
  counted : ∃ handles, h.Counted handles

def Ends (h : Heap) (fuel : Nat) : Prop :=
  ∃ depth bound, h.Chains depth bound ∧ h.depthBound bound ≤ fuel

/-- What a program does between two collections: blocks are allocated, locked, unlocked and
released, and roots and items change, with exact counters; flags are set for new blocks and for
blocks unlocked only. -/
structure Changes (h h' : Heap) : Prop where
  usedFlag : h'.usedFlag = h.usedFlag
  currBlock : ∀ b ∈ h'.currBlock,
    h'.used b = ⟨h.usedFlag, false, false⟩ ∨ b ∈ h.currBlock ∧ h'.used b = h.used b
  lockedBlock : ∀ b ∈ h'.lockedBlock, h'.used b = ⟨h.usedFlag, false, false⟩ ∨
    (b ∈ h.currBlock ∨ b ∈ h.lockedBlock) ∧ h'.used b = h.used b
  linked : h'.Linked
  chains : ∃ depth bound, h'.Chains depth bound
  counted : ∃ handles, h'.Counted handles

inductive Step : Heap → Heap → Prop
  | change {h h' : Heap} : Changes h h' → Step h h'
  | collect {h : Heap} {fuel : Nat} : h.Ends fuel → Step h (h.collectAll fuel)

section Runs

variable {h h' : Heap}

theorem Ready.ends (hr : h.Ready) : ∃ fuel₀, ∀ fuel ≥ fuel₀, h.Ends fuel := by
  obtain ⟨depth, bound, hch⟩ := hr.chains
  exact ⟨h.depthBound bound, fun fuel hfuel => ⟨depth, bound, hch, hfuel⟩⟩

theorem Changes.ready (hr : h.Ready) (hchange : Changes h h') : h'.Ready := by
  refine ⟨hchange.linked, ⟨fun b hb => ?_, fun b hb => ?_⟩, hchange.chains, hchange.counted⟩
  · rw [hchange.usedFlag]
    rcases hchange.currBlock b hb with hnew | ⟨hold, hsame⟩
    · exact hnew
    · rw [hsame]
      exact hr.flagged.curr b hold
  · rcases hchange.lockedBlock b hb with hnew | ⟨hcurr | hlocked, hsame⟩
    · rw [hnew]
      exact ⟨rfl, rfl⟩
    · rw [hsame, hr.flagged.curr b hcurr]
      exact ⟨rfl, rfl⟩
    · rw [hsame]
      exact hr.flagged.locked b hlocked

theorem live_card_lt_depthBound (bound : Nat) : h.live.card < h.depthBound bound := by
  have hle := Nat.le_mul_of_pos_right (h.live.card + 1) (Nat.succ_pos (bound + 1))
  exact Nat.lt_of_lt_of_le (Nat.lt_succ_self _) hle

theorem collectAll_cleaned (hl : h.Linked) (hf : h.Flagged) (hch : h.Chains depth bound)
    {handles : Nat → Nat} (hc : h.Counted handles) (hfuel : h.depthBound bound ≤ fuel) :
    ∃ h₁ h₂ D, Cleaned h h₁ h₂ D handles ∧ h.collectAll fuel = Cleaned.last h₂ D := by
  have hcard := Nat.lt_of_lt_of_le (live_card_lt_depthBound bound) hfuel
  by_cases hnil : h.currBlock = []
  · obtain ⟨h₂, hd, hfinish⟩ := (sweeps_of_nil hl hf hnil).finish_eq hl hch hc hcard
    refine ⟨h, h₂, [], hd, ?_⟩
    rw [← hfinish]
    unfold collectAll finish
    rw [if_pos hnil, hl.noDeleted]
    dsimp only
    rw [List.foldl_nil, hl.noDeleted, List.foldl_nil]
  · obtain ⟨D, hs⟩ := swept_sweeps hl hf hch hfuel hnil
    obtain ⟨h₂, hd, hfinish⟩ := hs.finish_eq hl hch hc hcard
    exact ⟨h.swept fuel, h₂, D, hd, (collectAll_eq_finish fuel hnil).trans hfinish⟩

theorem Ready.collectAll (hr : h.Ready) (hends : h.Ends fuel) :
    Collected h (h.collectAll fuel) ∧ (h.collectAll fuel).Ready := by
  obtain ⟨depth, bound, hch, hfuel⟩ := hends
  obtain ⟨handles, hc⟩ := hr.counted
  obtain ⟨h₁, h₂, D, hd, heq⟩ := collectAll_cleaned hr.linked hr.flagged hch hc hfuel
  have hco := hd.collected hr.linked hch hc
  rw [heq]
  exact ⟨hco, hco.linked hr.linked, hd.flagged hr.linked hch hc,
    ⟨depth, bound, hco.chains hr.linked hch⟩, handles, hd.counted hr.linked hch hc⟩

theorem Step.ready (hr : h.Ready) (hstep : Step h h') : h'.Ready := by
  cases hstep with
  | change hchange => exact hchange.ready hr
  | collect hends => exact (hr.collectAll hends).2

theorem run_ready (hr : h.Ready) (hrun : Relation.ReflTransGen Step h h') : h'.Ready := by
  induction hrun with
  | refl => exact hr
  | tail _ hstep ih => exact hstep.ready ih

end Runs

/-- In every run each collection leaves exactly what the roots and the locked blocks keep alive,
as it was, and a heap that may be collected again. -/
theorem collectAll_exact {h h' : Heap} (hr : h.Ready) (hrun : Relation.ReflTransGen Step h h') :
    h'.Ready ∧ ∃ depth, ∀ fuel ≥ depth,
      Collected h' (h'.collectAll fuel) ∧ (h'.collectAll fuel).Ready := by
  have hready := run_ready hr hrun
  refine ⟨hready, ?_⟩
  obtain ⟨depth, hends⟩ := hready.ends
  exact ⟨depth, fun fuel hfuel => hready.collectAll (hends fuel hfuel)⟩

/-- Two arrays hold one another, and a variable holds a third. -/
def ring : Heap where
  live := {.gc 0, .gc 1, .gc 2}
  items r := if r = .gc 0 then [.gc .array 1] else if r = .gc 1 then [.gc .array 0] else []
  counter _ := 1
  used _ := ⟨true, false, false⟩
  locked _ := 0
  currBlock := [0, 1, 2]
  lockedBlock := []
  deletedBlock := []
  usedFlag := true
  roots := [.gc .array 2]
  errors := []

def shallow : Item → Nat
  | .gc _ _ | .simple => 0
  | .mem _ _ | .stackVar _ => 1

theorem shallow_le (item : Item) : shallow item ≤ 1 := by
  cases item with
  | gc | simple => exact Nat.zero_le 1
  | mem | stackVar => exact Nat.le_refl 1

theorem shallow_chains {h : Heap} (hmem : ∀ c, .mem c ∉ h.live)
    (hroots : ∀ item ∈ h.roots, shallow item = 0) : h.Chains shallow 1 where
  mem _ c _ hc := absurd hc (hmem c)
  slot slot := by
    rw [List.getD_eq_getElem?_getD]
    cases hitem : h.roots[slot]? with
    | none => exact Nat.one_pos
    | some item =>
      have hzero := hroots item (List.mem_of_getElem? hitem)
      rw [Option.getD_some, hzero]
      exact Nat.one_pos
  le := shallow_le

theorem ring_chains : ring.Chains shallow 1 :=
  shallow_chains (fun c => by simp [ring]) (by decide)

theorem ring_ready : ring.Ready := by
  refine ⟨⟨by decide, fun b => ?_, by decide, by decide, rfl⟩,
    ⟨fun _ _ => rfl, fun _ _ => ⟨rfl, rfl⟩⟩, ⟨shallow, 1, ring_chains⟩,
    ⟨fun _ => 0, by decide, fun _ _ => Nat.one_pos, fun _ hpos => absurd hpos (Nat.lt_irrefl 0),
      fun _ _ => rfl, fun _ hb => absurd hb List.not_mem_nil,
      fun _ hb => absurd hb List.not_mem_nil⟩⟩
  simp [ring]

theorem ring_ends : ring.Ends 12 := ⟨shallow, 1, ring_chains, by decide⟩

theorem collectAll_exact_ring : ∃ depth, ∀ fuel ≥ depth,
    Collected (ring.collectAll 12) ((ring.collectAll 12).collectAll fuel) ∧
      ((ring.collectAll 12).collectAll fuel).Ready :=
  (collectAll_exact ring_ready (.single (.collect ring_ends))).2

example : (ring.collectAll 12).live = {.gc 2} := by decide

theorem Collected.again {h h' h'' : Heap} (hc : Collected h h') (hl : h'.Linked)
    (hc' : Collected h' h'') :
    h''.live = h'.live ∧ (∀ r ∈ h'.live, h''.items r = h'.items r) ∧
      h''.currBlock = h'.currBlock ∧ h''.lockedBlock = h'.lockedBlock ∧ h''.roots = h'.roots ∧
      h''.errors = h'.errors := by
  have halive : ∀ r ∈ h'.live, h'.Alive r := fun r hr => hc.alive ((hc.live r).mp hr)
  have hlive : h''.live = h'.live := by
    ext r
    exact (hc'.live r).trans ⟨hl.alive_live, halive r⟩
  refine ⟨hlive, fun r hr => hc'.items r (halive r hr), ?_, hc'.lockedBlock, hc'.roots, hc'.errors⟩
  rw [hc'.currBlock, hlive, hc.currBlock, List.filter_filter]
  simp only [Bool.and_self]

/-- A second collection finds nothing more: what a collection has left is alive. -/
theorem collectAll_twice {h h' : Heap} (hr : h.Ready)
    (hrun : Relation.ReflTransGen Step h h') :
    ∃ depth, ∀ fuel ≥ depth, (∀ r ∈ (h'.collectAll fuel).live, (h'.collectAll fuel).Alive r) ∧
      ∃ depth', ∀ fuel' ≥ depth',
        let h₁ := h'.collectAll fuel
        let h₂ := h₁.collectAll fuel'
        h₂.live = h₁.live ∧ (∀ r ∈ h₁.live, h₂.items r = h₁.items r) ∧
          h₂.currBlock = h₁.currBlock ∧ h₂.lockedBlock = h₁.lockedBlock ∧ h₂.roots = h₁.roots ∧
          h₂.errors = h₁.errors := by
  have hready := run_ready hr hrun
  obtain ⟨depth, hends⟩ := hready.ends
  refine ⟨depth, fun fuel hfuel => ?_⟩
  obtain ⟨hc, hready₁⟩ := hready.collectAll (hends fuel hfuel)
  obtain ⟨depth', hends'⟩ := hready₁.ends
  refine ⟨fun r hr => hc.alive ((hc.live r).mp hr), depth', fun fuel' hfuel' => ?_⟩
  exact hc.again hready₁.linked (hready₁.collectAll (hends' fuel' hfuel')).1

/-- The program has gone on: a new block is locked and holds another one, and two more arrays hold
one another. -/
def refilled : Heap where
  live := {.gc 2, .gc 3, .gc 4, .gc 5, .gc 6}
  items r := if r = .gc 3 then [.gc .array 4] else if r = .gc 5 then [.gc .array 6] else
    if r = .gc 6 then [.gc .array 5] else []
  counter _ := 1
  used _ := ⟨false, false, false⟩
  locked b := if b = 3 then 1 else 0
  currBlock := [2, 4, 5, 6]
  lockedBlock := [3]
  deletedBlock := []
  usedFlag := false
  roots := [.gc .array 2]
  errors := []

theorem refilled_chains : refilled.Chains shallow 1 :=
  shallow_chains (fun c => by simp [refilled]) (by decide)

theorem refilled_changes : Changes (ring.collectAll 12) refilled where
  usedFlag := by decide
  currBlock _ _ := .inl (by rw [show (ring.collectAll 12).usedFlag = false by decide]; rfl)
  lockedBlock _ _ := .inl (by rw [show (ring.collectAll 12).usedFlag = false by decide]; rfl)
  linked := by
    refine ⟨by decide, fun b => ?_, by decide, by decide, rfl⟩
    simp [refilled]
    tauto
  chains := ⟨shallow, 1, refilled_chains⟩
  counted := by
    refine ⟨fun b => if b = 3 then 1 else 0, by decide, fun _ _ => Nat.one_pos, fun b hpos => ?_,
      by decide, by decide, fun b hb => .inl ?_⟩
    · by_cases hb : b = 3
      · rw [hb]
        exact List.mem_singleton.mpr rfl
      · rw [if_neg hb] at hpos
        exact absurd hpos (Nat.lt_irrefl 0)
    · rw [if_pos (List.mem_singleton.mp hb)]
      exact Nat.one_pos

theorem collectAll_twice_refilled :
    (refilled.collectAll 20).live = {.gc 2, .gc 3, .gc 4} ∧ ∃ depth, ∀ fuel ≥ depth,
      (∀ r ∈ (refilled.collectAll fuel).live, (refilled.collectAll fuel).Alive r) ∧
        ∃ depth', ∀ fuel' ≥ depth',
          ((refilled.collectAll fuel).collectAll fuel').live = (refilled.collectAll fuel).live ∧
            ((refilled.collectAll fuel).collectAll fuel').lockedBlock =
              (refilled.collectAll fuel).lockedBlock := by
  refine ⟨by decide +kernel, ?_⟩
  obtain ⟨depth, h⟩ := collectAll_twice ring_ready
    (.tail (.single (.collect ring_ends)) (.change refilled_changes))
  refine ⟨depth, fun fuel hfuel => ⟨(h fuel hfuel).1, ?_⟩⟩
  obtain ⟨depth', h'⟩ := (h fuel hfuel).2
  exact ⟨depth', fun fuel' hfuel' => ⟨(h' fuel' hfuel').1, (h' fuel' hfuel').2.2.2.1⟩⟩

/-- An array that holds itself and a block that is locked, where nothing else does. -/
def lockedByGarbage : Heap where
  live := {.gc 0, .gc 1}
  items r := if r = .gc 0 then [.gc .array 0, .gc .pointer 1] else []
  counter _ := 1
  used _ := ⟨true, false, false⟩
  locked b := if b = 1 then 1 else 0
  currBlock := [0]
  lockedBlock := [1]
  deletedBlock := []
  usedFlag := true
  roots := []
  errors := []

/-- The locked block goes with the last item that refers to it, in the middle of the collection. -/
theorem collectAll_frees_locked :
    (lockedByGarbage.Linked ∧ lockedByGarbage.Flagged ∧ lockedByGarbage.Ends 12 ∧
      ∀ r ∈ lockedByGarbage.live,
        lockedByGarbage.counter r = lockedByGarbage.references r) ∧
      1 ∈ lockedByGarbage.lockedBlock ∧
      .gc 1 ∉ (lockedByGarbage.collectAll 12).live ∧
      (lockedByGarbage.collectAll 12).lockedBlock = [] := by
  refine ⟨⟨⟨by decide, fun b => ?_, by decide, by decide, rfl⟩,
    ⟨fun _ _ => rfl, fun _ _ => ⟨rfl, rfl⟩⟩,
    ⟨shallow, 1, ⟨fun _ _ _ _ hitem => absurd hitem List.not_mem_nil, fun _ => Nat.one_pos,
      shallow_le⟩, by decide⟩, by decide⟩, by decide, by decide, by decide⟩
  simp [lockedByGarbage]

end Heap

end Harbour.Vm.Garbage
