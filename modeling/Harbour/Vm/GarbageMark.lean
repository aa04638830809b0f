import Harbour.Vm.Garbage
import Mathlib.Data.Finset.Card

/-!
Marking: from the roots and the locked blocks it reaches exactly what they keep alive.
-/

namespace Harbour.Vm.Garbage

open Function Option List Finset

variable {b bound fuel : Nat} {depth : Item → Nat} {r : Ref} {used used' : Nat → Used}

namespace Heap

/-- What the roots and the locked blocks hold, directly or through other memory. -/
inductive Alive (h : Heap) : Ref → Prop
  | root {item : Item} {r : Ref} : item ∈ h.roots → item.counted = some r → Alive h r
  | locked {b : Nat} : b ∈ h.lockedBlock → Alive h (.gc b)
  | item {r r' : Ref} {item : Item} :
      Alive h r → item ∈ h.items r → item.counted = some r' → Alive h r'

/-- The block an item leads to, through no other block of the collector. -/
inductive Leads (h : Heap) : Item → Nat → Prop
  | gc (type : GcType) (b : Nat) : Leads h (.gc type b) b
  | mem {type : MemType} {c b : Nat} {item : Item} :
      item ∈ h.items (.mem c) → Leads h item b → Leads h (.mem type c) b
  | stackVar {slot b : Nat} : Leads h (h.roots.getD slot .simple) b → Leads h (.stackVar slot) b

/-- Following references leads to an end: their depth goes down at each step. -/
structure Chains (h : Heap) (depth : Item → Nat) (bound : Nat) : Prop where
  mem : ∀ type c item, .mem c ∈ h.live → item ∈ h.items (.mem c) →
    depth item < depth (.mem type c)
  slot : ∀ slot, depth (h.roots.getD slot .simple) < depth (.stackVar slot)
  le : ∀ item, depth item ≤ bound

/-- The lists hold the blocks allocated, each once, and every reference leads to memory in use. -/
structure Linked (h : Heap) : Prop where
  nodup : (h.currBlock ++ h.lockedBlock).Nodup
  listed : ∀ b, .gc b ∈ h.live ↔ b ∈ h.currBlock ∨ b ∈ h.lockedBlock
  roots : ∀ item ∈ h.roots, ∀ r, item.counted = some r → r ∈ h.live
  items : ∀ r ∈ h.live, ∀ item ∈ h.items r, ∀ r', item.counted = some r' → r' ∈ h.live
  noDeleted : h.deletedBlock = []

structure Flagged (h : Heap) : Prop where
  curr : ∀ b ∈ h.currBlock, h.used b = ⟨h.usedFlag, false, false⟩
  locked : ∀ b ∈ h.lockedBlock, (h.used b).delete = false ∧ (h.used b).deletelst = false

def Held (h : Heap) (item : Item) : Prop := ∀ r, item.counted = some r → h.Alive r

def unmarkedSet (h : Heap) (used : Nat → Used) : Finset Ref :=
  h.live.filter fun r =>
    (match r with
    | .gc b => h.unmarked used b
    | .mem _ => false) = true

section Mark

variable {h : Heap}

theorem Linked.alive_live (hl : h.Linked) (hr : h.Alive r) : r ∈ h.live := by
  induction hr with
  | root hmem hcounted => exact hl.roots _ hmem _ hcounted
  | locked hmem => exact (hl.listed _).mpr (.inr hmem)
  | item _ hmem hcounted ih => exact hl.items _ ih _ hmem _ hcounted

theorem held_root {slot : Nat} : h.Held (h.roots.getD slot .simple) := by
  intro r hcounted
  by_cases hslot : slot < h.roots.length
  · rw [getD_eq_getElem?_getD, getElem?_eq_getElem hslot] at hcounted
    exact .root (getElem_mem hslot) hcounted
  · rw [getD_eq_getElem?_getD, getElem?_eq_none (Nat.not_lt.mp hslot)] at hcounted
    exact absurd hcounted.symm (some_ne_none r)

theorem held_items (hr : h.Alive r) {item : Item} (hmem : item ∈ h.items r) :
    h.Held item :=
  fun _ hcounted => .item hr hmem hcounted

theorem mem_unmarkedSet :
    .gc b ∈ h.unmarkedSet used ↔ .gc b ∈ h.live ∧ h.unmarked used b = true :=
  mem_filter

theorem not_mem_unmarkedSet {c : Nat} : .mem c ∉ h.unmarkedSet used :=
  fun hmem => Bool.false_ne_true (mem_filter.mp hmem).2

/-- What a step of marking does: blocks not marked may be marked, and what they lead to is then
marked too. -/
structure Marks (h : Heap) (used used' : Nat → Used) : Prop where
  step : ∀ b, used' b = used b ∨
    h.unmarked used b = true ∧ used' b = { used b with flag := !(used b).flag }
  closed : ∀ b, h.unmarked used b = true → h.unmarked used' b = false →
    ∀ item ∈ h.items (.gc b), ∀ b', h.Leads item b' → h.unmarked used' b' = false
  alive : ∀ b, used' b ≠ used b → h.Alive (.gc b)

theorem unmarked_flip (hb : h.unmarked used b = true) (u : Used)
    (hu : u = { used b with flag := !(used b).flag }) (hu' : used' b = u) :
    h.unmarked used' b = false := by
  unfold unmarked at hb ⊢
  rw [hu', hu]
  rw [Bool.and_eq_true, beq_iff_eq] at hb
  obtain ⟨hflag, hlist⟩ := hb
  rw [hflag]
  cases h.usedFlag <;> rfl

theorem Marks.refl (used : Nat → Used) : h.Marks used used := by
  refine ⟨fun b => .inl rfl, fun b hb hb' => ?_, fun b hne => absurd rfl hne⟩
  rw [hb] at hb'
  exact absurd hb' Bool.noConfusion

theorem Marks.mono (hm : h.Marks used used') (hb : h.unmarked used b = false) :
    h.unmarked used' b = false := by
  rcases hm.step b with heq | ⟨hun, -⟩
  · unfold unmarked at hb ⊢
    rw [heq]
    exact hb
  · rw [hb] at hun
    exact absurd hun Bool.noConfusion

theorem Marks.trans {used'' : Nat → Used} (hm : h.Marks used used') (hm' : h.Marks used' used'') :
    h.Marks used used'' := by
  refine ⟨fun b => ?_, fun b hb hb'' => ?_, fun b hne => ?_⟩
  · rcases hm.step b with heq | ⟨hun, heq⟩
    · rcases hm'.step b with heq' | ⟨hun', heq'⟩
      · exact .inl (heq'.trans heq)
      · refine .inr ⟨?_, by rw [heq', heq]⟩
        unfold unmarked at hun' ⊢
        rw [← heq]
        exact hun'
    · rcases hm'.step b with heq' | ⟨hun', -⟩
      · exact .inr ⟨hun, heq'.trans heq⟩
      · rw [unmarked_flip hun _ rfl heq] at hun'
        exact absurd hun' Bool.noConfusion
  · cases hmid : h.unmarked used' b with
    | true => exact hm'.closed b hmid hb''
    | false =>
      intro item hitem b' hlead
      exact hm'.mono (hm.closed b hb hmid item hitem b' hlead)
  · by_cases heq : used' b = used b
    · exact hm'.alive b (by rw [heq]; exact hne)
    · exact hm.alive b heq

theorem Marks.card_le (hm : h.Marks used used') :
    (h.unmarkedSet used').card ≤ (h.unmarkedSet used).card := by
  refine card_le_card fun r hr => ?_
  cases r with
  | mem c => exact absurd hr not_mem_unmarkedSet
  | gc b =>
    obtain ⟨hlive, hb⟩ := mem_unmarkedSet.mp hr
    refine mem_unmarkedSet.mpr ⟨hlive, ?_⟩
    by_contra hmarked
    rw [hm.mono (Bool.eq_false_iff.mpr hmarked)] at hb
    exact absurd hb Bool.noConfusion

def MarksItem (h : Heap) (used used' : Nat → Used) (item : Item) : Prop :=
  h.Marks used used' ∧ ∀ b, h.Leads item b → h.unmarked used' b = false

variable (h) in
theorem foldl_marks (mark : (Nat → Used) → Item → (Nat → Used)) (items : List Item)
    (used : Nat → Used)
    (hmark : ∀ item ∈ items, ∀ used', h.Marks used used' →
      h.MarksItem used' (mark used' item) item) :
    h.Marks used (items.foldl mark used) ∧
      ∀ item ∈ items, ∀ b, h.Leads item b → h.unmarked (items.foldl mark used) b = false := by
  induction items generalizing used with
  | nil => exact ⟨.refl used, fun item hitem => absurd hitem not_mem_nil⟩
  | cons first rest ih =>
    obtain ⟨hfirst, hcovers⟩ := hmark first mem_cons_self used (.refl used)
    obtain ⟨hrest, hrest'⟩ := ih (mark used first) fun item hitem used' hm =>
      hmark item (mem_cons_of_mem _ hitem) used' (hfirst.trans hm)
    refine ⟨hfirst.trans hrest, fun item hitem b hlead => ?_⟩
    rcases mem_cons.mp hitem with rfl | hitem
    · exact hrest.mono (hcovers b hlead)
    · exact hrest' item hitem b hlead

theorem Marks.block (hb : h.unmarked used b = true) (halive : h.Alive (.gc b))
    (hm : h.Marks (update used b { used b with flag := !(used b).flag }) used')
    (hitems : ∀ item ∈ h.items (.gc b), ∀ b', h.Leads item b' → h.unmarked used' b' = false) :
    h.Marks used used' := by
  have hself : h.unmarked (update used b { used b with flag := !(used b).flag }) b = false :=
    unmarked_flip hb _ rfl (update_self ..)
  have hother : ∀ b', b' ≠ b →
      h.unmarked (update used b { used b with flag := !(used b).flag }) b' =
        h.unmarked used b' := by
    intro b' hne
    unfold unmarked
    rw [update_of_ne hne]
  refine ⟨fun b' => ?_, fun b' hun hmarked => ?_, fun b' hne => ?_⟩
  · by_cases heq : b' = b
    · subst heq
      rcases hm.step b' with hsame | ⟨hun, -⟩
      · rw [update_self] at hsame
        exact .inr ⟨hb, hsame⟩
      · rw [hself] at hun
        exact absurd hun Bool.noConfusion
    · rcases hm.step b' with hsame | ⟨hun, hflip⟩
      · rw [update_of_ne heq] at hsame
        exact .inl hsame
      · rw [hother b' heq] at hun
        rw [update_of_ne heq] at hflip
        exact .inr ⟨hun, hflip⟩
  · by_cases heq : b' = b
    · rw [heq]
      exact hitems
    · exact hm.closed b' ((hother b' heq).trans hun) hmarked
  · by_cases heq : b' = b
    · rw [heq]
      exact halive
    · refine hm.alive b' ?_
      rw [update_of_ne heq]
      exact hne

theorem card_flip_lt (hlive : .gc b ∈ h.live) (hb : h.unmarked used b = true) :
    (h.unmarkedSet (update used b { used b with flag := !(used b).flag })).card <
      (h.unmarkedSet used).card := by
  refine Finset.card_lt_card (Finset.ssubset_iff_subset_ne.mpr ⟨fun r hr => ?_, fun heq => ?_⟩)
  · cases r with
    | mem c => exact absurd hr not_mem_unmarkedSet
    | gc b' =>
      obtain ⟨hlive', hun⟩ := mem_unmarkedSet.mp hr
      refine mem_unmarkedSet.mpr ⟨hlive', ?_⟩
      by_cases hsame : b' = b
      · rw [hsame]
        exact hb
      · unfold unmarked at hun ⊢
        rw [update_of_ne hsame] at hun
        exact hun
  · have hmem : .gc b ∈ h.unmarkedSet used := mem_unmarkedSet.mpr ⟨hlive, hb⟩
    rw [← heq] at hmem
    have hself := unmarked_flip hb _ rfl
      (update_self b { used b with flag := !(used b).flag } used)
    rw [(mem_unmarkedSet.mp hmem).2] at hself
    exact absurd hself Bool.noConfusion

theorem gcItemRef_marks (hl : h.Linked) {depth : Item → Nat} {bound : Nat}
    (hc : h.Chains depth bound) {fuel : Nat} {used : Nat → Used} {item : Item}
    (hfuel : (h.unmarkedSet used).card * (bound + 2) + depth item < fuel)
    (hheld : h.Held item) : h.MarksItem used (h.gcItemRef fuel used item) item := by
  induction fuel generalizing used item with
  | zero => omega
  | succ fuel ih =>
    cases item with
    | simple => exact ⟨.refl used, fun b hlead => nomatch hlead⟩
    | stackVar slot =>
      have hdepth := hc.slot slot
      obtain ⟨hm, hcovers⟩ :=
        @ih used (h.roots.getD slot .simple) (by omega) held_root
      refine ⟨hm, fun b hlead => ?_⟩
      cases hlead with
      | stackVar hlead => exact hcovers b hlead
    | mem type c =>
      have halive : h.Alive (.mem c) := hheld _ rfl
      obtain ⟨hm, hcovers⟩ := foldl_marks h (h.gcItemRef fuel) (h.items (.mem c)) used
        fun item hitem used' hm => by
          have hdepth := hc.mem type c item (hl.alive_live halive) hitem
          have hcard := Nat.mul_le_mul_right (bound + 2) hm.card_le
          exact ih (by omega) (held_items halive hitem)
      refine ⟨hm, fun b hlead => ?_⟩
      cases hlead with
      | mem hitem hlead => exact hcovers _ hitem b hlead
    | gc type b =>
      have halive : h.Alive (.gc b) := hheld _ rfl
      unfold gcItemRef
      split_ifs with hb
      · have hlt := card_flip_lt (hl.alive_live halive) hb
        obtain ⟨hm, hcovers⟩ := foldl_marks h (h.gcItemRef fuel) (h.items (.gc b))
          (update used b { used b with flag := !(used b).flag })
          fun item hitem used' hm => by
            have hdepth := hc.le item
            have hcard := Nat.mul_le_mul_right (bound + 2)
              (Nat.le_trans (Nat.succ_le_succ hm.card_le) hlt)
            rw [Nat.succ_mul] at hcard
            exact ih (by omega) (held_items halive hitem)
        refine ⟨.block hb halive hm hcovers, fun b' hlead => ?_⟩
        cases hlead with
        | gc => exact hm.mono (unmarked_flip hb _ rfl (update_self ..))
      · refine ⟨.refl used, fun b' hlead => ?_⟩
        cases hlead with
        | gc => exact Bool.eq_false_iff.mpr hb

def depthBound (h : Heap) (bound : Nat) : Nat := (h.live.card + 1) * (bound + 2)

theorem unmarkedSet_card_le (used : Nat → Used) : (h.unmarkedSet used).card ≤ h.live.card :=
  card_filter_le _ _

theorem mark_eq_foldl (fuel : Nat) :
    h.mark fuel = (h.roots ++ h.lockedBlock.flatMap fun b => h.items (.gc b)).foldl
      (h.gcItemRef fuel) h.used := by
  unfold mark
  rw [foldl_append, foldl_flatMap]

theorem mark_marks (hl : h.Linked) (hc : h.Chains depth bound) (hfuel : h.depthBound bound ≤ fuel) :
    h.Marks h.used (h.mark fuel) ∧
      ∀ item ∈ h.roots ++ h.lockedBlock.flatMap fun b => h.items (.gc b),
        ∀ b, h.Leads item b → h.unmarked (h.mark fuel) b = false := by
  rw [mark_eq_foldl]
  refine foldl_marks h _ _ _ fun item hitem used' _ => gcItemRef_marks hl hc ?_ ?_
  · have hdepth := hc.le item
    have hcard := Nat.mul_le_mul_right (bound + 2) (unmarkedSet_card_le (h := h) used')
    unfold depthBound at hfuel
    rw [Nat.succ_mul] at hfuel
    omega
  · rcases mem_append.mp hitem with hroot | hlocked
    · exact fun _ hcounted => .root hroot hcounted
    · obtain ⟨b, hb, hmem⟩ := mem_flatMap.mp hlocked
      exact held_items (.locked hb) hmem

theorem Alive.marked (hl : h.Linked) (hf : h.Flagged) (hm : h.Marks h.used used)
    (hcovers : ∀ item ∈ h.roots ++ h.lockedBlock.flatMap fun b => h.items (.gc b),
      ∀ b, h.Leads item b → h.unmarked used b = false) (hr : h.Alive r) :
    (∀ b, r = .gc b → b ∈ h.lockedBlock ∨ h.unmarked used b = false) ∧
      ∀ item ∈ h.items r, ∀ b, h.Leads item b → h.unmarked used b = false := by
  have hlocked : ∀ b ∈ h.lockedBlock, ∀ item ∈ h.items (.gc b), ∀ b', h.Leads item b' →
      h.unmarked used b' = false := fun b hb item hitem =>
    hcovers item (mem_append_right _ (mem_flatMap.mpr ⟨b, hb, hitem⟩))
  -- an item that leads to marked blocks holds memory that does
  have hstep : ∀ (item : Item) (r : Ref), item.counted = some r → h.Alive r →
      (∀ b, h.Leads item b → h.unmarked used b = false) →
      (∀ b, r = .gc b → b ∈ h.lockedBlock ∨ h.unmarked used b = false) ∧
        ∀ item ∈ h.items r, ∀ b, h.Leads item b → h.unmarked used b = false := by
    intro item r hcounted halive hleads
    cases item with
    | simple | stackVar slot => exact absurd hcounted.symm (some_ne_none r)
    | mem type c =>
      obtain rfl := some.inj hcounted
      exact ⟨fun b heq => Ref.noConfusion heq,
        fun item hitem b hlead => hleads b (.mem hitem hlead)⟩
    | gc type b =>
      obtain rfl := some.inj hcounted
      have hmarked := hleads b (.gc type b)
      refine ⟨fun b' heq => ?_, ?_⟩
      · obtain rfl := Ref.gc.inj heq
        exact .inr hmarked
      · rcases (hl.listed b).mp (hl.alive_live halive) with hcurr | hlock
        · have hun : h.unmarked h.used b = true := by
            unfold unmarked
            rw [hf.curr b hcurr]
            simp
          exact hm.closed b hun hmarked
        · exact hlocked b hlock
  induction hr with
  | root hmem hcounted =>
    exact hstep _ _ hcounted (.root hmem hcounted) (hcovers _ (mem_append_left _ hmem))
  | @locked b hmem =>
    refine ⟨fun b' heq => ?_, hlocked b hmem⟩
    obtain rfl := Ref.gc.inj heq
    exact .inl hmem
  | item halive hmem hcounted ih =>
    exact hstep _ _ hcounted (.item halive hmem hcounted) (ih.2 _ hmem)

theorem mark_eq_iff (hl : h.Linked) (hf : h.Flagged) (hc : h.Chains depth bound)
    (hfuel : h.depthBound bound ≤ fuel) (hb : b ∈ h.currBlock) :
    h.mark fuel b = ⟨h.usedFlag, false, false⟩ ↔ ¬ h.Alive (.gc b) := by
  obtain ⟨hm, hcovers⟩ := mark_marks hl hc hfuel
  have hstart := hf.curr b hb
  constructor
  · intro hused halive
    have hun : h.unmarked (h.mark fuel) b = true := by
      unfold unmarked
      rw [hused]
      simp
    rcases (halive.marked hl hf hm hcovers).1 b rfl with hlocked | hmarked
    · exact disjoint_of_nodup_append hl.nodup hb hlocked
    · rw [hun] at hmarked
      exact absurd hmarked Bool.noConfusion
  · intro hdead
    by_contra hne
    exact hdead (hm.alive b (by rw [hstart]; exact hne))

end Mark

end Heap

end Harbour.Vm.Garbage
