import Harbour.Vm.CloneRuns

/-!
A clone is isomorphic to what has been cloned.
-/

namespace Harbour.Vm.Clone

open Library.KeyTable HashTable HashPairs Option List

variable {V R : Type} {itemUnRef : R → Item V R} {source : Heap V R} {first : Nat}

theorem nestedCloneDo_clones (hsound : source.Sound itemUnRef) (depth : Nat) :
    Clones itemUnRef source first (nestedCloneDo itemUnRef depth) depth := by
  induction depth with
  | zero =>
    intro s φ p src hcopies hfirst hheld hp hdepth
    have hle := hcopies.count_le hsound
    omega
  | succ depth ih =>
    intro s φ p src hcopies hfirst hheld hp hdepth
    obtain ⟨a', c', hreached, hc', hitem⟩ := id hheld
    have hfound : ∀ a q, src.value = some a → s.Entry a q →
        Cloned itemUnRef source first p src s φ (s.itemCopy p q) φ := by
      intro a q ha hq
      obtain ⟨c, hc, hcopy⟩ := hcopies.entry a q hq
      obtain ⟨c₁, hc₁, href⟩ := hsound.links a' c' src hc' hitem a ha
      cases hc.symm.trans hc₁
      unfold Cloning.itemCopy
      rw [hcopy, ← href]
      apply hcopies.cloned hp
      intro a₁ ha₁
      cases ha.symm.trans ha₁
      exact ⟨q, hq⟩
    have henters : ∀ a (cloned : NestedCloned), src.value = some a → source.isObject a = false →
        (∀ q, ¬s.Entry a q) →
        (∀ e, e ∈ cloned.pRefs.entries ↔ e = (a, p) ∨ e ∈ s.cloned.pRefs.entries) →
        cloned.pRefs.entries.length = s.count + 1 →
        Enters itemUnRef source first s φ p a cloned := by
      intro a cloned ha hobject hmissing hentries hcount
      exact ⟨hcopies, hp, fun ⟨q, hq⟩ => hmissing q hq, .link hreached hc' hitem ha hobject,
        .inr hfirst, hentries, hcount⟩
    cases src with
    | nil | byRef ref | other x => exact ⟨_, φ, rfl, hcopies.cloned hp nofun⟩
    | array value =>
      obtain ⟨c, hc, href⟩ := hsound.links a' c' _ hc' hitem value rfl
      unfold nestedCloneDo
      dsimp only
      rcases nestedCloneFind_spec s.cloned value p with
        ⟨q, hfind, hq⟩ | ⟨cloned, hfind, hmissing, hentries, hcount⟩
      · rw [hfind]
        exact ⟨_, φ, rfl, hfound value q rfl hq⟩
      · rw [hfind]
        dsimp only
        have hsame : s.heap.isObject value = source.isObject value := by
          unfold Heap.isObject
          rw [hcopies.kept value (hsound.bound value c hc)]
        rw [hsame]
        split
        · rename_i hobject
          exact ⟨_, φ, rfl, objCloneBody_cloned hsound hcopies hfirst hheld hp hobject
            (fun ⟨q, hq⟩ => hmissing q hq) hentries hcount⟩
        · rename_i hobject
          cases c with
          | hash t => exact nomatch href
          | array uiClass pItems =>
            apply arrayCloneBody_cloned ih hsound
              (henters value cloned rfl (Bool.eq_false_iff.mpr hobject) hmissing hentries
                hcount) hc
            rw [hcount]
            change source.next < depth + (s.count + 1)
            omega
    | hash value =>
      obtain ⟨c, hc, href⟩ := hsound.links a' c' _ hc' hitem value rfl
      unfold nestedCloneDo
      dsimp only
      rcases nestedCloneFind_spec s.cloned value p with
        ⟨q, hfind, hq⟩ | ⟨cloned, hfind, hmissing, hentries, hcount⟩
      · rw [hfind]
        exact ⟨_, φ, rfl, hfound value q rfl hq⟩
      · rw [hfind]
        cases c with
        | array uiClass pItems => exact nomatch href
        | hash t =>
          have hobject : source.isObject value = false := by
            unfold Heap.isObject
            rw [hc]
          apply hashCloneBody_cloned ih hsound
            (henters value cloned rfl hobject hmissing hentries hcount) hc
          rw [hcount]
          change source.next < depth + (s.count + 1)
          omega

def cloneTo (itemUnRef : R → Item V R) (depth a : Nat) (heap : Heap V R) : Option (Cloning V R) :=
  match heap.body a with
  | some (.hash _) => hashCloneTo itemUnRef depth a heap
  | _ => arrayCloneTo itemUnRef depth a heap

def Cloning.start (source : Heap V R) : Cloning V R :=
  ⟨source, ⟨⟨[], List.Pairwise.nil⟩, 16, (nestedCloneInit 0 .top).size, Nat.zero_le 16⟩⟩

theorem start_visited {a : Nat} : ¬(Cloning.start source).Visited a := by
  rintro ⟨p, hp⟩
  exact absurd hp not_mem_nil

theorem start_enters (hsound : source.Sound itemUnRef) :
    Enters itemUnRef source first (.start source) (fun _ => none) .top first
      (nestedCloneInit first .top) where
  copies :=
    { kept := fun _ _ => rfl
      next := Nat.le_refl _
      free := by
        intro b hb
        change source.body b = none
        cases hc : source.body b with
        | none => rfl
        | some c => exact absurd (hsound.bound b c hc) (Nat.not_lt.mpr hb)
      entry := fun a p hp => absurd hp not_mem_nil
      copied := nofun
      injective := nofun
      reached := nofun
      shared := fun a ha => absurd ha start_visited }
  vacant := ⟨rfl, nofun, fun a ha => absurd ha not_mem_nil⟩
  missing := start_visited
  reached := .first
  start := .inl rfl
  entries e := by
    change e ∈ [(first, Place.top)] ↔ _
    rw [mem_singleton]
    exact (or_iff_left not_mem_nil).symm
  count := rfl

theorem cloneTo_cloned (hsound : source.Sound itemUnRef) {c : Container V R}
    (hc : source.body first = some c) {depth : Nat} (hdepth : source.next < depth + 1) :
    ∃ s φ, cloneTo itemUnRef depth first source = some s ∧
      Cloned itemUnRef source first .top (c.ref first) (.start source) (fun _ => none) s φ := by
  have hvisit : Clones itemUnRef source first (nestedCloneDo itemUnRef depth) depth :=
    nestedCloneDo_clones hsound depth
  unfold cloneTo
  rw [hc]
  cases c with
  | array uiClass pItems =>
    exact arrayCloneBody_cloned hvisit hsound (start_enters hsound) hc hdepth
  | hash t => exact hashCloneBody_cloned hvisit hsound (start_enters hsound) hc hdepth

section Depth

variable {visit visit' : Visit V R}

/-- One visit gives what another one gives, when it gives anything. -/
def Below (visit visit' : Visit V R) : Prop :=
  ∀ p src s s', visit p src s = some s' → visit' p src s = some s'

section

variable (h : Below visit visit')

include h

theorem cloneItems_below (value : Nat) (pItems : List (Item V R)) (nPos : Nat) (s s' : Cloning V R)
    (hloop : cloneItems visit value nPos pItems s = some s') :
    cloneItems visit' value nPos pItems s = some s' := by
  induction pItems generalizing nPos s with
  | nil => exact hloop
  | cons item pItems ih =>
    obtain ⟨s₁, hvisit, hloop⟩ := bind_eq_some_iff.mp hloop
    unfold cloneItems
    rw [h _ _ _ _ hvisit]
    exact ih (nPos + 1) s₁ hloop

theorem clonePairs_below (value : Nat) (pPairs : List (V × Item V R)) (nPos : Nat)
    (s s' : Cloning V R) (hloop : clonePairs visit itemUnRef value nPos pPairs s = some s') :
    clonePairs visit' itemUnRef value nPos pPairs s = some s' := by
  induction pPairs generalizing nPos s with
  | nil => exact hloop
  | cons pair pPairs ih =>
    obtain ⟨s₁, hvisit, hloop⟩ := bind_eq_some_iff.mp hloop
    unfold clonePairs
    rw [h _ _ _ _ hvisit]
    exact ih (nPos + 1) s₁ hloop

theorem arrayCloneBody_below (p : Place) (a : Nat) (s s' : Cloning V R)
    (hbody : arrayCloneBody visit p a s = some s') : arrayCloneBody visit' p a s = some s' := by
  unfold arrayCloneBody at hbody ⊢
  split at hbody
  · exact cloneItems_below h _ _ _ _ _ hbody
  · exact hbody

theorem hashCloneBody_below (p : Place) (a : Nat) (s s' : Cloning V R)
    (hbody : hashCloneBody visit itemUnRef p a s = some s') :
    hashCloneBody visit' itemUnRef p a s = some s' := by
  unfold hashCloneBody at hbody ⊢
  split at hbody
  · exact clonePairs_below h _ _ _ _ _ hbody
  · exact hbody

end

theorem nestedCloneDo_below (depth : Nat) :
    Below (nestedCloneDo itemUnRef depth) (nestedCloneDo itemUnRef (depth + 1)) := by
  induction depth with
  | zero => exact fun p src s s' h => nomatch h
  | succ depth ih =>
    intro p src s s' h
    unfold nestedCloneDo at h ⊢
    cases src with
    | array value =>
      dsimp only at h ⊢
      cases hfind : nestedCloneFind s.cloned value p with
      | inl q =>
        rw [hfind] at h
        exact h
      | inr cloned =>
        rw [hfind] at h
        split_ifs at h ⊢
        · exact h
        · exact arrayCloneBody_below ih _ _ _ _ h
    | hash value =>
      dsimp only at h ⊢
      cases hfind : nestedCloneFind s.cloned value p with
      | inl q =>
        rw [hfind] at h
        exact h
      | inr cloned =>
        rw [hfind] at h
        exact hashCloneBody_below ih _ _ _ _ h
    | _ => exact h

theorem cloneTo_below {depth depth' a : Nat} {heap : Heap V R} {s : Cloning V R}
    (hle : depth ≤ depth') (h : cloneTo itemUnRef depth a heap = some s) :
    cloneTo itemUnRef depth' a heap = some s := by
  induction hle with
  | refl => exact h
  | step _ ih =>
    unfold cloneTo at ih ⊢
    split at ih
    · exact hashCloneBody_below (nestedCloneDo_below _) _ _ _ _ ih
    · exact arrayCloneBody_below (nestedCloneDo_below _) _ _ _ _ ih

end Depth

def Container.CopyOf (itemUnRef : R → Item V R) (φ : Nat → Option Nat) :
    Container V R → Container V R → Prop
  | .array uiClass pItems, c => c = .array uiClass (pItems.map (Item.image φ))
  | .hash t, .hash t' =>
    t'.iFlags = t.iFlags ∧ t'.pDefault = t.pDefault ∧ t'.keyOrder = t.keyOrder ∧
      t'.pPairs = t.pPairs.map fun pair => (pair.1, (pair.2.unRef itemUnRef).image φ)
  | .hash _, .array .. => False

/-- What `φ` says is an isomorphism of the arrays and hashes that are reached, other than objects,
to new ones, and nothing else has been changed. Each of those, and each object that they hold, has
one entry in the table. -/
structure Isomorphic (itemUnRef : R → Item V R) (source : Heap V R) (first : Nat) (src : Item V R)
    (s : Cloning V R) (φ : Nat → Option Nat) : Prop where
  top : s.heap.top = src.image φ
  domain : ∀ a, (φ a).isSome ↔ source.Reaches itemUnRef first a
  fresh : ∀ a b, φ a = some b → source.body b = none
  injective : ∀ a a' b, φ a = some b → φ a' = some b → a = a'
  body : ∀ a b c, φ a = some b → source.body a = some c →
    ∃ c', s.heap.body b = some c' ∧ c.CopyOf itemUnRef φ c'
  shares : ∀ item item', source.Refers item → source.Refers item' →
    (item.image φ = item'.image φ ↔ item = item')
  kept : ∀ a c, source.body a = some c → s.heap.body a = some c
  sorted : s.cloned.pRefs.entries.Pairwise fun entry entry' => entry.1 < entry'.1
  visited : ∀ a, s.Visited a ↔ source.Reaches itemUnRef first a ∨
    source.isObject a = true ∧ ∃ item, source.Held itemUnRef first item ∧ item.value = some a

section Isomorphic

variable {φ : Nat → Option Nat} {s : Cloning V R}

theorem cloneHead_same (t : BaseHash V (Item V R)) :
    (BaseHash.cloneHead t).iFlags = t.iFlags ∧ (BaseHash.cloneHead t).pDefault = t.pDefault := by
  unfold BaseHash.cloneHead hashGrow
  split
  · exact ⟨rfl, rfl⟩
  · exact ⟨rfl, rfl⟩

theorem cloneHead_pnPos {t : BaseHash V (Item V R)} (h : Coherent t) :
    (BaseHash.cloneHead t).pnPos = if t.nLen = 0 then none else t.pnPos := by
  have hgrow :
      (hashGrow { (hashNew : BaseHash V (Item V R)) with iFlags := t.iFlags } t.nLen).pnPos =
      if t.nLen = 0 then none else if t.iFlags.keepOrder = true then some [] else none := by
    unfold hashGrow
    split_ifs <;> simp_all [hashNew]
  have hlayout := h.layout
  have hallocated := h.allocated
  unfold BaseHash.cloneHead
  dsimp only
  rw [hgrow]
  cases hslots : t.pnPos with
  | none =>
    split_ifs with hempty hkeep
    · rfl
    · rcases hlayout.mp hslots with hkept | hsize
      · exact absurd (hkept.symm.trans hkeep) (by decide)
      · omega
    · rfl
  | some pnPos =>
    split_ifs with hempty hkeep
    · rfl
    · rfl
    · have hnone := hlayout.mpr (.inl (Bool.eq_false_iff.mpr hkeep))
      exact absurd (hslots.symm.trans hnone) (some_ne_none _)

theorem cloneHead_copy {t : BaseHash V (Item V R)} (h : Coherent t) :
    (Container.hash t).CopyOf itemUnRef φ ((Container.hash t).copy itemUnRef φ) := by
  obtain ⟨hflags, hdefault⟩ := cloneHead_same t
  refine ⟨hflags, hdefault, ?_, rfl⟩
  have hlength : (t.pPairs.map fun pair => (pair.1, (pair.2.unRef itemUnRef).image φ)).length =
      t.nLen := length_map _
  change (BaseHash.cloneHead t).pnPos.getD (range (length _)) = t.keyOrder
  rw [cloneHead_pnPos h, hlength]
  split_ifs with hempty
  · have horder : t.keyOrder = [] := length_eq_zero_iff.mp (h.keyOrder_length.trans hempty)
    rw [horder, hempty]
    rfl
  · rfl

theorem image_inj (hfresh : ∀ a b, φ a = some b → source.body b = none)
    (hinjective : ∀ a a' b, φ a = some b → φ a' = some b → a = a') {a a' : Nat}
    (ha : ∃ c, source.body a = some c) (ha' : ∃ c, source.body a' = some c)
    (h : (φ a).getD a = (φ a').getD a') : a = a' := by
  obtain ⟨c, hc⟩ := ha
  obtain ⟨c', hc'⟩ := ha'
  cases hb : φ a with
  | some b =>
    rw [hb] at h
    cases hb' : φ a' with
    | some b' =>
      rw [hb'] at h
      exact hinjective a a' b hb (hb'.trans (congrArg some h.symm))
    | none =>
      rw [hb'] at h
      have hnone := hfresh a b hb
      rw [show b = a' from h, hc'] at hnone
      exact nomatch hnone
  | none =>
    rw [hb] at h
    cases hb' : φ a' with
    | some b' =>
      rw [hb'] at h
      have hnone := hfresh a' b' hb'
      rw [← show a = b' from h, hc] at hnone
      exact nomatch hnone
    | none =>
      rw [hb'] at h
      exact h

theorem image_shares (hfresh : ∀ a b, φ a = some b → source.body b = none)
    (hinjective : ∀ a a' b, φ a = some b → φ a' = some b → a = a') {item item' : Item V R}
    (hitem : source.Refers item) (hitem' : source.Refers item') :
    item.image φ = item'.image φ ↔ item = item' := by
  refine ⟨fun h => ?_, fun h => h ▸ rfl⟩
  have hbody : ∀ {item : Item V R} {a : Nat}, source.Refers item → item.value = some a →
      ∃ c, source.body a = some c := by
    intro item a hrefers ha
    obtain ⟨c, hc, -⟩ := hrefers a ha
    exact ⟨c, hc⟩
  cases item with
  | array a =>
    cases item' with
    | array a' =>
      injection h with h
      exact congrArg Item.array
        (image_inj hfresh hinjective (hbody hitem rfl) (hbody hitem' rfl) h)
    | _ => exact nomatch h
  | hash a =>
    cases item' with
    | hash a' =>
      injection h with h
      exact congrArg Item.hash
        (image_inj hfresh hinjective (hbody hitem rfl) (hbody hitem' rfl) h)
    | _ => exact nomatch h
  | _ =>
    cases item' with
    | array a' => exact nomatch h
    | hash a' => exact nomatch h
    | _ => exact h

theorem Cloned.isomorphic (hsound : source.Sound itemUnRef) {c : Container V R}
    (h : Cloned itemUnRef source first .top (c.ref first) (.start source) (fun _ => none) s φ) :
    Isomorphic itemUnRef source first (c.ref first) s φ := by
  have hcopies := h.copies
  have hdone : ∀ a, s.Visited a → Done itemUnRef source s φ a :=
    fun a ha => h.done a ha start_visited
  have hfresh : ∀ a b, φ a = some b → source.body b = none := by
    intro a b hab
    cases hc : source.body b with
    | none => rfl
    | some c => exact absurd (hsound.bound b c hc) (Nat.not_lt.mpr (hcopies.copied a b hab).2.1)
  have hsettled : ∀ a c item, (φ a).isSome → source.body a = some c →
      item ∈ c.links itemUnRef → s.Settled item := by
    intro a c item ha hc hitem
    obtain ⟨b, hb⟩ := isSome_iff_exists.mp ha
    obtain ⟨c', hc', -, hlinks⟩ := hdone a (hcopies.copied a b hb).1 b hb
    cases hc.symm.trans hc'
    exact hlinks item hitem
  have hdomain : ∀ a, (φ a).isSome ↔ source.Reaches itemUnRef first a := by
    intro a
    constructor
    · intro ha
      obtain ⟨b, hb⟩ := isSome_iff_exists.mp ha
      exact hcopies.reached a b hb
    · intro ha
      induction ha with
      | first =>
        cases hfirst : φ first with
        | some b => rfl
        | none => exact absurd rfl (hcopies.shared first (h.settled first ref_value) hfirst).2.1
      | link _ hc hitem hvalue hobject ih =>
        rename_i a b c' item _
        cases hb : φ b with
        | some b' => rfl
        | none =>
          have hvisited := hsettled a c' item ih hc hitem b hvalue
          exact nomatch (hcopies.shared b hvisited hb).1.symm.trans hobject
  refine ⟨h.top, hdomain, hfresh, hcopies.injective, ?_, ?_, ?_, s.cloned.pRefs.sorted, ?_⟩
  · intro a b c hb hc
    obtain ⟨c', hc', hbody, -⟩ := hdone a (hcopies.copied a b hb).1 b hb
    cases hc.symm.trans hc'
    refine ⟨_, hbody, ?_⟩
    cases c with
    | array uiClass pItems => exact rfl
    | hash t => exact cloneHead_copy (hsound.hashes a t hc)
  · exact fun item item' hitem hitem' => image_shares hfresh hcopies.injective hitem hitem'
  · intro a c hc
    exact (hcopies.kept a (hsound.bound a c hc)).trans hc
  · intro a
    constructor
    · intro ha
      cases hb : φ a with
      | some b => exact .inl (hcopies.reached a b hb)
      | none =>
        obtain ⟨hobject, -, hheld⟩ := hcopies.shared a ha hb
        exact .inr ⟨hobject, hheld⟩
    · rintro (ha | ⟨-, item, ⟨a', c', hreached, hc', hitem⟩, hvalue⟩)
      · obtain ⟨b, hb⟩ := isSome_iff_exists.mp ((hdomain a).mpr ha)
        exact (hcopies.copied a b hb).1
      · exact hsettled a' c' item ((hdomain a').mpr hreached) hc' hitem a hvalue

end Isomorphic

/-- Arrays and hashes are cloned however they are nested. -/
theorem clone_isomorphic (hsound : source.Sound itemUnRef) {c : Container V R}
    (hc : source.body first = some c) :
    ∃ s φ, (∀ depth ≥ source.next, cloneTo itemUnRef depth first source = some s) ∧
      Isomorphic itemUnRef source first (c.ref first) s φ := by
  obtain ⟨s, φ, hclone, hcloned⟩ := cloneTo_cloned hsound hc (Nat.lt_succ_self source.next)
  exact ⟨s, φ, fun depth hdepth => cloneTo_below hdepth hclone, hcloned.isomorphic hsound⟩

def looped : Heap Nat Unit where
  body a := if a = 0 then some (.array 0 [.array 0, .other 5]) else none
  next := 1
  top := .nil

theorem looped_sound : looped.Sound fun _ => .nil := by
  have hbody : ∀ a c, looped.body a = some c → a = 0 ∧ c = .array 0 [.array 0, .other 5] := by
    intro a c hc
    obtain ⟨ha, hc⟩ := ite_none_right_eq_some.mp hc
    exact ⟨ha, (some.inj hc).symm⟩
  refine ⟨fun a c hc => (hbody a c hc).1 ▸ Nat.zero_lt_one, ?_, ?_⟩
  · intro a t hc
    exact nomatch (hbody a _ hc).2
  · intro a c item hc hitem b hb
    obtain ⟨rfl, rfl⟩ := hbody a c hc
    rcases mem_cons.mp hitem with rfl | hitem
    · cases hb
      exact ⟨_, rfl, rfl⟩
    · cases mem_singleton.mp hitem
      exact nomatch hb

theorem clone_isomorphic_looped : ∃ s φ,
    (∀ depth ≥ 1, cloneTo (fun _ => .nil) depth 0 looped = some s) ∧
      Isomorphic (fun _ => .nil) looped 0 (.array 0) s φ :=
  clone_isomorphic looped_sound (c := .array 0 [.array 0, .other 5]) rfl

def holder : Heap Nat Unit where
  body a := if a = 0 then some (.array 0 [.array 1]) else if a = 1 then some (.array 7 []) else none
  next := 2
  top := .nil

theorem holder_sound : holder.Sound fun _ => .nil := by
  have hbody : ∀ a c, holder.body a = some c →
      a = 0 ∧ c = .array 0 [.array 1] ∨ a = 1 ∧ c = .array 7 [] := by
    intro a c hc
    unfold holder at hc
    dsimp only at hc
    split_ifs at hc with h0 h1
    · exact .inl ⟨h0, (some.inj hc).symm⟩
    · exact .inr ⟨h1, (some.inj hc).symm⟩
  refine ⟨fun a c hc => ?_, ?_, ?_⟩
  · rcases hbody a c hc with ⟨rfl, -⟩ | ⟨rfl, -⟩
    · decide
    · decide
  · intro a t hc
    rcases hbody a _ hc with ⟨-, hc⟩ | ⟨-, hc⟩
    · exact nomatch hc
    · exact nomatch hc
  · intro a c item hc hitem b hb
    rcases hbody a c hc with ⟨-, rfl⟩ | ⟨-, rfl⟩
    · cases mem_singleton.mp hitem
      cases hb
      exact ⟨_, rfl, rfl⟩
    · exact absurd hitem not_mem_nil

/-- The clone holds the object itself. -/
theorem holder_shared : ∃ s b, cloneTo (fun _ => .nil) 2 0 holder = some s ∧
    s.heap.top = .array b ∧ s.heap.body b = some (.array 0 [.array 1]) ∧
    holder.body 1 = some (.array 7 []) := by
  have hbody : holder.body 0 = some (.array 0 [.array 1]) := rfl
  have hdepth : holder.next < 2 + 1 := by decide
  obtain ⟨s, φ, hclone, hcloned⟩ := cloneTo_cloned holder_sound hbody hdepth
  have hiso := hcloned.isomorphic holder_sound
  obtain ⟨b, hb⟩ := isSome_iff_exists.mp ((hiso.domain 0).mpr .first)
  have hobject : φ 1 = none := by
    rw [← not_isSome_iff_eq_none, hiso.domain]
    intro hreached
    cases hreached with
    | link _ _ _ _ hobject => exact nomatch hobject
  obtain ⟨c', hc', hcopy⟩ := hiso.body 0 b _ hb rfl
  refine ⟨s, b, hclone, hiso.top.trans (image_ref hb), ?_, rfl⟩
  rw [hc', show c' = _ from hcopy]
  change some (Container.array 0 [Item.array ((φ 1).getD 1)]) = _
  rw [hobject]
  rfl

end Harbour.Vm.Clone
