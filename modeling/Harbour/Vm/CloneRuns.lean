import Harbour.Vm.CloneSteps

/-!
Clones are isomorphic to what they are cloned from.
-/

namespace Harbour.Vm.Clone

open Library.KeyTable HashTable HashPairs List Function

variable {V R : Type} {itemUnRef : R → Item V R} {source : Heap V R} {first : Nat}

section Loops

variable {s s₀ s₁ s' : Cloning V R} {φ φ₁ φ' : Nat → Option Nat} {a b n : Nat} {item : Item V R}
  {rest : List (Item V R)}

section

variable (hcopies : Copies itemUnRef source first s φ) (hb : φ a = some b)

include hcopies hb

theorem Filled.keeps {full : (Nat → Option Nat) → Container V R} {a' : Nat} (hne : a' ≠ a)
    (hvisited : s.Visited a') (hdone : Done itemUnRef source s φ a')
    (hfilled : Filled itemUnRef source first b rest full s φ s' φ') :
    Done itemUnRef source s' φ' a' := by
  intro b' hb'
  rw [hfilled.grows.stable a' hvisited] at hb'
  obtain ⟨c, hc, hbody, hsettled⟩ := hdone b' hb'
  refine ⟨c, hc, ?_, fun item hitem => hfilled.grows.settled (hsettled item hitem)⟩
  have hneb : b' ≠ b := by
    rintro rfl
    exact hne (hcopies.injective a' a b' hb' hb)
  rw [hfilled.body b' (hcopies.copied a' b' hb').2.2 hneb, hbody, hfilled.grows.copy hsettled]

theorem Filled.cons {full full' : (Nat → Option Nat) → Container V R}
    (hcloned₀ : s₀.cloned = s.cloned) (hnext₀ : s₀.heap.next = s.heap.next)
    (htop₀ : s₀.heap.top = s.heap.top) (hbody₀ : ∀ b' ≠ b, s₀.heap.body b' = s.heap.body b')
    (hcloned : Cloned itemUnRef source first (.inside b n) item s₀ φ s₁ φ₁)
    (hfilled : Filled itemUnRef source first b rest full s₁ φ₁ s' φ') (hfull : full φ' = full' φ') :
    Filled itemUnRef source first b (item :: rest) full' s φ s' φ' := by
  have hentry₀ : ∀ a q, s₀.Entry a q ↔ s.Entry a q := by
    intro a q
    unfold Cloning.Entry
    rw [hcloned₀]
  have hgrows₀ : Grows s φ s₀ φ := by
    refine ⟨fun a q hq => (hentry₀ a q).mpr hq, fun _ _ => rfl, Nat.le_of_eq hnext₀.symm, ?_⟩
    unfold Cloning.count
    rw [hcloned₀]
  have hgrows := hgrows₀.trans hcloned.grows
  have hb₁ : φ₁ a = some b := (hgrows.stable a (hcopies.copied a b hb).1).trans hb
  refine ⟨hfilled.copies, hgrows.trans hfilled.grows, ?_, ?_, ?_, ?_, ?_, ?_⟩
  · intro x hx
    rcases mem_cons.mp hx with rfl | hx
    · exact hfilled.grows.settled hcloned.settled
    · exact hfilled.settled x hx
  · rw [hfilled.filled, hfull]
  · intro b' hb' hne
    have howner : (Place.inside b n).owner ≠ some b' := fun heq => hne (Option.some.inj heq).symm
    rw [hfilled.body b' (Nat.lt_of_lt_of_le hb' hgrows.next) hne,
      hcloned.body b' (Nat.lt_of_lt_of_eq hb' hnext₀.symm), setItem_body howner, hbody₀ b' hne]
  · exact hfilled.top.trans (hcloned.top.trans htop₀)
  · intro a' q hq
    rcases hfilled.places a' q hq with hq | hq | ⟨b', howner, hb'⟩
    · rcases hcloned.places a' q hq with hq | rfl | ⟨b', howner, hb'⟩
      · exact .inl ((hentry₀ a' q).mp hq)
      · exact .inr (.inl rfl)
      · exact .inr (.inr ⟨b', howner, Nat.le_trans (Nat.le_of_eq hnext₀.symm) hb'⟩)
    · exact .inr (.inl hq)
    · exact .inr (.inr ⟨b', howner, Nat.le_trans hgrows.next hb'⟩)
  · intro a' ha' hnot
    by_cases hvisited : s₁.Visited a'
    · have hnot₀ : ¬s₀.Visited a' := by
        rintro ⟨q, hq⟩
        exact hnot ⟨q, (hentry₀ a' q).mp hq⟩
      have hne : a' ≠ a := by
        rintro rfl
        exact hnot (hcopies.copied a' b hb).1
      exact hfilled.keeps hcloned.copies hb₁ hne hvisited (hcloned.done a' hvisited hnot₀)
    · exact hfilled.done a' ha' hvisited

end

theorem Cloned.entries_lt (hb : b < s.heap.next) (hentries : ∀ a m, s.Entry a (.inside b m) → m < n)
    (hcloned : Cloned itemUnRef source first (.inside b n) item s φ s₁ φ₁) :
    ∀ a m, s₁.Entry a (.inside b m) → m < n + 1 := by
  intro a m hm
  rcases hcloned.places a _ hm with hold | heq | ⟨b', howner, hb'⟩
  · exact Nat.lt_succ_of_lt (hentries a m hold)
  · cases heq
    exact Nat.lt_succ_self n
  · cases howner
    exact absurd hb (Nat.not_lt.mpr hb')

variable {visit : Visit V R} {depth : Nat}

theorem Filled.nil {full : (Nat → Option Nat) → Container V R}
    (hcopies : Copies itemUnRef source first s φ) (hfull : s.heap.body b = some (full φ)) :
    Filled itemUnRef source first b [] full s φ s φ where
  copies := hcopies
  grows := ⟨fun _ _ hq => hq, fun _ _ => rfl, Nat.le_refl _, Nat.le_refl _⟩
  settled _ hitem := absurd hitem not_mem_nil
  filled := hfull
  body _ _ _ := rfl
  top := rfl
  places _ _ hq := .inl hq
  done _ ha hnot := absurd ha hnot

theorem cloneItems_filled (hvisit : Clones itemUnRef source first visit depth) (uiClass : Nat)
    (done rest : List (Item V R)) (hcopies : Copies itemUnRef source first s φ)
    (hfirst : s.Visited first) (hb : φ a = some b)
    (hbody : s.heap.body b = some (.array uiClass (done ++ replicate rest.length .nil)))
    (hn : done.length = n) (hheld : ∀ item ∈ rest, source.Held itemUnRef first item)
    (hentries : ∀ a m, s.Entry a (.inside b m) → m < n) (hdepth : source.next < depth + s.count) :
    ∃ s' φ', cloneItems visit b n rest s = some s' ∧
      Filled itemUnRef source first b rest
        (fun φ => .array uiClass (done ++ rest.map (Item.image φ))) s φ s' φ' := by
  induction rest generalizing s φ done n with
  | nil => exact ⟨s, φ, rfl, Filled.nil hcopies hbody⟩
  | cons item rest ih =>
    obtain ⟨hvisited, hlow, hhigh⟩ := hcopies.copied a b hb
    have hplace : (done ++ replicate (item :: rest).length (.nil : Item V R))[n]? =
        some .nil := by
      rw [getElem?_append_right (Nat.le_of_eq hn), hn, Nat.sub_self]
      rfl
    have hvacant : Vacant s source (.inside b n) := by
      refine ⟨?_, ?_, fun a' ha' => Nat.lt_irrefl n (hentries a' n ha')⟩
      · change ((s.heap.body b).bind fun c => c.item n).isSome = true
        rw [hbody]
        exact Option.isSome_iff_exists.mpr ⟨_, hplace⟩
      · intro b' howner
        cases howner
        exact ⟨hlow, hhigh⟩
    obtain ⟨s₁, φ₁, hvisit₁, hcloned⟩ := hvisit s φ (.inside b n) item hcopies hfirst
      (hheld item mem_cons_self) hvacant hdepth
    have hb₁ : φ₁ a = some b := (hcloned.grows.stable a hvisited).trans hb
    have hbody₁ : s₁.heap.body b = some (.array uiClass
        ((done ++ [item.image φ₁]) ++ replicate rest.length .nil)) := by
      rw [hcloned.body b hhigh]
      change update s.heap.body b _ b = _
      rw [update_self, hbody]
      change some (Container.array uiClass
        ((done ++ Item.nil :: replicate rest.length .nil).set n _)) = _
      rw [set_append_right _ _ (Nat.le_of_eq hn), hn, Nat.sub_self, append_assoc]
      rfl
    obtain ⟨s', φ', hloop, hfilled⟩ := ih (done ++ [item.image φ₁]) hcloned.copies
      (hcloned.grows.visited hfirst) hb₁ hbody₁ (by rw [length_append, hn]; rfl)
      (fun x hx => hheld x (mem_cons_of_mem _ hx)) (hcloned.entries_lt hhigh hentries)
      (Nat.lt_of_lt_of_le hdepth (Nat.add_le_add_left hcloned.grows.count _))
    refine ⟨s', φ', ?_, ?_⟩
    · unfold cloneItems
      rw [hvisit₁]
      exact hloop
    · apply hfilled.cons hcopies hb rfl rfl rfl (fun _ _ => rfl) hcloned
      rw [append_assoc, map_cons, hfilled.grows.image hcloned.settled]
      rfl

end Loops

section Pairs

variable {s s' : Cloning V R} {φ φ' : Nat → Option Nat} {a b n : Nat} {key : V}
  {t : BaseHash V (Item V R)} {q : Place} {x : Item V R}

section

variable (hbody : s.heap.body b = some (.hash t))

include hbody

theorem addPair_eq : s.heap.addPair b key =
      { s.heap with
        body := update s.heap.body b
          (some (.hash { t with pPairs := t.pPairs ++ [(key, .nil)] })) } := by
  unfold Heap.addPair
  rw [hbody]

theorem addPair_body : (s.heap.addPair b key).body b =
      some (.hash { t with pPairs := t.pPairs ++ [(key, .nil)] }) := by
  rw [addPair_eq hbody]
  exact update_self ..

theorem addPair_body_ne {b' : Nat} (hne : b' ≠ b) :
    (s.heap.addPair b key).body b' = s.heap.body b' := by
  rw [addPair_eq hbody]
  exact update_of_ne hne ..

theorem addPair_item (hq : s.heap.item q = some x) : (s.heap.addPair b key).item q = some x := by
  cases q with
  | top =>
    rw [addPair_eq hbody]
    exact hq
  | inside value nPos =>
    change ((s.heap.addPair b key).body value).bind _ = _
    by_cases hvalue : value = b
    · subst hvalue
      rw [addPair_body hbody]
      change (s.heap.body value).bind _ = _ at hq
      rw [hbody] at hq
      obtain ⟨pair, hpair, hx⟩ := Option.map_eq_some_iff.mp hq
      have hlt : nPos < t.pPairs.length := (List.getElem?_eq_some_iff.mp hpair).1
      change ((t.pPairs ++ [(key, Item.nil)])[nPos]?).map Prod.snd = some x
      rw [getElem?_append_left hlt, hpair]
      exact congrArg some hx
    · rw [addPair_body_ne hbody hvalue]
      exact hq

end

theorem Copies.addPair (h : Copies itemUnRef source first s φ) (hb : φ a = some b)
    (hbody : s.heap.body b = some (.hash t)) :
    Copies itemUnRef source first { s with heap := s.heap.addPair b key } φ := by
  have hnext : (s.heap.addPair b key).next = s.heap.next := by rw [addPair_eq hbody]
  obtain ⟨-, hlow, hhigh⟩ := h.copied a b hb
  refine ⟨fun a' ha' => ?_, Nat.le_trans h.next (Nat.le_of_eq hnext.symm), fun b' hb' => ?_,
    fun a' q hq => ?_, fun a' b' hab => ?_, h.injective, h.reached, h.shared⟩
  · have hne : a' ≠ b := Nat.ne_of_lt (Nat.lt_of_lt_of_le ha' hlow)
    exact (addPair_body_ne hbody hne).trans (h.kept a' ha')
  · change (s.heap.addPair b key).next ≤ b' at hb'
    rw [hnext] at hb'
    have hne : b' ≠ b := Nat.ne_of_gt (Nat.lt_of_lt_of_le hhigh hb')
    exact (addPair_body_ne hbody hne).trans (h.free b' hb')
  · obtain ⟨c, hc, hitem⟩ := h.entry a' q hq
    exact ⟨c, hc, addPair_item hbody hitem⟩
  · obtain ⟨hvisited, hlow', hhigh'⟩ := h.copied a' b' hab
    exact ⟨hvisited, hlow', Nat.lt_of_lt_of_eq hhigh' hnext.symm⟩

theorem modify_last {α : Type*} (f : α → α) (done : List α) (y : α) :
    (done ++ [y]).modify done.length f = done ++ [f y] := by
  induction done with
  | nil => rfl
  | cons z done ih => exact congrArg (List.cons z) ih

variable {visit : Visit V R} {depth : Nat}

theorem clonePairs_filled (hvisit : Clones itemUnRef source first visit depth)
    (head : BaseHash V (Item V R)) (done rest : List (V × Item V R))
    (hcopies : Copies itemUnRef source first s φ) (hfirst : s.Visited first) (hb : φ a = some b)
    (hbody : s.heap.body b = some (.hash { head with pPairs := done })) (hn : done.length = n)
    (hheld : ∀ pair ∈ rest, source.Held itemUnRef first (pair.2.unRef itemUnRef))
    (hentries : ∀ a m, s.Entry a (.inside b m) → m < n) (hdepth : source.next < depth + s.count) :
    ∃ s' φ', clonePairs visit itemUnRef b n rest s = some s' ∧
      Filled itemUnRef source first b (rest.map fun pair => pair.2.unRef itemUnRef)
        (fun φ => .hash { head with
          pPairs := done ++ rest.map fun pair => (pair.1, (pair.2.unRef itemUnRef).image φ) })
        s φ s' φ' := by
  induction rest generalizing s φ done n with
  | nil =>
    refine ⟨s, φ, rfl, Filled.nil hcopies ?_⟩
    rw [hbody, map_nil, append_nil]
  | cons pair rest ih =>
    obtain ⟨key, pValue⟩ := pair
    obtain ⟨hvisited, hlow, hhigh⟩ := hcopies.copied a b hb
    have hnext₀ : (s.heap.addPair b key).next = s.heap.next := by rw [addPair_eq hbody]
    have htop₀ : (s.heap.addPair b key).top = s.heap.top := by rw [addPair_eq hbody]
    have hbody₀ : (s.heap.addPair b key).body b = _ := addPair_body hbody
    have hcopies₀ : Copies itemUnRef source first { s with heap := s.heap.addPair b key } φ :=
      hcopies.addPair hb hbody
    have hvacant : Vacant { s with heap := s.heap.addPair b key } source (.inside b n) := by
      refine ⟨?_, ?_, fun a' ha' => Nat.lt_irrefl n (hentries a' n ha')⟩
      · change (((s.heap.addPair b key).body b).bind fun c => c.item n).isSome = true
        rw [hbody₀]
        change (((done ++ [(key, Item.nil)])[n]?).map Prod.snd).isSome = true
        rw [getElem?_append_right (Nat.le_of_eq hn), hn, Nat.sub_self]
        rfl
      · intro b' howner
        cases howner
        exact ⟨hlow, Nat.lt_of_lt_of_eq hhigh hnext₀.symm⟩
    obtain ⟨s₁, φ₁, hvisit₁, hcloned⟩ := hvisit { s with heap := s.heap.addPair b key } φ
      (.inside b n) (pValue.unRef itemUnRef) hcopies₀ hfirst (hheld _ mem_cons_self) hvacant
      hdepth
    have hb₁ : φ₁ a = some b := (hcloned.grows.stable a hvisited).trans hb
    have hbody₁ : s₁.heap.body b = some (.hash { head with
        pPairs := done ++ [(key, (pValue.unRef itemUnRef).image φ₁)] }) := by
      rw [hcloned.body b (Nat.lt_of_lt_of_eq hhigh hnext₀.symm)]
      change update (s.heap.addPair b key).body b _ b = _
      rw [update_self, hbody₀]
      change some (Container.hash { head with
        pPairs := (done ++ [(key, Item.nil)]).modify n _ }) = _
      rw [← hn, modify_last]
    obtain ⟨s', φ', hloop, hfilled⟩ := ih (done ++ [(key, (pValue.unRef itemUnRef).image φ₁)])
      hcloned.copies (hcloned.grows.visited hfirst) hb₁ hbody₁
      (by rw [length_append, hn]; rfl) (fun x hx => hheld x (mem_cons_of_mem _ hx))
      (Cloned.entries_lt (s := { s with heap := s.heap.addPair b key })
        (Nat.lt_of_lt_of_eq hhigh hnext₀.symm) hentries hcloned)
      (Nat.lt_of_lt_of_le hdepth (Nat.add_le_add_left hcloned.grows.count _))
    refine ⟨s', φ', ?_, ?_⟩
    · unfold clonePairs
      rw [hvisit₁]
      exact hloop
    · apply hfilled.cons hcopies hb (by rfl) hnext₀ htop₀
        (fun b' hne => addPair_body_ne hbody hne) hcloned
      rw [append_assoc, map_cons, hfilled.grows.image hcloned.settled]
      rfl

end Pairs

section Visits

variable {s : Cloning V R} {φ : Nat → Option Nat} {p : Place} {a : Nat} {visit : Visit V R}
  {depth : Nat} {cloned : NestedCloned}

/-- The hypotheses under which an array or a hash is cloned to a place. -/
structure Enters (itemUnRef : R → Item V R) (source : Heap V R) (first : Nat) (s : Cloning V R)
    (φ : Nat → Option Nat) (p : Place) (a : Nat) (cloned : NestedCloned) : Prop where
  copies : Copies itemUnRef source first s φ
  vacant : Vacant s source p
  missing : ¬s.Visited a
  reached : source.Reaches itemUnRef first a
  start : first = a ∨ s.Visited first
  entries : ∀ e, e ∈ cloned.pRefs.entries ↔ e = (a, p) ∨ e ∈ s.cloned.pRefs.entries
  count : cloned.pRefs.entries.length = s.count + 1

section

variable (h : Enters itemUnRef source first s φ p a cloned)

include h

theorem Enters.body {c : Container V R} (hsound : source.Sound itemUnRef)
    (hc : source.body a = some c) : s.heap.body a = some c :=
  (h.copies.kept a (hsound.bound a c hc)).trans hc

theorem Enters.held {c : Container V R} (hc : source.body a = some c) {item : Item V R}
    (hitem : item ∈ c.links itemUnRef) : source.Held itemUnRef first item :=
  ⟨a, c, h.reached, hc, hitem⟩

theorem Enters.firstVisited {c d : Container V R} : (s.enter p c d cloned).Visited first :=
  (enter_visited h.entries).mpr (h.start.imp_right id)

theorem Enters.entries_lt {c d : Container V R} (a' m : Nat) :
    ¬(s.enter p c d cloned).Entry a' (.inside s.heap.next m) := by
  intro hentry
  rcases (h.entries _).mp hentry with heq | hold
  · exact h.vacant.owner_ne (congrArg Place.owner (congrArg Prod.snd heq).symm)
  · obtain ⟨c, -, hitem⟩ := h.copies.entry a' _ hold
    change (s.heap.body s.heap.next).bind _ = _ at hitem
    rw [h.copies.free _ (Nat.le_refl _)] at hitem
    exact nomatch hitem

end

section

variable (hvisit : Clones itemUnRef source first visit depth) (hsound : source.Sound itemUnRef)
  (h : Enters itemUnRef source first s φ p a cloned)

include hvisit hsound h

theorem arrayCloneBody_cloned {uiClass : Nat} {pItems : List (Item V R)}
    (hc : source.body a = some (.array uiClass pItems))
    (hdepth : source.next < depth + cloned.pRefs.entries.length) :
    ∃ s' φ', arrayCloneBody visit p a { s with cloned } = some s' ∧
      Cloned itemUnRef source first p (.array a) s φ s' φ' := by
  obtain ⟨s', φ', hloop, hfilled⟩ := cloneItems_filled hvisit uiClass [] pItems
    (h.copies.enter h.vacant hc h.missing h.entries h.reached
      (d := .array uiClass (replicate pItems.length .nil)))
    h.firstVisited (update_self ..) (enter_body h.vacant) rfl
    (fun item hitem => h.held hc hitem) (fun a' m hentry => absurd hentry (h.entries_lt a' m))
    hdepth
  refine ⟨s', φ', ?_, hfilled.clone hc h.missing h.entries h.count⟩
  unfold arrayCloneBody
  rw [h.body hsound hc]
  exact hloop

theorem hashCloneBody_cloned {t : BaseHash V (Item V R)} (hc : source.body a = some (.hash t))
    (hdepth : source.next < depth + cloned.pRefs.entries.length) :
    ∃ s' φ', hashCloneBody visit itemUnRef p a { s with cloned } = some s' ∧
      Cloned itemUnRef source first p (.hash a) s φ s' φ' := by
  have hempty : (BaseHash.cloneHead t).pPairs = [] := by
    unfold BaseHash.cloneHead hashGrow
    split
    · rfl
    · rfl
  obtain ⟨s', φ', hloop, hfilled⟩ := clonePairs_filled hvisit (BaseHash.cloneHead t) [] t.pPairs
    (h.copies.enter h.vacant hc h.missing h.entries h.reached (d := .hash (BaseHash.cloneHead t)))
    h.firstVisited (update_self ..)
    ((enter_body h.vacant).trans (by rw [← hempty])) rfl
    (fun pair hpair => h.held hc (mem_map_of_mem hpair))
    (fun a' m hentry => absurd hentry (h.entries_lt a' m)) hdepth
  refine ⟨s', φ', ?_, hfilled.clone hc h.missing h.entries h.count⟩
  unfold hashCloneBody
  rw [h.body hsound hc]
  exact hloop

end

theorem objCloneBody_cloned (hsound : source.Sound itemUnRef)
    (hcopies : Copies itemUnRef source first s φ) (hfirst : s.Visited first)
    (hheld : source.Held itemUnRef first (.array a)) (hp : Vacant s source p)
    (hobject : source.isObject a = true) (hmissing : ¬s.Visited a)
    (hentries : ∀ e, e ∈ cloned.pRefs.entries ↔ e = (a, p) ∨ e ∈ s.cloned.pRefs.entries)
    (hcount : cloned.pRefs.entries.length = s.count + 1) :
    Cloned itemUnRef source first p (.array a) s φ (objCloneBody p a { s with cloned }) φ := by
  obtain ⟨a', c', hreached, hc', hitem⟩ := hheld
  obtain ⟨c, hc, href⟩ := hsound.links a' c' _ hc' hitem a rfl
  have hnone : φ a = none := by
    cases hφ : φ a with
    | none => rfl
    | some b => exact absurd (hcopies.copied a b hφ).1 hmissing
  have himage : (Item.array a : Item V R).image φ = .array a := image_none fun a' ha' => by
    cases ha'
    exact hnone
  have hset := hcopies.setItem (x := .array a) hp
  have hvisited : ∀ {a' : Nat}, (objCloneBody p a { s with cloned }).Visited a' ↔
      a' = a ∨ s.Visited a' := enter_visited (c := c) (d := c) hentries
  refine ⟨⟨hset.kept, hset.next, hset.free, ?_, ?_, hset.injective, hset.reached, ?_⟩, ?_, ?_,
    ?_, ?_, ?_, ?_⟩
  · intro a' q hq
    rcases (hentries (a', q)).mp hq with heq | hold
    · cases heq
      refine ⟨c, hc, ?_⟩
      rw [← href, himage]
      exact heap_setItem hp.item
    · exact hset.entry a' q hold
  · intro a' b hab
    obtain ⟨hold, hbounds⟩ := hset.copied a' b hab
    exact ⟨hvisited.mpr (.inr hold), hbounds⟩
  · intro a' ha' hnone'
    rcases hvisited.mp ha' with rfl | hold
    · refine ⟨hobject, ?_, .array a', ⟨_, c', hreached, hc', hitem⟩, rfl⟩
      rintro rfl
      exact hmissing hfirst
    · exact hset.shared a' hold hnone'
  · refine ⟨fun a' q hq => (hentries _).mpr (.inr hq), fun _ _ => rfl,
      Nat.le_of_eq setItem_next.symm, ?_⟩
    change s.count ≤ cloned.pRefs.entries.length
    rw [hcount]
    exact Nat.le_succ _
  · intro a' ha'
    cases ha'
    exact hvisited.mpr (.inl rfl)
  · intro b _
    rw [himage]
    rfl
  · rw [himage]
    rfl
  · intro a' q hq
    rcases (hentries (a', q)).mp hq with heq | hold
    · exact .inr (.inl (congrArg Prod.snd heq))
    · exact .inl hold
  · intro a' ha' hnot b hb
    rcases hvisited.mp ha' with rfl | hold
    · exact nomatch hnone.symm.trans hb
    · exact absurd hold hnot

end Visits

end Harbour.Vm.Clone
