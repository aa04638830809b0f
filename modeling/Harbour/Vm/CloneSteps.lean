import Harbour.Vm.Clone

/-!
What each item that is cloned adds to the copies.
-/

namespace Harbour.Vm.Clone

open Library.KeyTable HashTable HashPairs Function List

variable {V R : Type} {itemUnRef : R → Item V R} {source : Heap V R} {first : Nat}

def Cloning.Entry (s : Cloning V R) (a : Nat) (p : Place) : Prop := (a, p) ∈ s.cloned.pRefs.entries

def Cloning.Visited (s : Cloning V R) (a : Nat) : Prop := ∃ p, s.Entry a p

def Cloning.Settled (s : Cloning V R) (item : Item V R) : Prop :=
  ∀ a, item.value = some a → s.Visited a

def Cloning.count (s : Cloning V R) : Nat := s.cloned.pRefs.entries.length

variable (itemUnRef source first) in
/-- The copies so far are what `φ` says, and everything in the source is as it was. -/
structure Copies (s : Cloning V R) (φ : Nat → Option Nat) : Prop where
  kept : ∀ a < source.next, s.heap.body a = source.body a
  next : source.next ≤ s.heap.next
  free : ∀ b, s.heap.next ≤ b → s.heap.body b = none
  entry : ∀ a p, s.Entry a p →
    ∃ c, source.body a = some c ∧ s.heap.item p = some ((c.ref a).image φ)
  copied : ∀ a b, φ a = some b → s.Visited a ∧ source.next ≤ b ∧ b < s.heap.next
  injective : ∀ a a' b, φ a = some b → φ a' = some b → a = a'
  reached : ∀ a b, φ a = some b → source.Reaches itemUnRef first a
  shared : ∀ a, s.Visited a → φ a = none →
    source.isObject a = true ∧ a ≠ first ∧ ∃ item, source.Held itemUnRef first item ∧
      item.value = some a

structure Grows (s : Cloning V R) (φ : Nat → Option Nat) (s' : Cloning V R)
    (φ' : Nat → Option Nat) : Prop where
  entry : ∀ a p, s.Entry a p → s'.Entry a p
  stable : ∀ a, s.Visited a → φ' a = φ a
  next : s.heap.next ≤ s'.heap.next
  count : s.count ≤ s'.count

variable (itemUnRef source) in
def Done (s : Cloning V R) (φ : Nat → Option Nat) (a : Nat) : Prop :=
  ∀ b, φ a = some b → ∃ c, source.body a = some c ∧ s.heap.body b = some (c.copy itemUnRef φ) ∧
    ∀ item ∈ c.links itemUnRef, s.Settled item

structure Vacant (s : Cloning V R) (source : Heap V R) (p : Place) : Prop where
  item : (s.heap.item p).isSome
  owner : ∀ b, p.owner = some b → source.next ≤ b ∧ b < s.heap.next
  entry : ∀ a, ¬s.Entry a p

def Place.Beyond (next : Nat) (p : Place) : Prop := ∃ b, p.owner = some b ∧ next ≤ b

variable (itemUnRef source first) in
structure Cloned (p : Place) (src : Item V R) (s : Cloning V R) (φ : Nat → Option Nat)
    (s' : Cloning V R) (φ' : Nat → Option Nat) : Prop where
  copies : Copies itemUnRef source first s' φ'
  grows : Grows s φ s' φ'
  settled : s'.Settled src
  body : ∀ b < s.heap.next, s'.heap.body b = (s.heap.setItem (src.image φ') p).body b
  top : s'.heap.top = (s.heap.setItem (src.image φ') p).top
  places : ∀ a q, s'.Entry a q → s.Entry a q ∨ q = p ∨ q.Beyond s.heap.next
  done : ∀ a, s'.Visited a → ¬s.Visited a → Done itemUnRef source s' φ' a

variable (itemUnRef source first) in
structure Filled (b : Nat) (links : List (Item V R)) (full : (Nat → Option Nat) → Container V R)
    (s : Cloning V R) (φ : Nat → Option Nat) (s' : Cloning V R) (φ' : Nat → Option Nat) :
    Prop where
  copies : Copies itemUnRef source first s' φ'
  grows : Grows s φ s' φ'
  settled : ∀ item ∈ links, s'.Settled item
  filled : s'.heap.body b = some (full φ')
  body : ∀ b' < s.heap.next, b' ≠ b → s'.heap.body b' = s.heap.body b'
  top : s'.heap.top = s.heap.top
  places : ∀ a q, s'.Entry a q → s.Entry a q ∨ q.owner = some b ∨ q.Beyond s.heap.next
  done : ∀ a, s'.Visited a → ¬s.Visited a → Done itemUnRef source s' φ' a

variable (itemUnRef source first) in
/-- A clone of any item that is held, of which at most `depth` arrays and hashes that are not
visited yet are nested. -/
def Clones (visit : Visit V R) (depth : Nat) : Prop :=
  ∀ s φ p src, Copies itemUnRef source first s φ → s.Visited first →
    source.Held itemUnRef first src → Vacant s source p → source.next < depth + s.count →
    ∃ s' φ', visit p src s = some s' ∧ Cloned itemUnRef source first p src s φ s' φ'

section Grows

variable {s s' s'' : Cloning V R} {φ φ' φ'' : Nat → Option Nat} {item : Item V R} {a : Nat}

section

variable (h : Grows s φ s' φ')

include h

theorem Grows.visited (hvisited : s.Visited a) : s'.Visited a := by
  obtain ⟨p, hp⟩ := hvisited
  exact ⟨p, h.entry a p hp⟩

theorem Grows.settled (hsettled : s.Settled item) : s'.Settled item :=
  fun a ha => h.visited (hsettled a ha)

theorem Grows.trans (h' : Grows s' φ' s'' φ'') : Grows s φ s'' φ'' where
  entry a p hp := h'.entry a p (h.entry a p hp)
  stable a ha := (h'.stable a (h.visited ha)).trans (h.stable a ha)
  next := Nat.le_trans h.next h'.next
  count := Nat.le_trans h.count h'.count

theorem Grows.image (hsettled : s.Settled item) : item.image φ' = item.image φ :=
  image_congr fun a ha => h.stable a (hsettled a ha)

theorem Grows.copy {c : Container V R} (hsettled : ∀ item ∈ c.links itemUnRef, s.Settled item) :
    c.copy itemUnRef φ' = c.copy itemUnRef φ := by
  cases c with
  | array uiClass pItems =>
    exact congrArg (Container.array uiClass)
      (map_congr_left fun item hitem => h.image (hsettled item hitem))
  | hash t =>
    have hpairs : (t.pPairs.map fun pair => (pair.1, (pair.2.unRef itemUnRef).image φ')) =
        t.pPairs.map fun pair => (pair.1, (pair.2.unRef itemUnRef).image φ) := by
      apply map_congr_left
      intro pair hpair
      rw [h.image (hsettled _ (mem_map_of_mem hpair))]
    unfold Container.copy
    dsimp only
    rw [hpairs]

end

end Grows

section Copies

variable {s : Cloning V R} {φ : Nat → Option Nat} {p : Place} {src x : Item V R} {a : Nat}

theorem Copies.count_le (hsound : source.Sound itemUnRef) (h : Copies itemUnRef source first s φ) :
    s.count ≤ source.next := by
  apply Table.length_le
  intro entry hentry
  obtain ⟨c, hc, -⟩ := h.entry entry.1 entry.2 hentry
  exact hsound.bound entry.1 c hc

section

variable (h : Copies itemUnRef source first s φ) (hp : Vacant s source p)

include h hp

theorem Copies.setItem : Copies itemUnRef source first (s.setItem x p) φ := by
  refine ⟨fun a ha => ?_, ?_, fun b hb => ?_, fun a q hq => ?_, fun a b hab => ?_, h.injective,
    h.reached, h.shared⟩
  · have howner : p.owner ≠ some a := by
      intro howner
      exact absurd ha (Nat.not_lt.mpr (hp.owner a howner).1)
    exact (setItem_body howner).trans (h.kept a ha)
  · exact Nat.le_trans h.next (Nat.le_of_eq setItem_next.symm)
  · change (s.heap.setItem x p).next ≤ b at hb
    rw [setItem_next] at hb
    exact setItem_none (h.free b hb)
  · obtain ⟨c, hc, hitem⟩ := h.entry a q hq
    refine ⟨c, hc, ?_⟩
    have hne : p ≠ q := by
      rintro rfl
      exact hp.entry a hq
    exact (heap_setItem_ne hne).trans hitem
  · obtain ⟨hvisited, hlow, hhigh⟩ := h.copied a b hab
    exact ⟨hvisited, hlow, Nat.lt_of_lt_of_eq hhigh setItem_next.symm⟩

theorem Copies.cloned (hsettled : s.Settled src) :
    Cloned itemUnRef source first p src s φ (s.setItem (src.image φ) p) φ where
  copies := h.setItem hp
  grows := ⟨fun _ _ hq => hq, fun _ _ => rfl, Nat.le_of_eq setItem_next.symm, Nat.le_refl _⟩
  settled := hsettled
  body _ _ := rfl
  top := rfl
  places _ _ hq := .inl hq
  done _ ha hnot := absurd ha hnot

end

end Copies

theorem nestedCloneFind_spec (cloned : NestedCloned) (pValue : Nat) (pDest : Place) :
    (∃ p, nestedCloneFind cloned pValue pDest = .inl p ∧ (pValue, p) ∈ cloned.pRefs.entries) ∨
      ∃ cloned', nestedCloneFind cloned pValue pDest = .inr cloned' ∧
        (∀ p, (pValue, p) ∉ cloned.pRefs.entries) ∧
        (∀ e, e ∈ cloned'.pRefs.entries ↔ e = (pValue, pDest) ∨ e ∈ cloned.pRefs.entries) ∧
        cloned'.pRefs.entries.length = cloned.pRefs.entries.length + 1 := by
  unfold nestedCloneFind
  split
  · rename_i nMiddle hfind
    refine .inl ⟨_, rfl, ?_⟩
    obtain ⟨p, hget⟩ := Table.find_found hfind
    obtain ⟨hlt, hget⟩ := List.getElem?_eq_some_iff.mp hget
    have hentry : cloned.pRefs.entries.get ⟨nMiddle, find_lt hfind⟩ = (pValue, p) := hget
    rw [hentry, ← hget]
    exact getElem_mem hlt
  · rename_i nMiddle hfind
    refine .inr ⟨_, rfl, Table.find_missing hfind, fun e => ?_, ?_⟩
    · exact Table.mem_insert (h := hfind)
    · exact Table.insert_length (h := hfind)

section Enter

variable {s : Cloning V R} {φ : Nat → Option Nat} {p : Place} {a : Nat} {c d : Container V R}
  {cloned : NestedCloned}

/-- The state in which the copy of an array or a hash is new and has nothing. -/
def Cloning.enter (s : Cloning V R) (p : Place) (c d : Container V R) (cloned : NestedCloned) :
    Cloning V R :=
  ⟨(s.heap.alloc d).setItem (c.ref s.heap.next) p, cloned⟩

theorem enter_next : (s.enter p c d cloned).heap.next = s.heap.next + 1 := setItem_next

variable (h : Copies itemUnRef source first s φ) (hp : Vacant s source p)
  (hc : source.body a = some c) (hnot : ¬s.Visited a)
  (hentries : ∀ e, e ∈ cloned.pRefs.entries ↔ e = (a, p) ∨ e ∈ s.cloned.pRefs.entries)

include hp in
theorem Vacant.owner_ne : p.owner ≠ some s.heap.next :=
  fun howner => Nat.lt_irrefl _ (hp.owner _ howner).2

include hp in
theorem enter_body : (s.enter p c d cloned).heap.body s.heap.next = some d :=
  (setItem_body hp.owner_ne).trans (update_self ..)

include hentries in
theorem enter_visited {a' : Nat} : (s.enter p c d cloned).Visited a' ↔ a' = a ∨ s.Visited a' := by
  constructor
  · rintro ⟨q, hq⟩
    rcases (hentries (a', q)).mp hq with heq | hold
    · exact .inl (congrArg Prod.fst heq)
    · exact .inr ⟨q, hold⟩
  · rintro (rfl | ⟨q, hq⟩)
    · exact ⟨p, (hentries _).mpr (.inl rfl)⟩
    · exact ⟨q, (hentries _).mpr (.inr hq)⟩

include hnot hentries in
theorem enter_grows (hcount : cloned.pRefs.entries.length = s.count + 1) :
    Grows s φ (s.enter p c d cloned) (update φ a (some s.heap.next)) where
  entry a' q hq := (hentries _).mpr (.inr hq)
  stable a' ha' := by
    apply update_of_ne
    rintro rfl
    exact hnot ha'
  next := by
    rw [enter_next]
    exact Nat.le_succ _
  count := by
    change s.count ≤ cloned.pRefs.entries.length
    rw [hcount]
    exact Nat.le_succ _

include h hp hc hnot hentries in
theorem Copies.enter (hreached : source.Reaches itemUnRef first a) :
    Copies itemUnRef source first (s.enter p c d cloned)
      (update φ a (some s.heap.next)) := by
  have hself : update φ a (some s.heap.next) a = some s.heap.next :=
    update_self ..
  have hother : ∀ a', s.Visited a' → update φ a (some s.heap.next) a' = φ a' := by
    intro a' ha'
    apply update_of_ne
    rintro rfl
    exact hnot ha'
  have hcase : ∀ a' b, update φ a (some s.heap.next) a' = some b →
      a' = a ∧ b = s.heap.next ∨ φ a' = some b ∧ b < s.heap.next := by
    intro a' b hab
    by_cases ha : a' = a
    · subst ha
      rw [hself] at hab
      exact .inl ⟨rfl, (Option.some.inj hab).symm⟩
    · rw [update_of_ne ha] at hab
      exact .inr ⟨hab, (h.copied a' b hab).2.2⟩
  refine ⟨fun a' ha' => ?_, ?_, fun b hb => ?_, fun a' q hq => ?_, fun a' b hab => ?_, ?_, ?_, ?_⟩
  · have howner : p.owner ≠ some a' := by
      intro howner
      exact absurd ha' (Nat.not_lt.mpr (hp.owner a' howner).1)
    have hne : a' ≠ s.heap.next := Nat.ne_of_lt (Nat.lt_of_lt_of_le ha' h.next)
    exact (alloc_setItem hne).trans ((setItem_body howner).trans (h.kept a' ha'))
  · rw [enter_next]
    exact Nat.le_succ_of_le h.next
  · rw [enter_next] at hb
    have hne : b ≠ s.heap.next := Nat.ne_of_gt hb
    exact (alloc_setItem hne).trans (setItem_none (h.free b (Nat.le_of_succ_le hb)))
  · rcases (hentries (a', q)).mp hq with heq | hold
    · cases heq
      refine ⟨c, hc, ?_⟩
      rw [image_ref hself]
      apply heap_setItem
      rw [alloc_item hp.owner_ne]
      exact hp.item
    · obtain ⟨c', hc', hitem⟩ := h.entry a' q hold
      refine ⟨c', hc', ?_⟩
      have hne : p ≠ q := by
        rintro rfl
        exact hp.entry a' hold
      have howner : q.owner ≠ some s.heap.next := by
        intro howner
        cases q with
        | top => exact nomatch howner
        | inside value nPos =>
          cases howner
          change (s.heap.body s.heap.next).bind _ = _ at hitem
          rw [h.free _ (Nat.le_refl _)] at hitem
          exact nomatch hitem
      have himage : (c'.ref a').image (update φ a (some s.heap.next)) =
          (c'.ref a').image φ := by
        apply image_congr
        intro a'' ha''
        rw [ref_value] at ha''
        cases ha''
        exact hother a' ⟨q, hold⟩
      rw [himage]
      exact (heap_setItem_ne hne).trans ((alloc_item howner).trans hitem)
  · rw [enter_next]
    rcases hcase a' b hab with ⟨rfl, rfl⟩ | ⟨hab, -⟩
    · exact ⟨(enter_visited hentries).mpr (.inl rfl), h.next, Nat.lt_succ_self _⟩
    · obtain ⟨hvisited, hlow, hhigh⟩ := h.copied a' b hab
      exact ⟨(enter_visited hentries).mpr (.inr hvisited), hlow, Nat.lt_succ_of_lt hhigh⟩
  · intro a' a'' b hab hab'
    rcases hcase a' b hab with ⟨rfl, rfl⟩ | ⟨hab, hlt⟩
    · rcases hcase a'' _ hab' with ⟨rfl, -⟩ | ⟨-, hlt⟩
      · rfl
      · exact absurd hlt (Nat.lt_irrefl _)
    · rcases hcase a'' b hab' with ⟨-, rfl⟩ | ⟨hab', -⟩
      · exact absurd hlt (Nat.lt_irrefl _)
      · exact h.injective a' a'' b hab hab'
  · intro a' b hab
    rcases hcase a' b hab with ⟨rfl, -⟩ | ⟨hab, -⟩
    · exact hreached
    · exact h.reached a' b hab
  · intro a' ha' hnone
    rcases (enter_visited hentries).mp ha' with rfl | hold
    · exact nomatch hself.symm.trans hnone
    · exact h.shared a' hold ((hother a' hold).symm.trans hnone)

include hc hnot hentries in
theorem Filled.clone (hcount : cloned.pRefs.entries.length = s.count + 1) {s' : Cloning V R}
    {φ' : Nat → Option Nat}
    (hfilled : Filled itemUnRef source first s.heap.next (c.links itemUnRef) (c.copy itemUnRef)
      (s.enter p c d cloned) (update φ a (some s.heap.next)) s' φ') :
    Cloned itemUnRef source first p (c.ref a) s φ s' φ' := by
  have hgrows := enter_grows (p := p) (c := c) (d := d) (φ := φ) hnot hentries hcount
  have hvisited : (s.enter p c d cloned).Visited a := (enter_visited hentries).mpr (.inl rfl)
  have hself : φ' a = some s.heap.next :=
    (hfilled.grows.stable a hvisited).trans (update_self ..)
  have himage : (c.ref a).image φ' = c.ref s.heap.next := image_ref hself
  refine ⟨hfilled.copies, hgrows.trans hfilled.grows, ?_, ?_, ?_, ?_, ?_⟩
  · intro a' ha'
    rw [ref_value] at ha'
    cases ha'
    exact hfilled.grows.visited hvisited
  · intro b hb
    have hne : b ≠ s.heap.next := Nat.ne_of_lt hb
    rw [hfilled.body b (by rw [enter_next]; exact Nat.lt_succ_of_lt hb) hne, himage]
    exact alloc_setItem hne
  · rw [hfilled.top, himage]
    exact alloc_top
  · intro a' q hq
    rcases hfilled.places a' q hq with hq | hq | ⟨b, howner, hb⟩
    · rcases (hentries (a', q)).mp hq with heq | hold
      · exact .inr (.inl (congrArg Prod.snd heq))
      · exact .inl hold
    · exact .inr (.inr ⟨_, hq, Nat.le_refl _⟩)
    · rw [enter_next] at hb
      exact .inr (.inr ⟨b, howner, Nat.le_of_succ_le hb⟩)
  · intro a' ha' hnot'
    by_cases heq : a' = a
    · subst heq
      intro b hb
      cases hself.symm.trans hb
      exact ⟨c, hc, hfilled.filled, hfilled.settled⟩
    · apply hfilled.done a' ha'
      intro hvisited'
      rcases (enter_visited hentries).mp hvisited' with heq' | hold
      · exact heq heq'
      · exact hnot' hold

end Enter

end Harbour.Vm.Clone
