import Harbour.Library.KeyTable
import Harbour.Vm.HashMap

/-!
The set operations of two hashes, and what one lookup, one assignment and one deletion do to the
values of a hash.
-/

namespace Harbour.Vm.HashJoin

open Library.KeyOrder Library.KeyValues HashTable HashUpdate HashPairs HashSound List

variable {K V : Type}

section Model

/-- A value of a hash is an item, or refers to a variable. -/
inductive Slot (V : Type) where
  | item (value : V)
  | byRef (n : Nat)
deriving DecidableEq, Repr

abbrev Vars (V : Type) := Nat → V

def Slot.unRef (vars : Vars V) : Slot V → V
  | item value => value
  | byRef n => vars n

abbrev Table (K V : Type) := BaseHash K (Slot V)

inductive JoinType where
  | union
  | intersect
  | difference
  | remove
deriving DecidableEq, Repr

/-- `hb_itemCopyFromRef` to the value of a pair, or to the variable that it refers to. -/
def assignAt (t : Table K V) (vars : Vars V) (nPos : Nat) (value : V) : Table K V × Vars V :=
  match t.pPairs[nPos]? with
  | some (_, .byRef n) => (t, fun m => if m = n then value else vars m)
  | _ => ({ t with pPairs := t.pPairs.modify nPos fun pair => (pair.1, .item value) }, vars)

variable (isHashKey : K → Bool) (cmp : HashFlags → K → K → Int)

def joinAdd (pDest : Table K V × Vars V) (key : K) (value : V) : Table K V × Vars V :=
  match hashFind cmp pDest.1 key with
  | (t, true, nPos) => assignAt t pDest.2 nPos value
  | (t, false, nPos) => (hashOpenPair t nPos (key, .item value), pDest.2)

/-- `hb_hashAdd` of a key that may be none, and the same for `hb_hashDel`. -/
def hashAddKey (pDest : Table K V × Vars V) (key : K) (value : V) : Table K V × Vars V :=
  if isHashKey key then joinAdd cmp pDest key value else pDest

def hashDelKey (t : Table K V) (key : K) : Bool × Table K V :=
  if isHashKey key then hashDel cmp t key else (false, t)

def unionStep (pDest : Table K V × Vars V) (pair : K × Slot V) : Table K V × Vars V :=
  hashAddKey isHashKey cmp pDest pair.1 (pair.2.unRef pDest.2)

def differenceStep (pDest : Table K V × Vars V) (pair : K × Slot V) : Table K V × Vars V :=
  match hashDelKey isHashKey cmp pDest.1 pair.1 with
  | (true, t) => (t, pDest.2)
  | (false, t) => hashAddKey isHashKey cmp (t, pDest.2) pair.1 (pair.2.unRef pDest.2)

def removeStep (pDest : Table K V × Vars V) (pair : K × Slot V) : Table K V × Vars V :=
  ((hashDelKey isHashKey cmp pDest.1 pair.1).2, pDest.2)

/-- The loop of the intersection over the `n` pairs from a position on. -/
def intersectLoop : (n nPos : Nat) → (pDest pSource : Table K V) → Vars V →
    Table K V × Table K V × Vars V
  | 0, _, pDest, pSource, vars => (pDest, pSource, vars)
  | n + 1, nPos, pDest, pSource, vars =>
    match pDest.pPairs[nPos]? with
    | none => (pDest, pSource, vars)
    | some pair =>
      match hashFind cmp pSource pair.1 with
      | (pSource, true, nSrcPos) =>
        match pSource.pPairs[nSrcPos]? with
        | none => (pDest, pSource, vars)
        | some source =>
          let r := assignAt pDest vars nPos (source.2.unRef vars)
          intersectLoop n (nPos + 1) r.1 pSource r.2
      | (pSource, false, _) => intersectLoop n nPos (hashDelPair pDest nPos) pSource vars

/-- `hb_hashJoin`; no source is the destination itself. -/
def hashJoin (iType : JoinType) (pDest : Table K V) (pSource : Option (Table K V))
    (vars : Vars V) : Table K V × Option (Table K V) × Vars V :=
  match pSource, iType with
  | none, .union => (pDest, none, vars)
  | none, .intersect => (pDest, none, vars)
  | none, .difference => (hashClear pDest, none, vars)
  | none, .remove => (hashClear pDest, none, vars)
  | some pSource, .union =>
    let r := pSource.pPairs.foldl (unionStep isHashKey cmp) (pDest, vars)
    (r.1, some pSource, r.2)
  | some pSource, .intersect =>
    let r := intersectLoop cmp pDest.nLen 0 pDest pSource vars
    (r.1, some r.2.1, r.2.2)
  | some pSource, .difference =>
    let r := pSource.pPairs.foldl (differenceStep isHashKey cmp) (pDest, vars)
    (r.1, some pSource, r.2)
  | some pSource, .remove =>
    let r := pSource.pPairs.foldl (removeStep isHashKey cmp) (pDest, vars)
    (r.1, some pSource, r.2)

end Model

section Views

def view (vars : Vars V) (pairs : List (K × Slot V)) : List (K × V) :=
  pairs.map fun pair => (pair.1, pair.2.unRef vars)

def Slot.refs : Slot V → List Nat
  | item _ => []
  | byRef n => [n]

def refs (pairs : List (K × Slot V)) : List Nat := pairs.flatMap fun pair => pair.2.refs

variable {vars vars' : Vars V} {pairs pairs' : List (K × Slot V)}

theorem view_keys (vars : Vars V) (pairs : List (K × Slot V)) :
    (view vars pairs).map Prod.fst = pairs.map Prod.fst := by
  rw [view, map_map]
  rfl

theorem view_congr (h : ∀ n ∈ refs pairs, vars' n = vars n) :
    view vars' pairs = view vars pairs := by
  refine map_congr_left fun pair hmem => ?_
  rcases pair with ⟨key, value | n⟩
  · rfl
  · have hn : n ∈ refs pairs := mem_flatMap.mpr ⟨_, hmem, mem_singleton.mpr rfl⟩
    exact congrArg (Prod.mk key) (h n hn)

theorem view_keyed {keys : Set K} (vars : Vars V) (h : Keyed keys pairs) :
    Keyed keys (view vars pairs) := by
  intro pair hmem
  obtain ⟨source, hsource, rfl⟩ := mem_map.mp hmem
  exact h source hsource

theorem view_distinct {cmp : K → K → Int} (vars : Vars V) (h : Distinct cmp pairs) :
    Distinct cmp (view vars pairs) := by
  rw [distinct_iff, view_keys]
  exact distinct_iff.mp h

theorem refs_perm (h : pairs'.Perm pairs) : (refs pairs').Perm (refs pairs) := h.flatMap_right _

theorem refs_append (pairs pairs' : List (K × Slot V)) :
    refs (pairs ++ pairs') = refs pairs ++ refs pairs' := flatMap_append

theorem view_append (vars : Vars V) (pairs pairs' : List (K × Slot V)) :
    view vars (pairs ++ pairs') = view vars pairs ++ view vars pairs' := map_append

end Views

section Steps

variable {cmp : HashFlags → K → K → Int} {keys : Set K} {t : Table K V} {vars : Vars V}
  {before after : List (K × Slot V)} {pair : K × Slot V}

theorem getElem?_middle {α : Type*} (before after : List α) (a : α) :
    (before ++ a :: after)[before.length]? = some a := by
  rw [getElem?_append_right (Nat.le_refl _), Nat.sub_self]
  rfl

theorem middle_lt (hpairs : t.pPairs = before ++ pair :: after) : before.length < t.nLen := by
  rw [BaseHash.nLen, hpairs, length_append, length_cons]
  omega

theorem assignAt_spec (hpairs : t.pPairs = before ++ pair :: after)
    (hnodup : (refs t.pPairs).Nodup) (value : V) :
    ∃ slot vars', assignAt t vars before.length value =
        ({ t with pPairs := before ++ (pair.1, slot) :: after }, vars') ∧
      view vars' (before ++ (pair.1, slot) :: after) =
        view vars before ++ (pair.1, value) :: view vars after ∧
      slot.refs.Sublist pair.2.refs ∧ ∀ n, n ∉ pair.2.refs → vars' n = vars n := by
  have hget : t.pPairs[before.length]? = some pair := by
    rw [hpairs, getElem?_middle]
  obtain ⟨key, slot⟩ := pair
  cases slot with
  | item old =>
    refine ⟨.item value, vars, ?_, by rw [view_append]; rfl, Sublist.refl _,
      fun n _ => rfl⟩
    have hmodify : (before ++ (key, .item old) :: after).modify before.length
        (fun pair : K × Slot V => (pair.1, .item value)) =
          before ++ (key, .item value) :: after := HashMap.modify_middle _ _ _ _
    rw [assignAt, hget]
    rw [hpairs, hmodify]
  | byRef n =>
    rw [hpairs, refs_append] at hnodup
    have hsplit : (refs before ++ n :: refs after).Nodup := hnodup
    have hother := nodup_middle.mp hsplit
    have hnotMem : n ∉ refs before ++ refs after := (nodup_cons.mp hother).1
    have hsame (pairs : List (K × Slot V))
        (hsub : ∀ m ∈ refs pairs, m ∈ refs before ++ refs after) :
        view (fun m => if m = n then value else vars m) pairs = view vars pairs := by
      apply view_congr
      intro m hm
      exact if_neg fun heq : m = n => hnotMem (heq ▸ hsub m hm)
    refine ⟨.byRef n, fun m => if m = n then value else vars m, ?_, ?_,
      Sublist.refl _, ?_⟩
    · rw [assignAt, hget]
      rw [← hpairs]
    · have hafter := hsame after fun m hm => mem_append_right _ hm
      rw [view_append, hsame before fun m hm => mem_append_left _ hm]
      refine congrArg (view vars before ++ ·) ?_
      change (key, if n = n then value else vars n) :: view _ after = _
      rw [if_pos rfl, hafter]
    · intro m hm
      exact if_neg fun heq => hm (mem_singleton.mpr heq)

theorem settled_pPairs_kept (h : Coherent t) (hkeep : t.iFlags.keepOrder = true) :
    (settled cmp t).pPairs = t.pPairs := by
  unfold settled
  split
  · unfold hashSortDo
    cases hpos : t.pnPos with
    | some pnPos => rfl
    | none =>
      rcases h.layout.mp hpos with hfalse | hempty
      · rw [hkeep] at hfalse
        cases hfalse
      · have hnil : t.pPairs = [] :=
          length_eq_zero_iff.mp (Nat.le_zero.mp (hempty ▸ h.allocated))
        simp [hnil]
  · rfl

/-- The destination of a join on the way: its values are `f`, it has kept the order of its old
keys, and only the variables of its own values have changed. -/
structure Joined (cmp : HashFlags → K → K → Int) (keys : Set K) (start : Table K V)
    (vars₀ : Vars V) (f₀ : K → Option V) (pDest : Table K V × Vars V) (f : K → Option V) :
    Prop where
  sound : Sound cmp keys pDest.1
  flags : cmp pDest.1.iFlags = cmp start.iFlags
  keep : pDest.1.iFlags.keepOrder = start.iFlags.keepOrder
  values : Values (cmp start.iFlags) keys (view pDest.2 pDest.1.pPairs) f
  nodup : (refs pDest.1.pPairs).Nodup
  owned : ∀ n ∈ refs pDest.1.pPairs, n ∈ refs start.pPairs
  vars : ∀ n, n ∉ refs start.pPairs → pDest.2 n = vars₀ n
  order : start.iFlags.keepOrder = true → ∃ old new, pDest.1.pPairs.map Prod.fst = old ++ new ∧
    old.Sublist (start.pPairs.map Prod.fst) ∧ ∀ key ∈ new, f₀ key = none

variable {start : Table K V} {vars₀ : Vars V} {f₀ f : K → Option V}
  {pDest : Table K V × Vars V} {key : K} (hbits : Settles cmp)
  (hpre : PreordersKeys (cmp start.iFlags) keys)

include hpre in
theorem settled_find {s : Table K V} (hsound : Sound cmp keys s)
    (hresort : s.iFlags.resort = false) (hflags : cmp s.iFlags = cmp start.iFlags)
    (hvalues : Values (cmp start.iFlags) keys (view vars s.pPairs) f) (hkey : key ∈ keys) :
    Located cmp (cmp start.iFlags) s s key (fun pair => f key = some (pair.2.unRef vars))
      (f key = none) := by
  refine hsound.located hflags hpre.orders hresort hkey (fun pair hmem hzero => ?_)
    fun habsent => Option.not_isSome_iff_eq_none.mp fun hsome => ?_
  · refine (hvalues key hkey _).mpr ⟨(pair.1, pair.2.unRef vars), ?_, hzero, rfl⟩
    exact mem_map.mpr ⟨pair, hmem, rfl⟩
  · obtain ⟨pair, hmem, hzero⟩ := (hvalues.isSome_iff hkey).mp hsome
    obtain ⟨source, hsource, rfl⟩ := mem_map.mp hmem
    exact habsent source hsource hzero

include hbits hpre

theorem Joined.settled (h : Joined cmp keys start vars₀ f₀ pDest f) :
    Joined cmp keys start vars₀ f₀ (HashPairs.settled cmp pDest.1, pDest.2) f where
  sound := h.sound.settled hbits (h.flags.symm ▸ hpre.orders)
  flags := (settled_cmp hbits _).trans h.flags
  keep := by
    rw [settled_iFlags]
    exact h.keep
  values := h.values.perm ((settled_pPairs cmp pDest.1).map _)
  nodup := (refs_perm (settled_pPairs cmp pDest.1)).nodup_iff.mpr h.nodup
  owned := fun n hn => h.owned n ((refs_perm (settled_pPairs cmp pDest.1)).mem_iff.mp hn)
  vars := h.vars
  order := by
    intro hkeep
    have hkept : (HashPairs.settled cmp pDest.1).pPairs = pDest.1.pPairs :=
      settled_pPairs_kept h.sound.coherent (h.keep.trans hkeep)
    rw [hkept]
    exact h.order hkeep

theorem Joined.find (h : Joined cmp keys start vars₀ f₀ pDest f) (hkey : key ∈ keys) :
    ∃ s, Joined cmp keys start vars₀ f₀ (s, pDest.2) f ∧ s.iFlags.resort = false ∧
      Located cmp (cmp start.iFlags) pDest.1 s key
        (fun pair => f key = some (pair.2.unRef pDest.2)) (f key = none) := by
  have hs := h.settled hbits hpre
  have hresort : (HashPairs.settled cmp pDest.1).iFlags.resort = false := by rw [settled_iFlags]
  refine ⟨_, hs, hresort, ?_⟩
  unfold Located
  rw [hashFind_settled cmp pDest.1 key]
  exact settled_find hpre hs.sound hresort hs.flags hs.values hkey

omit hbits in
theorem Joined.assign (h : Joined cmp keys start vars₀ f₀ pDest f) (hkey : key ∈ keys)
    (hpairs : pDest.1.pPairs = before ++ pair :: after)
    (hzero : cmp start.iFlags pair.1 key = 0) (value : V) :
    Joined cmp keys start vars₀ f₀ (assignAt pDest.1 pDest.2 before.length value)
      (Library.KeyValues.assign (cmp start.iFlags) key (some value) f) := by
  obtain ⟨slot, vars', hassign, hview, hslot, hvars⟩ := assignAt_spec hpairs h.nodup value
  have hkeys : (before ++ (pair.1, slot) :: after).map Prod.fst =
      pDest.1.pPairs.map Prod.fst := by
    rw [hpairs]
    simp
  have hrefs : (refs (before ++ (pair.1, slot) :: after)).Sublist (refs pDest.1.pPairs) := by
    rw [hpairs, refs_append, refs_append]
    refine (Sublist.refl _).append ?_
    exact hslot.append (Sublist.refl _)
  have hvalues := h.values
  have hkeyed := view_keyed pDest.2 h.sound.keyed
  have hdistinct := view_distinct pDest.2 h.sound.distinct
  rw [h.flags] at hdistinct
  rw [hpairs, view_append] at hvalues hkeyed hdistinct
  rw [hassign]
  refine ⟨h.sound.setValues hkeys, h.flags, h.keep, ?_, hrefs.nodup h.nodup, ?_, ?_, ?_⟩
  · rw [hview]
    exact hvalues.replace hpre hkeyed hdistinct hkey hzero value
  · exact fun n hn => h.owned n (hrefs.subset hn)
  · intro n hn
    have hpair : n ∉ pair.2.refs := by
      intro hmem
      refine hn (h.owned n ?_)
      rw [hpairs]
      exact mem_flatMap.mpr ⟨pair, by simp, hmem⟩
    exact (hvars n hpair).trans (h.vars n hn)
  · intro hkeep
    rw [hkeys]
    exact h.order hkeep

theorem Joined.add (h : Joined cmp keys start vars₀ f₀ pDest f) (hkey : key ∈ keys)
    (hnew : f key = f₀ key) (value : V) :
    Joined cmp keys start vars₀ f₀ (joinAdd cmp pDest key value)
      (Library.KeyValues.assign (cmp start.iFlags) key (some value) f) := by
  obtain ⟨s, hs, hresort, ⟨before, pair, after, hfound, hpairs, hzero, -⟩ |
    ⟨nPos, hmissing, hle, hbefore, hafter, habsent, hnone⟩⟩ := h.find hbits hpre hkey
  · rw [joinAdd, hfound]
    exact hs.assign hpre hkey hpairs hzero value
  · rw [joinAdd, hmissing]
    have hflags : cmp s.iFlags = cmp start.iFlags := hs.flags
    have hperm := hashOpenPair_pPairs hs.sound.coherent hle (key, Slot.item value)
    have hopened := hashOpenPair_iFlags hs.sound.coherent nPos (key, Slot.item value)
    have hrefs : (refs (hashOpenPair s nPos (key, .item value)).pPairs).Perm (refs s.pPairs) := by
      have hcons := refs_perm hperm
      exact hcons
    refine ⟨hs.sound.openPair (hflags.symm ▸ hpre.orders) hresort hkey hle hbefore hafter, ?_, ?_,
      ?_, hrefs.nodup_iff.mpr hs.nodup, fun n hn => hs.owned n (hrefs.mem_iff.mp hn), hs.vars, ?_⟩
    · dsimp only
      rw [hopened]
      exact hflags
    · dsimp only
      rw [hopened]
      exact hs.keep
    · refine hs.values.insert hpre (view_keyed _ hs.sound.keyed) hkey ?_ (hperm.map _)
      intro pair hmem
      obtain ⟨source, hsource, rfl⟩ := mem_map.mp hmem
      exact habsent source hsource
    · intro hkeep
      obtain ⟨old, new, hsplit, hold, hnone'⟩ := hs.order hkeep
      obtain ⟨nSize, -, hopen⟩ := hashOpenPair_eq hs.sound.coherent nPos (key, Slot.item value)
      have hkept : s.iFlags.keepOrder = true := hs.keep.trans hkeep
      refine ⟨old, new ++ [key], ?_, hold, ?_⟩
      · dsimp only at hsplit ⊢
        rw [hopen, if_pos hkept, map_append, hsplit, append_assoc]
        rfl
      · intro k hk
        rcases mem_append.mp hk with hk | hk
        · exact hnone' k hk
        · rw [mem_singleton.mp hk, ← hnew]
          exact hnone

omit hbits in
theorem Joined.delPair (h : Joined cmp keys start vars₀ f₀ pDest f) (hkey : key ∈ keys)
    (hpairs : pDest.1.pPairs = before ++ pair :: after) (hzero : cmp start.iFlags pair.1 key = 0) :
    Joined cmp keys start vars₀ f₀ (hashDelPair pDest.1 before.length, pDest.2)
      (Library.KeyValues.assign (cmp start.iFlags) key none f) := by
  have hlt := middle_lt hpairs
  have hdeleted : (hashDelPair pDest.1 before.length).pPairs = before ++ after := by
    rw [hashDelPair_pPairs hlt, hpairs, HashMap.eraseIdx_middle]
  have hsublist : (before ++ after).Sublist pDest.1.pPairs := by
    rw [hpairs]
    exact (Sublist.refl before).append (sublist_cons_self pair after)
  have hrefs : (refs (before ++ after)).Sublist (refs pDest.1.pPairs) := by
    rw [hpairs, refs_append, refs_append]
    exact (Sublist.refl _).append (sublist_append_right _ _)
  have hvalues := h.values
  have hkeyed := view_keyed pDest.2 h.sound.keyed
  have hdistinct := view_distinct pDest.2 h.sound.distinct
  rw [h.flags] at hdistinct
  rw [hpairs, view_append] at hvalues hkeyed hdistinct
  refine ⟨h.sound.delPair hlt, ?_, ?_, ?_, ?_, ?_, h.vars, ?_⟩
  · rw [hashDelPair_iFlags]
    exact h.flags
  · rw [hashDelPair_iFlags]
    exact h.keep
  · dsimp only
    rw [hdeleted, view_append]
    exact hvalues.erase hpre hkeyed hdistinct hkey hzero
  · dsimp only
    rw [hdeleted]
    exact hrefs.nodup h.nodup
  · dsimp only
    rw [hdeleted]
    exact fun n hn => h.owned n (hrefs.subset hn)
  · intro hkeep
    obtain ⟨old, new, hsplit, hold, hnone⟩ := h.order hkeep
    have hkeys := hsublist.map Prod.fst
    rw [hsplit] at hkeys
    obtain ⟨old', new', hsplit', hold', hnew'⟩ := sublist_append_iff.mp hkeys
    refine ⟨old', new', ?_, hold'.trans hold, fun k hk => hnone k (hnew'.subset hk)⟩
    rw [hdeleted, hsplit']

theorem Joined.del (h : Joined cmp keys start vars₀ f₀ pDest f) (hkey : key ∈ keys) :
    Joined cmp keys start vars₀ f₀ ((hashDel cmp pDest.1 key).2, pDest.2)
        (Library.KeyValues.assign (cmp start.iFlags) key none f) ∧
      (hashDel cmp pDest.1 key).1 = (f key).isSome := by
  obtain ⟨s, hs, hresort, ⟨before, pair, after, hfound, hpairs, hzero, hsome⟩ |
    ⟨nPos, hmissing, -, -, -, habsent, hnone⟩⟩ := h.find hbits hpre hkey
  · rw [hashDel, hfound, hsome]
    exact ⟨hs.delPair hpre hkey hpairs hzero, rfl⟩
  · rw [hashDel, hmissing, hnone]
    refine ⟨⟨hs.sound, hs.flags, hs.keep, ?_, hs.nodup, hs.owned, hs.vars, hs.order⟩, rfl⟩
    refine hs.values.erase_absent hpre (view_keyed _ hs.sound.keyed) hkey ?_
    intro pair hmem
    obtain ⟨source, hsource, rfl⟩ := mem_map.mp hmem
    exact habsent source hsource

end Steps

end Harbour.Vm.HashJoin
