import Harbour.Vm.HashConsistent
import Harbour.Vm.HashJoin

/-!
`hb_hashJoin` computes the set operations.
-/

namespace Harbour.Vm.HashJoin

open Library.KeyOrder Library.KeyValues HashTable HashUpdate HashPairs HashSound
  HashKey HashMap List
  HashConsistent

variable {K V : Type}

section Specification

variable (cmp : HashFlags → K → K → Int)

def valueUnder (t : Table K V) (vars : Vars V) (key : K) : Option V :=
  (t.pPairs.find? fun pair => cmp t.iFlags pair.1 key = 0).map fun pair => pair.2.unRef vars

/-- The value under a key after a set operation, from those in the two hashes. -/
def joinedValue (iType : JoinType) (dest source : Option V) : Option V :=
  match iType with
  | .union => source.or dest
  | .intersect => if dest.isSome then source else none
  | .difference =>
    if source.isSome then (if dest.isSome then none else source) else dest
  | .remove => if source.isSome then none else dest

end Specification

section Sweeps

variable {cmp : HashFlags → K → K → Int} {keys : Set K} {start : Table K V} {vars₀ : Vars V}
  {f₀ f f' g φ : K → Option V} {pDest : Table K V × Vars V}

theorem Joined.congr (h : Joined cmp keys start vars₀ f₀ pDest f)
    (hsame : ∀ key ∈ keys, f' key = f key) : Joined cmp keys start vars₀ f₀ pDest f' :=
  ⟨h.sound, h.flags, h.keep, h.values.congr hsame, h.nodup, h.owned, h.vars, h.order⟩

theorem sweep {step : Table K V × Vars V → K × Slot V → Table K V × Vars V}
    (pairs : List (K × Slot V))
    (hstep : ∀ pair ∈ pairs, ∀ pDest f, Joined cmp keys start vars₀ f₀ pDest f →
      f pair.1 = f₀ pair.1 → Joined cmp keys start vars₀ f₀ (step pDest pair)
        fun other => if cmp start.iFlags pair.1 other = 0 then φ other else f other)
    (hdistinct : Distinct (cmp start.iFlags) pairs)
    (h : Joined cmp keys start vars₀ f₀ pDest f) (hfresh : ∀ pair ∈ pairs, f pair.1 = f₀ pair.1) :
    Joined cmp keys start vars₀ f₀ (pairs.foldl step pDest)
      (swept (cmp start.iFlags) (pairs.map Prod.fst) φ f) := by
  induction pairs generalizing pDest f with
  | nil => exact h
  | cons pair pairs ih =>
    obtain ⟨hfirst, hrest⟩ := pairwise_cons.mp hdistinct
    rw [foldl_cons, map_cons, swept_cons]
    apply ih
    · exact fun other hmem => hstep other (mem_cons_of_mem _ hmem)
    · exact hrest
    · exact hstep pair mem_cons_self pDest f h (hfresh pair mem_cons_self)
    · intro other hmem
      rw [if_neg (hfirst other hmem).1]
      exact hfresh other (mem_cons_of_mem _ hmem)

end Sweeps

section Steps

variable {isHashKey : K → Bool} {cmp : HashFlags → K → K → Int} {keys : Set K}
  {start source : Table K V} {vars₀ : Vars V} {f₀ f g : K → Option V} {pDest : Table K V × Vars V}
  {pair : K × Slot V} (hhash : ∀ key ∈ keys, isHashKey key = true) (hbits : Settles cmp)
  (hpre : PreordersKeys (cmp start.iFlags) keys)

/-- The source has the same comparison, and no variable of the values of the destination. -/
structure Source (cmp : HashFlags → K → K → Int) (keys : Set K) (start : Table K V)
    (vars₀ : Vars V) (source : Table K V) (g : K → Option V) : Prop where
  sound : Sound cmp keys source
  flags : cmp source.iFlags = cmp start.iFlags
  apart : ∀ n ∈ refs source.pPairs, n ∉ refs start.pPairs
  values : Values (cmp start.iFlags) keys (view vars₀ source.pPairs) g

section

variable (hsource : Source cmp keys start vars₀ source g)
  (h : Joined cmp keys start vars₀ f₀ pDest f)

include hsource h

theorem Source.values_now : Values (cmp start.iFlags) keys (view pDest.2 source.pPairs) g := by
  have hview : view pDest.2 source.pPairs = view vars₀ source.pPairs :=
    view_congr fun n hn => h.vars n (hsource.apart n hn)
  rw [hview]
  exact hsource.values

theorem Source.value_eq (hmem : pair ∈ source.pPairs) {other : K} (hother : other ∈ keys)
    (heq : cmp start.iFlags pair.1 other = 0) : g other = some (pair.2.unRef pDest.2) :=
  (hsource.values_now h other hother _).mpr
    ⟨(pair.1, pair.2.unRef pDest.2), mem_map.mpr ⟨pair, hmem, rfl⟩, heq, rfl⟩

end

/-- The source after lookups: a pending sort may have moved its pairs. -/
structure Resorted (s s' : Table K V) : Prop where
  perm : s'.pPairs.Perm s.pPairs
  keep : s'.iFlags.keepOrder = s.iFlags.keepOrder
  kept : s.iFlags.keepOrder = true → s'.pPairs = s.pPairs

theorem Resorted.trans {s s' s'' : Table K V} (h : Resorted s s') (h' : Resorted s' s'') :
    Resorted s s'' where
  perm := h'.perm.trans h.perm
  keep := h'.keep.trans h.keep
  kept := fun hkeep => (h'.kept (h.keep.trans hkeep)).trans (h.kept hkeep)

theorem resorted_settled {s : Table K V} (h : Coherent s) :
    Resorted s (settled cmp s) where
  perm := settled_pPairs cmp s
  keep := by rw [settled_iFlags]
  kept := settled_pPairs_kept h

include hhash hbits hpre

theorem unionStep_joined (hsource : Source cmp keys start vars₀ source g)
    (hmem : pair ∈ source.pPairs) (h : Joined cmp keys start vars₀ f₀ pDest f)
    (hfresh : f pair.1 = f₀ pair.1) :
    Joined cmp keys start vars₀ f₀ (unionStep isHashKey cmp pDest pair)
      fun other => if cmp start.iFlags pair.1 other = 0 then g other else f other := by
  have hkey := hsource.sound.keyed pair hmem
  rw [unionStep, hashAddKey, if_pos (hhash _ hkey)]
  refine (h.add hbits hpre hkey hfresh _).congr fun other hother => ?_
  rw [assign]
  split
  · rename_i heq
    exact hsource.value_eq h hmem hother heq
  · rfl

theorem removeStep_joined (hkey : pair.1 ∈ keys) (h : Joined cmp keys start vars₀ f₀ pDest f) :
    Joined cmp keys start vars₀ f₀ (removeStep isHashKey cmp pDest pair)
      fun other => if cmp start.iFlags pair.1 other = 0 then none else f other := by
  rw [removeStep, hashDelKey, if_pos (hhash _ hkey)]
  exact (h.del hbits hpre hkey).1

theorem differenceStep_joined (hsource : Source cmp keys start vars₀ source g)
    (hstart : Values (cmp start.iFlags) keys (view vars₀ start.pPairs) f₀)
    (hkeyed : Keyed keys start.pPairs) (hmem : pair ∈ source.pPairs)
    (h : Joined cmp keys start vars₀ f₀ pDest f) (hfresh : f pair.1 = f₀ pair.1) :
    Joined cmp keys start vars₀ f₀ (differenceStep isHashKey cmp pDest pair)
      fun other => if cmp start.iFlags pair.1 other = 0 then
        (if (f₀ other).isSome then none else g other) else f other := by
  have hkey := hsource.sound.keyed pair hmem
  have hrespects : ∀ other ∈ keys, cmp start.iFlags pair.1 other = 0 → f₀ other = f₀ pair.1 :=
    fun other hother heq =>
      (hstart.respects hpre (view_keyed _ hkeyed) hkey hother heq).symm
  obtain ⟨hdel, hflag⟩ := h.del hbits hpre hkey
  unfold differenceStep hashDelKey hashAddKey
  rw [if_pos (hhash _ hkey)]
  cases hresult : hashDel cmp pDest.1 pair.1 with
  | mk fDeleted t =>
    rw [hresult] at hdel hflag
    cases fDeleted with
    | true =>
      refine hdel.congr fun other hother => ?_
      rw [assign]
      split
      · rename_i heq
        rw [hrespects other hother heq, ← hfresh, if_pos hflag.symm]
      · rfl
    | false =>
      have hnone : f pair.1 = none := by
        cases hf : f pair.1 with
        | none => rfl
        | some value =>
          rw [hf] at hflag
          cases hflag
      have hself := hpre.orders.equal_refl hkey
      have hadded := hdel.add hbits hpre hkey
        (by rw [assign, if_pos hself, ← hfresh, hnone]) (pair.2.unRef pDest.2)
      dsimp only
      rw [if_pos (hhash _ hkey)]
      refine hadded.congr fun other hother => ?_
      rw [assign, assign]
      split
      · rename_i heq
        rw [hrespects other hother heq, ← hfresh, hnone]
        exact hsource.value_eq h hmem hother heq
      · rfl

omit hhash in
theorem Source.settled (hsource : Source cmp keys start vars₀ source g) :
    Source cmp keys start vars₀ (HashPairs.settled cmp source) g where
  sound := hsource.sound.settled hbits (hsource.flags.symm ▸ hpre.orders)
  flags := (settled_cmp hbits _).trans hsource.flags
  apart := fun n hn => hsource.apart n ((refs_perm (settled_pPairs cmp source)).mem_iff.mp hn)
  values := hsource.values.perm ((settled_pPairs cmp source).map _)

omit hhash in
theorem intersectLoop_joined {done todo : List (K × Slot V)}
    (h : Joined cmp keys start vars₀ f₀ pDest f)
    (hsource : Source cmp keys start vars₀ source g) (hpairs : pDest.1.pPairs = done ++ todo) :
    ∃ r s, intersectLoop cmp todo.length done.length pDest.1 source pDest.2 = (r.1, s, r.2) ∧
      Joined cmp keys start vars₀ f₀ r
        (swept (cmp start.iFlags) (todo.map Prod.fst) g f) ∧
      Source cmp keys start vars₀ s g ∧ Resorted source s := by
  induction todo generalizing done pDest source f with
  | nil => exact ⟨pDest, source, rfl, h, hsource, Perm.refl _, rfl, fun _ => rfl⟩
  | cons pair todo ih =>
    have hget : pDest.1.pPairs[done.length]? = some pair := by rw [hpairs, getElem?_middle]
    have hkey : pair.1 ∈ keys := h.sound.keyed pair (by rw [hpairs]; simp)
    have hself := hpre.orders.equal_refl hkey
    have hrespects : ∀ other ∈ keys, cmp start.iFlags pair.1 other = 0 →
        g other = g pair.1 := fun other hother heq =>
      (hsource.values.respects hpre (view_keyed _ hsource.sound.keyed) hkey hother heq).symm
    have hsettled := hsource.settled hbits hpre
    have hresorted : Resorted source (HashPairs.settled cmp source) :=
      resorted_settled hsource.sound.coherent
    have hresort : (HashPairs.settled cmp source).iFlags.resort = false := by
      rw [settled_iFlags]
    have hfind := settled_find hpre hsettled.sound hresort hsettled.flags
      (hsettled.values_now h) hkey
    rw [map_cons, swept_cons, length_cons, intersectLoop, hget]
    dsimp only
    rw [hashFind_settled]
    obtain ⟨before, found, after, hfound, hsplit, -, hsome⟩ |
      ⟨nPos, hmissing, -, -, -, -, hnone⟩ := hfind
    · have hsourceGet : (HashPairs.settled cmp source).pPairs[before.length]? = some found := by
        rw [hsplit, getElem?_append_right (Nat.le_refl _), Nat.sub_self]
        rfl
      rw [hfound]
      dsimp only
      rw [hsourceGet]
      dsimp only
      have hassigned := h.assign hpre hkey hpairs hself (found.2.unRef pDest.2)
      obtain ⟨slot, vars', hassign, -⟩ := assignAt_spec hpairs h.nodup (found.2.unRef pDest.2)
      rw [hassign] at hassigned ⊢
      have hnext : Joined cmp keys start vars₀ f₀
          ({ pDest.1 with pPairs := done ++ (pair.1, slot) :: todo }, vars')
          fun other => if cmp start.iFlags pair.1 other = 0 then g other else f other := by
        refine hassigned.congr fun other hother => ?_
        rw [assign]
        split
        · rename_i heq
          exact (hrespects other hother heq).trans hsome
        · rfl
      have hrest : done ++ (pair.1, slot) :: todo = done ++ [(pair.1, slot)] ++ todo := by simp
      have hloop := ih hnext hsettled hrest
      rw [length_append] at hloop
      obtain ⟨r, s, hrun, hjoined, hs, hmoved⟩ := hloop
      exact ⟨r, s, hrun, hjoined, hs, hresorted.trans hmoved⟩
    · rw [hmissing]
      have hlt := middle_lt hpairs
      have hdeleted : (hashDelPair pDest.1 done.length).pPairs = done ++ todo := by
        rw [hashDelPair_pPairs hlt, hpairs, HashMap.eraseIdx_middle]
      have hnext : Joined cmp keys start vars₀ f₀
          (hashDelPair pDest.1 done.length, pDest.2)
          fun other => if cmp start.iFlags pair.1 other = 0 then g other else f other := by
        refine (h.delPair hpre hkey hpairs hself).congr fun other hother => ?_
        rw [assign]
        split
        · rename_i heq
          exact (hrespects other hother heq).trans hnone
        · rfl
      obtain ⟨r, s, hrun, hjoined, hs, hmoved⟩ := ih hnext hsettled hdeleted
      exact ⟨r, s, hrun, hjoined, hs, hresorted.trans hmoved⟩

end Steps

section Sets

variable {isHashKey : K → Bool} {cmp : HashFlags → K → K → Int} {keys : Set K}
  {pDest : Table K V} {pSource : Option (Table K V)} {s : Table K V} {vars : Vars V}
  {f₀ g : K → Option V} (hhash : ∀ key ∈ keys, isHashKey key = true) (hbits : Settles cmp)
  (hpre : PreordersKeys (cmp pDest.iFlags) keys)

theorem valueUnder_values {t : Table K V} (vars : Vars V) (hpre : PreordersKeys (cmp t.iFlags) keys)
    (h : Sound cmp keys t) :
    Values (cmp t.iFlags) keys (view vars t.pPairs) (valueUnder cmp t vars) := by
  have hfind := Values.find hpre (view_keyed vars h.keyed) (view_distinct vars h.distinct)
  refine hfind.congr fun key _ => ?_
  rw [valueUnder, view, find?_map, Option.map_map]
  rfl

theorem joined_start (hsound : Sound cmp keys pDest) (hrefs : (refs pDest.pPairs).Nodup)
    (hdest : Values (cmp pDest.iFlags) keys (view vars pDest.pPairs) f₀) :
    Joined cmp keys pDest vars f₀ (pDest, vars) f₀ where
  sound := hsound
  flags := rfl
  keep := rfl
  values := hdest
  nodup := hrefs
  owned := fun _ hn => hn
  vars := fun _ _ => rfl
  order := fun _ => ⟨_, [], (append_nil _).symm, Sublist.refl _,
    fun _ hmem => absurd hmem not_mem_nil⟩

theorem joined_clear (hsound : Sound cmp keys pDest) :
    Joined cmp keys pDest vars f₀ (hashClear pDest, vars) fun _ => none := by
  obtain ⟨hcoherent, hnil, hflags⟩ := hsound.coherent.clear
  refine ⟨sound_of_empty hcoherent hnil, ?_, ?_, ?_, ?_, ?_, fun _ _ => rfl, ?_⟩
  · rw [hflags]
  · rw [hflags]
  · dsimp only
    rw [hnil]
    intro key _ value
    simp [view]
  · dsimp only
    rw [hnil]
    exact nodup_nil
  · dsimp only
    rw [hnil]
    exact fun n hn => absurd hn not_mem_nil
  · intro _
    refine ⟨[], [], ?_, nil_sublist _, fun _ hmem => absurd hmem not_mem_nil⟩
    rw [hnil]
    rfl

theorem hashJoin_self (iType : JoinType) (hsound : Sound cmp keys pDest)
    (hrefs : (refs pDest.pPairs).Nodup)
    (hdest : Values (cmp pDest.iFlags) keys (view vars pDest.pPairs) f₀) :
    ∃ t f, hashJoin isHashKey cmp iType pDest none vars = (t, none, vars) ∧
      Joined cmp keys pDest vars f₀ (t, vars) f ∧
      ∀ key ∈ keys, f key = joinedValue iType (f₀ key) (f₀ key) := by
  have hstart := joined_start hsound hrefs hdest
  have hclear : Joined cmp keys pDest vars f₀ (hashClear pDest, vars) fun _ => none :=
    joined_clear hsound
  cases iType with
  | union | intersect => exact ⟨_, _, rfl, hstart, fun key _ => by cases f₀ key <;> rfl⟩
  | difference | remove => exact ⟨_, _, rfl, hclear, fun key _ => by cases f₀ key <;> rfl⟩

include hhash hbits hpre

theorem hashJoin_other (iType : JoinType) (hsound : Sound cmp keys pDest)
    (hrefs : (refs pDest.pPairs).Nodup)
    (hdest : Values (cmp pDest.iFlags) keys (view vars pDest.pPairs) f₀)
    (hsource : Source cmp keys pDest vars s g) :
    ∃ r s' f, hashJoin isHashKey cmp iType pDest (some s) vars = (r.1, some s', r.2) ∧
      Joined cmp keys pDest vars f₀ r f ∧ Source cmp keys pDest vars s' g ∧ Resorted s s' ∧
      ∀ key ∈ keys, f key = joinedValue iType (f₀ key) (g key) := by
  have hstart := joined_start hsound hrefs hdest
  have hsame : Resorted s s := ⟨Perm.refl _, rfl, fun _ => rfl⟩
  have hdistinct : Distinct (cmp pDest.iFlags) s.pPairs := hsource.flags ▸ hsource.sound.distinct
  have hswept (φ : K → Option V) {key : K} (hkey : key ∈ keys) :
      swept (cmp pDest.iFlags) (s.pPairs.map Prod.fst) φ f₀ key =
        if (g key).isSome then φ key else f₀ key := by
    rw [← view_keys vars]
    exact hsource.values.swept_eq hkey φ f₀
  cases iType with
  | union =>
    have hjoined := sweep s.pPairs
      (fun pair hmem _ _ h hfresh => unionStep_joined hhash hbits hpre hsource hmem h hfresh)
      hdistinct hstart fun _ _ => rfl
    refine ⟨_, s, _, rfl, hjoined, hsource, hsame, fun key hkey => ?_⟩
    rw [hswept g hkey]
    cases g key <;> rfl
  | intersect =>
    have hall : pDest.pPairs = [] ++ pDest.pPairs := rfl
    obtain ⟨r, s', hrun, hjoined, hsource', hresorted⟩ :=
      intersectLoop_joined hbits hpre hstart hsource hall
    refine ⟨r, s', _, ?_, hjoined, hsource', hresorted, fun key hkey => ?_⟩
    · have hloop : intersectLoop cmp pDest.nLen 0 pDest s vars = (r.1, s', r.2) := hrun
      rw [hashJoin, hloop]
    · rw [← view_keys vars, hdest.swept_eq hkey g f₀]
      cases f₀ key <;> rfl
  | difference =>
    have hjoined := sweep s.pPairs
      (fun pair hmem _ _ h hfresh =>
        differenceStep_joined hhash hbits hpre hsource hdest hsound.keyed hmem h hfresh)
      hdistinct hstart fun _ _ => rfl
    refine ⟨_, s, _, rfl, hjoined, hsource, hsame, fun key hkey => ?_⟩
    rw [hswept _ hkey]
    cases g key <;> rfl
  | remove =>
    have hjoined := sweep s.pPairs
      (fun pair hmem _ _ h _ => removeStep_joined hhash hbits hpre
        (hsource.sound.keyed pair hmem) h)
      hdistinct hstart fun _ _ => rfl
    refine ⟨_, s, _, rfl, hjoined, hsource, hsame, fun key hkey => ?_⟩
    rw [hswept _ hkey]
    cases g key <;> rfl

end Sets

section Result

variable {D : Type} {env : KeyEnv D} {keys : Set (KeyItem D)} {pDest : Table (KeyItem D) V}
  {pSource : Option (Table (KeyItem D) V)} {vars : Vars V}

structure Kept (cmp : HashFlags → K → K → Int) (keys : Set K) (s : Table K V) (vars : Vars V)
    (s' : Table K V) (vars' : Vars V) : Prop where
  sound : Sound cmp keys s'
  pairs : (view vars' s'.pPairs).Perm (view vars s.pPairs)
  order : s.iFlags.keepOrder = true → view vars' s'.pPairs = view vars s.pPairs

/-- The destination of a join has the keys and the values of the set operation, and the keys that
it had come first, in their order. -/
structure Result (cmp : HashFlags → K → K → Int) (keys : Set K) (iType : JoinType)
    (pDest pSource : Table K V) (vars : Vars V) (t : Table K V) (vars' : Vars V) : Prop where
  sound : Sound cmp keys t
  value : ∀ key ∈ keys, valueUnder cmp t vars' key =
    joinedValue iType (valueUnder cmp pDest vars key) (valueUnder cmp pSource vars key)
  order : pDest.iFlags.keepOrder = true → ∃ old new, t.pPairs.map Prod.fst = old ++ new ∧
    old.Sublist (pDest.pPairs.map Prod.fst) ∧ ∀ key ∈ new, valueUnder cmp pDest vars key = none
  nodup : (refs t.pPairs).Nodup
  owned : ∀ n ∈ refs t.pPairs, n ∈ refs pDest.pPairs
  vars : ∀ n, n ∉ refs pDest.pPairs → vars' n = vars n

theorem Joined.result {cmp : HashFlags → K → K → Int} {keys : Set K} {iType : JoinType}
    {pDest pSource : Table K V} {vars : Vars V} {r : Table K V × Vars V} {f : K → Option V}
    (hpre : PreordersKeys (cmp pDest.iFlags) keys)
    (h : Joined cmp keys pDest vars (valueUnder cmp pDest vars) r f)
    (hvalue : ∀ key ∈ keys, f key =
      joinedValue iType (valueUnder cmp pDest vars key) (valueUnder cmp pSource vars key)) :
    Result cmp keys iType pDest pSource vars r.1 r.2 where
  sound := h.sound
  value := by
    intro key hkey
    have hfinal := valueUnder_values r.2 (h.flags.symm ▸ hpre) h.sound
    rw [h.flags] at hfinal
    rw [← hvalue key hkey]
    exact hfinal.unique h.values hkey
  order := h.order
  nodup := h.nodup
  owned := h.owned
  vars := h.vars

/-- `hb_hashJoin` is the set operation, for a source that is another hash or the destination. -/
theorem hashJoin_correct (iType : JoinType) (hkeys : keys ⊆ hashKeys)
    (hpre : PreordersKeys (hashItemCmp env pDest.iFlags) keys)
    (hdest : Sound (hashItemCmp env) keys pDest) (hrefs : (refs pDest.pPairs).Nodup)
    (hsource : ∀ s ∈ pSource, Sound (hashItemCmp env) keys s ∧
      s.iFlags.binary = pDest.iFlags.binary ∧ s.iFlags.ignoreCase = pDest.iFlags.ignoreCase ∧
      ∀ n ∈ refs s.pPairs, n ∉ refs pDest.pPairs) :
    ∃ t pSource' vars',
      hashJoin KeyItem.isHashKey (hashItemCmp env) iType pDest pSource vars =
        (t, pSource', vars') ∧
      Result (hashItemCmp env) keys iType pDest (pSource.getD pDest) vars t vars' ∧
      ∀ s ∈ pSource, ∃ s' ∈ pSource', Kept (hashItemCmp env) keys s vars s' vars' := by
  have hvalues := valueUnder_values vars hpre hdest
  cases pSource with
  | none =>
    obtain ⟨t, f, hrun, hjoined, hvalue⟩ := hashJoin_self iType hdest hrefs hvalues
    exact ⟨t, none, vars, hrun, hjoined.result hpre hvalue, fun _ hs => nomatch hs⟩
  | some s =>
    obtain ⟨hsound, hbinary, hcase, hapart⟩ := hsource s rfl
    have hflags := hashItemCmp_congr env hbinary hcase
    have hsourceValues := valueUnder_values vars (hflags.symm ▸ hpre) hsound
    rw [hflags] at hsourceValues
    have hfrom : Source (hashItemCmp env) keys pDest vars s
        (valueUnder (hashItemCmp env) s vars) := ⟨hsound, hflags, hapart, hsourceValues⟩
    obtain ⟨r, s', f, hrun, hjoined, hfrom', hresorted, hvalue⟩ :=
      hashJoin_other hkeys HashMap.hashItemCmp_settles hpre iType hdest hrefs hvalues hfrom
    refine ⟨r.1, some s', r.2, hrun, hjoined.result hpre hvalue, fun _ hs => ?_⟩
    cases hs
    have hview : view r.2 s.pPairs = view vars s.pPairs :=
      view_congr fun n hn => hjoined.vars n (hapart n hn)
    refine ⟨s', rfl, hfrom'.sound, ?_, fun hkeep => ?_⟩
    · rw [← hview]
      exact hresorted.perm.map _
    · rw [hresorted.kept hkeep, hview]

end Result

section Sample

variable {D V : Type}

def hashOf (pPairs : List (KeyItem D × Slot V)) : Table (KeyItem D) V where
  pPairs
  pDefault := none
  pnPos := some (range pPairs.length)
  nSize := pPairs.length
  iFlags := hashFlagDefault

theorem hashOf_sound {env : KeyEnv D} {keys : Set (KeyItem D)}
    {pPairs : List (KeyItem D × Slot V)} (hne : pPairs ≠ [])
    (hpre : PreordersKeys (hashItemCmp env hashFlagDefault) keys) (hkeys : Keyed keys pPairs)
    (hincreases : Increases (hashItemCmp env hashFlagDefault) pPairs) :
    Sound (hashItemCmp env) keys (hashOf pPairs) where
  coherent := {
    allocated := Nat.le_refl _
    layout := by simp [hashOf, hashFlagDefault, hne]
    slots := by
      intro pnPos hpos
      cases hpos
      exact length_range
    index := fun _ => Perm.refl _ }
  keyed := hkeys
  distinct := hincreases.distinct hpre.orders hkeys
  sorted := by
    intro _
    have horder : inOrder (hashOf pPairs) = pPairs := filterMap_range pPairs
    rw [horder]
    exact hincreases

def sampleDest : Table (KeyItem Int) Nat := hashOf [(.numInt 1, .byRef 0), (.numInt 2, .item 20)]

def sampleSource : Table (KeyItem Int) Nat :=
  hashOf [(.numInt 1, .item 100), (.numInt 3, .byRef 1)]

theorem hashJoin_correct_sample :
    ∃ t pSource' vars', hashJoin KeyItem.isHashKey (hashItemCmp plainEnv)
    .difference sampleDest (some sampleSource)
        (fun n => n) = (t, pSource', vars') ∧
      Result (hashItemCmp plainEnv) numbers .difference sampleDest sampleSource (fun n => n) t
        vars' ∧
      ∀ s ∈ some sampleSource, ∃ s' ∈ pSource',
        Kept (hashItemCmp plainEnv) numbers s (fun n => n) s' vars' := by
  have hdest : Sound (hashItemCmp plainEnv) numbers sampleDest :=
    hashOf_sound (cons_ne_nil _ _) (numbers_preordered _)
      (by simp [Keyed, numbers]) (by simp [Increases, hashItemCmp, threeWay])
  have hsource : Sound (hashItemCmp plainEnv) numbers sampleSource :=
    hashOf_sound (cons_ne_nil _ _) (numbers_preordered _)
      (by simp [Keyed, numbers]) (by simp [Increases, hashItemCmp, threeWay])
  have hkeys : numbers ⊆ hashKeys := by
    rintro key ⟨_, rfl⟩
    rfl
  refine hashJoin_correct .difference hkeys (numbers_preordered _) hdest (by decide) ?_
  rintro s hs
  cases hs
  exact ⟨hsource, rfl, rfl, by decide⟩

def roundedDest : Table (KeyItem Double) Nat :=
  hashOf [(.numInt (2 ^ 53), .item 1), (.numInt (2 ^ 53 + 1), .item 2)]

def roundedSource : Table (KeyItem Double) Nat := hashOf [(.double (ofMaxInt (2 ^ 53)), .item 3)]

/-- `HB_HCASEMATCH( { "a" => 1, "A" => 2 }, .F. )`, whose keys are equal from then on. -/
def foldedDest : Table (KeyItem Int) Nat where
  pPairs := [(.string [0x61], .item 1), (.string [0x41], .item 2)]
  pDefault := none
  pnPos := some [0, 1]
  nSize := 2
  iFlags := { hashFlagDefault with binary := false, ignoreCase := true, resort := true }

def foldedSource : Table (KeyItem Int) Nat :=
  { foldedDest with pPairs := [(.string [0x61], .item 9)], pnPos := some [0] }

/-- One of two keys that equal the key of the source is not removed, be they integers that a double
equals or letters in both cases, and a source that is the destination loses its pairs. -/
theorem hashJoin_rounded_and_self :
    (∃ pair ∈ (hashJoin KeyItem.isHashKey (hashItemCmp (doubleEnv none)) .remove roundedDest
        (some roundedSource) fun n => n).1.pPairs,
      hashItemCmp (doubleEnv none) hashFlagDefault pair.1 (.double (ofMaxInt (2 ^ 53))) = 0) ∧
    (∃ pair ∈ (hashJoin KeyItem.isHashKey (hashItemCmp plainEnv) .remove foldedDest
        (some foldedSource) fun n => n).1.pPairs,
      hashItemCmp plainEnv foldedDest.iFlags pair.1 (.string [0x61]) = 0) ∧
    (hashJoin KeyItem.isHashKey (hashItemCmp plainEnv) .difference sampleDest none
      fun n => n).1.pPairs ≠ sampleDest.pPairs := by
  have hodd : hashItemCmp (doubleEnv none) hashFlagDefault (.numInt (2 ^ 53 + 1))
      (.double (ofMaxInt (2 ^ 53))) = 0 :=
    (integer_double_compare _ _).zero.mpr ofMaxInt_odd
  have heven : hashItemCmp (doubleEnv none) hashFlagDefault (.numInt (2 ^ 53))
      (.double (ofMaxInt (2 ^ 53))) = 0 :=
    (integer_double_compare _ _).zero.mpr rfl
  have hfind : hashFind (hashItemCmp (doubleEnv none)) roundedDest (.double (ofMaxInt (2 ^ 53))) =
      (roundedDest, true, 1) := by
    have hsearch : Library.BinarySearch.search (fun n =>
        keyCmpAt (hashItemCmp (doubleEnv none)) roundedDest (roundedDest.keyOrder.getD n n)
          (.double (ofMaxInt (2 ^ 53)))) 0 2 = (true, 1) := by
      rw [Library.BinarySearch.search, if_pos (by decide)]
      exact if_pos hodd
    have hresort : roundedDest.iFlags.resort ≠ true := by decide
    have hlength : roundedDest.nLen = 2 := rfl
    unfold hashFind
    dsimp only
    rw [if_neg hresort, hlength, hsearch]
    rfl
  refine ⟨⟨(.numInt (2 ^ 53), .item 1), ?_, heven⟩, by decide +kernel, by decide⟩
  change _ ∈ (hashDel (hashItemCmp (doubleEnv none)) roundedDest _).2.pPairs
  rw [hashDel, hfind]
  exact mem_singleton.mpr rfl

end Sample

end Harbour.Vm.HashJoin
