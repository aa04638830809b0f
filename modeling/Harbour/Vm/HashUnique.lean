import Harbour.Rtl.CdpCollate
import Harbour.Vm.HashDecode
import Harbour.Vm.HashJoin

/-!
Merges of hashes, and the keys of every hash that the operations can reach.
-/

namespace Harbour.Vm.HashUnique

open Common.CharClass Library.KeyOrder HashTable HashUpdate HashPairs HashSettings HashSound
  HashKey HashMap List HashSwitch HashDecode HashJoin

section Updates

variable {K V : Type} {cmp : HashFlags → K → K → Int} {keys : Set K} {t : BaseHash K V} {key : K}
  (hbits : Settles cmp)

include hbits

section

variable (horder : OrdersKeys (cmp t.iFlags) keys) (h : Sound cmp keys t) (hkey : key ∈ keys)

include horder h hkey

theorem lookup_sound : Sound cmp keys (settled cmp t) ∧
      ((∃ nPos, hashFind cmp t key = (settled cmp t, true, nPos) ∧ nPos < (settled cmp t).nLen) ∨
        ∃ nPos, hashFind cmp t key = (settled cmp t, false, nPos) ∧
          ∀ value, Sound cmp keys (hashOpenPair (settled cmp t) nPos (key, value))) := by
  have hs := h.settled hbits horder
  have hresort : (settled cmp t).iFlags.resort = false := by rw [settled_iFlags]
  have horder' : OrdersKeys (cmp (settled cmp t).iFlags) keys := by rwa [settled_cmp hbits]
  refine ⟨hs, ?_⟩
  rw [hashFind_settled]
  rcases hs.find horder' hresort hkey with
    ⟨before, pair, after, hfound, hpairs, -⟩ | ⟨nPos, hmissing, hle, hbefore, hafter⟩
  · refine .inl ⟨_, hfound, ?_⟩
    rw [BaseHash.nLen, hpairs]
    simp
  · exact .inr ⟨nPos, hmissing, fun value => hs.openPair horder' hresort hkey hle hbefore hafter⟩

theorem add_sound (value : V) : Sound cmp keys (hashAdd cmp t key value) := by
  obtain ⟨hs, ⟨nPos, hfound, -⟩ | ⟨nPos, hmissing, hopen⟩⟩ := lookup_sound hbits horder h hkey
  · unfold hashAdd
    rw [hfound]
    exact hs.setValues (modify_keys _ nPos value)
  · have heq : hashAdd cmp t key value = hashOpenPair (settled cmp t) nPos (key, value) := by
      unfold hashAdd
      rw [hmissing]
      rfl
    rw [heq]
    exact hopen value

theorem addNew_sound (value : V) : Sound cmp keys (hashAddNew cmp t key value).2 := by
  unfold hashAddNew
  obtain ⟨hs, ⟨nPos, hfound, -⟩ | ⟨nPos, hmissing, hopen⟩⟩ := lookup_sound hbits horder h hkey
  · rw [hfound]
    exact hs
  · rw [hmissing]
    exact hopen value

theorem access_sound (nil : V) : Sound cmp keys (hashAccess cmp nil t key).1 := by
  unfold hashAccess hashValuePtr
  obtain ⟨hs, ⟨nPos, hfound, -⟩ | ⟨nPos, hmissing, hopen⟩⟩ := lookup_sound hbits horder h hkey
  · rw [hfound]
    exact hs
  · rw [hmissing]
    cases t.iFlags.autoAddAccess with
    | true => exact hopen _
    | false => exact hs

theorem del_sound : Sound cmp keys (hashDel cmp t key).2 := by
  unfold hashDel
  obtain ⟨hs, ⟨nPos, hfound, hlt⟩ | ⟨nPos, hmissing, -⟩⟩ := lookup_sound hbits horder h hkey
  · rw [hfound]
    exact hs.delPair hlt
  · rw [hmissing]
    exact hs

end

omit hbits in
theorem delAt_sound (h : Sound cmp keys t) (nPos : Nat) : Sound cmp keys (hashDelAt t nPos).2 := by
  unfold hashDelAt
  split
  · exact h.delPair (by omega)
  · exact h

section

variable (horder : OrdersKeys (cmp t.iFlags) keys) (h : Sound cmp keys t) (nilPair : K × V)

include horder h nilPair

theorem sort_sound (hsome : t.pnPos.isSome → t.nLen ≠ 0) :
    ∃ t', hashSort nilPair cmp t = .ok t' ∧ Sound cmp keys t' := by
  have hs := h.settled hbits horder
  have hresort : (settled cmp t).iFlags.resort = false := by rw [settled_iFlags]
  have hperm := hs.coherent.inOrder_perm hresort
  obtain ⟨t', hsort, hcoherent, hpairs, hinOrder, hflags, -⟩ :=
    hashSort_eq nilPair cmp h.coherent hsome
  have hcmp : cmp t'.iFlags = cmp (settled cmp t).iFlags := by rw [hflags, settled_iFlags]
  refine ⟨t', hsort, hcoherent, ?_, ?_, fun _ => ?_⟩
  · rw [hpairs]
    exact hs.keyed.perm hperm
  · rw [hpairs, hcmp]
    exact hs.distinct.perm hperm
  · rw [hinOrder, hpairs, hcmp]
    exact hs.sorted hresort

theorem update_sound (u : Update K V) (huses : u.Uses keys) (hmoves : (Op.update u).Moves t) :
    ∃ t', update cmp nilPair t u = .ok t' ∧ Sound cmp keys t' := by
  cases u with
  | add key value => exact ⟨_, rfl, add_sound hbits horder h huses value⟩
  | addNew key value => exact ⟨_, rfl, addNew_sound hbits horder h huses value⟩
  | access key => exact ⟨_, rfl, access_sound hbits horder h huses nilPair.2⟩
  | del key => exact ⟨_, rfl, del_sound hbits horder h huses⟩
  | delAt nPos => exact ⟨_, rfl, delAt_sound h nPos⟩
  | clear =>
    obtain ⟨hcoherent, hnil, -⟩ := h.coherent.clear
    exact ⟨_, rfl, sound_of_empty hcoherent hnil⟩
  | preallocate nNewSize => exact ⟨_, rfl, h.resize nNewSize⟩
  | sort => exact sort_sound hbits horder h nilPair hmoves

end

end Updates

section Switches

variable {D V : Type} {env : KeyEnv D} {keys : Set (KeyItem D)} {nilPair : KeyItem D × V}
  {t t' : BaseHash (KeyItem D) V}

theorem switched_sound (h : Sound (hashItemCmp env) keys t) (hswitched : Switched t t')
    (hresort : t' = t ∨ t'.iFlags.resort = true)
    (hdistinct : Distinct (hashItemCmp env t'.iFlags) t.pPairs) :
    Sound (hashItemCmp env) keys t' := by
  rcases hresort with rfl | hresort
  · exact h
  · refine ⟨hswitched.coherent, h.keyed.perm hswitched.pPairs, hdistinct.perm hswitched.pPairs,
      fun hidle => ?_⟩
    rw [hresort] at hidle
    cases hidle

theorem setFlags_inOrder (t : BaseHash (KeyItem D) V) (iFlags : HashFlags) :
    inOrder (hashSetFlags t iFlags) = inOrder t := by
  unfold hashSetFlags
  dsimp only
  split
  · rename_i hbuild
    unfold inOrder
    rw [keyOrder_none hbuild.1]
    rfl
  · rfl

variable (nilPair) in
theorem keepOrder_sound (h : Sound (hashItemCmp env) keys t) (fKeep : Bool)
    (hindex : fKeep = false → ∀ pnPos, t.pnPos = some pnPos →
      pnPos.Perm (range t.nLen) ∧ t.nLen ≠ 0) :
    ∃ t', hbHKeepOrder nilPair t fKeep = .ok t' ∧ Sound (hashItemCmp env) keys t' := by
  unfold hbHKeepOrder
  cases fKeep with
  | true =>
    rw [if_pos rfl]
    split
    · exact ⟨t, rfl, h⟩
    · have hcmp : hashItemCmp env (hashSetFlags t { noFlags with keepOrder := true }).iFlags =
          hashItemCmp env t.iFlags := by
        rw [hashSetFlags_iFlags]
        exact hashItemCmp_congr env (Bool.or_false _) (Bool.or_false _)
      refine ⟨_, rfl, setFlags_coherent h.coherent _, ?_, ?_, fun hidle => ?_⟩
      · rw [hashSetFlags_pPairs]
        exact h.keyed
      · rw [hashSetFlags_pPairs, hcmp]
        exact h.distinct
      · rw [setFlags_inOrder, hcmp]
        rw [hashSetFlags_iFlags] at hidle
        exact h.sorted (Bool.or_eq_false_iff.mp hidle).1
  | false =>
    rw [if_neg Bool.false_ne_true]
    split
    · obtain ⟨t', hok, hcoherent, hpairs, hperm, hflags, -⟩ :=
        hashClearFlags_eq nilPair h.coherent { noFlags with keepOrder := true } (.inr rfl)
          fun _ => hindex rfl
      have hcmp : hashItemCmp env t'.iFlags = hashItemCmp env t.iFlags := by
        rw [hflags]
        exact hashItemCmp_congr env (Bool.and_true _) (Bool.and_true _)
      have hnone : t'.pnPos = none :=
        hcoherent.layout.mpr (.inl (by rw [hflags]; exact Bool.and_false _))
      refine ⟨t', hok, hcoherent, h.keyed.perm hperm, ?_, fun hidle => ?_⟩
      · rw [hcmp]
        exact h.distinct.perm hperm
      · rw [hcmp, inOrder_none hnone, hpairs, if_pos rfl]
        rw [hflags] at hidle
        exact h.sorted ((Bool.and_true _).symm.trans hidle)
    · exact ⟨t, rfl, h⟩

end Switches

section Merge

variable {K V : Type} {isHashKey : K → Bool} {cmp : HashFlags → K → K → Int} {keys : Set K}
  {t dest source : Table K V} {vars : Vars V} {key : K}

theorem assignAt_keys (t : Table K V) (vars : Vars V) (nPos : Nat) (value : V) :
    (assignAt t vars nPos value).1.pPairs.map Prod.fst = t.pPairs.map Prod.fst ∧
      ∃ pPairs, (assignAt t vars nPos value).1 = { t with pPairs } := by
  unfold assignAt
  split
  · exact ⟨rfl, _, rfl⟩
  · exact ⟨modify_keys _ _ _, _, rfl⟩

/-- A destination on the way, whose comparison is still that of the start. -/
structure Stays (cmp : HashFlags → K → K → Int) (keys : Set K) (start t : Table K V) : Prop where
  sound : Sound cmp keys t
  flags : cmp t.iFlags = cmp start.iFlags

section

variable {start : Table K V} (horder : OrdersKeys (cmp start.iFlags) keys)
  (h : Stays cmp keys start t) (hbits : Settles cmp)

include hbits horder h

theorem Stays.add (hkey : key ∈ keys) (vars : Vars V) (value : V) :
    Stays cmp keys start (joinAdd cmp (t, vars) key value).1 := by
  have hsettled : cmp (settled cmp t).iFlags = cmp start.iFlags :=
    (settled_cmp hbits t).trans h.flags
  obtain ⟨hs, ⟨nPos, hfound, -⟩ | ⟨nPos, hmissing, hopen⟩⟩ :=
    lookup_sound hbits (h.flags.symm ▸ horder) h.sound hkey
  · obtain ⟨hkeys, pPairs, heq⟩ := assignAt_keys (settled cmp t) vars nPos value
    rw [joinAdd, hfound]
    dsimp only
    rw [heq] at hkeys ⊢
    exact ⟨hs.setValues hkeys, hsettled⟩
  · rw [joinAdd, hmissing]
    refine ⟨hopen _, ?_⟩
    dsimp only
    rw [hashOpenPair_iFlags hs.coherent]
    exact hsettled

theorem Stays.del (hkey : key ∈ keys) : Stays cmp keys start (hashDel cmp t key).2 := by
  have hsettled : cmp (settled cmp t).iFlags = cmp start.iFlags :=
    (settled_cmp hbits t).trans h.flags
  unfold hashDel
  obtain ⟨hs, ⟨nPos, hfound, hlt⟩ | ⟨nPos, hmissing, -⟩⟩ :=
    lookup_sound hbits (h.flags.symm ▸ horder) h.sound hkey
  · rw [hfound]
    refine ⟨hs.delPair hlt, ?_⟩
    dsimp only
    rw [hashDelPair_iFlags]
    exact hsettled
  · rw [hmissing]
    exact ⟨hs, hsettled⟩

theorem Stays.addKey (hkey : key ∈ keys) (vars : Vars V) (value : V) :
    Stays cmp keys start (hashAddKey isHashKey cmp (t, vars) key value).1 := by
  unfold hashAddKey
  split
  · exact h.add horder hbits hkey vars value
  · exact h

theorem Stays.delKey (hkey : key ∈ keys) :
    Stays cmp keys start (hashDelKey isHashKey cmp t key).2 := by
  unfold hashDelKey
  split
  · exact h.del horder hbits hkey
  · exact h

end

theorem foldl_stays {start : Table K V}
    (step : Table K V × Vars V → K × Slot V → Table K V × Vars V)
    (hstep : ∀ r pair, pair.1 ∈ keys → Stays cmp keys start r.1 →
      Stays cmp keys start (step r pair).1)
    (pairs : List (K × Slot V)) (hkeyed : Keyed keys pairs) {r : Table K V × Vars V}
    (h : Stays cmp keys start r.1) : Stays cmp keys start (pairs.foldl step r).1 := by
  induction pairs generalizing r with
  | nil => exact h
  | cons pair pairs ih =>
    exact ih (fun other hmem => hkeyed other (mem_cons_of_mem _ hmem))
      (hstep r pair (hkeyed pair mem_cons_self) h)

theorem intersect_sound (hbits : Settles cmp) (n nPos : Nat) (hdest : Sound cmp keys dest)
    (hsource : Sound cmp keys source)
    (horder : OrdersKeys (cmp source.iFlags) keys) (vars : Vars V) :
    Sound cmp keys (intersectLoop cmp n nPos dest source vars).1 ∧
      Sound cmp keys (intersectLoop cmp n nPos dest source vars).2.1 := by
  induction n generalizing nPos dest source vars with
  | zero => exact ⟨hdest, hsource⟩
  | succ n ih =>
    unfold intersectLoop
    cases hget : dest.pPairs[nPos]? with
    | none => exact ⟨hdest, hsource⟩
    | some pair =>
      obtain ⟨hlt, -⟩ := List.getElem?_eq_some_iff.mp hget
      have hkey := hdest.keyed pair (mem_of_getElem? hget)
      have hsettled : OrdersKeys (cmp (settled cmp source).iFlags) keys := by
        rwa [settled_cmp hbits]
      obtain ⟨hs, ⟨nSrcPos, hfound, hbound⟩ | ⟨nSrcPos, hmissing, -⟩⟩ :=
        lookup_sound hbits horder hsource hkey
      · dsimp only
        rw [hfound]
        dsimp only
        rw [getElem?_eq_getElem hbound]
        obtain ⟨hkeys, pPairs, heq⟩ := assignAt_keys dest vars nPos
          ((settled cmp source).pPairs[nSrcPos].2.unRef vars)
        dsimp only
        refine ih _ ?_ hs hsettled _
        rw [heq] at hkeys ⊢
        exact hdest.setValues hkeys
      · dsimp only
        rw [hmissing]
        exact ih _ (hdest.delPair hlt) hs hsettled vars

theorem clear_sound (h : Sound cmp keys t) : Sound cmp keys (hashClear t) := by
  obtain ⟨hcoherent, hnil, -⟩ := h.coherent.clear
  exact sound_of_empty hcoherent hnil

/-- Both hashes of a join afterwards. -/
theorem join_sound (hbits : Settles cmp) (iType : JoinType) (hdest : Sound cmp keys dest)
    (horder : OrdersKeys (cmp dest.iFlags) keys) (hsource : Sound cmp keys source)
    (horder' : OrdersKeys (cmp source.iFlags) keys) (vars : Vars V) :
    Sound cmp keys (hashJoin isHashKey cmp iType dest (some source) vars).1 ∧
      ∀ s ∈ (hashJoin isHashKey cmp iType dest (some source) vars).2.1, Sound cmp keys s := by
  have hstart : Stays cmp keys dest dest := ⟨hdest, rfl⟩
  have hsame : ∀ s ∈ some source, Sound cmp keys s := by
    rintro s ⟨⟩
    exact hsource
  cases iType with
  | union =>
    refine ⟨(foldl_stays (unionStep isHashKey cmp) (fun r pair hkey h => ?_) _ hsource.keyed
      hstart).sound, hsame⟩
    exact h.addKey horder hbits hkey r.2 _
  | intersect =>
    obtain ⟨hdest', hsource'⟩ := intersect_sound hbits dest.nLen 0 hdest hsource horder' vars
    refine ⟨hdest', ?_⟩
    rintro s ⟨⟩
    exact hsource'
  | difference =>
    refine ⟨(foldl_stays (differenceStep isHashKey cmp) (fun r pair hkey h => ?_) _ hsource.keyed
      hstart).sound, hsame⟩
    have hdel : Stays cmp keys dest (hashDelKey isHashKey cmp r.1 pair.1).2 :=
      h.delKey horder hbits hkey
    unfold differenceStep
    match hashDelKey isHashKey cmp r.1 pair.1, hdel with
    | (true, t'), hdel => exact hdel
    | (false, t'), hdel => exact hdel.addKey horder hbits hkey r.2 _
  | remove =>
    refine ⟨(foldl_stays (removeStep isHashKey cmp) (fun r pair hkey h => ?_) _ hsource.keyed
      hstart).sound, hsame⟩
    exact h.delKey horder hbits hkey

theorem joinSelf_sound (iType : JoinType) (h : Sound cmp keys t) (vars : Vars V) :
    Sound cmp keys (hashJoin isHashKey cmp iType t none vars).1 := by
  cases iType with
  | union | intersect => exact h
  | difference | remove => exact clear_sound h

/-- `hb_hashClone`, where `clone` copies a value. -/
def hashClone {V : Type} (clone : V → V) (t : BaseHash K V) : BaseHash K V :=
  { t with
    pPairs := t.pPairs.map fun pair => (pair.1, clone pair.2)
    pnPos := if t.nLen = 0 then none else t.pnPos
    nSize := t.nLen }

theorem hashClone_eq {V : Type} {t : BaseHash K V} (clone : V → V) (h : Coherent t) :
    hashClone clone t =
    hashResize { t with pPairs := t.pPairs.map fun pair => (pair.1, clone pair.2) } t.nLen := by
  have hcount : (t.pPairs.map fun pair => (pair.1, clone pair.2)).length = t.nLen :=
    length_map _
  have hallocated := h.allocated
  unfold hashClone hashResize
  rw [if_neg (Nat.not_lt.mpr hallocated)]
  rcases Nat.lt_or_eq_of_le hallocated with hspare | hfull
  · exact (if_pos ⟨hspare, hcount.le⟩).symm
  · have hindex : (if t.nLen = 0 then none else t.pnPos) = t.pnPos := by
      split
      · rename_i hempty
        exact (h.layout.mpr (.inr (hfull ▸ hempty))).symm
      · rfl
    rw [hindex]
    refine Eq.trans ?_ (if_neg fun hspare => Nat.not_lt.mpr hfull.ge hspare.1).symm
    rw [hfull]

theorem clone_sound {V : Type} {t : BaseHash K V} (clone : V → V) (h : Sound cmp keys t) :
    Sound cmp keys (hashClone clone t) := by
  rw [hashClone_eq clone h.coherent]
  refine (h.setValues ?_).resize t.nLen
  rw [map_map]
  rfl

end Merge

section Reachable

variable {D V : Type} (env : KeyEnv D) (nilPair : KeyItem D × Slot V)

def Op.UsesKeys {V : Type} (keys : Set (KeyItem D)) : Op (KeyItem D) V → Prop
  | .update u => u.Uses keys
  | .scan key => key ∈ keys
  | _ => True

/-- What is asked of an operation, of a merge, and of the pairs that are decoded. -/
structure Guard (D V : Type) where
  steps : Table (KeyItem D) V → Op (KeyItem D) (Slot V) → Prop
  joins : Table (KeyItem D) V → Table (KeyItem D) V → Prop
  decodes : HashFlags → List (KeyItem D × Slot V) → Prop

inductive Reachable (guard : Guard D V) : Table (KeyItem D) V → Prop where
  | new : Reachable guard hashNew
  | decoded (pairs : List (KeyItem D × Slot V)) :
      guard.decodes hashFlagDefault pairs → Reachable guard (deserializeHash pairs)
  | decodedFlags (pairs : List (KeyItem D × Slot V)) (iHashFlags : HashFlags)
      {t : Table (KeyItem D) V} : guard.decodes iHashFlags pairs →
      deserializeHashFlags nilPair (deserializeHash pairs) iHashFlags = .ok t → Reachable guard t
  | setDefault (pDefault : Option (Slot V)) {t : Table (KeyItem D) V} :
      Reachable guard t → Reachable guard { t with pDefault }
  | clone (clone : Slot V → Slot V) {t : Table (KeyItem D) V} :
      Reachable guard t → Reachable guard (hashClone clone t)
  | step (op : Op (KeyItem D) (Slot V)) {t t' : Table (KeyItem D) V} :
      Reachable guard t → Op.UsesKeys hashKeys op → guard.steps t op →
      step (hashItemCmp env) nilPair t op = .ok t' → Reachable guard t'
  | join (iType : JoinType) (vars : Vars V) {dest source : Table (KeyItem D) V} :
      Reachable guard dest → Reachable guard source → guard.joins dest source →
      Reachable guard
        (hashJoin KeyItem.isHashKey (hashItemCmp env) iType dest (some source) vars).1
  | joined (iType : JoinType) (vars : Vars V) {dest source s : Table (KeyItem D) V} :
      Reachable guard dest → Reachable guard source → guard.joins dest source →
      s ∈ (hashJoin KeyItem.isHashKey (hashItemCmp env) iType dest (some source) vars).2.1 →
      Reachable guard s
  | joinSelf (iType : JoinType) (vars : Vars V) {t : Table (KeyItem D) V} :
      Reachable guard t →
      Reachable guard (hashJoin KeyItem.isHashKey (hashItemCmp env) iType t none vars).1

def Guard.none : Guard D V where
  steps := fun _ _ => True
  joins := fun _ _ => True
  decodes := fun _ _ => True

/-- The keys are some that the comparison of each hash orders, and they stay apart: a
switch of the comparison finds keys that differ under the new one, and a decoded hash has
such keys, in their order where no sort is wanted. A move of the pairs through the index
finds each pair listed there once. -/
def Guard.apart (keys : Set (KeyItem D)) : Guard D V where
  steps := fun t op => op.Moves t ∧ Op.UsesKeys keys op ∧
    OrdersKeys (hashItemCmp env t.iFlags) keys ∧ match op with
    | .caseMatch _ | .binary _ => ∀ t', HashSwitch.step (hashItemCmp env) nilPair t op = .ok t' →
        Distinct (hashItemCmp env t'.iFlags) t.pPairs
    | _ => True
  joins := fun dest source => OrdersKeys (hashItemCmp env dest.iFlags) keys ∧
    OrdersKeys (hashItemCmp env source.iFlags) keys
  decodes := fun iHashFlags pairs => Keyed keys pairs ∧
    Distinct (hashItemCmp env iHashFlags) pairs ∧
    (iHashFlags.binary = true → iHashFlags.keepOrder = false → iHashFlags.resort = false →
      Increases (hashItemCmp env iHashFlags) pairs)

/-- After the pending sort no two stored keys are equal, and each stored pair is
reached by a lookup of its key. -/
structure Unique (t : Table (KeyItem D) V) : Prop where
  distinct : Distinct (hashItemCmp env t.iFlags) (settled (hashItemCmp env) t).pPairs
  found : FindsOwn env t

variable {env nilPair} {keys : Set (KeyItem D)} {t : Table (KeyItem D) V}

theorem decoded_sound {pairs : List (KeyItem D × Slot V)}
    (h : (Guard.apart env nilPair keys).decodes hashFlagDefault pairs) :
    Sound (hashItemCmp env) keys (deserializeHash pairs) := by
  obtain ⟨hkeys, hdistinct, -⟩ := h
  obtain ⟨⟨hcoherent, -, hpairs⟩, hflags⟩ := deserializeHash_decoded pairs
  cases pairs with
  | nil => exact sound_of_empty hcoherent hpairs
  | cons pair rest =>
    have hresort := hflags (cons_ne_nil _ _)
    have hcmp : hashItemCmp env (deserializeHash (pair :: rest)).iFlags =
        hashItemCmp env hashFlagDefault := by
      rw [hresort]
      exact hashItemCmp_congr env rfl rfl
    refine ⟨hcoherent, hpairs.symm ▸ hkeys, ?_, fun hidle => ?_⟩
    · rw [hcmp, hpairs]
      exact hdistinct
    · rw [hresort] at hidle
      cases hidle

theorem decodedFlags_sound {pairs : List (KeyItem D × Slot V)} {iHashFlags : HashFlags}
    (h : (Guard.apart env nilPair keys).decodes iHashFlags pairs)
    (hok : deserializeHashFlags nilPair (deserializeHash pairs) iHashFlags = .ok t) :
    Sound (hashItemCmp env) keys t := by
  obtain ⟨hkeys, hdistinct, hsorted⟩ := h
  have hsome : (deserializeHash pairs).pnPos.isSome → pairs ≠ [] := by
    rintro hsome rfl
    cases hsome
  obtain ⟨t', hok', hcoherent, hpairs, hflags, -⟩ :=
    deserializeHashFlags_decoded nilPair (deserializeHash_decoded pairs).1 hsome iHashFlags
  rw [hok] at hok'
  cases hok'
  have hcmp : hashItemCmp env t.iFlags = hashItemCmp env iHashFlags := by
    rw [hflags]
    exact hashItemCmp_congr env rfl rfl
  refine ⟨hcoherent, hpairs.symm ▸ hkeys, ?_, fun hidle => ?_⟩
  · rw [hcmp, hpairs]
    exact hdistinct
  · rw [hflags] at hidle
    simp only [Bool.or_eq_false_iff, Bool.not_eq_false'] at hidle
    obtain ⟨⟨hidle, hkeep⟩, hbinary⟩ := hidle
    have hnone := hcoherent.layout.mpr (.inl (by rw [hflags]; exact hkeep))
    rw [hcmp, inOrder_none hnone, hpairs]
    exact hsorted hbinary hkeep hidle

theorem step_sound (h : Sound (hashItemCmp env) keys t)
    (op : Op (KeyItem D) (Slot V)) (hguard : (Guard.apart env nilPair keys).steps t op)
    {t' : Table (KeyItem D) V} (hok : step (hashItemCmp env) nilPair t op = .ok t') :
    Sound (hashItemCmp env) keys t' := by
  obtain ⟨hmoves, hkeys, horder, hapart⟩ := hguard
  cases op with
  | update u =>
    obtain ⟨s, hok', hs⟩ := update_sound hashItemCmp_settles horder h nilPair u hkeys hmoves
    rw [step, hok'] at hok
    cases hok
    exact hs
  | scan key =>
    obtain ⟨hs, ⟨nPos, hfound, -⟩ | ⟨nPos, hmissing, -⟩⟩ :=
      lookup_sound hashItemCmp_settles horder h hkeys
    · rw [step, hashScan, hfound] at hok
      cases hok
      exact hs
    · rw [step, hashScan, hmissing] at hok
      cases hok
      exact hs
  | caseMatch fMatch =>
    obtain ⟨s, hok', hswitched, hresort⟩ := hbHCaseMatch_switched nilPair h.coherent fMatch
    obtain rfl : s = t' := Except.ok.inj (hok'.symm.trans hok)
    exact switched_sound h hswitched hresort (hapart s hok)
  | binary fBinary =>
    obtain ⟨s, hok', hswitched, hresort⟩ := hbHBinary_switched nilPair h.coherent fBinary
    obtain rfl : s = t' := Except.ok.inj (hok'.symm.trans hok)
    exact switched_sound h hswitched hresort (hapart s hok)
  | keepOrder fKeep =>
    obtain ⟨s, hok', hs⟩ := keepOrder_sound nilPair h fKeep fun hfalse => by
      subst hfalse
      exact hmoves
    obtain rfl : s = t' := Except.ok.inj (hok'.symm.trans hok)
    exact hs

theorem reachable_sound (h : Reachable env nilPair (.apart env nilPair keys) t) :
    Sound (hashItemCmp env) keys t := by
  induction h with
  | new => exact sound_of_empty (hashNew_coherent hashFlagDefault) rfl
  | decoded pairs hdecodes => exact decoded_sound hdecodes
  | decodedFlags pairs iHashFlags hdecodes hok => exact decodedFlags_sound hdecodes hok
  | setDefault pDefault _ ih =>
    exact ⟨⟨ih.coherent.allocated, ih.coherent.layout, ih.coherent.slots, ih.coherent.index⟩,
      ih.keyed, ih.distinct, ih.sorted⟩
  | clone clone _ ih => exact clone_sound clone ih
  | step op _ _ hguard hok ih => exact step_sound ih op hguard hok
  | join iType vars _ _ horders ihdest ihsource =>
    exact (join_sound hashItemCmp_settles iType ihdest horders.1 ihsource horders.2 vars).1
  | joined iType vars _ _ horders hs ihdest ihsource =>
    exact (join_sound hashItemCmp_settles iType ihdest horders.1 ihsource horders.2 vars).2 _ hs
  | joinSelf iType vars _ ih => exact joinSelf_sound iType ih vars

variable (nilPair) in
/-- In every hash that is reached with its keys kept apart, the keys are unique. -/
theorem reachable_unique (hkeys : keys ⊆ hashKeys)
    (horder : OrdersKeys (hashItemCmp env t.iFlags) keys)
    (h : Reachable env nilPair (.apart env nilPair keys) t) : Unique env t := by
  have hsound := reachable_sound h
  have hkeyed : Keyed hashKeys t.pPairs := fun pair hmem => hkeys (hsound.keyed pair hmem)
  have hstored : OrdersKeys (hashItemCmp env t.iFlags) (stored t.pPairs) := by
    refine horder.mono ?_
    rintro _ ⟨-, pair, hmem, rfl⟩
    exact hsound.keyed pair hmem
  exact ⟨hsound.distinct.perm (settled_pPairs _ t),
    (findsOwn_iff hstored hsound.coherent).mpr ⟨hkeyed, hsound.distinct, hsound.sorted⟩⟩

end Reachable

/-- `HB_HCASEMATCH( h, .F. )` of a hash with two keys in byte order. -/
def ignoringCase (first second : Bytes) : Table (KeyItem Int) Nat where
  pPairs := [(.string first, .item 1), (.string second, .item 2)]
  pDefault := none
  pnPos := some [0, 1]
  nSize := 2
  iFlags := { hashFlagDefault with binary := false, ignoreCase := true, resort := true }

theorem ignoringCase_step (first second : Bytes) :
    step (hashItemCmp plainEnv) (.nil, .item 0)
      (deserializeHash [(KeyItem.string first, Slot.item 1), (.string second, .item 2)])
      (.caseMatch false) = .ok (ignoringCase first second) := rfl

theorem differing_letters_unique : Unique plainEnv (ignoringCase [0x61] [0x42]) := by
  have horder (iFlags : HashFlags) : OrdersKeys (hashItemCmp plainEnv iFlags) hashKeys :=
    hashItemCmp_orders plainEnv_orders iFlags
  refine reachable_unique (.nil, .item 0) Set.Subset.rfl (horder _)
    (.step (.caseMatch false) (.decoded _ ⟨?_, ?_, ?_⟩) trivial ⟨trivial, trivial, horder _, ?_⟩
      (ignoringCase_step [0x61] [0x42]))
  · change ∀ pair ∈ [(KeyItem.string [0x61], Slot.item 1), (.string [0x42], .item 2)],
      pair.1.isHashKey = true
    decide
  · unfold Distinct
    decide
  · exact fun _ hkeep => absurd hkeep (by decide)
  · intro t' hok
    cases hok
    unfold Distinct
    decide

/-- A page where `a` and `b` have one weight. -/
def tiedPage : Rtl.CdpCollate.CodePage where
  sort := fun u => if u = 0x61 then 0x62 else u
  acc := none
  upper := HB_TOUPPER
  multi1 := fun _ => false
  multi2 := fun _ => false
  multi := []

def tiedCollation : Collation where
  cdpcmp := Rtl.CdpCollate.cdpStd_cmp tiedPage true
  cdpicmp := Rtl.CdpCollate.cdpStd_cmpi tiedPage true

def tiedEnv : KeyEnv Int := { plainEnv with vmCDP := some tiedCollation }

/-- The keys `ad`, `b`, `bc` and `z`, added in this order: each of the first three comes before
the next one of them, and the last of them before the first. -/
def tiedHash : Table (KeyItem Int) Nat :=
  [[0x61, 0x64], [0x62], [0x62, 0x63], [0x7A]].foldl
    (fun t key => hashAdd (hashItemCmp tiedEnv) t (.string key) (.item 1))
    { hashNew with iFlags := { hashFlagDefault with binary := false, resort := true } }

theorem tiedHash_reachable : Reachable tiedEnv (.nil, .item 0) .none tiedHash := by
  have hadd {t : Table (KeyItem Int) Nat} (key : Bytes)
      (h : Reachable tiedEnv (.nil, .item 0) .none t) :
      Reachable tiedEnv (.nil, .item 0) .none
        (hashAdd (hashItemCmp tiedEnv) t (.string key) (.item 1)) :=
    .step (.update (.add (.string key) (.item 1))) h rfl trivial rfl
  have hbinary : Reachable (V := Nat) tiedEnv (.nil, .item 0) .none
      { hashNew with iFlags := { hashFlagDefault with binary := false, resort := true } } :=
    .step (.binary false) .new trivial trivial rfl
  exact hadd _ (hadd _ (hadd _ (hadd _ hbinary)))

/-- `HB_HCASEMATCH( { "a" => 1, "A" => 2 }, .F. )`, and a key that is lost though all keys
differ. -/
theorem same_letters_collide :
    (¬ ∀ t : Table (KeyItem Int) Nat,
      Reachable plainEnv (.nil, .item 0) .none t → Unique plainEnv t) ∧
    Reachable tiedEnv (.nil, .item 0) .none tiedHash ∧
      Distinct (hashItemCmp tiedEnv tiedHash.iFlags) tiedHash.pPairs ∧
      ¬ Unique tiedEnv tiedHash := by
  refine ⟨fun hall => ?_, tiedHash_reachable, ?_, fun hunique => ?_⟩
  · have hunique := hall _ (.step (.caseMatch false) (.decoded _ trivial) trivial trivial
      (ignoringCase_step [0x61] [0x41]))
    have hdistinct := hunique.distinct.perm (settled_pPairs _ _).symm
    revert hdistinct
    unfold Distinct
    decide
  · unfold Distinct
    decide +kernel
  · have hfound := hunique.found 1 (.string [0x61, 0x64], .item 1) (by decide +kernel)
    have hmissing : (hashScanKey tiedEnv tiedHash (.string [0x61, 0x64])).2 = none := by
      decide +kernel
    rw [hfound] at hmissing
    cases hmissing

end Harbour.Vm.HashUnique
