import Harbour.Vm.HashPairs

/-!
Changing the flags of a hash, and the table of a decoded hash.
-/

namespace Harbour.Vm.HashSettings

open HashTable HashUpdate HashPairs List Option

variable {K V : Type}

section Flags

variable {t : BaseHash K V} {iFlags : HashFlags}

def InPlace (t : BaseHash K V) : Prop :=
  ∀ pnPos, t.pnPos = some pnPos → pnPos = range t.nLen

@[simp] theorem hashSetFlags_pPairs (t : BaseHash K V) (iFlags : HashFlags) :
    (hashSetFlags t iFlags).pPairs = t.pPairs := by
  unfold hashSetFlags
  dsimp only
  split <;> rfl

@[simp] theorem hashSetFlags_iFlags (t : BaseHash K V) (iFlags : HashFlags) :
    (hashSetFlags t iFlags).iFlags = flagsSet t.iFlags iFlags := by
  unfold hashSetFlags
  dsimp only
  split <;> rfl

@[simp] theorem hashSetFlags_pDefault (t : BaseHash K V) (iFlags : HashFlags) :
    (hashSetFlags t iFlags).pDefault = t.pDefault := by
  unfold hashSetFlags
  dsimp only
  split <;> rfl

theorem pnPos_some (h : Coherent t) {pnPos : List Nat} (hpos : t.pnPos = some pnPos) :
    t.iFlags.keepOrder = true ∧ t.nSize ≠ 0 := by
  have hlayout := mt h.layout.mpr (by rw [hpos]; exact some_ne_none _)
  obtain ⟨hkeep, hsize⟩ := not_or.mp hlayout
  exact ⟨Bool.not_eq_false _ ▸ hkeep, hsize⟩

theorem withFlags_coherent (h : Coherent t)
    (hkeep : t.pnPos.isSome ∨ t.nSize = 0 ∨ iFlags.keepOrder = false)
    (hsome : t.pnPos.isSome → iFlags.keepOrder = true)
    (hresort : t.pnPos.isSome → iFlags.resort = false → t.iFlags.resort = false) :
    Coherent { t with iFlags } where
  allocated := h.allocated
  layout := by
    change t.pnPos = none ↔ iFlags.keepOrder = false ∨ t.nSize = 0
    cases hpos : t.pnPos with
    | none =>
      rw [hpos] at hkeep
      have hkeep := hkeep.resolve_left Bool.false_ne_true
      exact iff_of_true rfl hkeep.symm
    | some pnPos =>
      rw [hpos] at hsome
      refine iff_of_false (some_ne_none _) (not_or.mpr ⟨?_, (pnPos_some h hpos).2⟩)
      rw [hsome rfl]
      exact fun hfalse => Bool.false_ne_true hfalse.symm
  slots := h.slots
  index := by
    intro hfalse
    change t.keyOrder.Perm (range t.nLen)
    cases hpos : t.pnPos with
    | none => rw [keyOrder_none hpos]
    | some pnPos => exact h.index (hresort (by rw [hpos]; rfl) hfalse)

theorem setFlags_coherent (h : Coherent t) (iFlags : HashFlags) :
    Coherent (hashSetFlags t iFlags) := by
  unfold hashSetFlags
  dsimp only
  split
  · rename_i hbuild
    obtain ⟨-, hsize, hkeep⟩ := hbuild
    refine ⟨h.allocated, ?_, ?_, fun _ => Perm.refl _⟩
    · simp [hkeep, hsize]
    · rintro _ ⟨⟩
      exact length_range
  · rename_i hkept
    refine withFlags_coherent h ?_ ?_ ?_
    · cases hpos : t.pnPos with
      | some pnPos => exact .inl rfl
      | none =>
        refine .inr (Decidable.or_iff_not_imp_left.mpr fun hsize => ?_)
        exact Bool.eq_false_iff.mpr fun hkeep => hkept ⟨hpos, hsize, hkeep⟩
    · intro hsome
      obtain ⟨pnPos, hpos⟩ := isSome_iff_exists.mp hsome
      simp [flagsSet, (pnPos_some h hpos).1]
    · intro _ hresort
      exact (Bool.or_eq_false_iff.mp hresort).1

theorem hashClearFlags_eq (nilPair : K × V) (h : Coherent t) (iFlags : HashFlags)
    (hmask : iFlags.resort = false ∨ iFlags.keepOrder = true)
    (hindex : iFlags.keepOrder = true → ∀ pnPos, t.pnPos = some pnPos →
      pnPos.Perm (range t.nLen) ∧ t.nLen ≠ 0) :
    ∃ t', hashClearFlags nilPair t iFlags = .ok t' ∧ Coherent t' ∧
      t'.pPairs = (if iFlags.keepOrder then inOrder t else t.pPairs) ∧ t'.pPairs.Perm t.pPairs ∧
      t'.iFlags = flagsClear t.iFlags iFlags ∧ t'.pDefault = t.pDefault := by
  unfold hashClearFlags
  cases hpos : t.pnPos with
  | none =>
    refine ⟨_, rfl, ?_, ?_, Perm.refl _, rfl, rfl⟩
    on_goal 2 =>
      rw [inOrder_none hpos]
      exact (ite_self _).symm
    rw [← hpos]
    refine withFlags_coherent h (.inr ?_) ?_ ?_
    · refine (h.layout.mp hpos).symm.imp_right fun hkeep => ?_
      simp [flagsClear, hkeep]
    · rw [hpos]
      exact fun hfalse => absurd hfalse Bool.false_ne_true
    · rw [hpos]
      exact fun hfalse => absurd hfalse Bool.false_ne_true
  | some pnPos =>
    obtain ⟨hkeep, hsize⟩ := pnPos_some h hpos
    cases hmove : iFlags.keepOrder with
    | false =>
      have hresort := hmask.resolve_right (by rw [hmove]; exact Bool.false_ne_true)
      have hkept : (flagsClear t.iFlags iFlags).keepOrder = true := by
        simp [flagsClear, hkeep, hmove]
      dsimp only
      rw [if_pos hkept]
      refine ⟨_, rfl, ?_, rfl, Perm.refl _, rfl, rfl⟩
      rw [← hpos]
      refine withFlags_coherent h (.inl (by rw [hpos]; rfl)) (fun _ => hkept) fun _ hfalse => ?_
      simpa [flagsClear, hresort] using hfalse
    | true =>
      obtain ⟨hperm, hnonzero⟩ := hindex hmove pnPos hpos
      have hlost : (flagsClear t.iFlags iFlags).keepOrder = false := by
        simp [flagsClear, hmove]
      have hmoved := hashResort_eq (t := { t with
        pnPos := some pnPos, iFlags := flagsClear t.iFlags iFlags }) nilPair hperm hnonzero
      dsimp only
      rw [hlost, if_neg Bool.false_ne_true, hmoved]
      have hpairs := filterMap_perm hperm
      refine ⟨_, rfl, ⟨Nat.le_of_eq hpairs.length_eq, ?_, fun _ hnone => absurd hnone (by simp),
        fun _ => Perm.refl _⟩, ?_, hpairs, rfl, rfl⟩
      on_goal 2 =>
        rw [if_pos rfl, inOrder, keyOrder_some hpos]
      exact iff_of_true rfl (.inl hlost)

end Flags

section Decoded

variable {t : BaseHash K V} {nilPair : K × V}

theorem newPair_inPlace (h : Coherent t) (hplace : InPlace t) (pair : K × V) :
    InPlace (hashNewPair t pair) := by
  obtain ⟨hnLen, hpnPos⟩ := hashNewPair_index h pair
  intro pnPos hpos
  rw [hpnPos] at hpos
  split at hpos
  · obtain rfl := Option.some.inj hpos
    rw [hnLen, range_succ]
    congr 1
    cases hold : t.pnPos with
    | none => rw [keyOrder_none hold]
    | some old => exact keyOrder_some hold ▸ hplace old hold
  · cases hpos

theorem newPairs_inPlace (h : Coherent t) (hplace : InPlace t) (pairs : List (K × V)) :
    Coherent (pairs.foldl hashNewPair t) ∧ InPlace (pairs.foldl hashNewPair t) ∧
      (pairs.foldl hashNewPair t).pPairs = t.pPairs ++ pairs ∧
      (pairs.foldl hashNewPair t).iFlags = t.iFlags := by
  induction pairs generalizing t with
  | nil => exact ⟨h, hplace, (append_nil _).symm, rfl⟩
  | cons pair pairs ih =>
    obtain ⟨nSize, -, heq⟩ := hashNewPair_eq h pair
    obtain ⟨hcoherent, hplace', hpairs, hflags⟩ :=
      ih (h.newPair pair) (newPair_inPlace h hplace pair)
    refine ⟨hcoherent, hplace', ?_, ?_⟩
    · rw [foldl_cons, hpairs, heq, append_assoc]
      rfl
    · rw [foldl_cons, hflags, heq]

theorem inPlace_of_empty (h : Coherent t) (hnil : t.pPairs = []) : InPlace t := by
  intro pnPos hpos
  have hslots := h.slots pnPos hpos
  rw [BaseHash.nLen, hnil] at hslots ⊢
  rw [length_eq_zero_iff.mp hslots]
  rfl

structure Decoded (pairs : List (K × V)) (t : BaseHash K V) : Prop where
  coherent : Coherent t
  inPlace : InPlace t
  pPairs : t.pPairs = pairs

theorem deserializeHash_decoded (pairs : List (K × V)) :
    Decoded pairs (deserializeHash pairs) ∧ (pairs ≠ [] → (deserializeHash pairs).iFlags =
      flagsSet hashFlagDefault { noFlags with binary := true, resort := true }) := by
  cases pairs with
  | nil =>
    have hnew : Coherent (hashNew : BaseHash K V) := hashNew_coherent hashFlagDefault
    exact ⟨⟨hnew, inPlace_of_empty hnew rfl, rfl⟩, fun hne => absurd rfl hne⟩
  | cons pair pairs =>
    have hset := setFlags_coherent (hashNew_coherent (K := K) (V := V) hashFlagDefault)
      { noFlags with binary := true, resort := true }
    have hroom := hset.resize (pair :: pairs).length
    obtain ⟨nSize, pnPos, heq, -, -, -⟩ := hashResize_eq hset (pair :: pairs).length
    have hnil := congrArg BaseHash.pPairs heq
    have hflags := congrArg BaseHash.iFlags heq
    obtain ⟨hcoherent, hplace, hpairs, hkept⟩ :=
      newPairs_inPlace hroom (inPlace_of_empty hroom hnil) (pair :: pairs)
    refine ⟨⟨hcoherent, hplace, ?_⟩, fun _ => ?_⟩
    · exact hpairs.trans (by rw [hnil]; rfl)
    · exact hkept.trans hflags

variable (nilPair) in
theorem deserializeHashFlags_decoded {pairs : List (K × V)} (h : Decoded pairs t)
    (hsome : t.pnPos.isSome → pairs ≠ []) (iHashFlags : HashFlags) :
    ∃ t', deserializeHashFlags nilPair t iHashFlags = .ok t' ∧ Coherent t' ∧
      t'.pPairs = pairs ∧ t'.iFlags =
        { iHashFlags with
          resort := iHashFlags.resort || iHashFlags.keepOrder || !iHashFlags.binary } ∧
      t'.pDefault = t.pDefault := by
  obtain ⟨s, hclear, hcoherent, hpairs, -, hflags, hdefault⟩ :=
    hashClearFlags_eq nilPair h.coherent allFlags (.inr rfl) fun _ pnPos hpos =>
      ⟨h.inPlace pnPos hpos ▸ Perm.refl _, fun hzero => hsome (by rw [hpos]; rfl) (by
        rw [← h.pPairs]
        exact length_eq_zero_iff.mp hzero)⟩
  have hinOrder : inOrder t = t.pPairs := by
    cases hpos : t.pnPos with
    | none => exact inOrder_none hpos
    | some pnPos =>
      unfold inOrder
      rw [keyOrder_some hpos, h.inPlace pnPos hpos]
      exact filterMap_range t.pPairs
  refine ⟨_, by unfold deserializeHashFlags; rw [hclear]; rfl, setFlags_coherent hcoherent _,
    ?_, ?_, ?_⟩
  · rw [hashSetFlags_pPairs, hpairs, hinOrder, h.pPairs]
    exact ite_self _
  · rw [hashSetFlags_iFlags, hflags]
    simp [flagsSet, flagsClear, allFlags]
  · rw [hashSetFlags_pDefault, hdefault]

end Decoded

end Harbour.Vm.HashSettings
