import Harbour.Vm.HashSwitch

/-!
The lookups in a hash that has been written and read back.
-/

namespace Harbour.Vm.HashDecode

open Library.KeyOrder Library.BinarySearch HashTable HashUpdate HashPairs HashOrder
  HashSettings List
  HashSound HashKey HashMap HashSwitch

section Lookup

variable {D V : Type} (env : KeyEnv D)

/-- `hb_hashScan`, which looks for hash keys only. -/
def hashScanKey (t : BaseHash (KeyItem D) V) (key : KeyItem D) :
    BaseHash (KeyItem D) V × Option Nat :=
  if key.isHashKey then hashScan (hashItemCmp env) t key else (t, none)

/-- The hash keys of a list of pairs. -/
def stored (pairs : List (KeyItem D × V)) : Set (KeyItem D) :=
  {key | key ∈ hashKeys ∧ ∃ pair ∈ pairs, pair.1 = key}

/-- Every stored key is found at its own position, which is the one that it has after
the pending sort. -/
def FindsOwn (t : BaseHash (KeyItem D) V) : Prop :=
  ∀ n pair, hashPairAt (settled (hashItemCmp env) t) n = some pair →
    hashScanKey env t pair.1 = (settled (hashItemCmp env) t, some n)

def FindsOnly (t : BaseHash (KeyItem D) V) : Prop :=
  ∀ key, (∀ pair ∈ t.pPairs, hashItemCmp env t.iFlags pair.1 key ≠ 0) →
    (hashScanKey env t key).2 = none

variable {env} {t : BaseHash (KeyItem D) V}

theorem findsOnly (h : Coherent t) : FindsOnly env t := by
  intro key habsent
  unfold hashScanKey hashScan
  split
  · rcases hashFind_cases (hashItemCmp env) h key with
      ⟨nPos, pair, -, hget, hzero⟩ | ⟨nPos, hmissing, -⟩
    · rw [settled_cmp hashItemCmp_settles] at hzero
      have hmem := (settled_pPairs _ t).mem_iff.mp (mem_of_getElem? hget)
      exact absurd hzero (habsent pair hmem)
    · rw [hmissing]
  · rfl

theorem hashScanKey_eq_iff {s : BaseHash (KeyItem D) V} {key : KeyItem D} {n : Nat} :
    hashScanKey env t key = (s, some (n + 1)) ↔
      key ∈ hashKeys ∧ hashFind (hashItemCmp env) t key = (s, true, n) := by
  unfold hashScanKey hashScan
  split
  · rename_i hkey
    rcases hashFind (hashItemCmp env) t key with ⟨s', _ | _, n'⟩ <;> simp [hashKeys, hkey]
  · rename_i hkey
    simp [hashKeys, hkey]

theorem stored_keyed {pairs : List (KeyItem D × V)} (h : Keyed hashKeys pairs) :
    Keyed (stored pairs) pairs :=
  fun pair hmem => ⟨h pair hmem, pair, hmem, rfl⟩

theorem findsOwn_iff (horder : OrdersKeys (hashItemCmp env t.iFlags) (stored t.pPairs))
    (h : Coherent t) :
    FindsOwn env t ↔ Keyed hashKeys t.pPairs ∧ Distinct (hashItemCmp env t.iFlags) t.pPairs ∧
      (t.iFlags.resort = false → Increases (hashItemCmp env t.iFlags) (inOrder t)) := by
  have hs := h.settled (hashItemCmp env)
  have hresort : (settled (hashItemCmp env) t).iFlags.resort = false := by rw [settled_iFlags]
  have hcmp : hashItemCmp env (settled (hashItemCmp env) t).iFlags = hashItemCmp env t.iFlags :=
    settled_cmp hashItemCmp_settles t
  have hperm := settled_pPairs (hashItemCmp env) t
  have hscan : FindsOwn env t ↔ Keyed hashKeys (settled (hashItemCmp env) t).pPairs ∧
      ∀ nPos pair, (settled (hashItemCmp env) t).pPairs[nPos]? = some pair →
        hashFind (hashItemCmp env) (settled (hashItemCmp env) t) pair.1 =
          (settled (hashItemCmp env) t, true, nPos) := by
    constructor
    · intro hown
      have hfound : ∀ nPos pair, (settled (hashItemCmp env) t).pPairs[nPos]? = some pair →
          pair.1 ∈ hashKeys ∧ hashFind (hashItemCmp env) t pair.1 =
            (settled (hashItemCmp env) t, true, nPos) := fun nPos pair hget =>
        hashScanKey_eq_iff.mp (hown (nPos + 1) pair ((hashPairAt_succ _ nPos).trans hget))
      refine ⟨fun pair hmem => ?_, fun nPos pair hget => ?_⟩
      · obtain ⟨nPos, hget⟩ := mem_iff_getElem?.mp hmem
        exact (hfound nPos pair hget).1
      · rw [← hashFind_settled]
        exact (hfound nPos pair hget).2
    · rintro ⟨hkeys, hown⟩ n pair hpair
      cases n with
      | zero => cases hpair
      | succ nPos =>
        rw [hashPairAt_succ] at hpair
        refine hashScanKey_eq_iff.mpr ⟨hkeys pair (mem_of_getElem? hpair), ?_⟩
        rw [hashFind_settled]
        exact hown nPos pair hpair
  rw [hscan]
  constructor
  · rintro ⟨hkeys, hown⟩
    have hkeyed := (stored_keyed (hkeys.perm hperm.symm)).perm hperm
    have hsorted := (hashFind_own_iff hs hresort (hcmp.symm ▸ horder) hkeyed).mp hown
    have hdistinct := hsorted.distinct (hcmp.symm ▸ horder) (hkeyed.perm (hs.inOrder_perm hresort))
    rw [hcmp] at hdistinct
    refine ⟨hkeys.perm hperm.symm,
      (hdistinct.perm (hs.inOrder_perm hresort).symm).perm hperm.symm, fun hidle => ?_⟩
    have hsame : settled (hashItemCmp env) t = t := by
      unfold settled
      rw [hidle, if_neg Bool.false_ne_true]
    rwa [hsame] at hsorted
  · rintro ⟨hkeys, hdistinct, hsorted⟩
    have hsound : Sound (hashItemCmp env) (stored t.pPairs) t :=
      ⟨h, stored_keyed hkeys, hdistinct, hsorted⟩
    have hsettled := hsound.settled hashItemCmp_settles horder
    exact ⟨hkeys.perm hperm, (hashFind_own_iff hs hresort (hcmp.symm ▸ horder) hsettled.keyed).mpr
      (hsettled.sorted hresort)⟩

end Lookup

section Transfer

variable {D V : Type}

/-- What happens to an item on the way: the conversion of the bytes of a string by the
code pages of both sides, and the doubles that are written as zero. -/
structure Transfer (D V : Type) where
  translate : Bytes → Bytes
  isZero : D → Bool
  value : V → V
  default : V → Option V

/-- The key that is read back for a stored one; a pointer is written as NIL. -/
def Transfer.key (transfer : Transfer D V) : KeyItem D → KeyItem D
  | .string value => .string (transfer.translate value)
  | .double value => if transfer.isZero value then .numInt 0 else .double value
  | .pointer _ => .nil
  | key => key

def Transfer.pairs (transfer : Transfer D V) (t : BaseHash (KeyItem D) V) :
    List (KeyItem D × V) :=
  (readable t).map fun pair => (transfer.key pair.1, transfer.value pair.2)

/-- `hb_deserializeItem` of what `hb_serializeItem` has written for a hash. -/
def transferHash (nilPair : KeyItem D × V) (transfer : Transfer D V) (t : BaseHash (KeyItem D) V) :
    Except HashFault (BaseHash (KeyItem D) V) :=
  let decoded :=
    { deserializeHash (transfer.pairs t) with pDefault := t.pDefault.bind transfer.default }
  if { t.iFlags with resort := false } = hashFlagDefault then .ok decoded
  else deserializeHashFlags nilPair decoded t.iFlags

variable {env : KeyEnv D} (nilPair : KeyItem D × V) (transfer : Transfer D V)
  (t : BaseHash (KeyItem D) V)

theorem transferHash_eq : ∃ t', transferHash nilPair transfer t = .ok t' ∧ Coherent t' ∧
    t'.pPairs = transfer.pairs t ∧ t'.iFlags.binary = t.iFlags.binary ∧
    t'.iFlags.ignoreCase = t.iFlags.ignoreCase ∧ t'.iFlags.keepOrder = t.iFlags.keepOrder ∧
    (transfer.pairs t ≠ [] → t'.iFlags.resort =
      (t.iFlags.resort || t.iFlags.keepOrder || !t.iFlags.binary)) := by
  obtain ⟨⟨hcoherent, hplace, hpairs⟩, hflags⟩ := deserializeHash_decoded (transfer.pairs t)
  have hdecoded : Decoded (transfer.pairs t)
      { deserializeHash (transfer.pairs t) with pDefault := t.pDefault.bind transfer.default } :=
    ⟨⟨hcoherent.allocated, hcoherent.layout, hcoherent.slots, hcoherent.index⟩, hplace, hpairs⟩
  unfold transferHash
  split
  · rename_i hdefault
    have hbinary := congrArg HashFlags.binary hdefault
    have hcase := congrArg HashFlags.ignoreCase hdefault
    have hkeep := congrArg HashFlags.keepOrder hdefault
    refine ⟨_, rfl, hdecoded.coherent, hpairs, ?_⟩
    cases hwritten : transfer.pairs t with
    | nil => exact ⟨hbinary.symm, hcase.symm, hkeep.symm, fun hne => absurd rfl hne⟩
    | cons pair rest =>
      rw [hwritten] at hflags
      rw [hflags (cons_ne_nil _ _), hbinary, hcase, hkeep]
      refine ⟨rfl, rfl, rfl, fun _ => ?_⟩
      simp [flagsSet, hashFlagDefault]
  · obtain ⟨t', hok, hcoherent', hpairs', hflags', -⟩ :=
      deserializeHashFlags_decoded nilPair hdecoded (by
        rintro hsome hnil
        rw [hnil] at hsome
        cases hsome) t.iFlags
    refine ⟨t', hok, hcoherent', hpairs', ?_⟩
    rw [hflags']
    exact ⟨rfl, rfl, rfl, fun _ => rfl⟩

theorem transfer_findsOwn_iff
    (horder : OrdersKeys (hashItemCmp env t.iFlags) (stored (transfer.pairs t))) :
    (∃ t', transferHash nilPair transfer t = .ok t' ∧ Coherent t' ∧ FindsOwn env t') ↔
      Keyed hashKeys (transfer.pairs t) ∧
        Distinct (hashItemCmp env t.iFlags) (transfer.pairs t) ∧
        (t.iFlags.binary = true → t.iFlags.keepOrder = false → t.iFlags.resort = false →
          Increases (hashItemCmp env t.iFlags) (transfer.pairs t)) := by
  obtain ⟨t', hok, hcoherent, hpairs, hbinary, hcase, hkeep, hresort⟩ :=
    transferHash_eq nilPair transfer t
  have hcmp : hashItemCmp env t'.iFlags = hashItemCmp env t.iFlags :=
    hashItemCmp_congr env hbinary hcase
  have hordered : (t'.iFlags.resort = false → Increases (hashItemCmp env t.iFlags) (inOrder t')) ↔
      (t.iFlags.binary = true → t.iFlags.keepOrder = false → t.iFlags.resort = false →
        Increases (hashItemCmp env t.iFlags) (transfer.pairs t)) := by
    rcases Decidable.em (transfer.pairs t = []) with hnil | hne
    · rw [hnil] at hpairs ⊢
      refine iff_of_true (fun hidle => ?_) fun _ _ _ => List.Pairwise.nil
      have hperm := hcoherent.inOrder_perm hidle
      rw [hpairs] at hperm
      rw [hperm.eq_nil]
      exact List.Pairwise.nil
    · rw [hresort hne]
      constructor
      · intro hsorted hbin hkept hidle
        have hnone := hcoherent.layout.mpr (.inl (hkeep.trans hkept))
        have hinOrder := hsorted (by rw [hbin, hkept, hidle]; rfl)
        rwa [inOrder_none hnone, hpairs] at hinOrder
      · intro hsorted hidle
        simp only [Bool.or_eq_false_iff, Bool.not_eq_false'] at hidle
        obtain ⟨⟨hidle, hkept⟩, hbin⟩ := hidle
        rw [inOrder_none (hcoherent.layout.mpr (.inl (hkeep.trans hkept))), hpairs]
        exact hsorted hbin hkept hidle
  rw [← hcmp, ← hpairs] at horder
  rw [← hordered, ← hpairs, ← hcmp, ← findsOwn_iff horder hcoherent]
  constructor
  · rintro ⟨s, hok', -, hown⟩
    rw [hok] at hok'
    cases hok'
    exact hown
  · intro hown
    exact ⟨t', hok, hcoherent, hown⟩

end Transfer

/-- A code page that lists the letters a and b the other way round. -/
def swapLetters (c : UInt8) : UInt8 :=
  if c = 0x61 then 0x62 else if c = 0x62 then 0x61 else c

def swapPages : Transfer Int Nat where
  translate := map swapLetters
  isZero := (· = 0)
  value := id
  default := some

def letters (keepOrder : Bool) : BaseHash (KeyItem Int) Nat where
  pPairs := [(.string [0x61], 1), (.string [0x62], 2)]
  pDefault := none
  pnPos := if keepOrder then some [0, 1] else none
  nSize := 16
  iFlags := { hashFlagDefault with keepOrder }

theorem letters_order (keepOrder : Bool) :
    OrdersKeys (hashItemCmp plainEnv (letters keepOrder).iFlags)
      (stored (swapPages.pairs (letters keepOrder))) :=
  (hashItemCmp_orders plainEnv_orders _).mono fun _ hkey => hkey.1

theorem letters_sound : Sound (hashItemCmp plainEnv) hashKeys (letters false) where
  coherent :=
    ⟨by decide, iff_of_true rfl (.inl rfl), fun _ hsome => absurd hsome (by simp [letters]),
    fun _ => Perm.refl _⟩
  keyed := by
    change ∀ pair ∈ (letters false).pPairs, pair.1.isHashKey = true
    decide
  distinct := by
    unfold Distinct
    decide
  sorted := by
    intro _
    unfold Increases
    decide

end Harbour.Vm.HashDecode
