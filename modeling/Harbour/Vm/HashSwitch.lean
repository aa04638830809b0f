import Harbour.Vm.HashMap
import Harbour.Vm.HashSettings

/-!
The pairs that a hash holds over every run of its operations, changes of its flags
among them.
-/

namespace Harbour.Vm.HashSwitch

open Library.BinarySearch HashTable HashUpdate HashPairs HashSettings HashSound HashMap HashKey List

variable {K V : Type}

section Switches

variable {t : BaseHash K V} (nilPair : K × V)

/-- What a switch of the comparison does: the pairs stay where they are and wait for
a sort, unless there was nothing to switch. -/
structure Switched (t t' : BaseHash K V) : Prop where
  coherent : Coherent t'
  pPairs : t'.pPairs.Perm t.pPairs
  pDefault : t'.pDefault = t.pDefault

section

variable (h : Coherent t)

include h

theorem clear_then_resort (cleared added : HashFlags) (hresort : cleared.resort = false)
    (hkeep : cleared.keepOrder = false) (hadded : added.resort = true) : ∃ t', (do
        let t ← hashClearFlags nilPair t cleared
        return hashSetFlags t added) = .ok t' ∧ Switched t t' ∧
      (t' = t ∨ t'.iFlags.resort = true) := by
  obtain ⟨t', hclear, hcoherent, -, hperm, hflags, hdefault⟩ :=
    hashClearFlags_eq nilPair h cleared (.inl hresort) fun hmove => by
      rw [hkeep] at hmove
      exact absurd hmove Bool.false_ne_true
  refine ⟨hashSetFlags t' added, ?_, ⟨setFlags_coherent hcoherent added, ?_, ?_⟩, .inr ?_⟩
  · rw [hclear]
    rfl
  · rw [hashSetFlags_pPairs]
    exact hperm
  · rw [hashSetFlags_pDefault, hdefault]
  · rw [hashSetFlags_iFlags]
    exact (congrArg _ hadded).trans (Bool.or_true _)

theorem switched_refl : Switched t t :=
  ⟨h, Perm.refl _, rfl⟩

theorem hbHCaseMatch_switched (fMatch : Bool) :
    ∃ t', hbHCaseMatch nilPair t fMatch = .ok t' ∧ Switched t t' ∧
      (t' = t ∨ t'.iFlags.resort = true) := by
  unfold hbHCaseMatch
  split
  · split
    · exact clear_then_resort nilPair h _ _ rfl rfl rfl
    · exact ⟨t, rfl, switched_refl h, .inl rfl⟩
  · split
    · exact ⟨t, rfl, switched_refl h, .inl rfl⟩
    · exact clear_then_resort nilPair h _ _ rfl rfl rfl

theorem hbHBinary_switched (fBinary : Bool) :
    ∃ t', hbHBinary nilPair t fBinary = .ok t' ∧ Switched t t' ∧
      (t' = t ∨ t'.iFlags.resort = true) := by
  unfold hbHBinary
  split
  · split
    · exact ⟨t, rfl, switched_refl h, .inl rfl⟩
    · exact clear_then_resort nilPair h _ _ rfl rfl rfl
  · split
    · exact clear_then_resort nilPair h _ _ rfl rfl rfl
    · exact ⟨t, rfl, switched_refl h, .inl rfl⟩

theorem hbHKeepOrder_switched (fKeep : Bool)
    (hindex : fKeep = false → ∀ pnPos, t.pnPos = some pnPos →
      pnPos.Perm (range t.nLen) ∧ t.nLen ≠ 0) :
    ∃ t', hbHKeepOrder nilPair t fKeep = .ok t' ∧ Switched t t' := by
  unfold hbHKeepOrder
  cases fKeep with
  | true =>
    rw [if_pos rfl]
    split
    · exact ⟨t, rfl, switched_refl h⟩
    · refine ⟨_, rfl, setFlags_coherent h _, ?_, hashSetFlags_pDefault t _⟩
      rw [hashSetFlags_pPairs]
  | false =>
    rw [if_neg Bool.false_ne_true]
    split
    · obtain ⟨t', hok, hcoherent, -, hperm, -, hdefault⟩ :=
        hashClearFlags_eq nilPair h { noFlags with keepOrder := true } (.inr rfl)
          fun _ => hindex rfl
      exact ⟨t', hok, hcoherent, hperm, hdefault⟩
    · exact ⟨t, rfl, switched_refl h⟩

end

end Switches

section Runs

variable (cmp : HashFlags → K → K → Int) (nilPair : K × V)

/-- The operations on a hash, `HB_HCASEMATCH`, `HB_HBINARY` and `HB_HKEEPORDER`
among them. -/
inductive Op (K V : Type) where
  | update (u : Update K V)
  | scan (key : K)
  | caseMatch (fMatch : Bool)
  | binary (fBinary : Bool)
  | keepOrder (fKeep : Bool)

def step (t : BaseHash K V) : Op K V → Except HashFault (BaseHash K V)
  | .update u => update cmp nilPair t u
  | .scan key => .ok (hashScan cmp t key).1
  | .caseMatch fMatch => hbHCaseMatch nilPair t fMatch
  | .binary fBinary => hbHBinary nilPair t fBinary
  | .keepOrder fKeep => hbHKeepOrder nilPair t fKeep

def readable (t : BaseHash K V) : List (K × V) :=
  (range t.nLen).filterMap fun n => hashPairAt t (n + 1)

theorem readable_eq (t : BaseHash K V) : readable t = t.pPairs := by
  unfold readable
  simp only [hashPairAt_succ]
  exact filterMap_range t.pPairs

/-- The change of the pairs that an operation is for. -/
def Op.Changes (cmp : K → K → Int) (default : V) (before after : List (K × V)) :
    Op K V → Prop
  | .update (.add key value) =>
    after.Perm ((key, value) :: before) ∨ ∃ old rest, cmp old.1 key = 0 ∧
      before.Perm (old :: rest) ∧ after.Perm ((old.1, value) :: rest)
  | .update (.addNew key value) => after.Perm before ∨ after.Perm ((key, value) :: before)
  | .update (.access key) => after.Perm before ∨ after.Perm ((key, default) :: before)
  | .update (.del key) => after.Perm before ∨ ∃ old, cmp old.1 key = 0 ∧ before.Perm (old :: after)
  | .update (.delAt nPos) => after = if 0 < nPos then before.eraseIdx (nPos - 1) else before
  | .update .clear => after = []
  | _ => after.Perm before

/-- The index that an operation moves the pairs through lists each of them once, and
there is a pair to move. -/
def Op.Moves (t : BaseHash K V) : Op K V → Prop
  | .update .sort => t.pnPos.isSome → t.nLen ≠ 0
  | .keepOrder false => ∀ pnPos, t.pnPos = some pnPos →
      pnPos.Perm (range t.nLen) ∧ t.nLen ≠ 0
  | _ => True

variable {cmp nilPair} {t : BaseHash K V}

theorem modify_changes {pairs : List (K × V)} {nPos : Nat} {old : K × V} (value : V)
    (hget : pairs[nPos]? = some old) : ∃ rest, pairs.Perm (old :: rest) ∧
      (pairs.modify nPos fun pair => (pair.1, value)).Perm ((old.1, value) :: rest) := by
  obtain ⟨hlt, rfl⟩ := List.getElem?_eq_some_iff.mp hget
  refine ⟨pairs.take nPos ++ pairs.drop (nPos + 1), ?_, ?_⟩
  · refine Perm.trans ?_ perm_middle
    rw [← drop_eq_getElem_cons hlt, take_append_drop]
  · rw [modify_eq_take_cons_drop hlt]
    exact perm_middle

theorem eraseIdx_changes {pairs : List (K × V)} {nPos : Nat} {old : K × V}
    (hget : pairs[nPos]? = some old) : pairs.Perm (old :: pairs.eraseIdx nPos) := by
  obtain ⟨hlt, rfl⟩ := List.getElem?_eq_some_iff.mp hget
  exact (getElem_cons_eraseIdx_perm hlt).symm

section Update

variable (hbits : Settles cmp)

include hbits

section

variable (h : Coherent t) (key : K)

include h key

theorem find_changes : ∃ s, Coherent s ∧ s.pPairs.Perm t.pPairs ∧
    s.iFlags.resort = false ∧ s.pDefault = t.pDefault ∧
      ((∃ nPos old, hashFind cmp t key = (s, true, nPos) ∧ s.pPairs[nPos]? = some old ∧
        cmp t.iFlags old.1 key = 0) ∨
      ∃ nPos, hashFind cmp t key = (s, false, nPos) ∧ nPos ≤ s.nLen) := by
  have hcases := hashFind_cases cmp h key
  rw [settled_cmp hbits] at hcases
  exact ⟨settled cmp t, h.settled cmp, settled_pPairs cmp t, by rw [settled_iFlags],
    settled_pDefault cmp t, hcases⟩

theorem hashAdd_changes (value : V) :
    Coherent (hashAdd cmp t key value) ∧ (Op.update (.add key value)).Changes (cmp t.iFlags)
      (t.pDefault.getD nilPair.2) t.pPairs (hashAdd cmp t key value).pPairs := by
  obtain ⟨s, hs, hperm, hresort, -, ⟨nPos, old, hfound, hget, hzero⟩ | ⟨nPos, hmissing, hle⟩⟩ :=
    find_changes hbits h key
  · unfold hashAdd
    rw [hfound]
    refine ⟨(hs.setPairs (length_modify _ _ _)).2, .inr ?_⟩
    obtain ⟨rest, hbefore, hafter⟩ := modify_changes value hget
    exact ⟨old, rest, hzero, hperm.symm.trans hbefore, hafter⟩
  · have hopen : hashAdd cmp t key value = hashOpenPair s nPos (key, value) := by
      unfold hashAdd
      rw [hmissing]
      rfl
    rw [hopen]
    exact ⟨hs.openPair hle hresort _, .inl ((hashOpenPair_pPairs hs hle _).trans (hperm.cons _))⟩

theorem hashAddNew_changes (value : V) : Coherent (hashAddNew cmp t key value).2 ∧
      (Op.update (.addNew key value)).Changes (cmp t.iFlags) (t.pDefault.getD nilPair.2) t.pPairs
        (hashAddNew cmp t key value).2.pPairs := by
  unfold hashAddNew
  obtain ⟨s, hs, hperm, hresort, -, ⟨nPos, old, hfound, -, -⟩ | ⟨nPos, hmissing, hle⟩⟩ :=
    find_changes hbits h key
  · rw [hfound]
    exact ⟨hs, .inl hperm⟩
  · rw [hmissing]
    exact ⟨hs.openPair hle hresort _, .inr ((hashOpenPair_pPairs hs hle _).trans (hperm.cons _))⟩

theorem hashAccess_changes : Coherent (hashAccess cmp nilPair.2 t key).1 ∧
      (Op.update (.access key)).Changes (cmp t.iFlags) (t.pDefault.getD nilPair.2) t.pPairs
        (hashAccess cmp nilPair.2 t key).1.pPairs := by
  unfold hashAccess hashValuePtr
  obtain ⟨s, hs, hperm, hresort, hdefault, ⟨nPos, old, hfound, -, -⟩ | ⟨nPos, hmissing, hle⟩⟩ :=
    find_changes hbits h key
  · rw [hfound]
    exact ⟨hs, .inl hperm⟩
  · rw [hmissing, ← hdefault]
    cases t.iFlags.autoAddAccess with
    | true =>
      exact ⟨hs.openPair hle hresort _, .inr ((hashOpenPair_pPairs hs hle _).trans (hperm.cons _))⟩
    | false => exact ⟨hs, .inl hperm⟩

theorem hashDel_changes : Coherent (hashDel cmp t key).2 ∧
      (Op.update (.del key)).Changes (cmp t.iFlags) (t.pDefault.getD nilPair.2) t.pPairs
        (hashDel cmp t key).2.pPairs := by
  unfold hashDel
  obtain ⟨s, hs, hperm, -, -, ⟨nPos, old, hfound, hget, hzero⟩ | ⟨nPos, hmissing, -⟩⟩ :=
    find_changes hbits h key
  · rw [hfound]
    have hlt : nPos < s.nLen := (List.getElem?_eq_some_iff.mp hget).1
    refine ⟨hs.delPair hlt, .inr ⟨old, hzero, ?_⟩⟩
    rw [hashDelPair_pPairs hlt]
    exact hperm.symm.trans (eraseIdx_changes hget)
  · rw [hmissing]
    exact ⟨hs, .inl hperm⟩

end

omit hbits in
theorem hashDelAt_changes (h : Coherent t) (nPos : Nat) :
    Coherent (hashDelAt t nPos).2 ∧ (hashDelAt t nPos).2.pPairs =
      if 0 < nPos then t.pPairs.eraseIdx (nPos - 1) else t.pPairs := by
  unfold hashDelAt
  split
  · rename_i hpos
    have hlt : nPos - 1 < t.nLen := by omega
    rw [if_pos hpos.1]
    exact ⟨h.delPair hlt, hashDelPair_pPairs hlt⟩
  · rename_i hpos
    refine ⟨h, ?_⟩
    split
    · rename_i hpositive
      refine (eraseIdx_of_length_le ?_).symm
      change t.nLen ≤ nPos - 1
      omega
    · rfl

theorem update_changes (h : Coherent t) (u : Update K V) (hmoves : (Op.update u).Moves t) :
    ∃ t', update cmp nilPair t u = .ok t' ∧ Coherent t' ∧
      (Op.update u).Changes (cmp t.iFlags) (t.pDefault.getD nilPair.2) t.pPairs t'.pPairs := by
  cases u with
  | add key value => exact ⟨_, rfl, hashAdd_changes hbits h key value⟩
  | addNew key value => exact ⟨_, rfl, hashAddNew_changes hbits h key value⟩
  | access key => exact ⟨_, rfl, hashAccess_changes hbits h key⟩
  | del key => exact ⟨_, rfl, hashDel_changes hbits h key⟩
  | delAt nPos => exact ⟨_, rfl, hashDelAt_changes h nPos⟩
  | clear =>
    obtain ⟨hcoherent, hnil, -⟩ := h.clear
    exact ⟨_, rfl, hcoherent, hnil⟩
  | preallocate nNewSize =>
    obtain ⟨nSize, pnPos, heq, -, -, -⟩ := hashResize_eq h nNewSize
    refine ⟨_, rfl, h.resize nNewSize, ?_⟩
    rw [heq]
    exact Perm.refl _
  | sort =>
    obtain ⟨t', hsort, hcoherent, hpairs, -, -, -⟩ := hashSort_eq nilPair cmp h hmoves
    refine ⟨t', hsort, hcoherent, ?_⟩
    rw [hpairs]
    exact ((h.settled cmp).inOrder_perm (by rw [settled_iFlags])).trans (settled_pPairs cmp t)

variable (nilPair) in
theorem step_changes (h : Coherent t) (op : Op K V) (hmoves : op.Moves t) :
    ∃ t', step cmp nilPair t op = .ok t' ∧ Coherent t' ∧
      op.Changes (cmp t.iFlags) (t.pDefault.getD nilPair.2) t.pPairs t'.pPairs := by
  cases op with
  | update u => exact update_changes hbits h u hmoves
  | scan key =>
    obtain ⟨s, hs, hperm, -, -, ⟨nPos, old, hfound, -, -⟩ | ⟨nPos, hmissing, -⟩⟩ :=
      find_changes hbits h key
    · refine ⟨s, ?_, hs, hperm⟩
      change Except.ok (hashScan cmp t key).1 = _
      unfold hashScan
      rw [hfound]
    · refine ⟨s, ?_, hs, hperm⟩
      change Except.ok (hashScan cmp t key).1 = _
      unfold hashScan
      rw [hmissing]
  | caseMatch fMatch =>
    obtain ⟨t', hok, hswitched, -⟩ := hbHCaseMatch_switched nilPair h fMatch
    exact ⟨t', hok, hswitched.coherent, hswitched.pPairs⟩
  | binary fBinary =>
    obtain ⟨t', hok, hswitched, -⟩ := hbHBinary_switched nilPair h fBinary
    exact ⟨t', hok, hswitched.coherent, hswitched.pPairs⟩
  | keepOrder fKeep =>
    obtain ⟨t', hok, hswitched⟩ := hbHKeepOrder_switched nilPair h fKeep fun hfalse => by
      subst hfalse
      exact hmoves
    exact ⟨t', hok, hswitched.coherent, hswitched.pPairs⟩

end Update

end Runs

section Decoded

variable {t : BaseHash K V} {nilPair : K × V}

inductive Start (nilPair : K × V) : BaseHash K V → Prop where
  | new : Start nilPair hashNew
  | decoded (pairs : List (K × V)) : Start nilPair (deserializeHash pairs)
  | decodedFlags (pairs : List (K × V)) (iHashFlags : HashFlags) {t : BaseHash K V} :
      deserializeHashFlags nilPair (deserializeHash pairs) iHashFlags = .ok t → Start nilPair t
  | default {t : BaseHash K V} (value : V) :
      Start nilPair t → Start nilPair { t with pDefault := some value }

theorem Start.coherent (h : Start nilPair t) : Coherent t := by
  induction h with
  | new => exact hashNew_coherent hashFlagDefault
  | decoded pairs => exact (deserializeHash_decoded pairs).1.coherent
  | decodedFlags pairs iHashFlags hok =>
    have hdecoded := (deserializeHash_decoded pairs).1
    have hsome : (deserializeHash pairs).pnPos.isSome → pairs ≠ [] := by
      rintro hsome rfl
      exact absurd hsome Bool.false_ne_true
    obtain ⟨t', hok', hcoherent, -, -, -⟩ :=
      deserializeHashFlags_decoded nilPair hdecoded hsome iHashFlags
    rw [hok] at hok'
    cases hok'
    exact hcoherent
  | default value _ ih => exact ⟨ih.allocated, ih.layout, ih.slots, ih.index⟩

end Decoded

section Program

variable {D : Type} (env : KeyEnv D) (nilPair : KeyItem D × V)

def run (start : BaseHash (KeyItem D) V) (ops : List (Op (KeyItem D) V)) :
    Except HashFault (BaseHash (KeyItem D) V) :=
  ops.foldlM (step (hashItemCmp env) nilPair) start

/-- Every operation that moves the pairs of the run finds an index that lists each of
them once, and a pair to move. -/
def MovesPairs (start : BaseHash (KeyItem D) V) (ops : List (Op (KeyItem D) V)) : Prop :=
  ∀ before op after, ops = before ++ op :: after →
    ∀ t, run env nilPair start before = .ok t → op.Moves t

/-- The run goes through, and each of its steps changes the readable pairs as its
operation is meant to and in no other way. -/
def KeepsPairs (start : BaseHash (KeyItem D) V) (ops : List (Op (KeyItem D) V)) : Prop :=
  (∃ t, run env nilPair start ops = .ok t) ∧
    ∀ before op after, ops = before ++ op :: after →
      ∃ t t', run env nilPair start before = .ok t ∧ step (hashItemCmp env) nilPair t op = .ok t' ∧
        op.Changes (hashItemCmp env t.iFlags) (t.pDefault.getD nilPair.2) (readable t) (readable t')

variable {env nilPair} {start t : BaseHash (KeyItem D) V} {ops : List (Op (KeyItem D) V)}

theorem run_append (before after : List (Op (KeyItem D) V)) :
    run env nilPair start (before ++ after) =
      run env nilPair start before >>= fun t => run env nilPair t after :=
  foldlM_append

theorem MovesPairs.nil : MovesPairs env nilPair start [] := by
  rintro before op after hnil
  cases before <;> cases hnil

theorem MovesPairs.snoc {op : Op (KeyItem D) V} (h : MovesPairs env nilPair start ops)
    (hmoves : ∀ t, run env nilPair start ops = .ok t → op.Moves t) :
    MovesPairs env nilPair start (ops ++ [op]) := by
  rintro before op' after heq
  cases after using reverseRecOn with
  | nil =>
    obtain ⟨rfl, hop⟩ := append_inj' heq rfl
    cases hop
    exact hmoves
  | append_singleton after last =>
    rw [← cons_append, ← append_assoc] at heq
    obtain ⟨rfl, -⟩ := append_inj' heq rfl
    exact h before op' after rfl

theorem run_coherent (hstart : Start nilPair start) (hmoves : MovesPairs env nilPair start ops) :
    ∃ t, run env nilPair start ops = .ok t ∧ Coherent t := by
  induction ops using reverseRecOn with
  | nil => exact ⟨start, rfl, hstart.coherent⟩
  | append_singleton ops op ih =>
    have hearlier : MovesPairs env nilPair start ops := by
      rintro before op' after rfl
      exact hmoves before op' (after ++ [op]) (by simp)
    obtain ⟨t, hrun, hcoherent⟩ := ih hearlier
    obtain ⟨t', hstep, hcoherent', -⟩ :=
      step_changes nilPair hashItemCmp_settles hcoherent op
        (hmoves ops op [] rfl t hrun)
    refine ⟨t', ?_, hcoherent'⟩
    rw [run_append, hrun]
    change (step (hashItemCmp env) nilPair t op >>= pure) = _
    rw [hstep]
    rfl

theorem run_keeps_pairs (hstart : Start nilPair start) (hmoves : MovesPairs env nilPair start ops) :
    KeepsPairs env nilPair start ops := by
  obtain ⟨t, hrun, -⟩ := run_coherent hstart hmoves
  refine ⟨⟨t, hrun⟩, ?_⟩
  rintro before op after rfl
  have hearlier : MovesPairs env nilPair start before := by
    rintro first op' rest rfl
    exact hmoves first op' (rest ++ op :: after) (by simp)
  obtain ⟨s, hbefore, hcoherent⟩ := run_coherent hstart hearlier
  obtain ⟨s', hstep, -, hchanges⟩ :=
    step_changes nilPair hashItemCmp_settles hcoherent op
      (hmoves before op after rfl s hbefore)
  refine ⟨s, s', hbefore, hstep, ?_⟩
  rw [readable_eq, readable_eq]
  exact hchanges

end Program

def twoPairs : List (Op (KeyItem Int) Nat) :=
  [.update (.add (.numInt 7) 1), .update (.add (.numInt 3) 2)]

def twoPairsTable : BaseHash (KeyItem Int) Nat where
  pPairs := [(.numInt 7, 1), (.numInt 3, 2)]
  pDefault := none
  pnPos := some [1, 0]
  nSize := 16
  iFlags := hashFlagDefault

theorem onePair_add : hashAdd (hashItemCmp plainEnv) hashNew (.numInt 7) 1 =
    ⟨[(.numInt 7, 1)], none, some [0], 16, hashFlagDefault⟩ := by
  simp [hashAdd, hashFind, hashNew, hashFlagDefault, BaseHash.nLen, search, hashReserve, hashGrow,
    hashItemAlloc]

theorem twoPairs_run : run plainEnv (.nil, 0) hashNew twoPairs = .ok twoPairsTable := by
  change Except.ok (hashAdd (hashItemCmp plainEnv)
    (hashAdd (hashItemCmp plainEnv) hashNew (.numInt 7) 1) (.numInt 3) 2) = _
  rw [onePair_add]
  simp [hashAdd, hashFind, hashFlagDefault, BaseHash.nLen, search, hashReserve, keyCmpAt,
    BaseHash.keyOrder, hashItemCmp, threeWay, twoPairsTable, plainEnv]

/-- `HB_HCASEMATCH( h, .F. )`, `HB_HKEEPORDER( h, .F. )`. -/
theorem switches_keep_pairs : KeepsPairs plainEnv (.nil, 0) hashNew
    (twoPairs ++ [.caseMatch false] ++ [.keepOrder false]) := by
  have hsorted : run plainEnv (.nil, 0) hashNew (twoPairs ++ [.caseMatch false]) =
      .ok { twoPairsTable with
        iFlags := { hashFlagDefault with
          binary := false, ignoreCase := true, resort := true } } := by
    rw [run_append, twoPairs_run]
    rfl
  have hfirst : MovesPairs plainEnv (.nil, 0) hashNew
      [(.update (.add (.numInt 7) 1) : Op (KeyItem Int) Nat)] :=
    MovesPairs.nil.snoc fun _ _ => trivial
  have hpairs : MovesPairs plainEnv (.nil, 0) hashNew twoPairs := hfirst.snoc fun _ _ => trivial
  have hcase : MovesPairs plainEnv (.nil, 0) hashNew (twoPairs ++ [.caseMatch false]) :=
    hpairs.snoc fun _ _ => trivial
  refine run_keeps_pairs .new (hcase.snoc ?_)
  intro t hrun pnPos hpos
  rw [hsorted] at hrun
  cases hrun
  cases hpos
  exact ⟨Perm.swap _ _ _, by decide⟩

/-- `HB_HCASEMATCH( h, .F. )`, `HB_HDELAT( h, 1 )`, `HB_HKEEPORDER( h, .F. )`. -/
theorem stale_index_loses_pair : Start (.nil, 0) (hashNew : BaseHash (KeyItem Int) Nat) ∧
    ¬ KeepsPairs plainEnv (.nil, 0) hashNew
      (twoPairs ++ [.caseMatch false, .update (.delAt 1), .keepOrder false]) := by
  refine ⟨.new, ?_⟩
  rintro ⟨-, hsteps⟩
  obtain ⟨t, t', hrun, hstep, hchanges⟩ :=
    hsteps (twoPairs ++ [.caseMatch false, .update (.delAt 1)]) (.keepOrder false) [] (by simp)
  rw [run_append, twoPairs_run] at hrun
  cases hrun
  cases hstep
  have hlost : (KeyItem.numInt 3, 2) ∈ [((KeyItem.nil : KeyItem Int), 0)] :=
    hchanges.mem_iff.mpr (by decide)
  revert hlost
  decide

end Harbour.Vm.HashSwitch
