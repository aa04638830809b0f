import Harbour.Rdd.DbfLocks

/-!
The records that the work areas of a table list as locked, and who may change a record.

A step asks the operating system once. A call is one step or several, between which the other
stations take theirs.
-/

namespace Harbour.Rdd.DbfLocks

open Library.RangeLocks Library.Transitions Function List

/-- The work areas of a table, one for each station. -/
structure Areas (ι : Type*) extends State ι where
  pLocksPos : ι → List Nat

inductive Method where
  | exclusive
  | multiple (itmRecID : Nat)
  | file

section Calls

variable {ι : Type*} [DecidableEq ι] (pArea : Table) (answers : Action → Bool) (s : Areas ι)
  (i : ι)

/-- `answers` are those of the operating system. -/
def rawLock (uiAction : Action) : Areas ι :=
  { s with toState := hb_dbfRawLock pArea s.toState i uiAction (answers uiAction) }

/-- A lock that is not asked for does not fail. -/
def rawLockFails (uiAction : Action) : Bool :=
  (range pArea (s.station i) uiAction).isSome && !answers uiAction

def hb_dbfUnlockAllRecords : Areas ι where
  toState := (s.pLocksPos i).foldl (fun s ulRecNo =>
    hb_dbfRawLock pArea s i (.recUnlock ulRecNo) (answers (.recUnlock ulRecNo))) s.toState
  pLocksPos := update s.pLocksPos i []

def hb_dbfIsLocked (ulRecNo : Nat) : Bool := (s.pLocksPos i).contains ulRecNo

def hb_dbfUnlockRecord (ulRecNo : Nat) : Areas ι :=
  if ulRecNo ∈ s.pLocksPos i then
    { rawLock pArea answers s i (.recUnlock ulRecNo) with
      pLocksPos := update s.pLocksPos i ((s.pLocksPos i).erase ulRecNo) }
  else s

/-- The record that is meant, `ulRecNo` being the number of the current one. -/
def recordOf (ulRecNo itmRecID : Nat) : Nat := if itmRecID = 0 then ulRecNo else itmRecID

/-- The areas with `*pResult`. -/
def hb_dbfLockRecord (ulRecNo : Nat) (bExclusive : Bool) : Areas ι × Bool :=
  if (s.station i).fFLocked then (s, true)
  else if !bExclusive && hb_dbfIsLocked s i ulRecNo then (s, true)
  else
    let s := if bExclusive then hb_dbfUnlockAllRecords pArea answers s i else s
    let s' := rawLock pArea answers s i (.recLock ulRecNo)
    if rawLockFails pArea answers s i (.recLock ulRecNo) then (s', false)
    else ({ s' with pLocksPos := update s.pLocksPos i (s.pLocksPos i ++ [ulRecNo]) }, true)

def hb_dbfLockFile : Areas ι × Bool :=
  if (s.station i).fFLocked then (s, true)
  else
    let s' := rawLock pArea answers (hb_dbfUnlockAllRecords pArea answers s i) i .fileLock
    (s', (s'.station i).fFLocked)

def hb_dbfUnlockFile : Areas ι :=
  if (s.station i).fFLocked then rawLock pArea answers s i .fileUnlock else s

def hb_dbfLock (ulRecNo : Nat) (uiMethod : Method) : Areas ι × Bool :=
  if (s.station i).fShared then
    match uiMethod with
    | .exclusive => hb_dbfLockRecord pArea answers s i ulRecNo true
    | .multiple itmRecID => hb_dbfLockRecord pArea answers s i (recordOf ulRecNo itmRecID) false
    | .file => hb_dbfLockFile pArea answers s i
  else (s, true)

def hb_dbfUnLock (ulRecNo : Nat) : Areas ι :=
  if (s.station i).fShared then
    let s :=
      if s.pLocksPos i = [] then s
      else if ulRecNo = 0 then hb_dbfUnlockAllRecords pArea answers s i
      else if hb_dbfIsLocked s i ulRecNo then hb_dbfUnlockRecord pArea answers s i ulRecNo
      else s
    if (s.station i).fFLocked then hb_dbfUnlockFile pArea answers s i else s
  else s

/-- Whether the record may be changed. -/
def hb_dbfGoHot (fReadonly : Bool) (ulRecNo : Nat) : Bool :=
  !fReadonly &&
    !((s.station i).fShared && !(s.station i).fFLocked && !hb_dbfIsLocked s i ulRecNo)

/-- The record that a method locks. -/
def Method.record (ulRecNo : Nat) : Method → Nat
  | .multiple itmRecID => recordOf ulRecNo itmRecID
  | _ => ulRecNo

/-- What the operating system may answer a station. `reliable` ones refuse no unlocking. -/
structure Granted (reliable : Prop) : Prop where
  shared : (s.station i).fShared
  enabled : ∀ uiAction, Enabled pArea s.toState i uiAction (answers uiAction)
  unlocks : reliable → ∀ uiAction, uiAction.locks = false → answers uiAction = true

def workAreas (ι : Type*) [DecidableEq ι] (pArea : Table) (reliable : Prop) : System (Areas ι) where
  init s := s.os = Locks.free ∧ ∀ i, (s.station i).fFLocked = false ∧ s.pLocksPos i = []
  step s s' := ∃ i answers, Granted pArea answers s i reliable ∧
    ((∃ ulRecNo, Numbered pArea ulRecNo ∧
        s' = (hb_dbfLockRecord pArea answers s i ulRecNo false).1) ∨
      (∃ ulRecNo, s' = hb_dbfUnlockRecord pArea answers s i ulRecNo) ∨
      s.pLocksPos i = [] ∧ s' = (hb_dbfLockFile pArea answers s i).1 ∨
      s' = hb_dbfUnlockFile pArea answers s i ∨
      s' = rawLock pArea answers s i .headerLock ∨ s' = rawLock pArea answers s i .headerUnlock)

end Calls

section Runs

variable {ι : Type*} [DecidableEq ι] {pArea : Table} {answers : Action → Bool} {s s' : Areas ι}
  {i j : ι} {reliable : Prop} {n : Nat} {flags flags' : Flags} {os os' : Nat → Option Mode}
  {pLocksPos : List Nat} {fLck : Bool} {uiAction : Action}

instance (r : Range) (b : Nat) : Decidable (b ∈ r) := inferInstanceAs (Decidable (_ ∧ _))

/-- The locks of a station once those of a range are set to `mode`. -/
def changed (os : Nat → Option Mode) (r : Range) (mode : Option Mode) (b : Nat) : Option Mode :=
  if b ∈ r then mode else os b

/-- What a work area knows of its own locks. -/
structure Own (pArea : Table) (reliable : Prop) (flags : Flags) (os : Nat → Option Mode)
    (pLocksPos : List Nat) : Prop where
  numbered : ∀ n ∈ pLocksPos, Numbered pArea n
  nodup : pLocksPos.Nodup
  file : flags.fFLocked → pLocksPos = []
  held : ∀ n ∈ pLocksPos, ∀ b ∈ recRange pArea n, os b = some .exclusive
  listed : reliable → flags.fShared → ∀ n, Numbered pArea n → ∀ b ∈ recRange pArea n,
    os b ≠ none → n ∈ pLocksPos ∨ flags.fFLocked ∧ b ∈ fileRange pArea

section Ranges

variable (h : Own pArea reliable flags os pLocksPos)

include h

theorem Own.unlockRecord (hvalid : pArea.Valid) (hin : n ∈ pLocksPos)
    (hanswer : reliable → fLck = true) :
    Own pArea reliable flags (if fLck then changed os (recRange pArea n) none else os)
      (pLocksPos.erase n) := by
  obtain ⟨hnumbered, hnodup, hfile, hheld, hlisted⟩ := h
  have hmem (m : Nat) : m ∈ pLocksPos.erase n ↔ m ≠ n ∧ m ∈ pLocksPos := hnodup.mem_erase_iff
  have hapart (m b : Nat) (hm : Numbered pArea m) (hb : b ∈ recRange pArea m) :
      b ∈ recRange pArea n → m = n := rec_disjoint hvalid hm (hnumbered n hin) hb
  exact ⟨by grind, hnodup.erase n, by grind, by grind [changed], by grind [changed]⟩

theorem Own.lockRecord (hvalid : pArea.Valid) (hfree : ¬ flags.fFLocked) (hn : Numbered pArea n)
    (hnew : n ∉ pLocksPos) :
    Own pArea reliable flags (changed os (recRange pArea n) (some .exclusive))
      (pLocksPos ++ [n]) := by
  obtain ⟨hnumbered, hnodup, hfile, hheld, hlisted⟩ := h
  have hapart (m b : Nat) (hm : Numbered pArea m) (hb : b ∈ recRange pArea m) :
      b ∈ recRange pArea n → m = n := rec_disjoint hvalid hm hn hb
  exact ⟨by grind, by grind, by grind, by grind [changed], by grind [changed]⟩

/-- The byte of the header is not one of a record. -/
theorem Own.header (hvalid : pArea.Valid) (mode : Option Mode) (fHeaderLocked : Bool) :
    Own pArea reliable { flags with fHeaderLocked }
      (if fLck then changed os (headerRange pArea) mode else os) pLocksPos := by
  obtain ⟨hnumbered, hnodup, hfile, hheld, hlisted⟩ := h
  have hapart (n b : Nat) (hn : Numbered pArea n) (hb : b ∈ headerRange pArea) :
      b ∉ recRange pArea n := header_not_rec hvalid hn hb
  exact ⟨hnumbered, hnodup, hfile, by grind [changed], by grind [changed]⟩

end Ranges

/-- Where no record is listed the lock of the file may come and go. -/
theorem Own.file_lock (h : Own pArea reliable flags os [])
    (hshared : flags'.fShared = flags.fShared)
    (hos : reliable → ∀ b, os' b ≠ none → b ∈ fileRange pArea ∧ flags'.fFLocked ∨
      os b ≠ none ∧ ¬ (flags.fFLocked ∧ b ∈ fileRange pArea)) :
    Own pArea reliable flags' os' [] := by
  have hlisted := h.listed
  exact ⟨h.numbered, h.nodup, fun _ => rfl, by simp, by grind⟩

theorem rawLock_others (s : State ι) {j : ι} (hj : j ≠ i) :
    (hb_dbfRawLock pArea s i uiAction fLck).station j = s.station j ∧
      (hb_dbfRawLock pArea s i uiAction fLck).os j = s.os j := by
  unfold hb_dbfRawLock
  split
  · exact ⟨rfl, rfl⟩
  · refine ⟨update_of_ne hj _ _, ?_⟩
    dsimp only
    split_ifs
    · exact Locks.lock_other hj
    · exact Locks.unlock_other hj
    · rfl

/-- A step of one station leaves the others alone and keeps what it knows of itself. -/
structure Moves (pArea : Table) (reliable : Prop) (i : ι) (s s' : Areas ι) : Prop where
  others : ∀ j ≠ i, s'.station j = s.station j ∧ s'.os j = s.os j ∧ s'.pLocksPos j = s.pLocksPos j
  inv : Inv pArea s.toState → Inv pArea s'.toState
  own : Own pArea reliable (s.station i) (s.os i) (s.pLocksPos i) →
    Own pArea reliable (s'.station i) (s'.os i) (s'.pLocksPos i)

omit [DecidableEq ι] in
theorem Moves.refl (s : Areas ι) : Moves pArea reliable i s s :=
  ⟨fun _ _ => ⟨rfl, rfl, rfl⟩, id, id⟩

section Steps

variable (hvalid : pArea.Valid) (hg : Granted pArea answers s i reliable)

include hg

theorem moves_rawLock {r : Range} (hr : range pArea (s.station i) uiAction = some r)
    (pLocksPos : List Nat)
    (hown : Own pArea reliable (s.station i) (s.os i) (s.pLocksPos i) →
      Own pArea reliable ((s.station i).after (answers uiAction) uiAction)
        (if answers uiAction then changed (s.os i) r
          (if uiAction.locks then some .exclusive else none) else s.os i) pLocksPos) :
    Moves pArea reliable i s { rawLock pArea answers s i uiAction with
      pLocksPos := update s.pLocksPos i pLocksPos } := by
  refine ⟨fun j hj => ?_, fun h => inv_rawLock h (hg.enabled uiAction), fun h => ?_⟩
  · obtain ⟨hstation, hos⟩ := rawLock_others s.toState hj
    exact ⟨hstation, hos, update_of_ne hj _ _⟩
  · have hos : (if answers uiAction then if uiAction.locks then
        s.os.lock i r.first r.len .exclusive else s.os.unlock i r.first r.len else s.os) i =
        if answers uiAction then changed (s.os i) r
          (if uiAction.locks then some .exclusive else none) else s.os i := by
      funext b
      split_ifs
      · exact Locks.lock_self b
      · exact Locks.unlock_self b
      · rfl
    unfold rawLock
    rw [rawLock_some hr]
    dsimp only
    rw [update_self, update_self, hos]
    exact hown h

theorem moves_lockRecord (hvalid : pArea.Valid) (hn : Numbered pArea n) :
    Moves pArea reliable i s (hb_dbfLockRecord pArea answers s i n false).1 := by
  unfold hb_dbfLockRecord
  split
  case isTrue => exact .refl s
  case isFalse hfree =>
    split
    case isTrue => exact .refl s
    case isFalse hnew =>
      have hnot : n ∉ s.pLocksPos i := by simpa [hb_dbfIsLocked] using hnew
      have hrange : range pArea (s.station i) (.recLock n) = some (recRange pArea n) :=
        if_pos ⟨hg.shared, hfree⟩
      have hlock := moves_rawLock hg hrange
      simp only [Bool.false_eq_true, if_false, rawLockFails, hrange, Option.isSome_some,
        Bool.true_and]
      cases hanswer : answers (.recLock n) with
      | true =>
        refine hlock _ fun h => ?_
        rw [hanswer]
        exact h.lockRecord hvalid hfree hn hnot
      | false =>
        have hkept := hlock (s.pLocksPos i) fun h => by
          rw [hanswer]
          exact h
        rw [update_eq_self] at hkept
        exact hkept

theorem moves_unlockRecord (hvalid : pArea.Valid)
    (hown : Own pArea reliable (s.station i) (s.os i) (s.pLocksPos i)) :
    Moves pArea reliable i s (hb_dbfUnlockRecord pArea answers s i n) := by
  unfold hb_dbfUnlockRecord
  split
  case isFalse => exact .refl s
  case isTrue hin =>
    have hfree : ¬ (s.station i).fFLocked := fun hflag =>
      absurd (hown.file hflag ▸ hin) not_mem_nil
    have hrange : range pArea (s.station i) (.recUnlock n) = some (recRange pArea n) :=
      if_pos ⟨hg.shared, hfree⟩
    exact moves_rawLock hg hrange _ fun h =>
      h.unlockRecord hvalid hin fun hreliable => hg.unlocks hreliable _ rfl

omit hg in
theorem unlockAll_nil (hl : s.pLocksPos i = []) : hb_dbfUnlockAllRecords pArea answers s i = s := by
  rw [hb_dbfUnlockAllRecords, hl, update_eq_self_iff.mpr hl.symm]
  rfl

omit hg in
variable (pArea answers s i) in
theorem unlockAll_list : (hb_dbfUnlockAllRecords pArea answers s i).pLocksPos i = [] :=
  update_self _ _ _

theorem moves_lockFile (hl : s.pLocksPos i = []) :
    Moves pArea reliable i s (hb_dbfLockFile pArea answers s i).1 := by
  unfold hb_dbfLockFile
  split
  case isTrue => exact .refl s
  case isFalse hfree =>
    have hrange : range pArea (s.station i) .fileLock = some (fileRange pArea) :=
      if_pos ⟨hg.shared, hfree⟩
    have hlock := moves_rawLock hg hrange [] fun h => by
      rw [hl] at h
      refine h.file_lock rfl fun _ b hleft => ?_
      have hout : ¬ ((s.station i).fFLocked ∧ b ∈ fileRange pArea) := fun hfile => hfree hfile.1
      cases hanswer : answers .fileLock with
      | false =>
        rw [hanswer] at hleft
        exact .inr ⟨hleft, hout⟩
      | true =>
        rw [if_pos hanswer, changed] at hleft
        split at hleft
        case isTrue hfile => exact .inl ⟨hfile, rfl⟩
        case isFalse => exact .inr ⟨hleft, hout⟩
    rw [← hl, update_eq_self] at hlock
    rw [unlockAll_nil hl]
    exact hlock

theorem moves_unlockFile
    (hown : Own pArea reliable (s.station i) (s.os i) (s.pLocksPos i)) :
    Moves pArea reliable i s (hb_dbfUnlockFile pArea answers s i) := by
  unfold hb_dbfUnlockFile
  split
  case isFalse => exact .refl s
  case isTrue hflag =>
    have hrange : range pArea (s.station i) .fileUnlock = some (fileRange pArea) :=
      if_pos ⟨hg.shared, hflag⟩
    have hlist := hown.file hflag
    have hunlock := moves_rawLock hg hrange [] fun h => by
      rw [hlist] at h
      refine h.file_lock rfl fun hreliable b hleft => .inr ?_
      rw [if_pos (hg.unlocks hreliable _ rfl), changed] at hleft
      split at hleft
      case isTrue => exact absurd rfl hleft
      case isFalse hout => exact ⟨hleft, fun hfile => hout hfile.2⟩
    rw [← hlist, update_eq_self] at hunlock
    exact hunlock

theorem moves_header (hvalid : pArea.Valid)
    (haction : uiAction = .headerLock ∨ uiAction = .headerUnlock) :
    Moves pArea reliable i s (rawLock pArea answers s i uiAction) := by
  cases hr : range pArea (s.station i) uiAction with
  | none =>
    have hsame : rawLock pArea answers s i uiAction = s := by
      unfold rawLock hb_dbfRawLock
      rw [hr]
    rw [hsame]
    exact .refl s
  | some r =>
    have hheader : r = headerRange pArea := by
      rcases haction with rfl | rfl <;>
        exact (Option.some.inj (Option.ite_none_right_eq_some.mp hr).2).symm
    have hmoves := moves_rawLock hg hr (s.pLocksPos i) fun h => by
      rcases haction with rfl | rfl
      · exact hheader ▸ h.header hvalid _ _
      · exact hheader ▸ h.header hvalid _ _
    rw [update_eq_self] at hmoves
    exact hmoves

end Steps

/-- Every work area knows its own locks. -/
structure Listed (pArea : Table) (reliable : Prop) (s : Areas ι) : Prop where
  inv : Inv pArea s.toState
  own : ∀ i, Own pArea reliable (s.station i) (s.os i) (s.pLocksPos i)

theorem Listed.moves (h : Listed pArea reliable s) (hmoves : Moves pArea reliable i s s') :
    Listed pArea reliable s' := by
  refine ⟨hmoves.inv h.inv, fun j => ?_⟩
  by_cases hj : j = i
  · exact hj ▸ hmoves.own (h.own i)
  · obtain ⟨hstation, hos, hlist⟩ := hmoves.others j hj
    rw [hstation, hos, hlist]
    exact h.own j

theorem listed_of_reachable (hvalid : pArea.Valid) (hs : (workAreas ι pArea reliable).Reachable s) :
    Listed pArea reliable s := by
  apply hs.invariant
  · rintro s ⟨hos, hflags⟩
    refine ⟨⟨hos ▸ Locks.exclusive_free, fun i _ hflag => ?_⟩, fun i => ?_⟩
    · simp [(hflags i).1] at hflag
    · rw [(hflags i).2, hos]
      exact ⟨by simp, nodup_nil, fun _ => rfl, by simp,
        fun _ _ _ _ _ _ hne => absurd rfl hne⟩
  · rintro s s' h ⟨i, answers, hg, hstep⟩
    refine h.moves (i := i) ?_
    rcases hstep with ⟨ulRecNo, hn, rfl⟩ | ⟨ulRecNo, rfl⟩ | ⟨hl, rfl⟩ | rfl | rfl | rfl
    · exact moves_lockRecord hg hvalid hn
    · exact moves_unlockRecord hg hvalid (h.own i)
    · exact moves_lockFile hg hl
    · exact moves_unlockFile hg (h.own i)
    · exact moves_header hg hvalid (.inl rfl)
    · exact moves_header hg hvalid (.inr rfl)

theorem unlockRecord_station : (hb_dbfUnlockRecord pArea answers s i n).station = s.station := by
  unfold hb_dbfUnlockRecord rawLock hb_dbfRawLock
  split
  · dsimp only
    split
    · rfl
    · exact update_eq_self _ _
  · rfl

section Reached

variable (hs : (workAreas ι pArea reliable).Reachable s) (hg : Granted pArea answers s i reliable)

include hg

theorem granted_unlockRecord : Granted pArea answers (hb_dbfUnlockRecord pArea answers s i n) i
    reliable := by
  have hstation : (hb_dbfUnlockRecord pArea answers s i n).station = s.station :=
    unlockRecord_station
  refine ⟨hstation ▸ hg.shared, fun uiAction r hr hlocks hlck j hj b hfirst hlast m hm => ?_,
    hg.unlocks⟩
  have hos : (hb_dbfUnlockRecord pArea answers s i n).os j = s.os j := by
    unfold hb_dbfUnlockRecord
    split
    · exact (rawLock_others s.toState hj).2
    · rfl
  exact hg.enabled uiAction r (hstation ▸ hr) hlocks hlck j hj b hfirst hlast m (hos ▸ hm)

include hs

theorem reachable_unlockAll :
    (workAreas ι pArea reliable).Reachable (hb_dbfUnlockAllRecords pArea answers s i) ∧
      Granted pArea answers (hb_dbfUnlockAllRecords pArea answers s i) i reliable ∧
      (hb_dbfUnlockAllRecords pArea answers s i).station = s.station := by
  generalize hl : s.pLocksPos i = l
  induction l generalizing s with
  | nil => exact (unlockAll_nil hl).symm ▸ ⟨hs, hg, rfl⟩
  | cons n l ih =>
    have herase : hb_dbfUnlockRecord pArea answers s i n =
        { rawLock pArea answers s i (.recUnlock n) with pLocksPos := update s.pLocksPos i l } := by
      rw [hb_dbfUnlockRecord, hl, if_pos mem_cons_self, erase_cons_head]
    have hsteps : hb_dbfUnlockAllRecords pArea answers s i =
        hb_dbfUnlockAllRecords pArea answers (hb_dbfUnlockRecord pArea answers s i n) i := by
      simp only [herase, hb_dbfUnlockAllRecords, hl, update_self, update_idem]
      rfl
    obtain ⟨hreached, hg', hstation⟩ := ih
      (hs.step ⟨i, answers, hg, .inr (.inl ⟨n, rfl⟩)⟩) (granted_unlockRecord hg)
      (herase ▸ update_self _ _ _)
    exact hsteps ▸ ⟨hreached, hg', hstation.trans unlockRecord_station⟩

theorem reachable_lockRecord (bExclusive : Bool) (hn : Numbered pArea n) :
    (workAreas ι pArea reliable).Reachable
      (hb_dbfLockRecord pArea answers s i n bExclusive).1 := by
  cases bExclusive with
  | false => exact hs.step ⟨i, answers, hg, .inl ⟨n, hn, rfl⟩⟩
  | true =>
    by_cases hflag : (s.station i).fFLocked
    · rw [hb_dbfLockRecord, if_pos hflag]
      exact hs
    · obtain ⟨hs', hg', hstation⟩ := reachable_unlockAll hs hg
      have hlock := hs'.step ⟨i, answers, hg', .inl ⟨n, hn, rfl⟩⟩
      have hnew : hb_dbfIsLocked (hb_dbfUnlockAllRecords pArea answers s i) i n = false := by
        rw [hb_dbfIsLocked, unlockAll_list]
        rfl
      rw [hb_dbfLockRecord, hstation, if_neg hflag, hnew] at hlock
      rw [hb_dbfLockRecord, if_neg hflag]
      exact hlock

theorem reachable_lockFile : (workAreas ι pArea reliable).Reachable
    (hb_dbfLockFile pArea answers s i).1 := by
  by_cases hflag : (s.station i).fFLocked
  · rw [hb_dbfLockFile, if_pos hflag]
    exact hs
  · obtain ⟨hs', hg', hstation⟩ := reachable_unlockAll hs hg
    have hl := unlockAll_list pArea answers s i
    have hlock := hs'.step ⟨i, answers, hg', .inr (.inr (.inl ⟨hl, rfl⟩))⟩
    rw [hb_dbfLockFile, hstation, if_neg hflag, unlockAll_nil hl] at hlock
    rw [hb_dbfLockFile, if_neg hflag]
    exact hlock

theorem reachable_unLock : (workAreas ι pArea reliable).Reachable
    (hb_dbfUnLock pArea answers s i n) := by
  unfold hb_dbfUnLock
  rw [if_pos hg.shared]
  obtain ⟨s', hs', hreached, hg'⟩ : ∃ s', s' = (if s.pLocksPos i = [] then s
      else if n = 0 then hb_dbfUnlockAllRecords pArea answers s i
      else if hb_dbfIsLocked s i n then hb_dbfUnlockRecord pArea answers s i n else s) ∧
      (workAreas ι pArea reliable).Reachable s' ∧ Granted pArea answers s' i reliable := by
    refine ⟨_, rfl, ?_⟩
    split_ifs
    · exact ⟨hs, hg⟩
    · obtain ⟨hreached, hg', -⟩ := reachable_unlockAll hs hg
      exact ⟨hreached, hg'⟩
    · exact ⟨hs.step ⟨i, answers, hg, .inr (.inl ⟨n, rfl⟩)⟩, granted_unlockRecord hg⟩
    · exact ⟨hs, hg⟩
  simp only [← hs']
  split
  case isTrue => exact hreached.step ⟨i, answers, hg', .inr (.inr (.inr (.inl rfl)))⟩
  case isFalse => exact hreached

theorem reachable_lock (ulRecNo : Nat) (uiMethod : Method)
    (hn : Numbered pArea (uiMethod.record ulRecNo)) :
    (workAreas ι pArea reliable).Reachable (hb_dbfLock pArea answers s i ulRecNo uiMethod).1 := by
  unfold hb_dbfLock
  rw [if_pos hg.shared]
  cases uiMethod with
  | exclusive => exact reachable_lockRecord hs hg true hn
  | multiple itmRecID => exact reachable_lockRecord hs hg false hn
  | file => exact reachable_lockFile hs hg

end Reached

omit [DecidableEq ι] in
/-- A station that may change a record has locked its byte. -/
theorem Listed.goHot (h : Listed pArea reliable s) (hvalid : pArea.Valid) {fReadonly : Bool}
    (hshared : (s.station i).fShared) (hn : Numbered pArea n)
    (hnear : (s.station i).fFLocked → distance pArea n ≤ (hb_dbfLockData pArea).nFlSize)
    (hhot : hb_dbfGoHot s i fReadonly n) : ∀ b ∈ recRange pArea n, s.os i b = some .exclusive := by
  intro b hb
  by_cases hfile : (s.station i).fFLocked
  · exact h.inv.file i hshared hfile b ((rec_in_file_iff hvalid hn).mpr (hnear hfile) b hb)
  · simp only [hb_dbfGoHot, hb_dbfIsLocked, hshared, hfile, Bool.not_false, Bool.and_self,
      Bool.true_and, Bool.not_not, Bool.and_eq_true, contains_iff_mem] at hhot
    exact (h.own i).held n hhot.2 b hb

/-- A lock that is granted lets the record be changed. -/
theorem lock_goHot (s : Areas ι) (ulRecNo : Nat) (uiMethod : Method)
    (hresult : (hb_dbfLock pArea answers s i ulRecNo uiMethod).2 = true) :
    hb_dbfGoHot (hb_dbfLock pArea answers s i ulRecNo uiMethod).1 i false
      (uiMethod.record ulRecNo) = true := by
  have hrecord : ∀ n bExclusive, (hb_dbfLockRecord pArea answers s i n bExclusive).2 = true →
      hb_dbfGoHot (hb_dbfLockRecord pArea answers s i n bExclusive).1 i false n = true := by
    intro n bExclusive h
    unfold hb_dbfLockRecord at h ⊢
    dsimp only at h ⊢
    split_ifs at h ⊢ <;> simp_all [hb_dbfGoHot, hb_dbfIsLocked]
  unfold hb_dbfLock at hresult ⊢
  split_ifs at hresult ⊢ with hshared
  · cases uiMethod with
    | exclusive => exact hrecord _ _ hresult
    | multiple itmRecID => exact hrecord _ _ hresult
    | file =>
      unfold hb_dbfLockFile at hresult ⊢
      split_ifs at hresult ⊢ <;> simp_all [hb_dbfGoHot]
  · simp [hb_dbfGoHot, hshared]

/-- A work area lists the records that it has locked, none twice and none beside the lock of the
file, and at most one of two stations may change a record. Calls end in a state reached too. -/
theorem recordLocks_exclude (pArea : Table) (reliable : Prop) (hvalid : pArea.Valid) (s : Areas ι)
    (hs : (workAreas ι pArea reliable).Reachable s) :
    (∀ i, (s.pLocksPos i).Nodup ∧ ((s.station i).fFLocked → s.pLocksPos i = []) ∧
      ∀ n ∈ s.pLocksPos i, ∀ b ∈ recRange pArea n, s.os i b = some .exclusive) ∧
    (∀ i j n, i ≠ j → (s.station i).fShared → (s.station j).fShared → Numbered pArea n →
      ((s.station i).fFLocked ∨ (s.station j).fFLocked →
        distance pArea n ≤ (hb_dbfLockData pArea).nFlSize) →
      ∀ fReadonly fReadonly', hb_dbfGoHot s i fReadonly n → ¬ hb_dbfGoHot s j fReadonly' n) ∧
    (reliable → ∀ i, (s.station i).fShared → ¬ (s.station i).fFLocked → ∀ n, Numbered pArea n →
      (n ∈ s.pLocksPos i ↔ ∀ b ∈ recRange pArea n, s.os i b ≠ none)) ∧
    ∀ i answers, Granted pArea answers s i reliable → ∀ ulRecNo,
      (workAreas ι pArea reliable).Reachable (hb_dbfUnLock pArea answers s i ulRecNo) ∧
      (∀ bUnLockAll, Numbered pArea ulRecNo → (workAreas ι pArea reliable).Reachable
        (hb_dbfLockRecord pArea answers s i ulRecNo bUnLockAll).1) ∧
      ∀ uiMethod : Method, Numbered pArea (uiMethod.record ulRecNo) →
        (workAreas ι pArea reliable).Reachable (hb_dbfLock pArea answers s i ulRecNo uiMethod).1 ∧
        ((hb_dbfLock pArea answers s i ulRecNo uiMethod).2 = true →
          hb_dbfGoHot (hb_dbfLock pArea answers s i ulRecNo uiMethod).1 i false
            (uiMethod.record ulRecNo) = true) := by
  have h := listed_of_reachable hvalid hs
  have hfirst (n : Nat) : (recRange pArea n).first ∈ recRange pArea n := by
    refine ⟨le_rfl, Nat.lt_add_of_pos_right ?_⟩
    change 0 < (hb_dbfLockData pArea).nRlSize
    rw [nRlSize_eq]
    exact Nat.one_pos
  refine ⟨fun i => ⟨(h.own i).nodup, (h.own i).file, (h.own i).held⟩, ?_, ?_, ?_⟩
  · intro i j n hij hshared hshared' hn hnear fReadonly fReadonly' hhot hhot'
    have hlocked := h.goHot hvalid hshared hn (hnear ∘ .inl) hhot _ (hfirst n)
    have hlocked' := h.goHot hvalid hshared' hn (hnear ∘ .inr) hhot' _ (hfirst n)
    exact hij (h.inv.exclusive i j _ hlocked (by simp [hlocked']))
  · intro hreliable i hshared hfree n hn
    constructor
    · intro hin b hb
      simp [(h.own i).held n hin b hb]
    · intro hall
      have hlisted := (h.own i).listed hreliable hshared n hn _ (hfirst n) (hall _ (hfirst n))
      exact hlisted.resolve_right fun hfile => hfree hfile.1
  · intro i answers hg ulRecNo
    exact ⟨reachable_unLock hs hg, fun bUnLockAll hn => reachable_lockRecord hs hg bUnLockAll hn,
      fun uiMethod hn => ⟨reachable_lock hs hg ulRecNo uiMethod hn, lock_goHot s ulRecNo uiMethod⟩⟩

end Runs

def start : Areas Bool := ⟨⟨Locks.free, fun _ => ⟨true, false, false⟩⟩, fun _ => []⟩

def locked : Areas Bool := (hb_dbfLock clipperTable (fun _ => true) start true 1 .exclusive).1

theorem locked_reachable : (workAreas Bool clipperTable True).Reachable locked := by
  refine reachable_lock (.init ⟨rfl, fun _ => ⟨rfl, rfl⟩⟩) ⟨rfl, ?_, fun _ _ _ => rfl⟩ 1 .exclusive
    ⟨by decide, by decide, by decide⟩
  intro uiAction r hr hlocks hlck j hj b hfirst hlast m hm
  exact absurd hm (by simp [start, Locks.free])

theorem recordLocks_exclude_second :
    locked.pLocksPos true = [1] ∧ hb_dbfGoHot locked true false 1 ∧
      ¬ hb_dbfGoHot locked false false 1 := by
  have hhot : hb_dbfGoHot locked true false 1 := by decide
  refine ⟨rfl, hhot, ?_⟩
  exact (recordLocks_exclude clipperTable True clipperTable_valid locked locked_reachable).2.1
    true false 1 (by decide) rfl rfl ⟨by decide, by decide, by decide⟩
    (by decide) false false hhot

end Harbour.Rdd.DbfLocks
