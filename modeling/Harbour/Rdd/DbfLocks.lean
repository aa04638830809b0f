import Harbour.Library.RangeList
import Harbour.Library.Loops
import Mathlib.Tactic.Ring

/-!
The bytes that stations lock in a table, for the file, for its records and for its header.

File offsets have 64 bits.
-/

namespace Harbour.Rdd.DbfLocks

open Library.RangeLocks Library.Transitions Option Function

inductive LockType where
  | clipper
  | clipper2
  | comix
  | vfp
  | hb32
  | hb64
deriving DecidableEq

/-- `ulBits` is the number of the bits of `HB_ULONG`. -/
structure Table where
  bLockType : LockType
  fHasTags : Bool
  uiRecordLen : Nat
  uiHeaderLen : Nat
  ulBits : Nat

structure LockData where
  nPos : Nat
  nFlSize : Nat
  nRlSize : Nat
  iDir : Int

def hb_dbfLockData (pArea : Table) : LockData :=
  match pArea.bLockType with
  | .clipper => ⟨1000000000, 1000000000, 1, 1⟩
  | .clipper2 => ⟨4000000000, 294967295, 1, 1⟩
  | .comix => ⟨1000000000, 1000000000, 1, 1⟩
  | .vfp =>
    if pArea.fHasTags then ⟨0x7ffffffe, 0x07ffffff, 1, -1⟩ else ⟨0x40000000, 0x3ffffffd, 1, 2⟩
  | .hb32 => ⟨4000000000, 294967295, 1, 1⟩
  | .hb64 => ⟨0x7F00000000000000, 0xfffffffe, 1, 1⟩

inductive Action where
  | fileLock
  | fileUnlock
  | recLock (ulRecNo : Nat)
  | recUnlock (ulRecNo : Nat)
  | headerLock
  | headerUnlock

structure Range where
  first : Nat
  len : Nat

instance : Membership Nat Range := ⟨fun range b => range.first ≤ b ∧ b < range.first + range.len⟩

section Ranges

variable (pArea : Table)

def fileRange : Range :=
  let data := hb_dbfLockData pArea
  ⟨if data.iDir < 0 then data.nPos - data.nFlSize else data.nPos + 1, data.nFlSize⟩

/-- The byte of a record, whose number is positive. -/
def recRange (ulRecNo : Nat) : Range :=
  let data := hb_dbfLockData pArea
  let offset := ((ulRecNo - 1) * pArea.uiRecordLen + pArea.uiHeaderLen) % 2 ^ pArea.ulBits
  let nPos : Int :=
    if data.iDir < 0 then data.nPos - ulRecNo
    else if data.iDir = 2 then data.nPos + offset
    else data.nPos + ulRecNo
  ⟨(nPos % 2 ^ 64).toNat, data.nRlSize⟩

def headerRange : Range := ⟨(hb_dbfLockData pArea).nPos, 1⟩

end Ranges

structure Flags where
  fShared : Bool
  fFLocked : Bool
  fHeaderLocked : Bool

structure State (ι : Type*) where
  os : Locks ι
  station : ι → Flags

section Calls

variable {ι : Type*} [DecidableEq ι] (pArea : Table) (s : State ι) (i : ι)

def range (flags : Flags) : Action → Option Range
  | .fileLock => if flags.fShared ∧ ¬ flags.fFLocked then some (fileRange pArea) else none
  | .fileUnlock => if flags.fShared ∧ flags.fFLocked then some (fileRange pArea) else none
  | .recLock ulRecNo | .recUnlock ulRecNo =>
    if flags.fShared ∧ ¬ flags.fFLocked then some (recRange pArea ulRecNo) else none
  | .headerLock => if flags.fShared ∧ ¬ flags.fHeaderLocked then some (headerRange pArea) else none
  | .headerUnlock => if flags.fShared ∧ flags.fHeaderLocked then some (headerRange pArea) else none

def Action.locks : Action → Bool
  | .fileLock | .recLock _ | .headerLock => true
  | _ => false

def Flags.after (flags : Flags) (fLck : Bool) : Action → Flags
  | .fileLock => { flags with fFLocked := fLck }
  | .fileUnlock => { flags with fFLocked := false }
  | .headerLock => { flags with fHeaderLocked := fLck }
  | .headerUnlock => { flags with fHeaderLocked := false }
  | _ => flags

/-- `fLck` is what the operating system answers. -/
def hb_dbfRawLock (uiAction : Action) (fLck : Bool) : State ι :=
  match range pArea (s.station i) uiAction with
  | none => s
  | some range =>
    { os :=
        if fLck then
          if uiAction.locks then s.os.lock i range.first range.len .exclusive
          else s.os.unlock i range.first range.len
        else s.os
      station := update s.station i ((s.station i).after fLck uiAction) }

def Enabled (uiAction : Action) (fLck : Bool) : Prop :=
  ∀ r ∈ range pArea (s.station i) uiAction, uiAction.locks → fLck →
    s.os.Grantable i r.first r.len .exclusive

def stations (ι : Type*) [DecidableEq ι] : System (State ι) where
  init s := s.os = Locks.free ∧ ∀ i, (s.station i).fFLocked = false
  step s s' := ∃ i uiAction fLck, Enabled pArea s i uiAction fLck ∧
    s' = hb_dbfRawLock pArea s i uiAction fLck

end Calls

/-- How far the byte of a record is from the position of the scheme. -/
def distance (pArea : Table) (ulRecNo : Nat) : Nat :=
  if pArea.bLockType = .vfp ∧ pArea.fHasTags = false then
    (ulRecNo - 1) * pArea.uiRecordLen + pArea.uiHeaderLen
  else ulRecNo

/-- The numbers of records whose distance is an `HB_ULONG`. -/
structure Numbered (pArea : Table) (ulRecNo : Nat) : Prop where
  pos : 1 ≤ ulRecNo
  le : ulRecNo ≤ 2 ^ 32 - 2
  fits : distance pArea ulRecNo < 2 ^ pArea.ulBits

structure Table.Valid (pArea : Table) : Prop where
  record_pos : 1 ≤ pArea.uiRecordLen
  record_lt : pArea.uiRecordLen < 2 ^ 16
  header_pos : 1 ≤ pArea.uiHeaderLen
  header_lt : pArea.uiHeaderLen < 2 ^ 16
  bits : pArea.ulBits = 32 ∨ pArea.ulBits = 64

section Positions

variable {pArea : Table} {n n' b : Nat}

section

variable (hvalid : pArea.Valid)

include hvalid

theorem distance_fits (hbits : pArea.ulBits = 64) (hn : n ≤ 2 ^ 32 - 2) :
    distance pArea n < 2 ^ pArea.ulBits := by
  have hmul : (n - 1) * pArea.uiRecordLen ≤ 2 ^ 32 * 2 ^ 16 :=
    Nat.mul_le_mul (by omega) hvalid.record_lt.le
  have hheader := hvalid.header_lt
  rw [hbits, distance]
  split
  · omega
  · omega

theorem distance_pos (hn : Numbered pArea n) : 1 ≤ distance pArea n := by
  have hheader := hvalid.header_pos
  have hpos := hn.pos
  rw [distance]
  split
  · omega
  · exact hpos

theorem distance_lt (hn : Numbered pArea n) : distance pArea n < 2 ^ 49 := by
  have hmul : (n - 1) * pArea.uiRecordLen ≤ 2 ^ 32 * 2 ^ 16 :=
    Nat.mul_le_mul (by have := hn.le; omega) hvalid.record_lt.le
  have hheader := hvalid.header_lt
  have hle := hn.le
  rw [distance]
  split
  · omega
  · omega

theorem distance_inj (hn : Numbered pArea n) (hn' : Numbered pArea n')
    (h : distance pArea n = distance pArea n') : n = n' := by
  have hpos := hn.pos
  have hpos' := hn'.pos
  unfold distance at h
  split at h
  · have := Nat.eq_of_mul_eq_mul_right hvalid.record_pos (Nat.add_right_cancel h)
    omega
  · exact h

end

theorem nRlSize_eq (pArea : Table) : (hb_dbfLockData pArea).nRlSize = 1 := by
  unfold hb_dbfLockData
  split
  case h_4 => split <;> rfl
  all_goals rfl

theorem iDir_cases (pArea : Table) (n : Nat) :
    ((hb_dbfLockData pArea).iDir = -1 ∧ distance pArea n = n) ∨
    ((hb_dbfLockData pArea).iDir = 2 ∧
      distance pArea n = (n - 1) * pArea.uiRecordLen + pArea.uiHeaderLen) ∨
    ((hb_dbfLockData pArea).iDir = 1 ∧ distance pArea n = n) := by
  unfold hb_dbfLockData distance
  cases htype : pArea.bLockType with
  | vfp =>
    cases htags : pArea.fHasTags with
    | true => exact .inl ⟨rfl, rfl⟩
    | false => exact .inr (.inl ⟨rfl, rfl⟩)
  | _ => exact .inr (.inr ⟨rfl, rfl⟩)

theorem mem_recRange (hn : Numbered pArea n) :
    b ∈ recRange pArea n ↔ (b : Int) = (if (hb_dbfLockData pArea).iDir < 0 then
      (hb_dbfLockData pArea).nPos - distance pArea n
      else (hb_dbfLockData pArea).nPos + distance pArea n : Int) % 2 ^ 64 := by
  have hfits := hn.fits
  change _ ≤ b ∧ b < _ + _ ↔ _
  unfold recRange
  dsimp only
  rw [nRlSize_eq]
  rcases iDir_cases pArea n with ⟨hdir, hdist⟩ | ⟨hdir, hdist⟩ | ⟨hdir, hdist⟩
  · rw [hdir, hdist, if_pos (by decide), if_pos (by decide)]
    omega
  · rw [hdir, if_neg (by decide), if_pos rfl, if_neg (by decide)]
    rw [hdist] at hfits ⊢
    rw [Nat.mod_eq_of_lt hfits]
    omega
  · rw [hdir, hdist, if_neg (by decide), if_neg (by decide), if_neg (by decide)]
    omega

theorem scheme_bounds (pArea : Table) :
    (hb_dbfLockData pArea).nPos + (hb_dbfLockData pArea).nFlSize < 2 ^ 63 ∧
      (hb_dbfLockData pArea).nFlSize ≤ (hb_dbfLockData pArea).nPos ∧
      0 < (hb_dbfLockData pArea).nFlSize := by
  unfold hb_dbfLockData
  split
  case h_4 => split <;> decide
  all_goals decide

theorem mem_fileRange :
    b ∈ fileRange pArea ↔ ∃ d, 1 ≤ d ∧ d ≤ (hb_dbfLockData pArea).nFlSize ∧ (b : Int) =
      if (hb_dbfLockData pArea).iDir < 0 then ((hb_dbfLockData pArea).nPos : Int) - d
      else (hb_dbfLockData pArea).nPos + d := by
  obtain ⟨-, hle, -⟩ := scheme_bounds pArea
  change _ ≤ b ∧ b < _ + _ ↔ _
  unfold fileRange
  dsimp only
  split
  · constructor
    · intro h
      exact ⟨(hb_dbfLockData pArea).nPos - b, by omega, by omega, by omega⟩
    · rintro ⟨d, hpos, hd, hb⟩
      omega
  · constructor
    · intro h
      exact ⟨b - (hb_dbfLockData pArea).nPos, by omega, by omega, by omega⟩
    · rintro ⟨d, hpos, hd, hb⟩
      omega

theorem rec_in_file_iff (hvalid : pArea.Valid) (hn : Numbered pArea n) :
    (∀ b ∈ recRange pArea n, b ∈ fileRange pArea) ↔
      distance pArea n ≤ (hb_dbfLockData pArea).nFlSize := by
  obtain ⟨hlt, hle, -⟩ := scheme_bounds pArea
  have hfar := distance_lt hvalid hn
  have hnear := distance_pos hvalid hn
  constructor
  · intro h
    have hmem : ((if (hb_dbfLockData pArea).iDir < 0 then
          ((hb_dbfLockData pArea).nPos : Int) - distance pArea n
        else (hb_dbfLockData pArea).nPos + distance pArea n) % 2 ^ 64).toNat ∈
          recRange pArea n := by
      rw [mem_recRange hn]
      omega
    obtain ⟨d, hpos, hd, hb⟩ := mem_fileRange.mp (h _ hmem)
    split at hb
    · omega
    · omega
  · intro h b hb
    rw [mem_recRange hn] at hb
    refine mem_fileRange.mpr ⟨distance pArea n, hnear, h, ?_⟩
    split at hb
    · rw [if_pos ‹_›]
      omega
    · rw [if_neg ‹_›]
      omega

theorem rec_disjoint (hvalid : pArea.Valid) (hn : Numbered pArea n) (hn' : Numbered pArea n')
    (hb : b ∈ recRange pArea n) (hb' : b ∈ recRange pArea n') : n = n' := by
  have hfar := distance_lt hvalid hn
  have hfar' := distance_lt hvalid hn'
  rw [mem_recRange hn] at hb
  rw [mem_recRange hn'] at hb'
  refine distance_inj hvalid hn hn' ?_
  split at hb
  · rw [if_pos ‹_›] at hb'
    omega
  · rw [if_neg ‹_›] at hb'
    omega

theorem mem_headerRange : b ∈ headerRange pArea ↔ b = (hb_dbfLockData pArea).nPos :=
  ⟨fun h => Nat.le_antisymm (Nat.lt_succ_iff.mp h.2) h.1, fun h => ⟨h.ge, by
    rw [h]
    exact Nat.lt_succ_self _⟩⟩

theorem header_not_rec (hvalid : pArea.Valid) (hn : Numbered pArea n) (hb : b ∈ headerRange pArea) :
    b ∉ recRange pArea n := by
  have hfar := distance_lt hvalid hn
  have hnear := distance_pos hvalid hn
  rw [mem_headerRange.mp hb, mem_recRange hn]
  split
  · omega
  · omega

theorem header_not_file (hb : b ∈ headerRange pArea) : b ∉ fileRange pArea := by
  rw [mem_headerRange.mp hb, mem_fileRange]
  rintro ⟨d, hpos, -, heq⟩
  split at heq
  · omega
  · omega

end Positions

variable {fLck : Bool} {uiAction : Action} {r : Range}

section Runs

variable {ι : Type*} [DecidableEq ι] {pArea : Table} {s : State ι} {i j : ι} {n : Nat}

/-- The bytes of the file are locked by a station with the flag, and no byte by two stations. -/
structure Inv (pArea : Table) (s : State ι) : Prop where
  exclusive : s.os.Exclusive
  file : ∀ i, (s.station i).fShared → (s.station i).fFLocked →
    ∀ b ∈ fileRange pArea, s.os i b = some .exclusive

theorem rawLock_some (hr : range pArea (s.station i) uiAction = some r) :
    hb_dbfRawLock pArea s i uiAction fLck =
      { os := if fLck then if uiAction.locks then s.os.lock i r.first r.len .exclusive
          else s.os.unlock i r.first r.len else s.os
        station := update s.station i ((s.station i).after fLck uiAction) } := by
  unfold hb_dbfRawLock
  rw [hr]

theorem file_rawLock (h : Inv pArea s) (hr : range pArea (s.station i) uiAction = some r)
    (hshared : (s.station i).fShared) (hflag : ((s.station i).after fLck uiAction).fFLocked)
    {b : Nat} (hb : b ∈ fileRange pArea) :
    (hb_dbfRawLock pArea s i uiAction fLck).os i b = some .exclusive := by
  rw [rawLock_some hr]
  cases uiAction with
  | fileLock =>
    obtain ⟨-, rfl⟩ := ite_none_right_eq_some.mp hr |>.imp_right Option.some.inj
    change fLck = true at hflag
    rw [hflag]
    exact (Locks.lock_self b).trans (if_pos hb)
  | fileUnlock => exact nomatch hflag
  | recLock | recUnlock => exact absurd hflag (ite_none_right_eq_some.mp hr).1.2
  | headerLock =>
    have hold := h.file i hshared hflag b hb
    cases fLck with
    | false => exact hold
    | true =>
      refine (Locks.lock_self b).trans ?_
      split
      · rfl
      · exact hold
  | headerUnlock =>
    obtain ⟨-, rfl⟩ := ite_none_right_eq_some.mp hr |>.imp_right Option.some.inj
    have hold := h.file i hshared hflag b hb
    cases fLck with
    | false => exact hold
    | true =>
      refine (Locks.unlock_self b).trans (Eq.trans (if_neg fun hin => ?_) hold)
      exact header_not_file hin hb

theorem inv_rawLock (h : Inv pArea s) (henabled : Enabled pArea s i uiAction fLck) :
    Inv pArea (hb_dbfRawLock pArea s i uiAction fLck) := by
  cases hr : range pArea (s.station i) uiAction with
  | none =>
    unfold hb_dbfRawLock
    rw [hr]
    exact h
  | some r =>
    constructor
    · rw [rawLock_some hr]
      split_ifs with hlck hlocks
      · exact h.exclusive.lock (henabled r hr hlocks hlck)
      · exact h.exclusive.unlock
      · exact h.exclusive
    · intro k hshared hflag b hb
      by_cases hk : k = i
      · subst hk
        rw [rawLock_some hr] at hshared hflag
        simp only [update_self] at hshared hflag
        refine file_rawLock h hr ?_ hflag hb
        cases uiAction <;> exact hshared
      · rw [rawLock_some hr] at hshared hflag ⊢
        simp only [update_of_ne hk] at hshared hflag
        have hold := h.file k hshared hflag b hb
        split_ifs
        · exact (congrFun (Locks.lock_other hk) b).trans hold
        · exact (congrFun (Locks.unlock_other hk) b).trans hold
        · exact hold

theorem inv_of_reachable (h : (stations pArea ι).Reachable s) : Inv pArea s := by
  apply h.invariant
  · rintro s ⟨hos, hflags⟩
    refine ⟨hos ▸ Locks.exclusive_free, fun i _ hflag => ?_⟩
    rw [hflags i] at hflag
    exact nomatch hflag
  · rintro s s' hs ⟨i, uiAction, fLck, henabled, rfl⟩
    exact inv_rawLock hs henabled

theorem file_excludes (hvalid : pArea.Valid) (hs : (stations pArea ι).Reachable s)
    (hshared : (s.station i).fShared) (hflag : (s.station i).fFLocked) (hj : j ≠ i)
    (hn : Numbered pArea n) (hnear : distance pArea n ≤ (hb_dbfLockData pArea).nFlSize) :
    (∀ b ∈ recRange pArea n, s.os j b = none) ∧
      ((s.station j).fShared → ¬ Enabled pArea s j (.recLock n) true) := by
  have hinv := inv_of_reachable hs
  have hlocked := fun b hb =>
    hinv.file i hshared hflag b ((rec_in_file_iff hvalid hn).mpr hnear b hb)
  have hnone : ∀ b ∈ recRange pArea n, s.os j b = none := fun b hb =>
    by_contra fun hne => hj (hinv.exclusive i j b (hlocked b hb) hne).symm
  have hfirst : (recRange pArea n).first ∈ recRange pArea n := by
    refine ⟨le_rfl, ?_⟩
    unfold recRange
    dsimp only
    rw [nRlSize_eq]
    exact Nat.lt_succ_self _
  refine ⟨hnone, fun hsharedj henabled => ?_⟩
  have hfree : ¬ (s.station j).fFLocked := fun hflagj => by
    have hfile := (rec_in_file_iff hvalid hn).mpr hnear _ hfirst
    exact nomatch (hnone _ hfirst).symm.trans (hinv.file j hsharedj hflagj _ hfile)
  have hgrant := henabled (recRange pArea n) (if_pos ⟨hsharedj, hfree⟩) rfl rfl
  exact nomatch (hgrant i hj.symm _ hfirst.1 hfirst.2 _ (hlocked _ hfirst)).1

end Runs

/-- What the locks of a table are for; `near` tells of a record that its byte is one of those that
the lock of the file holds. -/
structure Excludes (pArea : Table) (near : Nat → Prop) : Prop where
  contains : ∀ n, Numbered pArea n → ((∀ b ∈ recRange pArea n, b ∈ fileRange pArea) ↔ near n)
  disjoint : ∀ n n', Numbered pArea n → Numbered pArea n' →
    ∀ b ∈ recRange pArea n, b ∈ recRange pArea n' → n = n'
  header : ∀ n, Numbered pArea n → ∀ b ∈ headerRange pArea,
    b ∉ recRange pArea n ∧ b ∉ fileRange pArea
  excludes : ∀ (ι : Type) [DecidableEq ι] (s : State ι), (stations pArea ι).Reachable s →
    ∀ i, (s.station i).fShared → (s.station i).fFLocked → ∀ j ≠ i, ∀ n, Numbered pArea n → near n →
      (∀ b ∈ recRange pArea n, s.os j b = none) ∧
        ((s.station j).fShared → ¬ Enabled pArea s j (.recLock n) true)

/-- The lock of the file holds the records whose distance is at most its length, which are all in
the scheme `hb64`. Where `HB_ULONG` has 64 bits every number has a distance. -/
theorem locks_exclude (pArea : Table) (hvalid : pArea.Valid) :
    Excludes pArea (fun n => distance pArea n ≤ (hb_dbfLockData pArea).nFlSize) ∧
      (pArea.bLockType = .hb64 → Excludes pArea fun _ => True) ∧
      (pArea.ulBits = 64 → ∀ n, 1 ≤ n → n ≤ 2 ^ 32 - 2 → Numbered pArea n) := by
  have h : Excludes pArea (fun n => distance pArea n ≤ (hb_dbfLockData pArea).nFlSize) :=
    ⟨fun _ hn => rec_in_file_iff hvalid hn,
      fun _ _ hn hn' _ hb hb' => rec_disjoint hvalid hn hn' hb hb',
      fun _ hn _ hb => ⟨header_not_rec hvalid hn hb, header_not_file hb⟩,
      fun _ _ _ hs _ hshared hflag _ hj _ hn hnear =>
        file_excludes hvalid hs hshared hflag hj hn hnear⟩
  refine ⟨h, fun htype => ?_, fun hbits n hpos hle => ⟨hpos, hle, distance_fits hvalid hbits hle⟩⟩
  have hall : ∀ n, Numbered pArea n → distance pArea n ≤ (hb_dbfLockData pArea).nFlSize := by
    intro n hn
    have hle := hn.le
    rw [distance, if_neg (by simp [htype]), hb_dbfLockData, htype]
    exact hle
  refine ⟨fun n hn => (h.contains n hn).trans (iff_true_intro (hall n hn)), h.disjoint, h.header,
    fun ι _ s hs i hshared hflag j hj n hn _ => ?_⟩
  exact h.excludes ι s hs i hshared hflag j hj n hn (hall n hn)

def clipperTable : Table := ⟨.clipper, false, 1, 33, 64⟩

theorem clipperTable_valid : clipperTable.Valid :=
  ⟨by decide, by decide, by decide, by decide, .inr rfl⟩

theorem locks_exclude_clipper :
    Excludes clipperTable
        (fun n => distance clipperTable n ≤ (hb_dbfLockData clipperTable).nFlSize) ∧
      (clipperTable.bLockType = .hb64 → Excludes clipperTable fun _ => True) ∧
      (clipperTable.ulBits = 64 → ∀ n, 1 ≤ n → n ≤ 2 ^ 32 - 2 → Numbered clipperTable n) :=
  locks_exclude clipperTable clipperTable_valid

/-- The record 1000000001 lies behind the bytes that are locked with the file. -/
theorem clipper_record_behind :
    ¬ ∀ pArea : Table, pArea.Valid → Excludes pArea fun _ => True := by
  intro h
  have hn : Numbered clipperTable 1000000001 := ⟨by decide, by decide, by decide⟩
  have hin := ((h clipperTable clipperTable_valid).contains _ hn).mpr trivial
  exact absurd ((rec_in_file_iff clipperTable_valid hn).mp hin) (by decide)

end Harbour.Rdd.DbfLocks
