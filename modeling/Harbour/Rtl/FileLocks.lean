import Harbour.Library.BinarySearch
import Harbour.Library.RangeList
import Mathlib

/-!
The table of record locks that a file keeps for the files of its own process.
-/

namespace Harbour.Rtl.FileLocks

open Library.BinarySearch Library.RangeList

def foffset (n : Int) : Int := (n + 2 ^ 63) % 2 ^ 64 - 2 ^ 63

structure HbFlock where
  start : Int
  len : Int
  deriving DecidableEq, Repr, Inhabited

/-- The number of locks is the length of `pLocks`, `uiSize` the number of them that fit in
the memory allocated. -/
structure HbFile where
  shared : Bool
  pLocks : List HbFlock
  uiSize : Nat
  deriving DecidableEq, Repr

def flockResize : Nat := 16

namespace HbFile

variable (file : HbFile)

def lock (uiPos : Nat) : HbFlock := file.pLocks.getD uiPos default

def setLen (uiPos : Nat) (len : Int) : HbFile :=
  { file with pLocks := file.pLocks.set uiPos { file.lock uiPos with len } }

/-- The first lock that does not end at the offset or before. An end that is not positive has
wrapped: such a lock has none. -/
def findOffset (nOffset : Int) : Nat :=
  partitionPoint (fun uiMiddle =>
    let nEnd := foffset ((file.lock uiMiddle).start + (file.lock uiMiddle).len)
    decide (nEnd > 0) && decide (nEnd ≤ nOffset)) 0 file.pLocks.length

def insertLock (uiPos : Nat) (nStart nLen : Int) : HbFile :=
  { file with
    pLocks := file.pLocks.insertIdx uiPos ⟨nStart, nLen⟩
    uiSize := if file.pLocks.length = file.uiSize then file.uiSize + flockResize else file.uiSize }

def deleteLock (uiPos : Nat) : HbFile :=
  let uiLocks := file.pLocks.length - 1
  { file with
    pLocks := file.pLocks.eraseIdx uiPos
    uiSize := if file.uiSize - uiLocks ≥ 2 * flockResize then file.uiSize - flockResize
      else file.uiSize }

/-- The answer, whether `pfLockFS` is set, and the file afterwards. -/
def setLock (nStart nLen : Int) : Bool × Bool × HbFile :=
  let uiPos := file.findOffset nStart
  let nEnd := foffset (nStart + nLen)
  let right := decide (uiPos < file.pLocks.length)
  if right && (decide (nEnd ≤ 0) || decide (nEnd > (file.lock uiPos).start)) then
    (false, false, file)
  else
    let fRJoin := right && decide (nEnd = (file.lock uiPos).start)
    let fLJoin := decide (uiPos > 0) &&
      decide (foffset ((file.lock (uiPos - 1)).start + (file.lock (uiPos - 1)).len) = nStart)
    let file' :=
      if fLJoin then
        let pLock := file.lock (uiPos - 1)
        if fRJoin then
          (file.setLen (uiPos - 1)
            (foffset (pLock.len + foffset (nLen + (file.lock uiPos).len)))).deleteLock uiPos
        else file.setLen (uiPos - 1) (foffset (pLock.len + nLen))
      else if fRJoin then
        let pLock := file.lock uiPos
        { file with
          pLocks := file.pLocks.set uiPos
            ⟨foffset (pLock.start - nLen), foffset (pLock.len + nLen)⟩ }
      else file.insertLock uiPos nStart nLen
    (true, file.shared, file')

/-- `pfLockFS` says whether the caller passes a place for the flag: the lock is then left to
the file system when the file is shared. -/
def unlock (pfLockFS : Bool) (nStart nLen : Int) : Bool × Bool × HbFile :=
  let uiPos := file.findOffset nStart
  let pLock := file.lock uiPos
  if uiPos < file.pLocks.length ∧ nStart ≥ pLock.start ∧ pLock.len ≥ nLen ∧
      nStart - pLock.start ≤ pLock.len - nLen then
    if pfLockFS && file.shared then (true, true, file)
    else
      let file' :=
        if nStart = pLock.start then
          if nLen = pLock.len then file.deleteLock uiPos
          else
            { file with
              pLocks := file.pLocks.set uiPos
                ⟨foffset (pLock.start + nLen), foffset (pLock.len - nLen)⟩ }
        else if foffset (nStart + nLen) = foffset (pLock.start + pLock.len) then
          file.setLen uiPos (foffset (pLock.len - nLen))
        else
          (file.insertLock (uiPos + 1) (foffset (nStart + nLen))
            (foffset (pLock.start + pLock.len - nStart - nLen))).setLen uiPos
              (foffset (nStart - pLock.start))
      (true, false, file')
  else (false, false, file)

def testLock (nStart nLen : Int) : Bool :=
  let uiPos := file.findOffset nStart
  let nEnd := foffset (nStart + nLen)
  decide (uiPos < file.pLocks.length) &&
    (decide (nEnd ≤ 0) || decide (nEnd > (file.lock uiPos).start))

end HbFile

end Harbour.Rtl.FileLocks

/-!
The lock table as a set of offsets: setting a lock adds a range to it, unlocking takes one away.
-/

namespace Harbour.Rtl.FileLocks

open Library.BinarySearch Library.RangeList

variable {n : Int} {l q : HbFlock} {after before locks : List HbFlock} {file : HbFile}

namespace HbFlock

def past (l : HbFlock) : Int := l.start + l.len

/-- The offsets locked: a lock whose end is not an offset has no end. -/
def range (l : HbFlock) : Range Int :=
  ⟨l.start, if 2 ^ 63 ≤ l.past then ⊤ else (l.past : WithTop Int)⟩

structure Proper (l : HbFlock) : Prop where
  start_nonneg : 0 ≤ l.start
  start_lt : l.start < 2 ^ 63
  len_pos : 0 < l.len
  len_lt : l.len < 2 ^ 63

theorem range_holds_iff :
    l.range.Holds n ↔ l.start ≤ n ∧ (n < l.past ∨ 2 ^ 63 ≤ l.past) := by
  unfold range Range.Holds
  split_ifs with h
  · exact and_congr_right fun _ => ⟨fun _ => .inr h, fun _ => WithTop.coe_lt_top n⟩
  · rw [WithTop.coe_lt_coe, or_iff_left h]

theorem range_nonempty (h : 0 < l.len) :
    ((l.range.first : Int) : WithTop Int) < l.range.past := by
  unfold range past
  dsimp only
  split_ifs with hinf
  · exact WithTop.coe_lt_top _
  · exact WithTop.coe_lt_coe.mpr (by omega)

theorem range_gap_iff {s : HbFlock} (h : s.start < 2 ^ 63) :
    l.range.past < s.range.first ↔ l.past < s.start := by
  unfold range
  dsimp only
  split_ifs with hinf
  · exact ⟨fun htop => absurd htop not_top_lt, fun hlt => by omega⟩
  · exact WithTop.coe_lt_coe

theorem range_within_iff :
    q.range.past ≤ l.range.past ↔ 2 ^ 63 ≤ l.past ∨ q.past ≤ l.past := by
  unfold range
  split_ifs with hq hl hl
  · exact iff_of_true (le_refl _) (.inl hl)
  · exact iff_of_false (fun htop => absurd (top_le_iff.mp htop) (WithTop.coe_ne_top)) (by omega)
  · exact iff_of_true le_top (.inl hl)
  · rw [WithTop.coe_le_coe]
    omega

end HbFlock

open HbFlock

/-- The locks are ranges of offsets in order, with a gap between any two of them. -/
structure WellFormed (locks : List HbFlock) : Prop where
  proper : ∀ l ∈ locks, l.Proper
  separated : Separated (locks.map HbFlock.range)

def Locked (locks : List HbFlock) (n : Int) : Prop := Covered (locks.map HbFlock.range) n

def Meets (locks : List HbFlock) (q : HbFlock) : Prop := ∃ n, q.range.Holds n ∧ Locked locks n

def Within (locks : List HbFlock) (q : HbFlock) : Prop := ∀ n, q.range.Holds n → Locked locks n

theorem locked_iff :
    Locked locks n ↔ ∃ l ∈ locks, l.range.Holds n := by
  simp only [Locked, Covered, List.mem_map, exists_exists_and_eq_and]

@[simp]
theorem locked_append (locks locks' : List HbFlock) (n : Int) :
    Locked (locks ++ locks') n ↔ Locked locks n ∨ Locked locks' n := by
  simp only [Locked, List.map_append, covered_append]

@[simp]
theorem locked_cons (l : HbFlock) (locks : List HbFlock) (n : Int) :
    Locked (l :: locks) n ↔ l.range.Holds n ∨ Locked locks n := by
  simp only [Locked, List.map_cons, covered_cons]

@[simp]
theorem locked_nil (n : Int) : ¬ Locked [] n := covered_nil n

section Table

variable (h : WellFormed locks)

include h

theorem WellFormed.gap : locks.Pairwise fun l s => l.past < s.start := by
  have hgap := List.pairwise_map.mp h.separated.gap
  exact hgap.imp_of_mem fun _ hs hlt => (range_gap_iff (h.proper _ hs).start_lt).mp hlt

theorem meets_iff (hq : q.Proper) :
    Meets locks q ↔ ∃ l ∈ locks, l.start < q.past ∧ q.start < l.past := by
  obtain ⟨hq0, hq63, hqlen, -⟩ := hq
  constructor
  · rintro ⟨n, hn, hlocked⟩
    obtain ⟨l, hl, hln⟩ := locked_iff.mp hlocked
    obtain ⟨hl0, hl63, hllen, -⟩ := h.proper l hl
    rw [range_holds_iff] at hn hln
    exact ⟨l, hl, by omega, by omega⟩
  · rintro ⟨l, hl, hlt, hlt'⟩
    obtain ⟨hl0, hl63, hllen, -⟩ := h.proper l hl
    have hqlt : q.start < q.past := by unfold past; omega
    have hllt : l.start < l.past := by unfold past; omega
    refine ⟨max l.start q.start, ?_, locked_iff.mpr ⟨l, hl, ?_⟩⟩
    · rw [range_holds_iff]
      omega
    · rw [range_holds_iff]
      omega

theorem within_iff (hq : q.Proper) :
    Within locks q ↔ ∃ l ∈ locks, l.start ≤ q.start ∧ (2 ^ 63 ≤ l.past ∨ q.past ≤ l.past) := by
  have hall := h.separated.all_covered_iff (range_nonempty hq.len_pos)
  simp only [List.mem_map, exists_exists_and_eq_and, range_within_iff] at hall
  exact hall

end Table

theorem wellFormed_of_gap (hproper : ∀ l ∈ locks, l.Proper)
    (hgap : locks.Pairwise fun l s => l.past < s.start) : WellFormed locks := by
  refine ⟨hproper, ?_, List.pairwise_map.mpr ?_⟩
  · intro r hr
    obtain ⟨l, hl, rfl⟩ := List.mem_map.mp hr
    exact range_nonempty (hproper l hl).len_pos
  · exact hgap.imp_of_mem fun _ hs hlt => (range_gap_iff (hproper _ hs).start_lt).mpr hlt

theorem WellFormed.replace {mid mid' : List HbFlock} (h : WellFormed (before ++ mid ++ after))
    (hmid : WellFormed mid') (hbefore : ∀ l ∈ before, ∀ s ∈ mid', l.past < s.start)
    (hafter : ∀ l ∈ mid', ∀ s ∈ after, l.past < s.start) :
    WellFormed (before ++ mid' ++ after) := by
  refine ⟨fun l hl => ?_, ?_⟩
  · rcases List.mem_append.mp hl with hl | hl
    · rcases List.mem_append.mp hl with hl | hl
      · exact h.proper l (by simp [hl])
      · exact hmid.proper l hl
    · exact h.proper l (by simp [hl])
  · have hsep := h.separated
    rw [List.map_append, List.map_append] at hsep ⊢
    refine hsep.replace hmid.separated ?_ ?_
    · intro r hr r' hr'
      obtain ⟨l, hl, rfl⟩ := List.mem_map.mp hr
      obtain ⟨s, hs, rfl⟩ := List.mem_map.mp hr'
      exact (range_gap_iff (hmid.proper s hs).start_lt).mpr (hbefore l hl s hs)
    · intro r hr r' hr'
      obtain ⟨l, hl, rfl⟩ := List.mem_map.mp hr
      obtain ⟨s, hs, rfl⟩ := List.mem_map.mp hr'
      exact (range_gap_iff (h.proper s (by simp [hs])).start_lt).mpr (hafter l hl s hs)

theorem foffset_of_lt (h0 : 0 ≤ n) (h : n < 2 ^ 63) : foffset n = n := by
  unfold foffset
  omega

theorem findOffset_split (h : WellFormed file.pLocks) (hn : n < 2 ^ 63) :
    ∃ before after, file.pLocks = before ++ after ∧ file.findOffset n = before.length ∧
      (∀ l ∈ before, l.past ≤ n) ∧ ∀ l ∈ after, n < l.past := by
  -- what the test of the bisection says of the lock there
  have htest : ∀ i (hi : i < file.pLocks.length),
      (decide (foffset ((file.lock i).start + (file.lock i).len) > 0) &&
        decide (foffset ((file.lock i).start + (file.lock i).len) ≤ n)) = true ↔
      file.pLocks[i].past ≤ n := by
    intro i hi
    have hlock : file.lock i = file.pLocks[i] := by
      simp only [HbFile.lock, List.getD, List.getElem?_eq_getElem hi, Option.getD_some]
    obtain ⟨h0, h63, hpos, hlt⟩ := h.proper _ (List.getElem_mem hi)
    rw [hlock, Bool.and_eq_true, decide_eq_true_eq, decide_eq_true_eq]
    unfold foffset past
    omega
  have hle : file.findOffset n ≤ file.pLocks.length := partitionPoint_le _ (Nat.zero_le _)
  obtain ⟨hbefore, hafter⟩ := partitionPoint_located (fun i =>
    decide (foffset ((file.lock i).start + (file.lock i).len) > 0) &&
      decide (foffset ((file.lock i).start + (file.lock i).len) ≤ n)) (n := file.pLocks.length)
    (fun i j hij hj hpassed => by
      rw [htest j hj] at hpassed
      rw [htest i (by omega)]
      have hgap := List.pairwise_iff_getElem.mp h.gap i j (by omega) hj hij
      have hpos := (h.proper _ (List.getElem_mem hj)).len_pos
      unfold past at hgap hpassed ⊢
      omega)
    (Nat.zero_le _) (le_refl _) (by simp) (by omega)
  refine ⟨file.pLocks.take (file.findOffset n), file.pLocks.drop (file.findOffset n),
    (List.take_append_drop _ _).symm, ?_, ?_, ?_⟩
  · rw [List.length_take, Nat.min_eq_left hle]
  · intro l hl
    obtain ⟨i, hi, rfl⟩ := List.getElem_of_mem hl
    rw [List.getElem_take]
    rw [List.length_take] at hi
    have hlt : i < file.findOffset n := by omega
    exact (htest i (by omega)).mp (hbefore i hlt)
  · intro l hl
    obtain ⟨i, hi, rfl⟩ := List.getElem_of_mem hl
    rw [List.getElem_drop]
    rw [List.length_drop] at hi
    have hfail := hafter (file.findOffset n + i) (Nat.le_add_right _ _) (by omega)
    rw [Bool.eq_false_iff, Ne, htest _ (by omega)] at hfail
    exact Int.not_le.mp hfail

theorem lock_at (h : file.pLocks = before ++ l :: after) : file.lock before.length = l := by
  simp [HbFile.lock, h]

theorem insertLock_at (h : file.pLocks = before ++ after) (nStart nLen : Int) :
    (file.insertLock before.length nStart nLen).pLocks = before ++ ⟨nStart, nLen⟩ :: after := by
  unfold HbFile.insertLock
  dsimp only
  rw [h]
  clear h
  induction before with
  | nil => rfl
  | cons l before ih => rw [List.cons_append, List.length_cons, List.insertIdx_succ_cons, ih,
      List.cons_append]

theorem deleteLock_at (h : file.pLocks = before ++ l :: after) :
    (file.deleteLock before.length).pLocks = before ++ after := by
  unfold HbFile.deleteLock
  rw [h, List.eraseIdx_append_of_length_le (le_refl _)]
  simp

theorem set_at (before after : List HbFlock) (l l' : HbFlock) :
    (before ++ l :: after).set before.length l' = before ++ l' :: after := by
  simp

/-- A lock just before the range requested, one just behind it, and the others. -/
structure Neighbours (locks : List HbFlock) (q : HbFlock) (before : List HbFlock)
    (left right : Option HbFlock) (after : List HbFlock) : Prop where
  parts : locks = before ++ (left.toList ++ right.toList) ++ after
  before_lt : ∀ l ∈ before, l.past < q.start
  left_past : ∀ l ∈ left, l.past = q.start
  right_start : ∀ l ∈ right, l.start = q.past
  after_gt : ∀ l ∈ after, q.past < l.start

def joined (q : HbFlock) (left right : Option HbFlock) : HbFlock :=
  ⟨left.elim q.start HbFlock.start,
    left.elim 0 HbFlock.len + q.len + right.elim 0 HbFlock.len⟩

section

variable (hq : q.Proper) (hl : l.Proper)

include hq hl

theorem end_gt_iff :
    foffset (q.start + q.len) ≤ 0 ∨ foffset (q.start + q.len) > l.start ↔ l.start < q.past := by
  obtain ⟨hq0, hq63, hqlen, hqlt⟩ := hq
  obtain ⟨hl0, hl63, -, -⟩ := hl
  unfold foffset past
  omega

theorem end_eq_iff (hle : q.past ≤ l.start) :
    foffset (q.start + q.len) = l.start ↔ l.start = q.past := by
  obtain ⟨hq0, hq63, hqlen, hqlt⟩ := hq
  obtain ⟨hl0, hl63, -, -⟩ := hl
  unfold past at hle ⊢
  unfold foffset
  omega

theorem past_eq_iff : foffset (l.start + l.len) = q.start ↔ l.past = q.start := by
  obtain ⟨hq0, hq63, hqlen, hqlt⟩ := hq
  obtain ⟨hl0, hl63, hllen, hllt⟩ := hl
  unfold foffset past
  omega

end

section Set

variable (h : WellFormed file.pLocks) (hq : q.Proper)

include h hq

theorem meets_of_split (hparts : file.pLocks = before ++ after)
    (hbefore : ∀ l ∈ before, l.past ≤ q.start) (hafter : ∀ l ∈ after, q.start < l.past) :
    Meets file.pLocks q ↔ ∃ l rest, after = l :: rest ∧ l.start < q.past := by
  rw [meets_iff h hq]
  constructor
  · rintro ⟨l, hl, hlt, hlt'⟩
    rw [hparts] at hl
    rcases List.mem_append.mp hl with hl | hl
    · exact absurd (hbefore l hl) (not_le_of_gt hlt')
    cases after with
    | nil => exact absurd hl List.not_mem_nil
    | cons first rest =>
      refine ⟨first, rest, rfl, ?_⟩
      rcases List.mem_cons.mp hl with rfl | hrest
      · exact hlt
      · have hgap := h.gap
        rw [hparts] at hgap
        have hfirst := (List.pairwise_cons.mp (List.pairwise_append.mp hgap).2.1).1 l hrest
        have hpos := (h.proper first (by simp [hparts])).len_pos
        unfold past at hfirst
        omega
  · rintro ⟨l, rest, rfl, hlt⟩
    exact ⟨l, by simp [hparts], hlt, hafter l (by simp)⟩

theorem setLock_of_meets (hmeets : Meets file.pLocks q) :
    file.setLock q.start q.len = (false, false, file) := by
  obtain ⟨before, after, hparts, hpos, hbefore, hafter⟩ := findOffset_split h hq.start_lt
  obtain ⟨l, rest, rfl, hlt⟩ := (meets_of_split h hq hparts hbefore hafter).mp hmeets
  have hl : l.Proper := h.proper l (by simp [hparts])
  have hend := (end_gt_iff hq hl).mpr hlt
  have hin : before.length < file.pLocks.length := by simp [hparts]
  unfold HbFile.setLock
  simp only [hpos, lock_at hparts, hin, decide_true, Bool.true_and, Bool.or_eq_true,
    decide_eq_true_eq]
  rw [if_pos hend]

section

variable (hparts : file.pLocks = before ++ after)

include hparts

theorem left_neighbour (hbefore : ∀ l ∈ before, l.past ≤ q.start) :
    ∃ (others : List HbFlock) (left : Option HbFlock), before = others ++ left.toList ∧
      (∀ l ∈ others, l.past < q.start) ∧ (∀ l ∈ left, l.past = q.start) ∧
      (decide (before.length > 0) && decide (foffset ((file.lock (before.length - 1)).start +
        (file.lock (before.length - 1)).len) = q.start)) = left.isSome := by
  rcases List.eq_nil_or_concat before with rfl | ⟨others, l, rfl⟩
  · exact ⟨[], none, rfl, by simp, by simp, rfl⟩
  rw [List.concat_eq_append] at hparts hbefore ⊢
  rw [List.append_assoc, List.singleton_append] at hparts
  have hl : l.Proper := h.proper l (by simp [hparts])
  have hgap := h.gap
  rw [hparts] at hgap
  have hothers : ∀ s ∈ others, s.past < q.start := by
    intro s hs
    have hlt := (List.pairwise_append.mp hgap).2.2 s hs l (by simp)
    have hle := hbefore l (by simp)
    have hpos := hl.len_pos
    unfold past at hlt hle ⊢
    omega
  have hlast : (others ++ [l]).length - 1 = others.length := by simp
  have hends : decide (foffset (l.start + l.len) = q.start) = decide (l.past = q.start) :=
    decide_eq_decide.mpr (past_eq_iff hq hl)
  rw [hlast, lock_at hparts, hends]
  by_cases hjoin : l.past = q.start
  · exact ⟨others, some l, rfl, hothers, by simp [hjoin], by simp [hjoin]⟩
  · refine ⟨others ++ [l], none, by simp, fun s hs => ?_, by simp, by simp [hjoin]⟩
    rcases List.mem_append.mp hs with hs | hs
    · exact hothers s hs
    · rw [List.mem_singleton.mp hs]
      exact lt_of_le_of_ne (hbefore l (by simp)) hjoin

theorem right_neighbour (hfree : ¬ ∃ l rest, after = l :: rest ∧ l.start < q.past) :
    ∃ (right : Option HbFlock) (others : List HbFlock), after = right.toList ++ others ∧
      (∀ l ∈ right, l.start = q.past) ∧ (∀ l ∈ others, q.past < l.start) ∧
      (decide (before.length < file.pLocks.length) &&
        decide (foffset (q.start + q.len) = (file.lock before.length).start)) = right.isSome := by
  cases after with
  | nil => exact ⟨none, [], rfl, by simp, by simp, by simp [hparts]⟩
  | cons l rest =>
    have hl : l.Proper := h.proper l (by simp [hparts])
    have hle : q.past ≤ l.start := Int.not_lt.mp fun hlt => hfree ⟨l, rest, rfl, hlt⟩
    have hrest : ∀ s ∈ rest, q.past < s.start := by
      intro s hs
      have hgap := h.gap
      rw [hparts] at hgap
      have hlt := (List.pairwise_cons.mp (List.pairwise_append.mp hgap).2.1).1 s hs
      have hpos := hl.len_pos
      unfold past at hlt hle ⊢
      omega
    have hin : before.length < file.pLocks.length := by simp [hparts]
    have hends : decide (foffset (q.start + q.len) = l.start) = decide (l.start = q.past) :=
      decide_eq_decide.mpr (end_eq_iff hq hl hle)
    rw [lock_at hparts, hends, decide_eq_true hin, Bool.true_and]
    by_cases hjoin : l.start = q.past
    · exact ⟨some l, rest, rfl, by simp [hjoin], hrest, by simp [hjoin]⟩
    · refine ⟨none, l :: rest, rfl, by simp, fun s hs => ?_, by simp [hjoin]⟩
      rcases List.mem_cons.mp hs with rfl | hs
      · exact lt_of_le_of_ne hle (Ne.symm hjoin)
      · exact hrest s hs

end

theorem setLock_of_free (hfree : ¬ Meets file.pLocks q) :
    ∃ before left right after, Neighbours file.pLocks q before left right after ∧
      (file.setLock q.start q.len).1 = true ∧
      (file.setLock q.start q.len).2.2.pLocks =
        before ++ ⟨(joined q left right).start, foffset (joined q left right).len⟩ :: after := by
  obtain ⟨front, back, hparts, hpos, hfront, hback⟩ := findOffset_split h hq.start_lt
  rw [meets_of_split h hq hparts hfront hback] at hfree
  have hopen : ¬ (decide (front.length < file.pLocks.length) &&
      (decide (foffset (q.start + q.len) ≤ 0) || decide (foffset (q.start + q.len) >
        (file.lock front.length).start))) = true := by
    intro hrefused
    simp only [Bool.and_eq_true, Bool.or_eq_true, decide_eq_true_eq] at hrefused
    obtain ⟨hin, hend⟩ := hrefused
    cases back with
    | nil => simp [hparts] at hin
    | cons l rest =>
      rw [lock_at hparts, end_gt_iff hq (h.proper l (by simp [hparts]))] at hend
      exact hfree ⟨l, rest, rfl, hend⟩
  obtain ⟨before, left, rfl, hbefore, hleft, hljoin⟩ := left_neighbour h hq hparts hfront
  obtain ⟨right, after, rfl, hright, hafter, hrjoin⟩ := right_neighbour h hq hparts hfree
  refine ⟨before, left, right, after,
    ⟨by rw [hparts]; simp only [List.append_assoc], hbefore, hleft, hright, hafter⟩, ?_⟩
  unfold HbFile.setLock
  simp only [hpos, if_neg hopen, hljoin, hrjoin, true_and]
  have hqlen : foffset q.len = q.len := foffset_of_lt (le_of_lt hq.len_pos) hq.len_lt
  cases left with
  | none =>
    cases right with
    | none =>
      simp only [Option.isSome_none, Bool.false_eq_true, if_false]
      rw [insertLock_at hparts]
      simp [joined, hqlen]
    | some r =>
      rw [Option.toList_some, List.singleton_append] at hparts
      have hstart : foffset (r.start - q.len) = q.start := by
        have hr := hright r rfl
        unfold past at hr
        rw [hr, Int.add_sub_cancel]
        exact foffset_of_lt hq.start_nonneg hq.start_lt
      rw [lock_at hparts, hparts, set_at, hstart]
      simp [joined, Int.add_comm]
  | some l =>
    rw [Option.toList_some, List.append_assoc, List.singleton_append] at hparts
    have hlast : (before ++ [l]).length - 1 = before.length := by simp
    simp only [Option.toList_some, hlast, lock_at hparts]
    cases right with
    | none =>
      unfold HbFile.setLen
      rw [lock_at hparts, hparts, set_at]
      simp [joined]
    | some r =>
      simp only [Option.isSome_some, if_true]
      have hparts' : file.pLocks = (before ++ [l]) ++ r :: after := by rw [hparts]; simp
      rw [lock_at hparts']
      have hset : (file.setLen before.length (foffset (l.len + foffset (q.len + r.len)))).pLocks =
          (before ++ [⟨l.start, foffset (l.len + foffset (q.len + r.len))⟩]) ++ r :: after := by
        unfold HbFile.setLen
        rw [lock_at hparts, hparts, set_at]
        simp
      have hlength : (before ++ [l]).length =
          (before ++
            [(⟨l.start, foffset (l.len + foffset (q.len + r.len))⟩ : HbFlock)]).length := by
        simp
      have hsum : foffset (l.len + foffset (q.len + r.len)) = foffset (l.len + q.len + r.len) := by
        unfold foffset
        omega
      rw [hlength, deleteLock_at hset, hsum]
      simp [joined]

end Set

def joinedLen (locks : List HbFlock) (q : HbFlock) : Int :=
  q.len + ((locks.filter fun l => l.past = q.start ∨ l.start = q.past).map HbFlock.len).sum

theorem Neighbours.joinedLen_eq {left right : Option HbFlock}
    (hn : Neighbours locks q before left right after) (h : WellFormed locks) (hq : q.Proper) :
    joinedLen locks q = (joined q left right).len := by
  obtain ⟨rfl, hbefore, hleft, hright, hafter⟩ := hn
  have hqlen := hq.len_pos
  have hproper := h.proper
  have hnone : before.filter (fun l => decide (l.past = q.start ∨ l.start = q.past)) = [] := by
    refine List.filter_eq_nil_iff.mpr fun l hl => ?_
    have hlt := hbefore l hl
    have hpos := (hproper l (by simp [hl])).len_pos
    simp only [decide_eq_true_eq]
    unfold past at hlt ⊢
    omega
  have hnone' : after.filter (fun l => decide (l.past = q.start ∨ l.start = q.past)) = [] := by
    refine List.filter_eq_nil_iff.mpr fun l hl => ?_
    have hlt := hafter l hl
    have hpos := (hproper l (by simp [hl])).len_pos
    simp only [decide_eq_true_eq]
    unfold past at hlt ⊢
    omega
  have hmid : (left.toList ++ right.toList).filter
      (fun l => decide (l.past = q.start ∨ l.start = q.past)) = left.toList ++ right.toList := by
    refine List.filter_eq_self.mpr fun l hl => ?_
    rw [decide_eq_true_eq]
    rcases List.mem_append.mp hl with hl | hl
    · exact .inl (hleft l (Option.mem_toList.mp hl))
    · exact .inr (hright l (Option.mem_toList.mp hl))
  unfold joinedLen joined
  rw [List.filter_append, List.filter_append, hnone, hnone', hmid]
  cases left <;> cases right <;> simp <;> omega

section Joined

variable {left right : Option HbFlock} (hn : Neighbours locks q before left right after)
  (h : WellFormed locks) (hq : q.Proper)

include hn

theorem Neighbours.joined_past : (joined q left right).past = right.elim q.past HbFlock.past := by
  unfold joined past
  cases hl : left with
  | none =>
    cases hr : right with
    | none => simp
    | some r =>
      have := hn.right_start r hr
      simp only [Option.elim]
      unfold past at this
      omega
  | some l =>
    have hleft := hn.left_past l hl
    cases hr : right with
    | none =>
      simp only [Option.elim]
      unfold past at hleft
      omega
    | some r =>
      have := hn.right_start r hr
      simp only [Option.elim]
      unfold past at this hleft
      omega

include h

theorem Neighbours.left_proper (hl : left = some l) : l.Proper :=
  h.proper l (by simp [hn.parts, hl])

theorem Neighbours.right_proper {r : HbFlock} (hr : right = some r) : r.Proper :=
  h.proper r (by simp [hn.parts, hr])

include hq

theorem Neighbours.joined_start :
    0 ≤ (joined q left right).start ∧ (joined q left right).start ≤ q.start := by
  have hstart := hq.start_nonneg
  cases hl : left with
  | none => exact ⟨hstart, le_refl _⟩
  | some l =>
    have hproper := hn.left_proper h hl
    have hleft := hn.left_past l hl
    obtain ⟨hl0, -, hlpos, -⟩ := hproper
    unfold past at hleft
    exact ⟨hl0, by simp only [joined, Option.elim]; omega⟩

theorem Neighbours.joined_len_bounds :
    0 < (joined q left right).len ∧ (joined q left right).len < 2 ^ 64 - 1 := by
  obtain ⟨hq0, hq63, hqpos, hqlt⟩ := hq
  cases hl : left with
  | none =>
    cases hr : right with
    | none => simp only [joined, Option.elim]; omega
    | some r =>
      obtain ⟨-, -, hrpos, hrlt⟩ := hn.right_proper h hr
      simp only [joined, Option.elim]
      omega
  | some l =>
    obtain ⟨hl0, -, hlpos, hllt⟩ := hn.left_proper h hl
    cases hr : right with
    | none => simp only [joined, Option.elim]; omega
    | some r =>
      obtain ⟨-, hr63, hrpos, hrlt⟩ := hn.right_proper h hr
      have hleft := hn.left_past l hl
      have hright := hn.right_start r hr
      simp only [joined, Option.elim]
      unfold past at hleft hright
      omega

theorem Neighbours.joined_holds_iff (n : Int) :
    (joined q left right).range.Holds n ↔
      Locked (left.toList ++ right.toList) n ∨ q.range.Holds n := by
  obtain ⟨hq0, hq63, hqpos, hqlt⟩ := hq
  have hpast := hn.joined_past
  rw [range_holds_iff, range_holds_iff, hpast]
  cases hl : left with
  | none =>
    cases hr : right with
    | none =>
      simp [joined]
    | some r =>
      obtain ⟨hr0, hr63, hrpos, hrlt⟩ := hn.right_proper h hr
      have hright := hn.right_start r hr
      simp only [joined, Option.elim, Option.toList_none, Option.toList_some, List.nil_append,
        locked_cons, locked_nil, or_false, range_holds_iff]
      unfold past at hright ⊢
      omega
  | some l =>
    obtain ⟨hl0, hl63, hlpos, hllt⟩ := hn.left_proper h hl
    have hleft := hn.left_past l hl
    cases hr : right with
    | none =>
      simp only [joined, Option.elim, Option.toList_none, Option.toList_some, List.append_nil,
        locked_cons, locked_nil, or_false, range_holds_iff]
      unfold past at hleft ⊢
      omega
    | some r =>
      obtain ⟨hr0, hr63, hrpos, hrlt⟩ := hn.right_proper h hr
      have hright := hn.right_start r hr
      simp only [joined, Option.elim, Option.toList_some, List.singleton_append,
        locked_cons, locked_nil, or_false, range_holds_iff]
      unfold past at hleft hright ⊢
      omega

theorem Neighbours.joined_wellFormed (hfits : (joined q left right).len < 2 ^ 63) :
    WellFormed (before ++ joined q left right :: after) := by
  obtain ⟨hstart, hstart'⟩ := hn.joined_start h hq
  obtain ⟨hlen, -⟩ := hn.joined_len_bounds h hq
  have hproper : (joined q left right).Proper :=
    ⟨hstart, by have := hq.start_lt; omega, hlen, hfits⟩
  have hparts := hn.parts
  have hgap := h.gap
  rw [hparts] at h hgap
  rw [← List.singleton_append, ← List.append_assoc]
  obtain ⟨hfront, -, hback⟩ := List.pairwise_append.mp hgap
  obtain ⟨-, -, hfront⟩ := List.pairwise_append.mp hfront
  refine h.replace (wellFormed_of_gap (by simpa using hproper) (List.pairwise_singleton _ _)) ?_ ?_
  · intro l hl s hs
    rw [List.mem_singleton.mp hs]
    cases hleft : left with
    | none => exact hn.before_lt l hl
    | some p => exact hfront l hl p (by simp [hleft])
  · intro l hl s hs
    rw [List.mem_singleton.mp hl, hn.joined_past]
    cases hright : right with
    | none => exact hn.after_gt s hs
    | some r => exact hback r (by simp [hright]) s hs

end Joined

/-- What the lock table promises when a range is to be locked. -/
structure SetsExactly (file : HbFile) (q : HbFlock) : Prop where
  succeeds : (file.setLock q.start q.len).1 = true ↔ ¬ Meets file.pLocks q
  wellFormed : WellFormed (file.setLock q.start q.len).2.2.pLocks
  locked : ∀ n, Locked (file.setLock q.start q.len).2.2.pLocks n ↔
    Locked file.pLocks n ∨ (file.setLock q.start q.len).1 = true ∧ q.range.Holds n

/-- The length of the joined lock is a signed number of 64 bits. -/
def JoinFits (locks : List HbFlock) (q : HbFlock) : Prop :=
  ¬ Meets locks q → joinedLen locks q < 2 ^ 63

theorem setsExactly_iff (h : WellFormed file.pLocks) (hq : q.Proper) :
    SetsExactly file q ↔ JoinFits file.pLocks q := by
  by_cases hmeets : Meets file.pLocks q
  · have hresult := setLock_of_meets h hq hmeets
    refine iff_of_true ⟨?_, ?_, ?_⟩ (fun hfree => absurd hmeets hfree)
    · simp [hresult, hmeets]
    · rw [hresult]
      exact h
    · simp [hresult]
  obtain ⟨before, left, right, after, hn, hsuccess, hlocks⟩ := setLock_of_free h hq hmeets
  have hlen := hn.joinedLen_eq h hq
  obtain ⟨hpos, hlt⟩ := hn.joined_len_bounds h hq
  constructor
  · rintro ⟨-, hwell, -⟩ -
    rw [hlocks] at hwell
    have hbound := (hwell.proper _ (List.mem_append_right before List.mem_cons_self)).len_pos
    unfold foffset at hbound
    dsimp only at hbound
    omega
  · intro hfits
    have hjoin := hfits hmeets
    rw [hlen] at hjoin
    rw [foffset_of_lt (le_of_lt hpos) hjoin] at hlocks
    refine ⟨iff_of_true hsuccess hmeets, ?_, fun n => ?_⟩
    · rw [hlocks]
      exact hn.joined_wellFormed h hq hjoin
    · have hholds := hn.joined_holds_iff h hq n
      rw [hlocks, hn.parts, hsuccess]
      simp only [locked_append, locked_cons, true_and] at hholds ⊢
      tauto

end Harbour.Rtl.FileLocks
