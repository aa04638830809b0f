import Harbour.Rtl.FileLocks

namespace Harbour.Rtl.FileLocks

open Library.RangeList HbFlock List Option

/-- What stays locked of a lock before and behind the range that is unlocked. -/
def remains (l q : HbFlock) : List HbFlock :=
  (if l.start < q.start then [⟨l.start, q.start - l.start⟩] else []) ++
    if q.past < l.past then [⟨foffset q.past, l.past - q.past⟩] else []

section Unlock

variable {file : HbFile} (h : WellFormed file.pLocks) {q : HbFlock} (hq : q.Proper)

include h hq

section

variable {before after : List HbFlock} {l : HbFlock} (hparts : file.pLocks = before ++ l :: after)
  (hle : l.start ≤ q.start)

include hparts hle

theorem findOffset_eq (hlt : q.start < l.past) : file.findOffset q.start = before.length := by
  obtain ⟨front, back, hsplit, hpos, hfront, hback⟩ := findOffset_split h hq.start_lt
  have hgap := h.gap
  rw [hparts] at hgap
  rw [hpos]
  rw [hparts] at hsplit
  rcases append_eq_append_iff.mp hsplit with ⟨others, rfl, hothers⟩ | ⟨others, rfl, rfl⟩
  · cases others with
    | nil => simp
    | cons s rest =>
      obtain ⟨rfl, -⟩ := List.cons.inj hothers
      exact absurd (hfront l (by simp)) (not_le_of_gt hlt)
  · cases others with
    | nil => simp
    | cons s rest =>
      have hlt' := hback s (by simp)
      have hgap' := (pairwise_append.mp hgap).2.2 s (by simp) l (by simp)
      omega

theorem unlock_of_held (hle' : q.past ≤ l.past) : (file.unlock false q.start q.len).1 = true ∧
      (file.unlock false q.start q.len).2.2.pLocks = before ++ remains l q ++ after := by
  have hl : l.Proper := h.proper l (by simp [hparts])
  have hpos := findOffset_eq h hq hparts hle (by have := hq.len_pos; unfold past at hle' ⊢; omega)
  obtain ⟨hl0, hl63, hlpos, hllt⟩ := hl
  obtain ⟨hq0, hq63, hqpos, hqlt⟩ := hq
  unfold past at hle'
  have hlock := lock_at hparts
  have htest : before.length < file.pLocks.length ∧ q.start ≥ l.start ∧ l.len ≥ q.len ∧
      q.start - l.start ≤ l.len - q.len := by
    refine ⟨by simp [hparts], hle, by omega, by omega⟩
  unfold HbFile.unlock
  simp only [hpos, hlock, if_pos htest, Bool.false_and, Bool.false_eq_true, if_false, true_and]
  unfold remains past
  by_cases hstart : q.start = l.start
  · rw [if_pos hstart, if_neg (show ¬ l.start < q.start by omega), nil_append]
    by_cases hlen : q.len = l.len
    · rw [if_pos hlen, if_neg (show ¬ q.start + q.len < l.start + l.len by omega),
        deleteLock_at hparts, append_nil]
    · have hrest : foffset (l.len - q.len) = l.start + l.len - (q.start + q.len) := by
        rw [foffset_of_lt (by omega) (by omega)]
        omega
      rw [if_neg hlen, if_pos (show q.start + q.len < l.start + l.len by omega), hparts, set_at,
        hrest, hstart]
      simp
  · have hfirst : foffset (q.start - l.start) = q.start - l.start :=
      foffset_of_lt (by omega) (by omega)
    rw [if_neg hstart, if_pos (show l.start < q.start by omega)]
    by_cases hends : q.start + q.len = l.start + l.len
    · have hrest : foffset (l.len - q.len) = q.start - l.start := by
        rw [foffset_of_lt (by omega) (by omega)]
        omega
      rw [if_pos (by rw [hends]), if_neg (show ¬ q.start + q.len < l.start + l.len by omega)]
      unfold HbFile.setLen
      rw [hlock, hparts, set_at, hrest]
      simp
    · have hdiffer : foffset (q.start + q.len) ≠ foffset (l.start + l.len) := by
        unfold foffset
        omega
      have hrest : foffset (l.start + l.len - q.start - q.len) =
          l.start + l.len - (q.start + q.len) := by
        rw [foffset_of_lt (by omega) (by omega)]
        omega
      rw [if_neg hdiffer, if_pos (show q.start + q.len < l.start + l.len by omega), hfirst, hrest]
      have hsplit : file.pLocks = (before ++ [l]) ++ after := by rw [hparts]; simp
      have hinsert := insertLock_at hsplit (foffset (q.start + q.len))
        (l.start + l.len - (q.start + q.len))
      rw [length_append, length_singleton, append_assoc,
        singleton_append] at hinsert
      unfold HbFile.setLen
      rw [lock_at hinsert, hinsert, set_at]
      simp

end

omit h hq in
theorem unlock_of_not_held (hnone : ∀ l ∈ file.pLocks, ¬ (l.start ≤ q.start ∧ q.past ≤ l.past)) :
    file.unlock false q.start q.len = (false, false, file) := by
  unfold HbFile.unlock
  rw [if_neg]
  rintro ⟨hin, hstart, hlen, hle⟩
  have hmem : file.lock (file.findOffset q.start) ∈ file.pLocks := by
    simp only [HbFile.lock, List.getD, getElem?_eq_getElem hin, Option.getD_some]
    exact getElem_mem hin
  refine hnone _ hmem ⟨hstart, ?_⟩
  unfold past
  omega

end Unlock

/-- What the lock table promises when a range is to be unlocked. -/
structure UnlocksExactly (file : HbFile) (q : HbFlock) : Prop where
  succeeds : (file.unlock false q.start q.len).1 = true ↔ Within file.pLocks q
  wellFormed : WellFormed (file.unlock false q.start q.len).2.2.pLocks
  locked : ∀ n, Locked (file.unlock false q.start q.len).2.2.pLocks n ↔ Locked file.pLocks n ∧
    ¬ ((file.unlock false q.start q.len).1 = true ∧ q.range.Holds n)

/-- A range and a lock around it that both go on to infinity have one and the same end. -/
def EndsAgree (locks : List HbFlock) (q : HbFlock) : Prop :=
  ∀ l ∈ locks, l.start ≤ q.start → 2 ^ 63 ≤ l.past → 2 ^ 63 ≤ q.past → q.past = l.past

section Remains

variable {l q : HbFlock} (hl : l.Proper) (hq : q.Proper) (hle : l.start ≤ q.start)
  (hle' : q.past ≤ l.past) (hends : 2 ^ 63 ≤ q.past → q.past = l.past)

include hl hq hle hle' hends

theorem mem_remains {s : HbFlock} (hs : s ∈ remains l q) :
    s.Proper ∧ l.start ≤ s.start ∧ s.past ≤ l.past ∧ (s.past = q.start ∨ s.start = q.past) := by
  obtain ⟨hl0, hl63, hlpos, hllt⟩ := hl
  obtain ⟨hq0, hq63, hqpos, hqlt⟩ := hq
  rcases mem_append.mp hs with hs | hs
  · split_ifs at hs with hlt
    · rw [mem_singleton.mp hs]
      unfold past at hle' ⊢
      exact ⟨⟨hl0, hl63, by dsimp only; omega, by dsimp only; omega⟩, le_refl _,
        by dsimp only; omega, .inl (by dsimp only; omega)⟩
    · exact absurd hs not_mem_nil
  · split_ifs at hs with hlt
    · have hoffset : foffset q.past = q.past :=
        foffset_of_lt (by unfold past; omega) (by omega)
      rw [mem_singleton.mp hs, hoffset]
      unfold past at hle' hends hlt ⊢
      exact ⟨⟨by dsimp only; omega, by dsimp only; omega, by dsimp only; omega,
        by dsimp only; omega⟩, by dsimp only; omega, by dsimp only; omega, .inr rfl⟩
    · exact absurd hs not_mem_nil

theorem remains_wellFormed : WellFormed (remains l q) := by
  refine wellFormed_of_gap (fun s hs => (mem_remains hl hq hle hle' hends hs).1) ?_
  have hqpos := hq.len_pos
  unfold remains
  split_ifs with hlt hlt'
  · refine pairwise_pair.mpr ?_
    have hoffset : foffset q.past = q.past := by
      have := hq.start_nonneg
      exact foffset_of_lt (by unfold past; omega) (by omega)
    rw [hoffset]
    unfold past
    dsimp only
    omega
  · exact pairwise_singleton _ _
  · exact pairwise_singleton _ _
  · exact .nil

omit hl in
theorem locked_remains_iff (n : Int) :
    Locked (remains l q) n ↔ l.range.Holds n ∧ ¬ q.range.Holds n := by
  obtain ⟨hq0, hq63, hqpos, hqlt⟩ := hq
  unfold remains
  rw [range_holds_iff, range_holds_iff, locked_append]
  have hoffset : q.past < l.past → foffset q.past = q.past := by
    intro hlt
    exact foffset_of_lt (by unfold past; omega) (by omega)
  split_ifs with hlt hlt' hlt'
  · rw [hoffset hlt']
    simp only [locked_cons, locked_nil, or_false, range_holds_iff]
    unfold past at hle' hends hlt' ⊢
    dsimp only
    omega
  · simp only [locked_cons, locked_nil, or_false, range_holds_iff]
    unfold past at hle' hends hlt' ⊢
    dsimp only
    omega
  · rw [hoffset hlt']
    simp only [locked_cons, locked_nil, or_false, false_or, range_holds_iff]
    unfold past at hle' hends hlt' ⊢
    dsimp only
    omega
  · simp only [locked_nil, or_false, false_iff, not_and_or]
    omega

end Remains

theorem WellFormed.eq_of_meet {locks : List HbFlock} (h : WellFormed locks) {l s : HbFlock}
    (hl : l ∈ locks) (hs : s ∈ locks) (hlt : l.start < s.past) (hlt' : s.start < l.past) :
    l = s := by
  obtain ⟨i, hi, rfl⟩ := getElem_of_mem hl
  obtain ⟨j, hj, rfl⟩ := getElem_of_mem hs
  rcases Nat.lt_trichotomy i j with hij | rfl | hij
  · have hgap := pairwise_iff_getElem.mp h.gap i j hi hj hij
    omega
  · rfl
  · have hgap := pairwise_iff_getElem.mp h.gap j i hj hi hij
    omega

section Exact

variable {file : HbFile} (h : WellFormed file.pLocks) {q : HbFlock} (hq : q.Proper)

include h hq

theorem unlocksExactly_of_held {before after : List HbFlock} {l : HbFlock}
    (hparts : file.pLocks = before ++ l :: after) (hle : l.start ≤ q.start) (hle' : q.past ≤ l.past)
    (hends : 2 ^ 63 ≤ q.past → q.past = l.past) : UnlocksExactly file q := by
  obtain ⟨hsuccess, hlocks⟩ := unlock_of_held h hq hparts hle hle'
  have hmem : l ∈ file.pLocks := by simp [hparts]
  have hl := h.proper l hmem
  have hproper := h.proper
  have hgap := h.gap
  rw [hparts] at hgap hproper
  obtain ⟨-, hback, hfront⟩ := pairwise_append.mp hgap
  have hback := (pairwise_cons.mp hback).1
  refine ⟨iff_of_true hsuccess ((within_iff h hq).mpr ⟨l, hmem, hle, .inr hle'⟩), ?_, fun n => ?_⟩
  · rw [hlocks]
    have hwell := h
    rw [hparts, ← singleton_append, ← append_assoc] at hwell
    refine hwell.replace (remains_wellFormed hl hq hle hle' hends) ?_ ?_
    · intro s hs r hr
      have hlt := hfront s hs l (by simp)
      have hstart := (mem_remains hl hq hle hle' hends hr).2.1
      omega
    · intro r hr s hs
      have hlt := hback s hs
      have hpast := (mem_remains hl hq hle hle' hends hr).2.2.1
      omega
  · have hremains := locked_remains_iff hq hle hle' hends n
    have houtside : Locked before n ∨ Locked after n → ¬ q.range.Holds n := by
      rw [range_holds_iff]
      rintro (hlocked | hlocked) hn
      · obtain ⟨s, hs, hholds⟩ := locked_iff.mp hlocked
        have hlt := hfront s hs l (by simp)
        have h63 := hl.start_lt
        rw [range_holds_iff] at hholds
        omega
      · obtain ⟨s, hs, hholds⟩ := locked_iff.mp hlocked
        have hlt := hback s hs
        have h63 := (hproper s (by simp [hs])).start_lt
        rw [range_holds_iff] at hholds
        omega
    rw [hlocks, hsuccess, hparts]
    simp only [locked_append, locked_cons, true_and]
    constructor
    · rintro ((hlocked | hlocked) | hlocked)
      · exact ⟨.inl hlocked, houtside (.inl hlocked)⟩
      · exact ⟨.inr (.inl (hremains.mp hlocked).1), (hremains.mp hlocked).2⟩
      · exact ⟨.inr (.inr hlocked), houtside (.inr hlocked)⟩
    · rintro ⟨hlocked | hlocked | hlocked, hn⟩
      · exact .inl (.inl hlocked)
      · exact .inl (.inr (hremains.mpr ⟨hlocked, hn⟩))
      · exact .inr hlocked

theorem unlocksExactly_iff : UnlocksExactly file q ↔ EndsAgree file.pLocks q := by
  constructor
  · rintro ⟨hsucceeds, hwell, -⟩ l hl hle hinf hqinf
    by_contra hne
    have hwithin := (within_iff h hq).mpr ⟨l, hl, hle, .inl hinf⟩
    have hsuccess := hsucceeds.mpr hwithin
    by_cases hheld : q.past ≤ l.past
    · -- what remains behind the range would start at a wrapped offset
      obtain ⟨before, after, hparts⟩ := append_of_mem hl
      rw [(unlock_of_held h hq hparts hle hheld).2] at hwell
      have hnonneg := (hwell.proper ⟨foffset q.past, l.past - q.past⟩ (by
        unfold remains
        rw [if_pos (show q.past < l.past by omega)]
        simp)).start_nonneg
      obtain ⟨hq0, hq63, hqpos, hqlt⟩ := hq
      unfold foffset past at hnonneg
      dsimp only at hnonneg
      unfold past at hqinf
      omega
    · have hnone : ∀ s ∈ file.pLocks, ¬ (s.start ≤ q.start ∧ q.past ≤ s.past) := by
        rintro s hs ⟨hsle, hsle'⟩
        have hlq := hq.start_lt
        obtain rfl := h.eq_of_meet hl hs (by omega) (by omega)
        exact hheld hsle'
      rw [unlock_of_not_held hnone] at hsuccess
      exact Bool.false_ne_true hsuccess
  · intro hends
    by_cases hheld : ∃ l ∈ file.pLocks, l.start ≤ q.start ∧ q.past ≤ l.past
    · obtain ⟨l, hl, hle, hle'⟩ := hheld
      obtain ⟨before, after, hparts⟩ := append_of_mem hl
      exact unlocksExactly_of_held h hq hparts hle hle' fun hinf =>
        hends l hl hle (by omega) hinf
    · have hnone : ∀ l ∈ file.pLocks, ¬ (l.start ≤ q.start ∧ q.past ≤ l.past) :=
        fun l hl hboth => hheld ⟨l, hl, hboth⟩
      have hrefused := unlock_of_not_held hnone
      refine ⟨?_, ?_, fun n => ?_⟩
      · rw [hrefused]
        refine iff_of_false Bool.false_ne_true fun hwithin => ?_
        obtain ⟨l, hl, hle, hpast⟩ := (within_iff h hq).mp hwithin
        have hlt : ¬ q.past ≤ l.past := fun hle' => hnone l hl ⟨hle, hle'⟩
        have heq := hends l hl hle (by omega) (by omega)
        omega
      · rw [hrefused]
        exact h
      · simp [hrefused]

theorem testLock_iff : file.testLock q.start q.len = true ↔ Meets file.pLocks q := by
  obtain ⟨before, after, hparts, hpos, hbefore, hafter⟩ := findOffset_split h hq.start_lt
  rw [meets_of_split h hq hparts hbefore hafter]
  unfold HbFile.testLock
  simp only [hpos, Bool.and_eq_true, Bool.or_eq_true, decide_eq_true_eq]
  cases after with
  | nil => simp [hparts]
  | cons l rest =>
    rw [lock_at hparts, end_gt_iff hq (h.proper l (by simp [hparts]))]
    simp [hparts]

theorem unlock_setLock (hfits : JoinFits file.pLocks q)
    (hset : (file.setLock q.start q.len).1 = true) :
    ((file.setLock q.start q.len).2.2.unlock false q.start q.len).1 = true ∧
      ((file.setLock q.start q.len).2.2.unlock false q.start q.len).2.2.pLocks = file.pLocks := by
  have hexact := (setsExactly_iff h hq).mpr hfits
  have hfree := hexact.succeeds.mp hset
  obtain ⟨before, left, right, after, hn, -, hlocks⟩ := setLock_of_free h hq hfree
  have hjoin := hfits hfree
  rw [hn.joinedLen_eq h hq] at hjoin
  rw [foffset_of_lt (le_of_lt (hn.joined_len_bounds h hq).1) hjoin] at hlocks
  have hstart := (hn.joined_start h hq).2
  have hpast := hn.joined_past
  have hright : ∀ r ∈ right, q.past < r.past := by
    intro r hr
    have hpos := (hn.right_proper h hr).len_pos
    have hrstart := hn.right_start r hr
    unfold past at hrstart ⊢
    omega
  have hle : q.past ≤ (joined q left right).past := by
    rw [hpast]
    cases hr : right with
    | none => exact le_refl _
    | some r => exact le_of_lt (hright r hr)
  obtain ⟨hdone, hresult⟩ := unlock_of_held hexact.wellFormed hq hlocks hstart hle
  refine ⟨hdone, ?_⟩
  rw [hresult, hn.parts]
  congr 2
  unfold remains
  congr 1
  · cases hl : left with
    | none => simp [joined]
    | some l =>
      have hpos := (hn.left_proper h hl).len_pos
      have hleft := hn.left_past l hl
      unfold past at hleft
      have hlen : q.start - l.start = l.len := by omega
      simp only [joined, Option.elim, Option.toList_some, hlen]
      rw [if_pos (by omega)]
  · rw [hpast]
    cases hr : right with
    | none => simp
    | some r =>
      have hlt := hright r hr
      have hrstart := hn.right_start r hr
      obtain ⟨hr0, hr63, -, -⟩ := hn.right_proper h hr
      have hoffset : foffset q.past = r.start := by
        rw [← hrstart]
        exact foffset_of_lt hr0 hr63
      have hlen : r.past - q.past = r.len := by
        rw [← hrstart]
        unfold past
        omega
      have helim : (some r).elim q.past past = r.past := rfl
      rw [helim, if_pos hlt, hoffset, hlen, toList_some]

end Exact

end Harbour.Rtl.FileLocks

/-!
Runs of requests to lock and to unlock, from the table of a file just opened.
-/

namespace Harbour.Rtl.FileLocks

open Library.BinarySearch HbFlock

inductive Request where
  | setLock (q : HbFlock)
  | unlock (pfLockFS : Bool) (q : HbFlock)

def Request.range : Request → HbFlock
  | .setLock q => q
  | .unlock _ q => q

namespace HbFile

def opened (shared : Bool) : HbFile := ⟨shared, [], 0⟩

def serve (file : HbFile) : Request → HbFile
  | .setLock q => (file.setLock q.start q.len).2.2
  | .unlock pfLockFS q => (file.unlock pfLockFS q.start q.len).2.2

/-- The request does not bring a number of more than 64 bits into the table. -/
def Fits (file : HbFile) : Request → Prop
  | .setLock q => JoinFits file.pLocks q
  | .unlock pfLockFS q => (pfLockFS && file.shared) = true ∨ EndsAgree file.pLocks q

inductive Reached : HbFile → Prop
  | opened (shared : Bool) : Reached (opened shared)
  | serve {file : HbFile} (r : Request) :
      Reached file → r.range.Proper → file.Fits r → Reached (file.serve r)

def Room (file : HbFile) : Prop := file.pLocks.length ≤ file.uiSize

section

variable {file : HbFile} (h : file.Room)

include h

theorem insertLock_room (uiPos : Nat) (nStart nLen : Int) :
    (file.insertLock uiPos nStart nLen).Room := by
  have hlength : (file.pLocks.insertIdx uiPos ⟨nStart, nLen⟩).length ≤ file.pLocks.length + 1 :=
    List.length_insertIdx_le_succ
  unfold Room at h
  unfold Room insertLock flockResize
  dsimp only
  split_ifs <;> omega

theorem deleteLock_room {uiPos : Nat} (hin : uiPos < file.pLocks.length) :
    (file.deleteLock uiPos).Room := by
  unfold Room at h
  unfold Room deleteLock flockResize
  dsimp only
  rw [List.length_eraseIdx_of_lt hin]
  split_ifs <;> omega

theorem setLen_room (uiPos : Nat) (len : Int) : (file.setLen uiPos len).Room := by
  unfold Room setLen
  rw [List.length_set]
  exact h

theorem setLock_room (nStart nLen : Int) : (file.setLock nStart nLen).2.2.Room := by
  unfold setLock
  dsimp only
  split_ifs with hrefused hleft hright hright
  · exact h
  · refine deleteLock_room (setLen_room h _ _) ?_
    unfold setLen
    rw [List.length_set]
    simp only [Bool.and_eq_true, decide_eq_true_eq] at hright
    exact hright.1
  · exact setLen_room h _ _
  · unfold Room
    rw [List.length_set]
    exact h
  · exact insertLock_room h _ _ _

theorem unlock_room (pfLockFS : Bool) (nStart nLen : Int) :
    (file.unlock pfLockFS nStart nLen).2.2.Room := by
  unfold unlock
  dsimp only
  split_ifs with hheld hshared hstart hlen hends
  · exact h
  · exact deleteLock_room h hheld.1
  · unfold Room
    rw [List.length_set]
    exact h
  · exact setLen_room h _ _
  · exact setLen_room (insertLock_room h _ _ _) _ _
  · exact h

theorem serve_room (r : Request) : (file.serve r).Room := by
  cases r with
  | setLock q => exact setLock_room h q.start q.len
  | unlock pfLockFS q => exact unlock_room h pfLockFS q.start q.len

end

theorem unlock_eq (file : HbFile) (pfLockFS : Bool) (nStart nLen : Int) :
    (file.unlock pfLockFS nStart nLen).2.2 =
      if pfLockFS && file.shared then file else (file.unlock false nStart nLen).2.2 := by
  unfold unlock
  dsimp only
  split_ifs <;> first | rfl | contradiction

theorem serve_wellFormed {file : HbFile} (h : WellFormed file.pLocks) {r : Request}
    (hproper : r.range.Proper) (hfits : file.Fits r) : WellFormed (file.serve r).pLocks := by
  cases r with
  | setLock q => exact ((setsExactly_iff h hproper).mpr hfits).wellFormed
  | unlock pfLockFS q =>
    unfold serve
    dsimp only
    rw [unlock_eq]
    split_ifs with hshared
    · exact h
    · exact ((unlocksExactly_iff h hproper).mpr (hfits.resolve_left hshared)).wellFormed

theorem Reached.wellFormed {file : HbFile} (h : Reached file) : WellFormed file.pLocks := by
  induction h with
  | opened shared => exact wellFormed_of_gap (by simp [HbFile.opened]) .nil
  | serve r _ hproper hfits ih => exact serve_wellFormed ih hproper hfits

theorem Reached.room {file : HbFile} (h : Reached file) : file.Room := by
  induction h with
  | opened shared => exact Nat.le_refl 0
  | serve r _ _ _ ih => exact serve_room ih r

end HbFile

open HbFile

/-- In every table reached by requests that fit, locking and unlocking are the union and the
difference of sets of offsets, and they are so for no other request. -/
theorem lockTable_interval_set {file : HbFile} (h : Reached file) :
    WellFormed file.pLocks ∧ file.Room ∧ ∀ q : HbFlock, q.Proper →
      (SetsExactly file q ↔ JoinFits file.pLocks q) ∧
      (UnlocksExactly file q ↔ EndsAgree file.pLocks q) ∧
      (file.testLock q.start q.len = true ↔ Meets file.pLocks q) ∧
      (JoinFits file.pLocks q → (file.setLock q.start q.len).1 = true →
        ((file.setLock q.start q.len).2.2.unlock false q.start q.len).1 = true ∧
        ((file.setLock q.start q.len).2.2.unlock false q.start q.len).2.2.pLocks = file.pLocks) :=
  ⟨h.wellFormed, h.room, fun _ hq => ⟨setsExactly_iff h.wellFormed hq,
    unlocksExactly_iff h.wellFormed hq, testLock_iff h.wellFormed hq,
    fun hfits hset => unlock_setLock h.wellFormed hq hfits hset⟩⟩

instance (l : HbFlock) : Decidable l.Proper :=
  decidable_of_iff (0 ≤ l.start ∧ l.start < 2 ^ 63 ∧ 0 < l.len ∧ l.len < 2 ^ 63)
    ⟨fun ⟨h0, h63, hpos, hlt⟩ => ⟨h0, h63, hpos, hlt⟩,
      fun ⟨h0, h63, hpos, hlt⟩ => ⟨h0, h63, hpos, hlt⟩⟩

instance (locks : List HbFlock) (q : HbFlock) : Decidable (EndsAgree locks q) :=
  inferInstanceAs (Decidable (∀ l ∈ locks, l.start ≤ q.start → 2 ^ 63 ≤ l.past →
    2 ^ 63 ≤ q.past → q.past = l.past))

theorem HbFile.Reached.setLock {file : HbFile} (h : Reached file) (q : HbFlock)
    (hfits : q.Proper ∧ joinedLen file.pLocks q < 2 ^ 63) : Reached (file.serve (.setLock q)) :=
  h.serve (.setLock q) hfits.1 fun _ => hfits.2

theorem HbFile.Reached.unlock {file : HbFile} (h : Reached file) (q : HbFlock)
    (hfits : q.Proper ∧ EndsAgree file.pLocks q) : Reached (file.serve (.unlock false q)) :=
  h.serve (.unlock false q) hfits.1 (.inr hfits.2)

/-- Two locks and the gap between them, a piece out of the middle, a piece off both ends, a lock
without an end but for its first byte, and a range that is refused. -/
def editRequests : List Request :=
  [.setLock ⟨10, 5⟩, .setLock ⟨20, 5⟩, .setLock ⟨15, 5⟩, .unlock false ⟨12, 3⟩,
    .unlock false ⟨15, 2⟩, .unlock false ⟨23, 2⟩, .setLock ⟨100, 2 ^ 63 - 1⟩,
    .unlock false ⟨101, 2 ^ 63 - 2⟩, .setLock ⟨11, 20⟩]

theorem lockTable_interval_set_edited :
    ∃ file, editRequests.foldl serve (HbFile.opened false) = file ∧
      file.pLocks = [⟨10, 2⟩, ⟨17, 6⟩, ⟨100, 1⟩] ∧ WellFormed file.pLocks ∧ file.Room ∧
      SetsExactly file ⟨12, 5⟩ ∧ UnlocksExactly file ⟨18, 2⟩ ∧ Meets file.pLocks ⟨22, 78⟩ ∧
      (file.setLock 12 5).2.2.pLocks = [⟨10, 13⟩, ⟨100, 1⟩] ∧
      ((file.setLock 12 5).2.2.unlock false 12 5).2.2.pLocks = file.pLocks := by
  have hreached : Reached (editRequests.foldl serve (HbFile.opened false)) :=
    (((((((((Reached.opened false).setLock ⟨10, 5⟩ (by decide +kernel)).setLock ⟨20, 5⟩
      (by decide +kernel)).setLock ⟨15, 5⟩ (by decide +kernel)).unlock ⟨12, 3⟩
      (by decide +kernel)).unlock ⟨15, 2⟩ (by decide +kernel)).unlock ⟨23, 2⟩
      (by decide +kernel)).setLock ⟨100, 2 ^ 63 - 1⟩ (by decide +kernel)).unlock
      ⟨101, 2 ^ 63 - 2⟩ (by decide +kernel)).setLock ⟨11, 20⟩ (by decide +kernel)
  obtain ⟨hwell, hroom, hexact⟩ := lockTable_interval_set hreached
  obtain ⟨hset, -, -, hback⟩ := hexact ⟨12, 5⟩ (by decide)
  have hfits : JoinFits (editRequests.foldl serve (HbFile.opened false)).pLocks ⟨12, 5⟩ :=
    fun _ => by decide +kernel
  exact ⟨_, rfl, by decide +kernel, hwell, hroom, hset.mpr hfits,
    (hexact ⟨18, 2⟩ (by decide)).2.1.mpr (by decide +kernel),
    (hexact ⟨22, 78⟩ (by decide)).2.2.1.mp (by decide +kernel), by decide +kernel,
    (hback hfits (by decide +kernel)).2⟩

/-- A lock up to the last offset joined to the lock before it gets a negative length. -/
theorem lockTable_joined_negative :
    ¬ ∀ rs : List Request, (∀ r ∈ rs, r.range.Proper) →
      WellFormed (rs.foldl serve (HbFile.opened true)).pLocks := by
  intro hall
  have hwell := hall [.setLock ⟨0, 10⟩, .setLock ⟨10, 2 ^ 63 - 1⟩] (by
    simp only [List.mem_cons, List.not_mem_nil, or_false, forall_eq_or_imp, forall_eq]
    exact ⟨⟨by decide, by decide, by decide, by decide⟩,
      ⟨by decide, by decide, by decide, by decide⟩⟩)
  have hlocks : ([.setLock ⟨0, 10⟩, .setLock ⟨10, 2 ^ 63 - 1⟩].foldl serve
      (HbFile.opened true)).pLocks = [⟨0, 9 - 2 ^ 63⟩] := by
    simp [serve, HbFile.opened, setLock, findOffset, partitionPoint, insertLock, setLen, lock,
      foffset]
  rw [hlocks] at hwell
  exact absurd (hwell.proper ⟨0, 9 - 2 ^ 63⟩ List.mem_cons_self).len_pos (by decide)

end Harbour.Rtl.FileLocks
