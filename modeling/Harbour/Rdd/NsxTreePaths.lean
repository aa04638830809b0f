import Mathlib.Data.Nat.Init
import Harbour.Rdd.NsxTree

/-!
Where a path is among the keys of a tree, and what the single moves do to it.
-/

namespace Harbour.Rdd.NsxTreePaths

open NsxTree List

variable {Key : Type}

section Branches

variable (uiKeys : Nat) (key : Nat → Key) (child : Nat → Page Key)

def front (i : Nat) : List Key := (range i).flatMap fun j => (child j).keys ++ [key j]

def back (i : Nat) : List Key :=
  (range (uiKeys - i)).flatMap fun j => key (i + j) :: (child (i + 1 + j)).keys

theorem front_succ (i : Nat) :
    front key child (i + 1) = front key child i ++ (child i).keys ++ [key i] := by
  rw [front, range_succ, flatMap_append, flatMap_singleton, append_assoc]
  rfl

theorem back_self : back uiKeys key child uiKeys = [] := by
  rw [back, Nat.sub_self]
  rfl

theorem back_lt {i : Nat} (hi : i < uiKeys) : back uiKeys key child i =
    key i :: ((child (i + 1)).keys ++ back uiKeys key child (i + 1)) := by
  obtain ⟨k, rfl⟩ := Nat.exists_eq_add_of_lt hi
  rw [back, back, show i + k + 1 - i = k + 1 by omega, show i + k + 1 - (i + 1) = k by omega,
    range_succ_eq_map, flatMap_cons, flatMap_map]
  simp only [Nat.add_zero, cons_append, Nat.add_assoc, Nat.add_comm 1]

theorem branch_keys {i : Nat} (hi : i ≤ uiKeys) : (Page.branch uiKeys key child).keys =
    front key child i ++ (child i).keys ++ back uiKeys key child i := by
  induction hi using Nat.decreasingInduction with
  | self =>
    rw [back_self, append_nil]
    rfl
  | of_succ i hi ih => rw [ih, back_lt _ _ _ hi, front_succ]; simp

end Branches

section Paths

/-- The keys before and after the page that the pages above lead to. -/
def before : Stack Key → List Key
  | [] => []
  | (.leaf _, _) :: stack => before stack
  | (.branch _ key child, i) :: stack => before stack ++ front key child i

def after : Stack Key → List Key
  | [] => []
  | (.leaf _, _) :: stack => after stack
  | (.branch uiKeys key child, i) :: stack => back uiKeys key child i ++ after stack

def Leads (root : Page Key) : Stack Key → Page Key → Prop
  | [], page => page = root
  | (.leaf _, _) :: _, _ => False
  | (.branch uiKeys key child, i) :: stack, page =>
    page = child i ∧ i ≤ uiKeys ∧ Leads root stack (.branch uiKeys key child)

inductive At (root : Page Key) : Stack Key → List Key → Key → List Key → Prop
  | leaf {stack keys pre key post} (hlead : Leads root stack (.leaf keys))
      (hkeys : keys = pre ++ key :: post) :
      At root ((.leaf keys, pre.length) :: stack) (before stack ++ pre) key (post ++ after stack)
  | branch {stack uiKeys key child i} (hlead : Leads root stack (.branch uiKeys key child))
      (hi : i < uiKeys) :
      At root ((.branch uiKeys key child, i + 1) :: stack)
        (before stack ++ (front key child i ++ (child i).keys)) (key i)
        ((child (i + 1)).keys ++ back uiKeys key child (i + 1) ++ after stack)

variable {root page : Page Key} {stack : Stack Key} {pre post : List Key} {key : Key}

@[elab_as_elim]
theorem Leads.descend {motive : ∀ stack page, Leads root stack page → Prop}
    (nil : motive [] root rfl)
    (cons : ∀ {stack uiKeys key child i} (hlead : Leads root stack (.branch uiKeys key child))
      (hi : i ≤ uiKeys), motive stack (.branch uiKeys key child) hlead →
        motive ((.branch uiKeys key child, i) :: stack) (child i) ⟨rfl, hi, hlead⟩)
    {stack page} (h : Leads root stack page) : motive stack page h := by
  induction stack generalizing page with
  | nil =>
    obtain rfl := h
    exact nil
  | cons level stack ih =>
    obtain ⟨p, i⟩ := level
    cases p with
    | leaf => exact absurd h id
    | branch uiKeys key child =>
      obtain ⟨rfl, hi, hlead⟩ := h
      exact cons hlead hi (ih hlead)

theorem Leads.keys (h : Leads root stack page) :
    root.keys = before stack ++ page.keys ++ after stack := by
  induction h using Leads.descend with
  | nil => simp [before, after]
  | cons hlead hi ih =>
    rw [ih, branch_keys _ _ _ hi]
    simp [before, after]

theorem At.keys (h : At root stack pre key post) : root.keys = pre ++ key :: post := by
  cases h with
  | leaf hlead hkeys =>
    rw [hlead.keys, Page.keys, hkeys]
    simp
  | branch hlead hi =>
    rw [hlead.keys, branch_keys _ _ _ (Nat.le_of_lt hi), back_lt _ _ _ hi]
    simp

theorem At.curKey (h : At root stack pre key post) : curKey stack = some key := by
  cases h with
  | leaf hlead hkeys => simp [NsxTree.curKey, hb_nsxTagGetCurKey, hkeys]
  | branch hlead hi => simp [NsxTree.curKey, hb_nsxTagGetCurKey, Nat.succ_le_of_lt hi]

theorem Leads.child {uiKeys : Nat} {key : Nat → Key} {child : Nat → Page Key} {i : Nat}
    (h : Leads root stack (.branch uiKeys key child)) (hi : i ≤ uiKeys) :
    Leads root ((.branch uiKeys key child, i) :: stack) (child i) :=
  ⟨rfl, hi, h⟩

theorem Leads.full (h : Leads root stack page) (hroot : root.Valid) (hbelow : stack ≠ []) :
    page.Full := by
  induction h using Leads.descend with
  | nil => exact absurd rfl hbelow
  | @cons stack _ _ _ i hlead hi ih =>
    cases stack with
    | nil =>
      obtain rfl := hlead
      exact hroot i hi
    | cons level stack => exact ih (cons_ne_nil _ _) i hi

theorem Leads.branch_full {uiKeys : Nat} {key : Nat → Key} {child : Nat → Page Key}
    (h : Leads root stack (.branch uiKeys key child)) (hroot : root.Valid) {i : Nat}
    (hi : i ≤ uiKeys) : (child i).Full :=
  (h.child hi).full hroot (cons_ne_nil _ _)

section

variable (h : Leads root stack page)

include h

theorem topMove_at (hfull : page.Full) :
    ∃ stack' key rest, hb_nsxPageTopMove stack page = some stack' ∧ page.keys = key :: rest ∧
      At root stack' (before stack) key (rest ++ after stack) := by
  induction page generalizing stack with
  | leaf keys =>
    obtain ⟨key, rest, rfl⟩ := exists_cons_of_ne_nil hfull
    refine ⟨(.leaf (key :: rest), 0) :: stack, key, rest, ?_, rfl, ?_⟩
    · rw [hb_nsxPageTopMove, if_neg (fun h => absurd h.1 (Nat.succ_ne_zero _))]
    · have hat := At.leaf h (nil_append (key :: rest)).symm
      rwa [append_nil] at hat
  | branch uiKeys key child ih =>
    obtain ⟨stack', first, rest, hmove, hkeys, hat⟩ :=
      ih 0 (h.child (Nat.zero_le _)) (hfull 0 (Nat.zero_le _))
    refine ⟨stack', first, rest ++ back uiKeys key child 0, ?_, ?_, ?_⟩
    · rw [hb_nsxPageTopMove, hmove]
    · rw [branch_keys _ _ _ (Nat.zero_le uiKeys), hkeys]
      rfl
    · simp only [before, after, front, range_zero, flatMap_nil, append_nil] at hat
      rwa [append_assoc]

theorem bottomMove_at (hfull : page.Full) :
    ∃ stack' init key, hb_nsxPageBottomMove stack page = some stack' ∧
      page.keys = init ++ [key] ∧ At root stack' (before stack ++ init) key (after stack) := by
  induction page generalizing stack with
  | leaf keys =>
    obtain ⟨init, key, rfl⟩ := (eq_nil_or_concat' keys).resolve_left hfull
    refine ⟨(.leaf (init ++ [key]), init.length) :: stack, init, key, ?_, rfl, At.leaf h rfl⟩
    rw [hb_nsxPageBottomMove, if_neg (fun h => by simp at h)]
    simp
  | branch uiKeys key child ih =>
    obtain ⟨stack', init, last, hmove, hkeys, hat⟩ :=
      ih uiKeys (h.child (Nat.le_refl _)) (hfull uiKeys (Nat.le_refl _))
    refine ⟨stack', front key child uiKeys ++ init, last, ?_, ?_, ?_⟩
    · rw [hb_nsxPageBottomMove, hmove]
    · rw [branch_keys _ _ _ (Nat.le_refl uiKeys), hkeys, back_self]
      simp
    · simp only [before, after, back_self, nil_append] at hat
      rwa [← append_assoc]

theorem climbNext_at : (after stack = [] → climbNext stack = none) ∧
      ∀ key rest, after stack = key :: rest →
        ∃ stack', climbNext stack = some stack' ∧
          At root stack' (before stack ++ page.keys) key rest := by
  induction h using Leads.descend with
  | nil => exact ⟨fun _ => rfl, nofun⟩
  | @cons stack uiKeys key child i hlead hi ih =>
    rw [climbNext, Page.uiKeys, after, before]
    rcases Nat.lt_or_eq_of_le hi with hlt | rfl
    · rw [if_pos ⟨by omega, hlt⟩, back_lt _ _ _ hlt]
      refine ⟨nofun, fun key' rest hafter => ⟨_, rfl, ?_⟩⟩
      obtain ⟨rfl, rfl⟩ := List.cons.inj hafter
      rw [append_assoc (before stack)]
      exact At.branch hlead hlt
    · rw [if_neg (fun h => Nat.lt_irrefl _ h.2), back_self, nil_append]
      refine ⟨ih.1, fun key' rest hafter => ?_⟩
      obtain ⟨stack', hclimb, hat⟩ := ih.2 key' rest hafter
      refine ⟨stack', hclimb, ?_⟩
      rwa [append_assoc]

theorem climbPrev_at : (before stack = [] → climbPrev stack = none) ∧
      ∀ init key, before stack = init ++ [key] →
        ∃ stack', climbPrev stack = some stack' ∧
          At root stack' init key (page.keys ++ after stack) := by
  induction h using Leads.descend with
  | nil => exact ⟨fun _ => rfl, fun init key h => by simp [before] at h⟩
  | @cons stack uiKeys key child i hlead hi ih =>
    rw [climbPrev, after, before]
    cases i with
    | zero =>
      simp only [front, range_zero, flatMap_nil, append_nil]
      refine ⟨ih.1, fun init key' hbefore => ?_⟩
      obtain ⟨stack', hclimb, hat⟩ := ih.2 init key' hbefore
      refine ⟨stack', hclimb, ?_⟩
      rw [branch_keys _ _ _ (Nat.zero_le uiKeys)] at hat
      simpa [front] using hat
    | succ i =>
      rw [if_pos (Nat.succ_ne_zero i), front_succ]
      refine ⟨fun h => by simp at h, fun init key' hbefore => ⟨_, rfl, ?_⟩⟩
      rw [← append_assoc] at hbefore
      obtain ⟨rfl, rfl⟩ := append_singleton_inj.mp hbefore
      have hat := At.branch hlead (Nat.lt_of_succ_le hi)
      rwa [append_assoc] at hat

end

theorem nextKey_at (hroot : root.Valid) (h : At root stack pre key post) :
    (post = [] → hb_nsxTagNextKey stack = none) ∧
      ∀ key' rest, post = key' :: rest →
        ∃ stack', hb_nsxTagNextKey stack = some stack' ∧
          At root stack' (pre ++ [key]) key' rest := by
  cases h with
  | @leaf stack keys pre key post hlead hkeys =>
    rw [hb_nsxTagNextKey]
    cases post with
    | nil =>
      rw [if_neg (by rw [hkeys]; simp), nil_append, append_assoc, ← hkeys]
      exact climbNext_at hlead
    | cons key' post =>
      rw [if_pos (by rw [hkeys]; simp)]
      refine ⟨nofun, fun first rest hpost => ⟨_, rfl, ?_⟩⟩
      obtain ⟨rfl, rfl⟩ := List.cons.inj hpost
      have hsplit : keys = (pre ++ [key]) ++ key' :: post := by rw [hkeys]; simp
      have hat := At.leaf hlead hsplit
      rw [length_append, length_singleton] at hat
      rwa [append_assoc]
  | @branch stack uiKeys key child i hlead hi =>
    obtain ⟨stack', first, rest, hmove, hkeys, hat⟩ :=
      topMove_at (hlead.child hi) (hlead.branch_full hroot hi)
    rw [hb_nsxTagNextKey, if_neg (Nat.succ_ne_zero i), hmove, hkeys]
    refine ⟨nofun, fun key' rest' hpost => ⟨stack', rfl, ?_⟩⟩
    obtain ⟨rfl, rfl⟩ := hpost
    rw [before, after, front_succ, ← append_assoc rest] at hat
    simpa using hat

theorem prevKey_at (hroot : root.Valid) (h : At root stack pre key post) :
    (pre = [] → hb_nsxTagPrevKey stack = none) ∧
      ∀ init key', pre = init ++ [key'] →
        ∃ stack', hb_nsxTagPrevKey stack = some stack' ∧
          At root stack' init key' (key :: post) := by
  cases h with
  | @leaf stack keys pre key post hlead hkeys =>
    rw [hb_nsxTagPrevKey]
    rcases eq_nil_or_concat' pre with rfl | ⟨init, last, rfl⟩
    · rw [length_nil, if_neg (not_not.mpr rfl), append_nil, ← cons_append,
        ← nil_append (key :: post), ← hkeys]
      exact climbPrev_at hlead
    · rw [if_pos (by simp)]
      refine ⟨fun h => by simp at h, fun init' key' hpre => ⟨_, rfl, ?_⟩⟩
      rw [← append_assoc] at hpre
      obtain ⟨rfl, rfl⟩ := append_singleton_inj.mp hpre
      have hsplit : keys = init ++ last :: (key :: post) := by rw [hkeys]; simp
      have hat := At.leaf hlead hsplit
      rw [length_append, length_singleton, Nat.add_sub_cancel]
      exact hat
  | @branch stack uiKeys key child i hlead hi =>
    obtain ⟨stack', init, last, hmove, hkeys, hat⟩ :=
      bottomMove_at (hlead.child (Nat.le_of_lt hi)) (hlead.branch_full hroot (Nat.le_of_lt hi))
    rw [hb_nsxTagPrevKey, if_neg (Nat.succ_ne_zero i), Nat.add_sub_cancel, hmove, hkeys]
    refine ⟨fun h => by simp at h, fun init' key' hpre => ⟨stack', rfl, ?_⟩⟩
    rw [← append_assoc, ← append_assoc] at hpre
    obtain ⟨rfl, rfl⟩ := append_singleton_inj.mp hpre
    rw [before, after, back_lt _ _ _ hi] at hat
    simpa using hat

end Paths

end Harbour.Rdd.NsxTreePaths
