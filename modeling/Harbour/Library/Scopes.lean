import Mathlib.Data.List.Nodup
import Mathlib.Logic.Function.Basic

/-!
Dynamic scopes kept in one table of what each name is bound to now, and a stack of what the
declarations in force have hidden.
-/

namespace Harbour.Library.Scopes

open List Function

variable {N C : Type*} [DecidableEq N]

def look (globals : N → Option C) : List (N × C) → N → Option C
  | [] => globals
  | (n, c) :: entries => update (look globals entries) n (some c)

def hidings (globals : N → Option C) : List (N × C) → List (N × Option C)
  | [] => []
  | (n, _) :: entries => (n, look globals entries n) :: hidings globals entries

def names (entries : List (N × C)) : List N := entries.map Prod.fst

def cells (entries : List (N × C)) : List C := entries.map Prod.snd

variable {globals : N → Option C} {entries upper : List (N × C)} {n m : N} {c : C} {b : Option C}

theorem update_hidden :
    update (look globals ((n, c) :: entries)) n (look globals entries n) =
      look globals entries := by
  change update (update (look globals entries) n (some c)) n _ = _
  rw [update_idem, update_eq_self]

theorem look_self : look globals ((n, c) :: entries) n = some c :=
  update_self ..

theorem look_ne (h : m ≠ n) : look globals ((n, c) :: entries) m = look globals entries m :=
  update_of_ne h ..

theorem look_not_mem (h : n ∉ names entries) : look globals entries n = globals n := by
  induction entries with
  | nil => rfl
  | cons entry entries ih =>
    obtain ⟨hne, hentries⟩ := ne_and_not_mem_of_not_mem_cons h
    rw [look_ne hne]
    exact ih hentries

theorem look_mem (globals : N → Option C) (h : n ∈ names entries) :
    ∃ c, look globals entries n = some c ∧ c ∈ cells entries := by
  induction entries with
  | nil => exact absurd h not_mem_nil
  | cons entry entries ih =>
    by_cases hn : n = entry.1
    · exact ⟨entry.2, by rw [hn]; exact look_self, mem_cons_self⟩
    · obtain ⟨c, hlook, hmem⟩ := ih ((mem_cons.mp h).resolve_left hn)
      exact ⟨c, (look_ne hn).trans hlook, mem_cons_of_mem _ hmem⟩

theorem look_append : look globals (upper ++ entries) = look (look globals entries) upper := by
  induction upper with
  | nil => rfl
  | cons entry upper ih =>
    change update (look globals (upper ++ entries)) _ _ = _
    rw [ih]
    rfl

theorem look_congr {globals' : N → Option C} (h : globals' n = globals n) :
    look globals' entries n = look globals entries n := by
  induction entries with
  | nil => exact h
  | cons entry entries ih =>
    by_cases hn : n = entry.1
    · rw [hn]
      exact look_self.trans look_self.symm
    · rw [look_ne hn, look_ne hn, ih]

theorem look_update (h : n ∉ names entries) :
    look (update globals n b) entries = update (look globals entries) n b := by
  induction entries with
  | nil => rfl
  | cons entry entries ih =>
    obtain ⟨hne, hentries⟩ := ne_and_not_mem_of_not_mem_cons h
    unfold look
    rw [ih hentries, update_comm hne.symm]

theorem hidings_update (h : n ∉ names entries) :
    hidings (update globals n b) entries = hidings globals entries := by
  induction entries with
  | nil => rfl
  | cons entry entries ih =>
    obtain ⟨hne, hentries⟩ := ne_and_not_mem_of_not_mem_cons h
    unfold hidings
    rw [ih hentries, look_update hentries, update_of_ne hne.symm]

theorem hidings_congr {globals' : N → Option C} (h : ∀ n ∈ names entries, globals' n = globals n) :
    hidings globals' entries = hidings globals entries := by
  induction entries with
  | nil => rfl
  | cons entry entries ih =>
    unfold hidings
    rw [ih fun n hn => h n (mem_cons_of_mem _ hn), look_congr (h entry.1 mem_cons_self)]

theorem hidings_length : (hidings globals entries).length = entries.length := by
  induction entries with
  | nil => rfl
  | cons entry entries ih => exact congrArg Nat.succ ih

theorem hidings_names : (hidings globals entries).map Prod.fst = names entries := by
  induction entries with
  | nil => rfl
  | cons entry entries ih => exact congrArg (List.cons entry.1) ih

theorem hidings_append : hidings globals (upper ++ entries) =
    hidings (look globals entries) upper ++ hidings globals entries := by
  induction upper with
  | nil => rfl
  | cons entry upper ih =>
    change (_, look globals (upper ++ entries) _) :: hidings globals (upper ++ entries) = _
    rw [ih, look_append]
    rfl

structure Separate (globals : N → Option C) (entries : List (N × C)) : Prop where
  nodup : (cells entries).Nodup
  disjoint : ∀ n c, globals n = some c → c ∉ cells entries
  injective : ∀ n m c, globals n = some c → globals m = some c → n = m

theorem look_cell (h : look globals entries n = some c) :
    (n ∈ names entries ∧ c ∈ cells entries) ∨ globals n = some c := by
  by_cases hn : n ∈ names entries
  · obtain ⟨c', hlook, hmem⟩ := look_mem globals hn
    rw [h] at hlook
    cases hlook
    exact .inl ⟨hn, hmem⟩
  · exact .inr ((look_not_mem hn).symm.trans h)

omit [DecidableEq N] in
theorem Separate.tail {entry : N × C} (h : Separate globals (entry :: entries)) :
    Separate globals entries :=
  ⟨(nodup_cons.mp h.nodup).2, fun n c hc => not_mem_of_not_mem_cons (h.disjoint n c hc),
    h.injective⟩

omit [DecidableEq N] in
theorem Separate.append (h : Separate globals (upper ++ entries)) : Separate globals entries := by
  induction upper with
  | nil => exact h
  | cons entry upper ih => exact ih h.tail

theorem look_fresh (hcells : c ∉ cells entries) (hglobals : ∀ n, globals n ≠ some c) (n : N) :
    look globals entries n ≠ some c := by
  intro h
  rcases look_cell h with ⟨-, hmem⟩ | hglobal
  · exact hcells hmem
  · exact hglobals n hglobal

theorem Separate.look_inj (h : Separate globals entries) (hn : look globals entries n = some c)
    (hm : look globals entries m = some c) : n = m := by
  induction entries with
  | nil => exact h.injective n m c hn hm
  | cons entry entries ih =>
    have hfresh : ∀ n, look globals entries n ≠ some entry.2 :=
      look_fresh (nodup_cons.mp h.nodup).1
        fun n hn => h.disjoint n entry.2 hn mem_cons_self
    by_cases hne : n = entry.1
    · by_cases hme : m = entry.1
      · exact hne.trans hme.symm
      · rw [hne, look_self] at hn
        rw [look_ne hme] at hm
        exact absurd (hm.trans hn.symm) (hfresh m)
    · by_cases hme : m = entry.1
      · rw [hme, look_self] at hm
        rw [look_ne hne] at hn
        exact absurd (hn.trans hm.symm) (hfresh n)
      · rw [look_ne hne] at hn
        rw [look_ne hme] at hm
        exact ih h.tail hn hm

theorem Separate.hidden (h : Separate globals (upper ++ entries)) (hn : n ∈ names upper)
    (hc : look globals entries n = some c) (m : N) :
    look globals (upper ++ entries) m ≠ some c := by
  intro hm
  rw [look_append] at hm
  by_cases hupper : m ∈ names upper
  · obtain ⟨c', hlook, hmem⟩ := look_mem (look globals entries) hupper
    rw [hm] at hlook
    cases hlook
    have hnodup := h.nodup
    unfold cells at hnodup
    rw [map_append] at hnodup
    rcases look_cell hc with ⟨-, hcell⟩ | hglobal
    · exact (nodup_append.mp hnodup).2.2 c hmem c hcell rfl
    · apply h.disjoint n c hglobal
      unfold cells
      rw [map_append]
      exact mem_append_left _ hmem
  · rw [look_not_mem hupper] at hm
    exact hupper (h.append.look_inj hc hm ▸ hn)

end Harbour.Library.Scopes
