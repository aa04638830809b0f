import Mathlib.Data.List.GetD
import Harbour.Rdd.CdxSeek

/-!
Where a search in the pages of a CDX tag ends.
-/

namespace Harbour.Rdd.CdxSeekPlaces

open CdxSeek List Option Rtl.CdpCollate

variable {c k : ℤ} {i j len : Nat} {e entry : Entry} {path : List Nat} {result : ℤ × List Nat}

variable {l : Nat} {keys : List Entry} {d : Entry → ℤ}

theorem seekLoop_spec (compare : Nat → ℤ) {r : Nat} {n : Option Nat}
    (hmono : ∀ i j, i < j → j < len → 0 < compare j → 0 < compare i) (hlr : l ≤ r) (hr : r < len)
    (hbefore : ∀ i < l, 0 < compare i) (hafter : r + 1 < len → compare r ≤ 0)
    (hlast : ∀ m, n = some m → m < l ∨ m = r ∧ k = compare r) :
    ∃ l' n' k', seekLoop compare l r n k = (l', n', k') ∧ l' < len ∧
      (∀ i < l', 0 < compare i) ∧ (l' + 1 < len → compare l' ≤ 0) ∧
      (n' = some l' → k' = compare l') := by
  fun_induction seekLoop compare l r n k with
  | case1 l r n k hlt middle k' hpos ih =>
    apply ih (by omega) hr ?_ hafter
    · rintro m hm
      obtain rfl := some.inj hm
      exact Or.inl (Nat.lt_succ_self _)
    · intro i hi
      rcases Nat.lt_or_eq_of_le (Nat.lt_succ_iff.mp hi) with him | rfl
      · exact hmono i middle him (by omega) hpos
      · exact hpos
  | case2 l r n k hlt middle k' hpos ih =>
    apply ih (by omega) (by omega) hbefore (fun _ => Int.not_lt.mp hpos)
    rintro m hm
    obtain rfl := some.inj hm
    exact Or.inr ⟨rfl, rfl⟩
  | case3 l r n k hlt =>
    obtain rfl : l = r := by omega
    refine ⟨l, n, k, rfl, hr, hbefore, hafter, fun hn => ?_⟩
    exact ((hlast l hn).resolve_left (Nat.lt_irrefl l)).2

section Branches

variable (child : Nat → Page)

def front (i : Nat) : List Entry := (range i).flatMap fun j => (child j).entries

def rest (len i : Nat) : List Entry :=
  (range (len - (i + 1))).flatMap fun j => (child (i + 1 + j)).entries

theorem branch_entries (keys : List Entry) (hi : i < keys.length) :
    (Page.branch keys child).entries =
      front child i ++ ((child i).entries ++ rest child keys.length i) := by
  rw [Page.entries, front, rest]
  obtain ⟨d, hd⟩ := Nat.exists_eq_add_of_lt hi
  rw [hd, show i + d + 1 - (i + 1) = d by omega, show i + d + 1 = i + (1 + d) by omega,
    range_add, range_add, flatMap_append, map_append, flatMap_append,
    flatMap_map, flatMap_map, flatMap_map]
  simp [Nat.add_assoc]

theorem mem_front (h : entry ∈ front child i) :
    ∃ j < i, entry ∈ (child j).entries := by
  obtain ⟨j, hj, hmem⟩ := mem_flatMap.mp h
  exact ⟨j, mem_range.mp hj, hmem⟩

theorem front_mem (hj : j < i) (h : entry ∈ (child j).entries) :
    entry ∈ front child i :=
  mem_flatMap.mpr ⟨j, mem_range.mpr hj, h⟩

theorem mem_rest (h : entry ∈ rest child len i) :
    ∃ j, i < j ∧ j < len ∧ entry ∈ (child j).entries := by
  obtain ⟨j, hj, hmem⟩ := mem_flatMap.mp h
  rw [mem_range] at hj
  exact ⟨i + 1 + j, by omega, by omega, hmem⟩

theorem rest_last (hi : len ≤ i + 1) : rest child len i = [] := by
  rw [rest, Nat.sub_eq_zero_of_le hi]
  rfl

variable {child} {R : Entry → Entry → Prop}

theorem pairwise_child (h : (Page.branch keys child).entries.Pairwise R) (hi : i < keys.length) :
    (child i).entries.Pairwise R := by
  rw [branch_entries child keys hi] at h
  exact (pairwise_append.mp (pairwise_append.mp h).2.1).1

theorem pairwise_children (h : (Page.branch keys child).entries.Pairwise R) (hij : i < j)
    (hj : j < keys.length) {a b : Entry} (ha : a ∈ (child i).entries) (hb : b ∈ (child j).entries) :
    R a b := by
  rw [branch_entries child keys hj] at h
  exact (pairwise_append.mp h).2.2 a (front_mem child hij ha) b (mem_append_left _ hb)

end Branches

section Places

variable (d : Entry → ℤ)

/-- The comparison does not go up from key to key. -/
def Falling (entries : List Entry) : Prop := entries.Pairwise fun a b => d b ≤ d a

def FirstAt (page : Page) (result : ℤ × List Nat) : Prop :=
  ∃ pre post, page.entries = pre ++ post ∧ (∀ e ∈ pre, 0 < d e) ∧ (∀ e ∈ post, d e ≤ 0) ∧
    page.position result.2 = pre.length ∧ page.curKey result.2 = post.head? ∧
      (post = [] → 0 < result.1) ∧ ∀ e, post.head? = some e → result.1 = d e

/-- A search has gone to the last key that the value is not below, or to the first of all. -/
def LastAt (page : Page) (result : ℤ × List Nat) : Prop :=
  ∃ pre post, page.entries = pre ++ post ∧ (∀ e ∈ pre, 0 ≤ d e) ∧ (∀ e ∈ post, d e < 0) ∧
    (pre = [] → page.position result.2 = 0 ∧ page.curKey result.2 = page.entries.head? ∧
      result.1 < 0) ∧
    ∀ init e, pre = init ++ [e] →
      page.position result.2 = init.length ∧ page.curKey result.2 = some e ∧ result.1 = d e

variable {d}

theorem Falling.last_le {entries : List Entry} (h : Falling d entries) {last : Entry}
    (hlast : entries.getLast? = some last) (he : e ∈ entries) : d last ≤ d e := by
  obtain ⟨init, rfl⟩ := getLast?_eq_some_iff.mp hlast
  rcases mem_append.mp he with hinit | hself
  · exact (pairwise_append.mp h).2.2 e hinit last (mem_singleton.mpr rfl)
  · rw [mem_singleton.mp hself]

theorem Falling.getD (h : Falling d keys) (hij : i ≤ j) (hj : j < keys.length) :
    d (keys.getD j default) ≤ d (keys.getD i default) := by
  rw [getD_eq_getElem _ _ hj, getD_eq_getElem _ _ (Nat.lt_of_le_of_lt hij hj)]
  rcases Nat.lt_or_eq_of_le hij with hlt | rfl
  · exact pairwise_iff_getElem.mp h i j _ _ hlt
  · exact le_refl _

variable {child : Nat → Page}

theorem branch_key (hvalid : (Page.branch keys child).Valid) (hi : i < keys.length) :
    (child i).entries.getLast? = some (keys.getD i default) := by
  rw [(hvalid.2 i hi).2, getD_eq_getElem _ _ hi, getElem?_eq_getElem hi]

theorem branch_falling (hvalid : (Page.branch keys child).Valid)
    (hfall : Falling d (Page.branch keys child).entries) (hij : i < j) (hj : j < keys.length) :
    d (keys.getD j default) ≤ d (keys.getD i default) :=
  pairwise_children hfall hij hj
    (mem_of_getLast? (branch_key hvalid (Nat.lt_trans hij hj)))
    (mem_of_getLast? (branch_key hvalid hj))

theorem le_of_mem_take (hl : l ≤ keys.length) (hbefore : ∀ i < l, c ≤ d (keys.getD i default)) :
    ∀ e ∈ keys.take l, c ≤ d e := by
  intro e he
  obtain ⟨i, hi, rfl⟩ := mem_take_iff_getElem.mp he
  rw [← getD_eq_getElem _ default]
  exact hbefore i (by omega)

section

variable (hfall : Falling d keys)

include hfall

theorem Falling.le_of_mem_drop (hafter : l < keys.length → d (keys.getD l default) ≤ c) :
    ∀ e ∈ keys.drop l, d e ≤ c := by
  intro e he
  obtain ⟨i, hi, rfl⟩ := mem_drop_iff_getElem.mp he
  rw [← getD_eq_getElem _ default]
  exact le_trans (hfall.getD (Nat.le_add_right l i) (by omega)) (hafter (by omega))

theorem firstAt_leaf (hl : l ≤ keys.length) (hbefore : ∀ i < l, 0 < d (keys.getD i default))
    (hafter : l < keys.length → d (keys.getD l default) ≤ 0)
    (hk : l < keys.length → k = d (keys.getD l default)) (hend : l = keys.length → 0 < k) :
    FirstAt d (.leaf keys) (k, [l]) := by
  refine ⟨keys.take l, keys.drop l, (take_append_drop l keys).symm,
    le_of_mem_take hl hbefore, hfall.le_of_mem_drop hafter, (length_take_of_le hl).symm,
    head?_drop.symm, fun hnil => ?_, fun e he => ?_⟩
  · exact hend (Nat.le_antisymm hl (drop_eq_nil_iff.mp hnil))
  · rw [head?_drop] at he
    obtain ⟨hlt, rfl⟩ := List.getElem?_eq_some_iff.mp he
    rw [hk hlt, getD_eq_getElem _ _ hlt]

theorem lastAt_leaf (hl : l ≤ keys.length) (hbefore : ∀ i < l, 0 ≤ d (keys.getD i default))
    (hafter : l < keys.length → d (keys.getD l default) < 0)
    (hk : 0 < l → k = d (keys.getD (l - 1) default)) (hnone : l = 0 → k < 0) :
    LastAt d (.leaf keys) (k, [l - 1]) := by
  refine ⟨keys.take l, keys.drop l, (take_append_drop l keys).symm,
    le_of_mem_take hl hbefore, fun e he => ?_, fun hnil => ?_, fun init e he => ?_⟩
  · have hle := hfall.le_of_mem_drop (fun h => Int.le_sub_one_of_lt (hafter h)) e he
    omega
  · have hzero : l = 0 := by
      have hlength := length_take_of_le hl
      rw [hnil] at hlength
      exact hlength.symm
    subst hzero
    exact ⟨rfl, head?_eq_getElem?.symm, hnone rfl⟩
  · have hlength := congrArg length he
    rw [length_take_of_le hl, length_append, length_singleton] at hlength
    subst hlength
    have hlast : keys[init.length]? = some e := by
      rw [← getElem?_take_of_lt (Nat.lt_succ_self init.length), he,
        getElem?_append_right (Nat.le_refl _), Nat.sub_self]
      rfl
    obtain ⟨hlt, rfl⟩ := List.getElem?_eq_some_iff.mp hlast
    rw [hk (Nat.succ_pos _), Nat.add_sub_cancel, getD_eq_getElem _ _ hlt]
    exact ⟨rfl, hlast, rfl⟩

end

section

variable (hvalid : (Page.branch keys child).Valid)
  (hfall : Falling d (Page.branch keys child).entries)

include hvalid hfall

theorem le_of_mem_front (hl : l ≤ keys.length) (hbefore : ∀ i < l, c ≤ d (keys.getD i default)) :
    ∀ e ∈ front child l, c ≤ d e := by
  intro e he
  obtain ⟨i, hi, he⟩ := mem_front child he
  have hlen : i < keys.length := Nat.lt_of_lt_of_le hi hl
  exact le_trans (hbefore i hi)
    (Falling.last_le (pairwise_child hfall hlen) (branch_key hvalid hlen) he)

theorem le_of_mem_rest (hl : l < keys.length)
    (hafter : l + 1 < keys.length → d (keys.getD l default) ≤ c) :
    ∀ e ∈ rest child keys.length l, d e ≤ c := by
  intro e he
  obtain ⟨i, hi, hlen, he⟩ := mem_rest child he
  exact le_trans (pairwise_children hfall hi hlen (mem_of_getLast? (branch_key hvalid hl)) he)
    (hafter (by omega))

theorem firstAt_branch (hl : l < keys.length) (hbefore : ∀ i < l, 0 < d (keys.getD i default))
    (hafter : l + 1 < keys.length → d (keys.getD l default) ≤ 0)
    (hchild : FirstAt d (child l) (k, path)) : FirstAt d (.branch keys child) (k, l :: path) := by
  obtain ⟨pre, post, hentries, hpre, hpost, hposition, hcur, hnil, hhead⟩ := hchild
  have hmem := mem_of_getLast? (branch_key hvalid hl)
  have hrest : post = [] → rest child keys.length l = [] := by
    rintro rfl
    rw [hentries, append_nil] at hmem
    refine rest_last child (Nat.le_of_not_lt fun hlt => ?_)
    exact absurd (hpre _ hmem) (not_lt.mpr (hafter hlt))
  have hhead? : (post ++ rest child keys.length l).head? = post.head? := by
    cases post with
    | nil => rw [hrest rfl, append_nil]
    | cons e post => rfl
  refine ⟨front child l ++ pre, post ++ rest child keys.length l, ?_, ?_, ?_, ?_, ?_,
    fun h => hnil (append_eq_nil_iff.mp h).1, fun e he => hhead e (hhead? ▸ he)⟩
  · rw [branch_entries child keys hl, hentries]
    simp
  · rw [forall_mem_append]
    exact ⟨le_of_mem_front hvalid hfall (Nat.le_of_lt hl) hbefore, hpre⟩
  · rw [forall_mem_append]
    exact ⟨hpost, le_of_mem_rest hvalid hfall hl hafter⟩
  · rw [Page.position, hposition, length_append]
    rfl
  · rw [hhead?]
    exact hcur

theorem lastAt_branch (hl : l < keys.length) (hbefore : ∀ i < l, 0 ≤ d (keys.getD i default))
    (hafter : l + 1 < keys.length → d (keys.getD l default) < 0)
    (hchild : LastAt d (child l) (k, path)) (hhere : l = 0 ∨ 0 ≤ k) :
    LastAt d (.branch keys child) (k, l :: path) := by
  obtain ⟨pre, post, hentries, hpre, hpost, hnone, hlast⟩ := hchild
  refine ⟨front child l ++ pre, post ++ rest child keys.length l, ?_, ?_, ?_, fun h => ?_,
    fun init e he => ?_⟩
  · rw [branch_entries child keys hl, hentries]
    simp
  · rw [forall_mem_append]
    exact ⟨le_of_mem_front hvalid hfall (Nat.le_of_lt hl) hbefore, hpre⟩
  · rw [forall_mem_append]
    refine ⟨hpost, fun e he => ?_⟩
    have hle := le_of_mem_rest hvalid hfall hl (fun h => Int.le_sub_one_of_lt (hafter h)) e he
    omega
  · obtain ⟨hfront, hnil⟩ := append_eq_nil_iff.mp h
    obtain ⟨hposition, hcur, hk⟩ := hnone hnil
    obtain rfl := hhere.resolve_right (not_le.mpr hk)
    refine ⟨?_, ?_, hk⟩
    · rw [Page.position, hposition]
      rfl
    · have hmem := mem_of_getLast? (branch_key hvalid hl)
      obtain ⟨first, others, hchild⟩ := exists_cons_of_ne_nil (ne_nil_of_mem hmem)
      rw [branch_entries child keys hl, hfront, hchild]
      rw [hchild] at hcur
      exact hcur
  · rcases eq_nil_or_concat' pre with rfl | ⟨init', e', rfl⟩
    · obtain ⟨-, -, hk⟩ := hnone rfl
      obtain rfl := hhere.resolve_right (not_le.mpr hk)
      simp [front] at he
    · rw [← append_assoc] at he
      obtain ⟨rfl, rfl⟩ := append_singleton_inj.mp he
      obtain ⟨hposition, hcur, hk⟩ := hlast init' e' rfl
      refine ⟨?_, hcur, hk⟩
      rw [Page.position, hposition, length_append]
      rfl

theorem lastAt_branch_back (hl : l + 1 < keys.length)
    (hbefore : ∀ i < l + 1, 0 ≤ d (keys.getD i default)) {k' : ℤ} {path' : List Nat}
    (hchild : LastAt d (child (l + 1)) (k', path')) (hk : k' < 0)
    (hback : LastAt d (child l) (k, path)) : LastAt d (.branch keys child) (k, l :: path) := by
  have hl' : l < keys.length := Nat.lt_of_succ_lt hl
  have hbelow : ∀ e ∈ (child (l + 1)).entries, d e < 0 := by
    obtain ⟨pre, post, hentries, hpre, hpost, -, hlast⟩ := hchild
    rcases eq_nil_or_concat' pre with rfl | ⟨init, e, rfl⟩
    · rwa [hentries, nil_append]
    · obtain ⟨-, -, hk'⟩ := hlast init e rfl
      have hge := hpre e (mem_append_right init (mem_singleton.mpr rfl))
      omega
  obtain ⟨pre, post, hentries, hpre, hpost, hnone, hlast⟩ := hback
  have hkey := branch_key hvalid hl'
  have hnil : post = [] := by
    rcases eq_nil_or_concat' post with rfl | ⟨init, e, rfl⟩
    · rfl
    · rw [hentries, ← append_assoc, getLast?_concat] at hkey
      have hlt := hpost e (mem_append_right init (mem_singleton.mpr rfl))
      rw [some.inj hkey] at hlt
      exact absurd hlt (not_lt.mpr (hbefore l (Nat.lt_succ_self l)))
  subst hnil
  rw [append_nil] at hentries
  have hfront : front child (l + 1) = front child l ++ pre := by
    rw [front, front, range_succ, flatMap_append, flatMap_singleton, hentries]
  refine ⟨front child (l + 1), (child (l + 1)).entries ++ rest child keys.length (l + 1), ?_,
    le_of_mem_front hvalid hfall (Nat.le_of_lt hl) hbefore, ?_, fun h => ?_, fun init e he => ?_⟩
  · exact branch_entries child keys hl
  · rw [forall_mem_append]
    refine ⟨hbelow, fun e he => ?_⟩
    have hkey' := hbelow _ (mem_of_getLast? (branch_key hvalid hl))
    have hle := le_of_mem_rest hvalid hfall hl (fun _ => Int.le_sub_one_of_lt hkey') e he
    omega
  · rw [hfront] at h
    have hmem := mem_of_getLast? hkey
    rw [hentries, (append_eq_nil_iff.mp h).2] at hmem
    exact absurd hmem not_mem_nil
  · obtain ⟨init', hinit⟩ := getLast?_eq_some_iff.mp hkey
    rw [hentries] at hinit
    rw [hfront, hinit, ← append_assoc] at he
    obtain ⟨rfl, rfl⟩ := append_singleton_inj.mp he
    obtain ⟨hposition, hcur, hk⟩ := hlast init' _ hinit
    refine ⟨?_, hcur, hk⟩
    rw [Page.position, hposition, length_append]
    rfl

end

end Places

section Main

variable {tag : CdxTag} {pKey : CdxKey} {ulKeyRec : Nat}

theorem loopCompare_first (hrec : ulKeyRec ≠ CDX_MAX_REC_NUM) (e : Entry) :
    loopCompare tag pKey ulKeyRec e = keyCompare tag pKey ulKeyRec e := by
  rw [loopCompare, if_neg fun h => hrec h.2]

theorem keyCompare_last (e : Entry) :
    keyCompare tag pKey CDX_MAX_REC_NUM e = valueCompare tag pKey e := by
  exact if_neg fun h => h.2.1 rfl

theorem loopCompare_last (e : Entry) :
    0 < loopCompare tag pKey CDX_MAX_REC_NUM e ↔ 0 ≤ valueCompare tag pKey e := by
  rw [loopCompare, keyCompare_last]
  split
  · next h => rw [h.1]; decide
  · next h =>
    omega

theorem loop_first (hrec : ulKeyRec ≠ CDX_MAX_REC_NUM) (hkeys : keys.length ≠ 0)
    (hfall : ∀ i j, i < j → j < keys.length → keyCompare tag pKey ulKeyRec (keys.getD j default) ≤
      keyCompare tag pKey ulKeyRec (keys.getD i default)) (k : ℤ) :
    ∃ l n k', seekLoop (fun n => loopCompare tag pKey ulKeyRec (keys.getD n default)) 0
        (keys.length - 1) none k = (l, n, k') ∧ l < keys.length ∧
      (∀ i < l, 0 < keyCompare tag pKey ulKeyRec (keys.getD i default)) ∧
      (l + 1 < keys.length → keyCompare tag pKey ulKeyRec (keys.getD l default) ≤ 0) ∧
      (n = some l → k' = keyCompare tag pKey ulKeyRec (keys.getD l default)) := by
  simp only [loopCompare_first hrec]
  refine seekLoop_spec _ (fun i j hij hj hpos => ?_) (Nat.zero_le _) (by omega)
    (fun _ h => absurd h (Nat.not_lt_zero _)) (by omega) nofun
  exact lt_of_lt_of_le hpos (hfall i j hij hj)

theorem loop_last (hkeys : keys.length ≠ 0)
    (hfall : ∀ i j, i < j → j < keys.length → valueCompare tag pKey (keys.getD j default) ≤
      valueCompare tag pKey (keys.getD i default)) (k : ℤ) :
    ∃ l n k', seekLoop (fun n => loopCompare tag pKey CDX_MAX_REC_NUM (keys.getD n default)) 0
        (keys.length - 1) none k = (l, n, k') ∧ l < keys.length ∧
      (∀ i < l, 0 ≤ valueCompare tag pKey (keys.getD i default)) ∧
      (l + 1 < keys.length → valueCompare tag pKey (keys.getD l default) < 0) := by
  obtain ⟨l, n, k', hloop, hl, hbefore, hafter, -⟩ := seekLoop_spec
    (fun n => loopCompare tag pKey CDX_MAX_REC_NUM (keys.getD n default))
    (fun i j hij hj hpos => (loopCompare_last _).mpr
      (le_trans ((loopCompare_last _).mp hpos) (hfall i j hij hj)))
    (Nat.zero_le _) (show keys.length - 1 < keys.length by omega)
    (fun _ h => absurd h (Nat.not_lt_zero _)) (by omega)
    (fun m hm => absurd hm.symm (some_ne_none m))
  refine ⟨l, n, k', hloop, hl, fun i hi => (loopCompare_last _).mp (hbefore i hi), fun h => ?_⟩
  exact not_le.mp fun hge => absurd ((loopCompare_last _).mpr hge) (not_lt.mpr (hafter h))

theorem seek_first (hrec : ulKeyRec ≠ CDX_MAX_REC_NUM) (page : Page) (hvalid : page.Valid)
    (hfall : Falling (keyCompare tag pKey ulKeyRec) page.entries) :
    FirstAt (keyCompare tag pKey ulKeyRec) page (hb_cdxPageSeekKey tag pKey ulKeyRec page) := by
  induction page with
  | leaf keys =>
    have hleaf : Falling (keyCompare tag pKey ulKeyRec) keys := hfall
    rw [hb_cdxPageSeekKey]
    by_cases hkeys : keys.length = 0
    · rw [if_pos hkeys, if_neg hrec]
      exact firstAt_leaf hleaf (Nat.zero_le _) (fun _ h => absurd h (Nat.not_lt_zero _))
        (by omega) (by omega) (fun _ => one_pos)
    · obtain ⟨l, n, k, hloop, hl, hbefore, hafter, hstale⟩ := loop_first hrec hkeys
        (fun i j hij hj => Falling.getD hleaf (Nat.le_of_lt hij) hj) 1
      rw [if_neg hkeys, if_neg hrec, hloop]
      -- the comparison of the loop is kept only where it is the one with this key
      have hk : (if n ≠ some l ∨ ulKeyRec = CDX_MAX_REC_NUM then
          keyCompare tag pKey ulKeyRec (keys.getD l default) else k) =
            keyCompare tag pKey ulKeyRec (keys.getD l default) := by
        split
        · rfl
        · next h => exact hstale (not_not.mp fun hne => h (Or.inl hne))
      simp only [hk, if_neg hrec]
      split
      · next hpos =>
        refine firstAt_leaf hleaf hl (fun i hi => ?_) (by omega) (by omega) (fun _ => hpos)
        rcases Nat.lt_or_eq_of_le (Nat.lt_succ_iff.mp hi) with hlt | rfl
        · exact hbefore i hlt
        · exact hpos
      · next hpos =>
        exact firstAt_leaf hleaf (Nat.le_of_lt hl) hbefore (fun _ => not_lt.mp hpos)
          (fun _ => rfl) (by omega)
  | branch keys child ih =>
    have hkeys : keys.length ≠ 0 := length_eq_zero_iff.not.mpr hvalid.1
    obtain ⟨l, n, k, hloop, hl, hbefore, hafter, -⟩ := loop_first hrec hkeys
      (fun i j hij hj => branch_falling hvalid hfall hij hj) 1
    have hchild := ih l (hvalid.2 l hl).1 (pairwise_child hfall hl)
    rw [hb_cdxPageSeekKey, if_neg hkeys, if_neg hrec, hloop]
    simp only [hrec, false_and, if_false]
    exact firstAt_branch hvalid hfall hl hbefore hafter hchild

theorem seek_last (page : Page) (hvalid : page.Valid)
    (hfall : Falling (valueCompare tag pKey) page.entries) :
    LastAt (valueCompare tag pKey) page (hb_cdxPageSeekKey tag pKey CDX_MAX_REC_NUM page) := by
  induction page with
  | leaf keys =>
    have hleaf : Falling (valueCompare tag pKey) keys := hfall
    rw [hb_cdxPageSeekKey]
    by_cases hkeys : keys.length = 0
    · rw [if_pos hkeys, if_pos rfl]
      exact lastAt_leaf hleaf (Nat.zero_le _) (fun _ h => absurd h (Nat.not_lt_zero _)) (by omega)
        (by omega) (fun _ => neg_one_lt_zero)
    · obtain ⟨l, n, k, hloop, hl, hbefore, hafter⟩ := loop_last hkeys
        (fun i j hij hj => Falling.getD hleaf (Nat.le_of_lt hij) hj) (-1)
      rw [if_neg hkeys, if_pos rfl, hloop]
      simp only [or_true, if_true, keyCompare_last]
      split
      · next h =>
        exact lastAt_leaf hleaf (Nat.le_of_lt hl) hbefore (fun _ => h.2) (fun _ => rfl) (by omega)
      · next h =>
        rcases lt_or_ge (valueCompare tag pKey (keys.getD l default)) 0 with hneg | hge
        · obtain rfl : l = 0 := by omega
          exact lastAt_leaf hleaf (Nat.zero_le _) hbefore (fun _ => hneg) (by omega)
            (fun _ => hneg)
        · refine lastAt_leaf hleaf hl (fun i hi => ?_) (by omega) (fun _ => rfl) (by omega)
          rcases Nat.lt_or_eq_of_le (Nat.lt_succ_iff.mp hi) with hlt | rfl
          · exact hbefore i hlt
          · exact hge
  | branch keys child ih =>
    have hkeys : keys.length ≠ 0 := length_eq_zero_iff.not.mpr hvalid.1
    obtain ⟨l, n, k, hloop, hl, hbefore, hafter⟩ := loop_last hkeys
      (fun i j hij hj => branch_falling hvalid hfall hij hj) (-1)
    have hchild := ih l (hvalid.2 l hl).1 (pairwise_child hfall hl)
    rw [hb_cdxPageSeekKey, if_neg hkeys, if_pos rfl, hloop]
    simp only [true_and]
    split
    · next h =>
      obtain ⟨l, rfl⟩ := Nat.exists_eq_succ_of_ne_zero (Nat.ne_of_gt h.1)
      have hback := ih l (hvalid.2 l (Nat.lt_of_succ_lt hl)).1
        (pairwise_child hfall (Nat.lt_of_succ_lt hl))
      exact lastAt_branch_back hvalid hfall hl hbefore hchild h.2 hback
    · next h => exact lastAt_branch hvalid hfall hl hbefore hafter hchild (by omega)

structure ValidTree (tag : CdxTag) (root : Page) : Prop where
  valid : root.Valid
  length : ∀ e ∈ root.entries, e.val.length = tag.uiLen
  sorted : root.entries.Pairwise fun a b => hb_cdxValCompare tag a.val b.val .exact < 0 ∨
    hb_cdxValCompare tag a.val b.val .exact = 0 ∧ a.recNo < b.recNo

def WholeWithRecord (tag : CdxTag) (pKey : CdxKey) (ulKeyRec : Nat) : Prop :=
  ulKeyRec = CDX_IGNORE_REC_NUM ∨ ulKeyRec = CDX_MAX_REC_NUM ∨ pKey.val.length = tag.uiLen ∨
    pKey.mode = .exact ∧ ¬ tag.byCodePage

/-- Where the tag compares by a code page, this one orders the keys of the tree, and the value
among them. -/
def PageCollates (tag : CdxTag) (root : Page) (pKey : CdxKey) : Prop :=
  tag.byCodePage → Collates (cdpcmp tag.cdPage · · false)
    {val | ∃ e ∈ root.entries, e.val = val} pKey.val

variable {root : Page}

theorem ValidTree.le (hroot : ValidTree tag root) : root.entries.Pairwise fun a b =>
    hb_cdxValCompare tag a.val b.val .exact ≤ 0 :=
  hroot.sorted.imp fun h => h.elim le_of_lt fun h => le_of_eq h.1

theorem ValidTree.value_falling (hroot : ValidTree tag root)
    (hpage : PageCollates tag root pKey) : Falling (valueCompare tag pKey) root.entries :=
  hroot.le.imp_of_mem fun {a b} ha hb hle =>
    hb_cdxValCompare_anti hpage ⟨a, ha, rfl⟩ ⟨b, hb, rfl⟩
      ((hroot.length a ha).trans (hroot.length b hb).symm) hle _

theorem keyCompare_of_ne (h : valueCompare tag pKey e ≠ 0) :
    keyCompare tag pKey ulKeyRec e = valueCompare tag pKey e := by
  exact if_neg fun hzero => h hzero.1

theorem keyCompare_bounds (ulKeyRec : Nat) (h : valueCompare tag pKey e = 0) :
    -1 ≤ keyCompare tag pKey ulKeyRec e ∧ keyCompare tag pKey ulKeyRec e ≤ 1 := by
  simp only [keyCompare, h]
  split_ifs <;> decide

theorem ValidTree.key_falling (hroot : ValidTree tag root)
    (hpage : PageCollates tag root pKey) (hwhole : WholeWithRecord tag pKey ulKeyRec) :
    Falling (keyCompare tag pKey ulKeyRec) root.entries := by
  by_cases hrec : ulKeyRec ≠ CDX_MAX_REC_NUM ∧ ulKeyRec ≠ CDX_IGNORE_REC_NUM
  · have hfull := (hwhole.resolve_left hrec.2).resolve_left hrec.1
    refine (hroot.sorted.and (hroot.value_falling hpage)).imp_of_mem fun {a b} ha hb h => ?_
    obtain ⟨horder, hvalue⟩ := h
    have hlength := (hroot.length a ha).trans (hroot.length b hb).symm
    by_cases hza : valueCompare tag pKey a = 0
    · by_cases hzb : valueCompare tag pKey b = 0
      · have htie := hb_cdxValCompare_tie hpage ⟨a, ha, rfl⟩ ⟨b, hb, rfl⟩ hlength
          (hfull.imp_left fun h => h.trans (hroot.length a ha).symm) hza hzb
        simp only [keyCompare, hza, hzb, hrec, ne_eq, not_false_eq_true, and_self, if_true]
        split_ifs <;> omega
      · have hbounds := keyCompare_bounds ulKeyRec hza
        rw [keyCompare_of_ne hzb]
        omega
    · rw [keyCompare_of_ne hza]
      by_cases hzb : valueCompare tag pKey b = 0
      · have hbounds := keyCompare_bounds ulKeyRec hzb
        omega
      · rwa [keyCompare_of_ne hzb]
  · have hsame : keyCompare tag pKey ulKeyRec = valueCompare tag pKey := by
      funext e
      exact if_neg fun h => hrec h.2
    rw [hsame]
    exact hroot.value_falling hpage

theorem FirstAt.match_iff (h : FirstAt d root result) (hfall : Falling d root.entries) :
    result.1 = 0 ↔ ∃ e ∈ root.entries, d e = 0 := by
  obtain ⟨pre, post, hentries, hpre, hpost, -, -, hnil, hhead⟩ := h
  rw [Falling, hentries] at hfall
  rw [hentries]
  cases post with
  | nil =>
    refine ⟨fun hzero => absurd (hnil rfl) (by omega), fun ⟨e, he, hzero⟩ => ?_⟩
    rw [append_nil] at he
    exact absurd (hpre e he) (by omega)
  | cons first post =>
    rw [hhead first rfl]
    refine ⟨fun hzero => ⟨first, by simp, hzero⟩, fun ⟨e, he, hzero⟩ => ?_⟩
    rcases mem_append.mp he with he | he
    · exact absurd (hpre e he) (by omega)
    · have hfirst := hpost first mem_cons_self
      rcases mem_cons.mp he with rfl | he
      · exact hzero
      · have hle := (pairwise_cons.mp (pairwise_append.mp hfall).2.1).1 e he
        omega

theorem LastAt.match_iff (h : LastAt d root result) (hfall : Falling d root.entries) :
    result.1 = 0 ↔ ∃ e ∈ root.entries, d e = 0 := by
  obtain ⟨pre, post, hentries, hpre, hpost, hnone, hlast⟩ := h
  rw [Falling, hentries] at hfall
  rw [hentries]
  rcases eq_nil_or_concat' pre with rfl | ⟨init, last, rfl⟩
  · obtain ⟨-, -, hneg⟩ := hnone rfl
    refine ⟨fun hzero => absurd hneg (by omega), fun ⟨e, he, hzero⟩ => ?_⟩
    exact absurd (hpost e he) (by omega)
  · obtain ⟨-, -, hk⟩ := hlast init last rfl
    rw [hk]
    refine ⟨fun hzero => ⟨last, by simp, hzero⟩, fun ⟨e, he, hzero⟩ => ?_⟩
    rcases mem_append.mp he with he | he
    · have hge := hpre last (mem_append_right init (mem_singleton.mpr rfl))
      rcases mem_append.mp he with he | he
      · have hle := (pairwise_append.mp (pairwise_append.mp hfall).1).2.2 e he last
          (mem_singleton.mpr rfl)
        omega
      · rwa [← mem_singleton.mp he]
    · exact absurd (hpost e he) (by omega)

end Main

def accentedPage (sort acc : UInt8 → UInt8) : CodePage where
  sort := sort
  acc := some acc
  upper := fun u => if 97 ≤ u ∧ u ≤ 122 then u - 32 else u
  multi1 := fun _ => false
  multi2 := fun _ => false
  multi := []

/-- The code page of the letters `A~B` and `a~b`, upper and lower case mixed and accents sorted
between. -/
def mixedCase : CodePage :=
  accentedPage
    (fun u => if u = 65 then 65 else if u = 97 ∨ u = 66 ∨ u = 98 then 66
      else if 67 ≤ u ∧ u < 97 then u + 2 else u)
    (fun u => if u = 97 then 66 else if u = 66 then 67 else if u = 98 then 68
      else if 67 ≤ u ∧ u < 97 then u + 2 else u)

/-- The same letters, case ignored. -/
def ignoredCase : CodePage :=
  accentedPage
    (fun u => if u = 65 ∨ u = 97 ∨ u = 66 ∨ u = 98 then 65 else if 98 < u then u - 2 else u)
    (fun u => if u = 65 ∨ u = 97 then 65 else if u = 66 ∨ u = 98 then 66
      else if 98 < u then u - 2 else u)

def pageTag (uiLen : Nat) (cdPage : CodePage) : CdxTag := ⟨67, uiLen, none, true, cdPage⟩

/-- The places that `mixedCase` gives the bytes, back to these. -/
def mixedCaseByte (n : UInt8) : UInt8 :=
  if n = 66 then 97 else if n = 67 then 66 else if n = 68 then 98
  else if 69 ≤ n ∧ n < 99 then n - 2 else n

theorem mixedCase_separates : mixedCase.Separates := by
  have hall : ∀ n : Fin 256, mixedCaseByte (mixedCase.accent (UInt8.ofNat n)) = UInt8.ofNat n := by
    decide +kernel
  have hback : ∀ u, mixedCaseByte (mixedCase.accent u) = u := by
    intro u
    have h := hall ⟨u.toNat, u.toNat_lt⟩
    rwa [UInt8.ofNat_toNat] at h
  intro u v hne _ hacc
  exact hne ((hback u).symm.trans ((congrArg mixedCaseByte hacc).trans (hback v)))

/-- The keys `aC`, `BC`, then `bC`, `BD`. -/
def twoPages : Page :=
  .branch [⟨[66, 67], 3⟩, ⟨[66, 68], 9⟩] fun i =>
    if i = 0 then .leaf [⟨[97, 67], 7⟩, ⟨[66, 67], 3⟩] else .leaf [⟨[98, 67], 5⟩, ⟨[66, 68], 9⟩]

theorem twoPages_valid : ValidTree (pageTag 2 mixedCase) twoPages := by
  refine ⟨⟨by decide, fun i hi => ?_⟩, by decide, by decide +kernel⟩
  obtain rfl | rfl : i = 0 ∨ i = 1 := by
    change i < 2 at hi
    omega
  · exact ⟨trivial, rfl⟩
  · exact ⟨trivial, rfl⟩

theorem twoPages_collates (pKey : CdxKey) : PageCollates (pageTag 2 mixedCase) twoPages pKey := by
  have hkeys : ∀ val ∈ {val | ∃ e ∈ twoPages.entries, e.val = val}, val.length = 2 := by
    rintro _ ⟨e, he, rfl⟩
    exact twoPages_valid.length e he
  exact fun _ => std_collates (Or.inr mixedCase_separates) rfl hkeys pKey.val

def charTag : CdxTag := ⟨67, 2, none, false, mixedCase⟩

def threeKeys : Page := .leaf [⟨[65, 65], 7⟩, ⟨[65, 66], 3⟩, ⟨[65, 67], 9⟩]

theorem threeKeys_valid : ValidTree charTag threeKeys := by
  refine ⟨trivial, by decide, ?_⟩
  decide

def twoCases : Page := .leaf [⟨[65], 1⟩, ⟨[97], 2⟩]

theorem twoCases_valid : ValidTree (pageTag 1 ignoredCase) twoCases := by
  refine ⟨trivial, by decide, ?_⟩
  decide

end Harbour.Rdd.CdxSeekPlaces
