import Harbour.Library.OrderedMap
import Mathlib.Data.Nat.Basic

/-!
Tables with one entry for a key, sorted by key and searched by bisection.
-/

namespace Harbour.Library.KeyTable

open BinarySearch List Option

variable {K V : Type*} [LinearOrder K]

structure Table (K V : Type*) [LinearOrder K] where
  entries : List (K × V)
  sorted : entries.Pairwise fun entry entry' => entry.1 < entry'.1

namespace Table

variable (t : Table K V) {k : K} {v v' : V} {n : Nat}

def single (k : K) (v : V) : Table K V := ⟨[(k, v)], pairwise_singleton _ _⟩

def cmpAt (k : K) (n : Nat) : Int :=
  match t.entries[n]? with
  | some entry => if entry.1 < k then -1 else if k < entry.1 then 1 else 0
  | none => 1

def find (k : K) : Bool × Nat := search (t.cmpAt k) 0 t.entries.length

variable {t}

section

variable {entry : K × V} (h : t.entries[n]? = some entry)

include h

theorem cmpAt_eq : t.cmpAt k n = if entry.1 < k then -1 else if k < entry.1 then 1 else 0 := by
  unfold cmpAt
  rw [h]

theorem cmpAt_neg : t.cmpAt k n < 0 ↔ entry.1 < k := by
  rw [cmpAt_eq h]
  split_ifs with hlt hgt
  · exact iff_of_true (by decide) hlt
  · exact iff_of_false (by decide) hlt
  · exact iff_of_false (by decide) hlt

theorem cmpAt_pos : 0 < t.cmpAt k n ↔ k < entry.1 := by
  rw [cmpAt_eq h]
  split_ifs with hlt hgt
  · exact iff_of_false (by decide) (lt_asymm hlt)
  · exact iff_of_true (by decide) hgt
  · exact iff_of_false (by decide) hgt

end

theorem ascending (k : K) : Ascending (t.cmpAt k) t.entries.length := by
  intro i j hij hj
  have hi : i < t.entries.length := Nat.lt_trans hij hj
  have hlt : t.entries[i].1 < t.entries[j].1 := pairwise_iff_getElem.mp t.sorted i j hi hj hij
  have hgeti : t.entries[i]? = some t.entries[i] := getElem?_eq_getElem hi
  have hgetj : t.entries[j]? = some t.entries[j] := getElem?_eq_getElem hj
  rw [cmpAt_neg hgeti, cmpAt_neg hgetj, cmpAt_pos hgeti, cmpAt_pos hgetj]
  exact ⟨fun h => lt_trans hlt h, fun h => lt_trans h hlt⟩

theorem find_located (k : K) : Located (t.cmpAt k) t.entries.length (t.find k) :=
  search_zero_located (t.cmpAt k) (ascending k)

theorem find_found (h : t.find k = (true, n)) : ∃ v, t.entries[n]? = some (k, v) := by
  have hlocated : Located (t.cmpAt k) t.entries.length (true, n) := h ▸ find_located k
  obtain ⟨hn, hzero⟩ := hlocated
  have hget : t.entries[n]? = some t.entries[n] := getElem?_eq_getElem hn
  have hle : ¬t.entries[n].1 < k := by
    rw [← cmpAt_neg hget, hzero]
    decide
  have hge : ¬k < t.entries[n].1 := by
    rw [← cmpAt_pos hget, hzero]
    decide
  have hkey : t.entries[n].1 = k := le_antisymm (not_lt.mp hge) (not_lt.mp hle)
  exact ⟨t.entries[n].2, by rw [hget, ← hkey]⟩

theorem find_place (h : t.find k = (false, n)) : n ≤ t.entries.length ∧
    (∀ entry ∈ t.entries.take n, entry.1 < k) ∧ ∀ entry ∈ t.entries.drop n, k < entry.1 := by
  have hlocated : Located (t.cmpAt k) t.entries.length (false, n) := h ▸ find_located k
  obtain ⟨hn, hbefore, hafter⟩ := hlocated
  refine ⟨hn, ?_, ?_⟩
  · intro entry hentry
    obtain ⟨i, hi, rfl⟩ := mem_take_iff_getElem.mp hentry
    have hin : i < n := Nat.lt_of_lt_of_le hi (Nat.min_le_left ..)
    exact (cmpAt_neg (getElem?_eq_getElem _)).mp (hbefore i hin)
  · intro entry hentry
    obtain ⟨i, hi, rfl⟩ := mem_drop_iff_getElem.mp hentry
    exact (cmpAt_pos (getElem?_eq_getElem _)).mp
      (hafter (n + i) (Nat.le_add_right ..) (by omega))

theorem find_missing (h : t.find k = (false, n)) (v : V) : (k, v) ∉ t.entries := by
  obtain ⟨-, hbefore, hafter⟩ := find_place h
  intro hmem
  rw [← take_append_drop n t.entries, mem_append] at hmem
  rcases hmem with hmem | hmem
  · exact lt_irrefl k (hbefore (k, v) hmem)
  · exact lt_irrefl k (hafter (k, v) hmem)

def insert (t : Table K V) (k : K) (v : V) (n : Nat) (h : t.find k = (false, n)) : Table K V where
  entries := t.entries.insertIdx n (k, v)
  sorted := by
    obtain ⟨hn, hbefore, hafter⟩ := find_place h
    exact pairwise_insertIdx t.sorted hn hbefore hafter

theorem mem_insert {h : t.find k = (false, n)} {entry : K × V} :
    entry ∈ (t.insert k v n h).entries ↔ entry = (k, v) ∨ entry ∈ t.entries :=
  mem_insertIdx (find_place h).1

theorem insert_length {h : t.find k = (false, n)} :
    (t.insert k v n h).entries.length = t.entries.length + 1 :=
  length_insertIdx_of_le_length (find_place h).1 _

theorem length_le {t : Table Nat V} (h : ∀ entry ∈ t.entries, entry.1 < n) :
    t.entries.length ≤ n := by
  have hnodup : (t.entries.map Prod.fst).Nodup :=
    pairwise_map.mpr (t.sorted.imp fun hlt => Nat.ne_of_lt hlt)
  have hsubset : t.entries.map Prod.fst ⊆ range n := by
    intro k hk
    obtain ⟨entry, hentry, rfl⟩ := mem_map.mp hk
    exact mem_range.mpr (h entry hentry)
  have hle := (subperm_of_subset hnodup hsubset).length_le
  rw [length_map, length_range] at hle
  exact hle

end Table

end Harbour.Library.KeyTable

/-!
The values that a list of pairs gives to keys, without the order of the pairs, and what a sweep
over some keys does to them.
-/

namespace Harbour.Library.KeyValues

open KeyOrder OrderedMap

variable {K V : Type*} {cmp : K → K → Int} {S : Set K} {pairs pairs' before after : List (K × V)}
  {pair : K × V} {f f' φ : K → Option V} {key other : K} {value : V}

/-- A key has the value of the pair whose key equals it. -/
def Values (cmp : K → K → Int) (S : Set K) (pairs : List (K × V)) (f : K → Option V) : Prop :=
  ∀ key ∈ S, ∀ value, f key = some value ↔ ∃ pair ∈ pairs, cmp pair.1 key = 0 ∧ pair.2 = value

section

variable (h : Values cmp S pairs f)

include h

theorem Values.represents : Represents cmp S pairs ⟨pairs.map Prod.fst, f⟩ where
  keys := rfl
  value := h

theorem Values.perm (hperm : pairs'.Perm pairs) : Values cmp S pairs' f := by
  intro key hkey value
  rw [h key hkey value]
  simp only [hperm.mem_iff]

theorem Values.congr (hsame : ∀ key ∈ S, f' key = f key) : Values cmp S pairs f' := by
  intro key hkey value
  rw [hsame key hkey]
  exact h key hkey value

theorem Values.isSome_iff (hkey : key ∈ S) : (f key).isSome ↔ ∃ pair ∈ pairs, cmp pair.1 key = 0 :=
  h.represents.isSome_iff hkey

theorem Values.unique (h' : Values cmp S pairs f') (hkey : key ∈ S) : f key = f' key := by
  apply Option.ext
  intro value
  rw [h key hkey value, h' key hkey value]

end

theorem Values.find (hpre : PreordersKeys cmp S) (hkeys : Keyed S pairs)
    (hdistinct : Distinct cmp pairs) :
    Values cmp S pairs fun key => (pairs.find? fun pair => cmp pair.1 key = 0).map Prod.snd := by
  intro key hkey value
  rw [Option.map_eq_some_iff]
  constructor
  · rintro ⟨pair, hfind, hvalue⟩
    have hfound := List.find?_some hfind
    exact ⟨pair, List.mem_of_find?_eq_some hfind, by simpa using hfound, hvalue⟩
  · rintro ⟨pair, hmem, heq, hvalue⟩
    obtain ⟨before, after, hsplit⟩ := List.append_of_mem hmem
    subst hsplit
    have hothers := others_ne hpre hkeys hdistinct hkey heq
    have hnone : before.find? (fun pair => cmp pair.1 key = 0) = none := by
      refine List.find?_eq_none.mpr fun other hother => ?_
      simpa using hothers other (List.mem_append_left _ hother)
    refine ⟨pair, ?_, hvalue⟩
    rw [List.find?_append, hnone, Option.none_or]
    exact List.find?_cons_of_pos (decide_eq_true heq)

theorem Values.respects (hpre : PreordersKeys cmp S) (h : Values cmp S pairs f)
    (hkeys : Keyed S pairs) (hkey : key ∈ S) (hother : other ∈ S) (heq : cmp key other = 0) :
    f key = f other := by
  have hback := hpre.orders.equal_symm hkey hother heq
  apply Option.ext
  intro value
  rw [h key hkey value, h other hother value]
  constructor
  · rintro ⟨pair, hmem, hpair, hvalue⟩
    exact ⟨pair, hmem, hpre.equal_trans (hkeys pair hmem) hkey hother hpair heq, hvalue⟩
  · rintro ⟨pair, hmem, hpair, hvalue⟩
    exact ⟨pair, hmem, hpre.equal_trans (hkeys pair hmem) hother hkey hpair hback, hvalue⟩

/-- One key and its equals have a new value, or none. -/
def assign (cmp : K → K → Int) (key : K) (new : Option V) (f : K → Option V) : K → Option V :=
  fun other => if cmp key other = 0 then new else f other

section

variable (hpre : PreordersKeys cmp S)

include hpre

theorem Values.replace (h : Values cmp S (before ++ pair :: after) f)
    (hkeys : Keyed S (before ++ pair :: after)) (hdistinct : Distinct cmp (before ++ pair :: after))
    (hkey : key ∈ S) (heq : cmp pair.1 key = 0) (value : V) :
    Values cmp S (before ++ (pair.1, value) :: after) (assign cmp key (some value) f) := by
  have hstored : Represents cmp S (before ++ (pair.1, value) :: after)
      (store cmp true key value ⟨(before ++ pair :: after).map Prod.fst, f⟩) :=
    h.represents.store_found hpre hkeys hdistinct hkey heq
  exact hstored.value

theorem Values.insert (h : Values cmp S pairs f) (hkeys : Keyed S pairs) (hkey : key ∈ S)
    (hne : ∀ pair ∈ pairs, cmp pair.1 key ≠ 0) (hperm : pairs'.Perm ((key, value) :: pairs)) :
    Values cmp S pairs' (assign cmp key (some value) f) := by
  have happend : pairs ++ [] = pairs := List.append_nil pairs
  have hstored : Represents cmp S (pairs ++ [(key, value)])
      (store cmp true key value ⟨pairs.map Prod.fst, f⟩) := by
    apply Represents.store_new
    · rw [happend]
      exact h.represents
    · exact hpre
    · rwa [happend]
    · exact hkey
    · rwa [happend]
    · simp [place]
  have hvalues : Values cmp S (pairs ++ [(key, value)]) (assign cmp key (some value) f) :=
    hstored.value
  exact hvalues.perm (hperm.trans (List.perm_append_singleton _ _).symm)

theorem Values.erase (h : Values cmp S (before ++ pair :: after) f)
    (hkeys : Keyed S (before ++ pair :: after)) (hdistinct : Distinct cmp (before ++ pair :: after))
    (hkey : key ∈ S) (heq : cmp pair.1 key = 0) :
    Values cmp S (before ++ after) (assign cmp key none f) := by
  have herased := h.represents.erase_found hpre hkeys hdistinct hkey heq
  exact herased.value

theorem Values.erase_absent (h : Values cmp S pairs f) (hkeys : Keyed S pairs) (hkey : key ∈ S)
    (hne : ∀ pair ∈ pairs, cmp pair.1 key ≠ 0) : Values cmp S pairs (assign cmp key none f) := by
  have herased := h.represents.erase_absent hpre hkeys hkey hne
  exact herased.value

end

/-- The values after a sweep over some keys, which gives each of them and their equals the value
`φ`. -/
def swept (cmp : K → K → Int) (keys : List K) (φ f : K → Option V) : K → Option V :=
  fun other => if keys.any fun key => cmp key other = 0 then φ other else f other

theorem swept_cons (keys : List K) :
    swept cmp (key :: keys) φ f =
      swept cmp keys φ fun other => if cmp key other = 0 then φ other else f other := by
  funext other
  simp only [swept, List.any_cons, Bool.or_eq_true, decide_eq_true_eq]
  by_cases hkey : cmp key other = 0 <;> simp [hkey]

theorem Values.swept_eq (h : Values cmp S pairs f) (hother : other ∈ S) (φ g : K → Option V) :
    swept cmp (pairs.map Prod.fst) φ g other = if (f other).isSome then φ other else g other := by
  have hiff : ((pairs.map Prod.fst).any fun key => cmp key other = 0) = true ↔
      (f other).isSome := by
    rw [h.isSome_iff hother, List.any_map, List.any_eq_true]
    simp
  rw [swept]
  by_cases hany : ((pairs.map Prod.fst).any fun key => cmp key other = 0) = true
  · rw [if_pos hany, if_pos (hiff.mp hany)]
  · rw [if_neg hany, if_neg (mt hiff.mpr hany)]

end Harbour.Library.KeyValues
