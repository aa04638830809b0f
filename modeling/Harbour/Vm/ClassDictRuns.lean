import Harbour.Vm.ClassDictSteps

/-!
Runs of messages added to a class, overwritten and freed.
-/

namespace Harbour.Vm.ClassDict

open Library.Slots Function Option List Finset

variable {β : Type} [Inhabited β]

namespace Dict

def live (M : Nat → Option β) : Finset Nat := (Finset.range 65536).filter fun m => (M m).isSome

omit [Inhabited β] in
theorem mem_live {M : Nat → Option β} {m : Nat} : m ∈ live M ↔ m < 65536 ∧ (M m).isSome := by
  rw [live, Finset.mem_filter, Finset.mem_range]

omit [Inhabited β] in
theorem live_update_some (M : Nat → Option β) {m : Nat} (hm : IsMsg m) (x : β) :
    live (update M m (some x)) = insert m (live M) := by
  ext m'
  rw [mem_insert, mem_live, mem_live]
  by_cases heq : m' = m
  · subst heq
    have hle := hm.2
    simp only [update_self, isSome_some, and_true, true_or, iff_true]
    omega
  · rw [update_of_ne heq, or_iff_right heq]

omit [Inhabited β] in
theorem live_update_none (M : Nat → Option β) (m : Nat) :
    live (update M m none) = (live M).erase m := by
  ext m'
  rw [mem_erase, mem_live, mem_live]
  by_cases heq : m' = m
  · subst heq
    simp
  · rw [update_of_ne heq, and_iff_right heq]

omit [Inhabited β] in
theorem card_live_lt {M : Nat → Option β} (hM : ∀ m x, M m = some x → IsMsg m) :
    (live M).card < 65536 := by
  have hsub : live M ⊆ (Finset.range 65536).erase 0 := by
    intro m hm
    obtain ⟨hlt, hsome⟩ := mem_live.mp hm
    obtain ⟨x, hx⟩ := Option.isSome_iff_exists.mp hsome
    have hpos := (hM m x hx).1
    exact Finset.mem_erase.mpr ⟨by omega, Finset.mem_range.mpr hlt⟩
  have hle := card_le_card hsub
  rw [card_erase_of_mem (by simp), card_range] at hle
  omega

section Represents

variable {d : Dict β} {M : Nat → Option β} (h : d.Represents M)

include h

theorem Represents.isMsg {m : Nat} {x : β} (hx : M m = some x) : IsMsg m :=
  h.sound.content_isMsg ((h.content m x).mpr hx)

theorem Represents.content_none {m : Nat} (hnone : M m = none) (x : β) : ¬ d.Content m x := by
  rw [h.content, hnone]
  exact fun heq => some_ne_none x heq.symm

end Represents

/-- Fewer than 65535 methods are allocated, when the message needs one. -/
def Room (d : Dict β) (m : Nat) : Prop := d.uiMethodCount < 65535 ∨ ∃ x, d.Content m x

theorem addMsg_represents {d : Dict β} {M : Nat → Option β} (h : d.Represents M) {m : Nat}
    (hm : IsMsg m) (hclear : d.Clear m) (hroom : d.Room m) (fill : Option β → β) :
    ∃ d', d.addMsg m fill = some d' ∧
      d'.Represents (update M m (some (fill (M m)))) := by
  have hm0 : m ≠ 0 := Nat.ne_of_gt hm.1
  have hcontent : ∀ m' y, (if m' = m then y = fill (M m) else d.Content m' y) ↔
      update M m (some (fill (M m))) m' = some y := by
    intro m' y
    by_cases heq : m' = m
    · rw [if_pos heq, heq, update_self, Option.some.injEq, eq_comm]
    · rw [if_neg heq, update_of_ne heq, h.content]
  cases hMm : M m with
  | some x =>
    obtain ⟨p, hused, hmethod⟩ := (h.content m x).mpr hMm
    have hmsg : d.msg p = m := by unfold msg; rw [hmethod]
    have hover := h.sound.overwrite hused hmsg (fill (M m)) d.uiMethods
    refine ⟨{ d with pMethods := d.pMethods.set (d.idx p) ⟨m, fill (M m)⟩ }, ?_, hover.1,
      fun m' y => ?_, ?_⟩
    · unfold addMsg
      rw [allocMsg_live h.sound hm hclear hused hmsg]
      simp only [map_some, hmethod, if_neg hm0, hMm]
    · rw [← hMm, ← hcontent]
      exact hover.2 m' y
    · have hin : m ∈ live M := mem_live.mpr ⟨by have := hm.2; omega, by rw [hMm]; rfl⟩
      have hcard := congrArg card (live_update_some M hm (fill (M m)))
      rw [insert_eq_of_mem hin] at hcard
      rw [← hMm]
      exact h.methods.trans hcard.symm
  | none =>
    have hnew := h.content_none hMm
    obtain ⟨d', p, hsound, hsame, hcount, hmethods, hfree, hle, hlt, halloc⟩ :=
      allocMsg_new h.sound hm hnew
    have hroom' : d'.uiMethodCount < 65535 := by
      rw [hcount]
      exact hroom.resolve_right fun ⟨x, hx⟩ => hnew x hx
    have hfill := hsound.fill_new hm (fun x hx => hnew x ((hsame m x).mp hx)) hfree hle hlt hroom'
      (fill (M m)) ((d'.uiMethods + 1) % 2 ^ 16)
    have htake : d'.pMethods.take d'.uiMethodCount = d'.pMethods := by
      rw [hsound.count, take_length]
    refine ⟨_, ?_, hfill.1, fun m' y => ?_, ?_⟩
    · unfold addMsg
      rw [halloc]
      have hcleared : (d'.pMethods ++ [Method.cleared]).getD d'.uiMethodCount Method.cleared =
          (Method.cleared : Method β) := by
        rw [hsound.count, getD_concat, if_pos rfl]
      have hset : (d'.pMethods ++ [Method.cleared]).set d'.uiMethodCount ⟨m, fill (M m)⟩ =
          d'.pMethods ++ [⟨m, fill (M m)⟩] := by
        rw [hsound.count]
        simp
      simp only [map_some, method, htake, hcleared, ← hset]
      simp only [Method.cleared, if_true, hMm]
    · rw [← hMm, ← hcontent, hfill.2]
      simp only [hsame]
    · have hout : m ∉ live M := by
        rw [mem_live, hMm]
        simp
      have hcard := congrArg card (live_update_some M hm (fill (M m)))
      rw [card_insert_of_notMem hout] at hcard
      have hlt' : (live (update M m (some (fill (M m))))).card < 65536 := by
        refine card_live_lt fun m' x hx => ?_
        by_cases heq : m' = m
        · exact heq ▸ hm
        · rw [update_of_ne heq] at hx
          exact h.isMsg hx
      have hbefore := h.methods
      rw [← hMm]
      change d.uiMethods = (live M).card at hbefore
      rw [hmethods, hbefore, ← hcard]
      exact Nat.mod_eq_of_lt hlt'

theorem addMsg_of_scan {d : Dict β} {m p : Nat}
    (hscan : scan (fun p => d.idx p == 0 || d.msg p == m) (bucketPos m d.uiHashKey) bucketSize =
      some p) (hfree : d.idx p = 0) (hcount : d.uiMethodCount = d.pMethods.length)
    (fill : Option β → β) :
    d.addMsg m fill = some { d with
      pMethods := d.pMethods ++ [⟨m, fill none⟩]
      puiMsgIdx := d.puiMsgIdx.set p d.uiMethodCount
      uiMethodCount := (d.uiMethodCount + 1) % 2 ^ 16
      uiMethods := (d.uiMethods + 1) % 2 ^ 16 } := by
  have hcleared : (d.pMethods ++ [Method.cleared]).getD d.pMethods.length Method.cleared =
      (Method.cleared : Method β) := by
    rw [getD_concat, if_pos rfl]
  unfold addMsg
  rw [allocMsg, hscan]
  simp only [if_pos hfree, map_some, method, hcount, take_length, hcleared]
  simp [Method.cleared]

theorem addMsg_not_clear {d : Dict β} (h : d.Sound) {m : Nat} (hnot : ¬ d.Clear m)
    (fill : Option β → β) {d' : Dict β} (hadd : d.addMsg m fill = some d') : ¬ d'.Sound := by
  intro hsound
  unfold Clear at hnot
  push Not at hnot
  obtain ⟨p, q, hle, hlt, hlt', hfree, hused, hmsg⟩ := hnot
  have hpass : (d.idx p == 0 || d.msg p == m) = true := by rw [hfree]; rfl
  cases hscan : scan (fun p => d.idx p == 0 || d.msg p == m) (bucketPos m d.uiHashKey)
      bucketSize with
  | none =>
    have hfail := scan_eq_none_iff.mp hscan p hle (Nat.lt_trans hlt hlt')
    exact absurd hpass (Bool.eq_false_iff.mp hfail)
  | some p₀ =>
    obtain ⟨hle₀, hlt₀, htest, hfirst⟩ := scan_eq_some_iff.mp hscan
    have hp₀ : p₀ ≤ p := by
      by_contra hgt
      exact absurd hpass (Bool.eq_false_iff.mp (hfirst p hle (Nat.not_le.mp hgt)))
    have hfree₀ : d.idx p₀ = 0 := by
      by_contra hused₀
      rw [Bool.or_eq_true, beq_iff_eq, beq_iff_eq] at htest
      have hslot := h.single p₀ q hused₀ hused (by rw [htest.resolve_left hused₀, hmsg])
      omega
    have hq : q < d.puiMsgIdx.length := by
      by_contra hge
      exact hused (idx_of_le (Nat.not_lt.mp hge))
    have hpos : d.uiMethodCount ≠ 0 := by
      have := h.index_lt 0
      have := h.count
      omega
    have hcount := h.count
    rw [addMsg_of_scan hscan hfree₀ hcount] at hadd
    have hadd := some.inj hadd
    have hidx : ∀ r, d'.idx r = if r = p₀ then d.uiMethodCount else d.idx r := by
      intro r
      rw [← hadd]
      exact idx_set (by omega)
    have hmethod : ∀ k, d'.method k =
        if k = d.uiMethodCount then ⟨m, fill none⟩ else d.method k := by
      intro k
      rw [← hadd, hcount]
      exact getD_concat d.pMethods ⟨m, fill none⟩ k
    have hne : q ≠ p₀ := by omega
    -- the free slot and the old one both lead to the message
    have hnewmsg : d'.msg p₀ = m := by
      unfold msg
      rw [hidx, if_pos rfl, hmethod, if_pos rfl]
    have holdmsg : d'.msg q = m := by
      have hlt := h.index_lt q
      unfold msg
      rw [hidx, if_neg hne, hmethod, if_neg (by omega)]
      exact hmsg
    have hslot := hsound.single p₀ q (by rw [hidx, if_pos rfl]; exact hpos)
      (by rw [hidx, if_neg hne]; exact hused) (by rw [hnewmsg, holdmsg])
    exact hne hslot.symm

section

variable {d : Dict β} {M : Nat → Option β} (h : d.Represents M) {m : Nat} (hm : IsMsg m)

include h hm

theorem addMsg_represents_iff (hroom : d.Room m) (fill : Option β → β) :
    (∃ d', d.addMsg m fill = some d' ∧
      d'.Represents (update M m (some (fill (M m))))) ↔ d.Clear m := by
  constructor
  · rintro ⟨d', hadd, hrep⟩
    by_contra hnot
    exact addMsg_not_clear h.sound hnot fill hadd hrep.sound
  · exact fun hclear => addMsg_represents h hm hclear hroom fill

theorem freeMsg_represents : (d.freeMsg m).Represents (update M m none) := by
  cases hscan : scan (fun p => d.idx p != 0 && d.msg p == m) (bucketPos m d.uiHashKey)
      bucketSize with
  | none =>
    have hnone : M m = none := by
      by_contra hsome
      obtain ⟨x, hx⟩ := ne_none_iff_exists'.mp hsome
      obtain ⟨p, hused, hmethod⟩ := (h.content m x).mpr hx
      have hmsg : d.msg p = m := by unfold msg; rw [hmethod]
      obtain ⟨hle, hlt⟩ := h.sound.bucket p hused
      rw [hmsg] at hle hlt
      have hfail := scan_eq_none_iff.mp hscan p hle hlt
      rw [hmsg] at hfail
      simp [hused] at hfail
    have hsame : update M m none = M := by
      rw [← hnone, update_eq_self]
    unfold freeMsg
    rw [hscan, hsame]
    exact h
  | some p =>
    obtain ⟨-, -, htest, -⟩ := scan_eq_some_iff.mp hscan
    rw [Bool.and_eq_true, bne_iff_ne, beq_iff_eq] at htest
    obtain ⟨hused, hmsg⟩ := htest
    have hfreed := h.sound.clear hused hmsg ((d.uiMethods + (2 ^ 16 - 1)) % 2 ^ 16)
    unfold freeMsg
    rw [hscan]
    refine ⟨hfreed.1, fun m' y => ?_, ?_⟩
    · refine (hfreed.2 m' y).trans ?_
      by_cases heq : m' = m
      · rw [heq, update_self]
        simp
      · rw [update_of_ne heq, and_iff_right heq]
        exact h.content m' y
    · obtain ⟨x, hx⟩ := content_msg hused hmsg
      rw [h.content] at hx
      have hin : m ∈ live M := mem_live.mpr ⟨by have := hm.2; omega, by rw [hx]; rfl⟩
      have hbefore : d.uiMethods = (live M).card := h.methods
      have hpos : 0 < (live M).card := card_pos.mpr ⟨m, hin⟩
      have hlt := card_live_lt fun _ _ hx => h.isMsg hx
      change (d.uiMethods + (2 ^ 16 - 1)) % 2 ^ 16 = (live (update M m none)).card
      rw [live_update_none, card_erase_of_mem hin, hbefore]
      omega

end

theorem dictInit_represents {k : Nat} (hk : k ≤ 14) :
    (dictInit (2 ^ k - 1) : Dict β).Represents fun _ => none := by
  have hpos := Nat.two_pow_pos k
  have hidx : ∀ p, (dictInit (2 ^ k - 1) : Dict β).idx p = 0 := by
    intro p
    simp only [dictInit, idx, List.getD, List.getElem?_replicate]
    split_ifs <;> rfl
  refine ⟨⟨⟨k, hk, ?_⟩, ?_, rfl, rfl, fun p => ?_, fun p hp => absurd (hidx p) hp,
    fun p hp => absurd (hidx p) hp, fun p q hp => absurd (hidx p) hp⟩, fun m x => ?_, ?_⟩
  · exact Nat.sub_add_cancel hpos
  · simp [dictInit, bucketBits, Nat.shiftLeft_eq]
  · rw [hidx]
    exact Nat.one_pos
  · refine iff_of_false ?_ (fun hsome => some_ne_none x hsome.symm)
    rintro ⟨p, hp, -⟩
    exact hp (hidx p)
  · simp [dictInit]

/-- The map of a class copied: the cast message is added, and every method is updated. -/
def copied (M : Nat → Option β) (pClassSym : Nat) (fill : Option β → β) (update : Nat → β → β)
    (m : Nat) : Option β :=
  (Function.update M pClassSym (some (fill (M pClassSym))) m).map (update m)

theorem Represents.update {d : Dict β} {M : Nat → Option β} (h : d.Represents M)
    (update : Nat → β → β) :
    Represents { d with
      pMethods := d.pMethods.map fun pMethod =>
        if pMethod.pMessage = 0 then pMethod
        else ⟨pMethod.pMessage, update pMethod.pMessage pMethod.body⟩ }
      fun m => (M m).map (update m) := by
  generalize hd' : ({ d with
      pMethods := d.pMethods.map fun pMethod =>
        if pMethod.pMessage = 0 then pMethod
        else ⟨pMethod.pMessage, update pMethod.pMessage pMethod.body⟩ } : Dict β) = d'
  have hidx : ∀ p, d'.idx p = d.idx p := by
    intro p
    rw [← hd']
    rfl
  have hmethod : ∀ k, d'.method k = if (d.method k).pMessage = 0 then d.method k
      else ⟨(d.method k).pMessage, update (d.method k).pMessage (d.method k).body⟩ := by
    intro k
    rw [← hd']
    by_cases hk : k < d.pMethods.length
    · simp [method, List.getD, List.getElem?_eq_getElem hk]
    · simp [method, List.getD, List.getElem?_eq_none (Nat.not_lt.mp hk), Method.cleared]
  have hmsg : ∀ p, d'.msg p = d.msg p := by
    intro p
    unfold msg
    rw [hidx, hmethod]
    split_ifs <;> rfl
  have hkey : d'.uiHashKey = d.uiHashKey := by rw [← hd']
  have hs := h.sound
  refine ⟨⟨?_, ?_, ?_, ?_, fun p => ?_, fun p hp => ?_, fun p hp => ?_, fun p q hp hq heq => ?_⟩,
    fun m y => ?_, ?_⟩
  · rw [hkey]
    exact hs.mask
  · rw [← hd']
    exact hs.size
  · rw [← hd']
    simpa using hs.count
  · rw [hmethod, if_pos hs.zero]
    exact hs.zero
  · rw [hidx, ← hd']
    simpa using hs.index_lt p
  · rw [hmsg]
    exact hs.isMsg p (by rw [← hidx]; exact hp)
  · rw [hmsg, hkey]
    exact hs.bucket p (by rw [← hidx]; exact hp)
  · rw [hmsg, hmsg] at heq
    rw [hidx] at hp hq
    exact hs.single p q hp hq heq
  · rw [map_eq_some_iff]
    constructor
    · rintro ⟨p, hp, hy⟩
      rw [hidx] at hp hy
      have hne : (d.method (d.idx p)).pMessage ≠ 0 := Nat.ne_of_gt (hs.isMsg p hp).1
      rw [hmethod, if_neg hne] at hy
      obtain ⟨rfl, rfl⟩ := Method.mk.inj hy
      exact ⟨_, (h.content _ _).mp ⟨p, hp, rfl⟩, rfl⟩
    · rintro ⟨x, hx, rfl⟩
      obtain ⟨p, hp, hold⟩ := (h.content m x).mpr hx
      have hm : m ≠ 0 := Nat.ne_of_gt (h.isMsg hx).1
      refine ⟨p, by rw [hidx]; exact hp, ?_⟩
      rw [hidx, hmethod, hold, if_neg hm]
  · have hsame : ∀ m, ((M m).map (update m)).isSome = (M m).isSome := fun m => isSome_map
    simp only [hsame]
    rw [← hd']
    exact h.methods

theorem copyClass_represents {pClsSrc : Dict β} {M : Nat → Option β} (h : pClsSrc.Represents M)
    {pClassSym : Nat} (hm : IsMsg pClassSym) (hclear : pClsSrc.Clear pClassSym)
    (hroom : pClsSrc.Room pClassSym) (fill : Option β → β) (update : Nat → β → β) :
    ∃ d', pClsSrc.copyClass pClassSym fill update = some d' ∧
      d'.Represents (copied M pClassSym fill update) := by
  obtain ⟨d', hadd, hrep⟩ := addMsg_represents h hm hclear hroom fill
  have hcopy : ({ (dictInit pClsSrc.uiHashKey : Dict β) with
      puiMsgIdx := pClsSrc.puiMsgIdx
      uiMethodCount := pClsSrc.uiMethodCount
      pMethods := pClsSrc.pMethods
      uiMethods := pClsSrc.uiMethods } : Dict β) = pClsSrc := rfl
  refine ⟨_, ?_, hrep.update update⟩
  unfold copyClass
  dsimp only
  rw [hcopy, hadd]
  rfl

/-- The dictionaries that messages added, overwritten and freed lead to, with the maps they are
to be. No message is added while a slot before it is free. -/
inductive Reached : Dict β → (Nat → Option β) → Prop
  | init {k : Nat} : k ≤ 14 → Reached (dictInit (2 ^ k - 1)) fun _ => none
  | copy {pClsSrc d : Dict β} {M : Nat → Option β} {pClassSym : Nat} {fill : Option β → β}
      {update : Nat → β → β} : pClsSrc.Represents M → IsMsg pClassSym → pClsSrc.Clear pClassSym →
      pClsSrc.Room pClassSym → pClsSrc.copyClass pClassSym fill update = some d →
      Reached d (copied M pClassSym fill update)
  | add {d d' : Dict β} {M : Nat → Option β} {m : Nat} {fill : Option β → β} :
      Reached d M → IsMsg m → d.Clear m → d.Room m → d.addMsg m fill = some d' →
      Reached d' (update M m (some (fill (M m))))
  | free {d : Dict β} {M : Nat → Option β} {m : Nat} :
      Reached d M → IsMsg m → Reached (d.freeMsg m) (update M m none)

theorem Reached.represents {d : Dict β} {M : Nat → Option β} (h : Reached d M) :
    d.Represents M := by
  induction h with
  | init hk => exact dictInit_represents hk
  | @copy pClsSrc d M pClassSym fill update hrep hm hclear hroom hcopy =>
    obtain ⟨d', hcopy', hrep'⟩ := copyClass_represents hrep hm hclear hroom fill update
    rw [hcopy] at hcopy'
    obtain rfl := some.inj hcopy'
    exact hrep'
  | @add d d' M m fill _ hm hclear hroom hadd ih =>
    obtain ⟨d'', hadd', hrep'⟩ := addMsg_represents ih hm hclear hroom fill
    rw [hadd] at hadd'
    obtain rfl := some.inj hadd'
    exact hrep'
  | free _ hm ih => exact freeMsg_represents ih hm

/-- Every dictionary reached is its map: looking up, adding, freeing and widening are what they
are for maps, and adding is so in no other case. -/
theorem classDict_refines_map {d : Dict β} {M : Nat → Option β} (h : Reached d M) :
    d.Represents M ∧
      (∀ m, IsMsg m → d.findMsg m = (M m).map (Method.mk m)) ∧
      (∀ m fill, IsMsg m → d.Room m →
        ((∃ d', d.addMsg m fill = some d' ∧
          d'.Represents (update M m (some (fill (M m))))) ↔ d.Clear m)) ∧
      (∀ m, IsMsg m → (d.freeMsg m).Represents (update M m none)) ∧
      ∀ k < 14, d.uiHashKey + 1 = 2 ^ k →
        ∃ d', d.dictRealloc = some d' ∧ d'.Represents M := by
  have hrep := h.represents
  refine ⟨hrep, fun m hm => hrep.findMsg_eq hm,
    fun m fill hm hroom => addMsg_represents_iff hrep hm hroom fill,
    fun m hm => freeMsg_represents hrep hm, fun k hk hkey => ?_⟩
  obtain ⟨d', hwide, hsound, hcontent, -, hmethods⟩ := dictRealloc_spec hrep.sound hk hkey
  refine ⟨d', hwide, hsound, fun m x => (hcontent m x).trans (hrep.content m x), ?_⟩
  rw [hmethods]
  exact hrep.methods

instance (m : Nat) : Decidable (IsMsg m) := inferInstanceAs (Decidable (1 ≤ m ∧ m ≤ 65535))

instance (d : Dict β) (m : Nat) : Decidable (d.Clear m) :=
  decidable_of_iff (∀ q ∈ List.range (bucketPos m d.uiHashKey + 4), ∀ p ∈ List.range q,
      bucketPos m d.uiHashKey ≤ p → d.idx p = 0 → d.idx q ≠ 0 → d.msg q ≠ m)
    ⟨fun h p q hle hlt hq => h q (List.mem_range.mpr hq) p (List.mem_range.mpr hlt) hle,
      fun h q hq p hlt hle => h p q hle (List.mem_range.mp hlt) (List.mem_range.mp hq)⟩

def added (d : Dict β) (m : Nat) (fill : Option β → β) : Dict β := (d.addMsg m fill).getD d

theorem Reached.added {d : Dict β} {M : Nat → Option β} (h : Reached d M) (m : Nat)
    (fill : Option β → β) (hok : IsMsg m ∧ d.Clear m ∧ d.uiMethodCount < 65535) :
    Reached (d.added m fill) (update M m (some (fill (M m)))) := by
  obtain ⟨hm, hclear, hroom⟩ := hok
  obtain ⟨d', hadd, -⟩ := addMsg_represents h.represents hm hclear (.inl hroom) fill
  rw [Dict.added, hadd]
  exact h.add hm hclear (.inl hroom) hadd

/-- Five messages of one bucket, for the last of which the table is widened; the third one is
overwritten and the first one freed. -/
def editedDict : Dict Nat :=
  (((((((dictInit 7).added 1 fun _ => 10).added 9 fun _ => 20).added 17
    fun _ => 30).added 25 fun _ => 40).added 33 fun _ => 50).added 17
    (fun x => x.getD 0 + 5)).freeMsg 1

theorem editedDict_reached : ∃ M, Reached editedDict M ∧ M 1 = none ∧ M 17 = some 35 ∧
    M 33 = some 50 := by
  have h₁ := (Reached.init (show 3 ≤ 14 by decide)).added 1 (fun _ => 10) (by decide +kernel)
  have h₂ := (h₁.added 9 (fun _ => 20) (by decide +kernel)).added 17 (fun _ => 30)
    (by decide +kernel)
  have h₃ := (h₂.added 25 (fun _ => 40) (by decide +kernel)).added 33 (fun _ => 50)
    (by decide +kernel)
  have h₄ := h₃.added 17 (fun x => x.getD 0 + 5) (by decide +kernel)
  exact ⟨_, h₄.free (show IsMsg 1 by decide), by decide, by decide, by decide⟩

/-- Message 1 may be added again, message 17 may not: a slot before its own is free. -/
theorem classDict_refines_map_edited :
    ∃ M, editedDict.Represents M ∧ editedDict.uiHashKey = 15 ∧ editedDict.uiMethods = 4 ∧
      editedDict.findMsg 1 = none ∧ editedDict.findMsg 17 = some ⟨17, 35⟩ ∧
      editedDict.findMsg 33 = some ⟨33, 50⟩ ∧
      (∃ d, editedDict.addMsg 1 (fun _ => 60) = some d ∧
        d.Represents (update M 1 (some 60))) ∧
      ¬ ∃ d, editedDict.addMsg 17 (fun _ => 60) = some d ∧
        d.Represents (update M 17 (some 60)) := by
  obtain ⟨M, hM, h1, h17, h33⟩ := editedDict_reached
  obtain ⟨hrep, hfind, hadd, -⟩ := classDict_refines_map hM
  refine ⟨M, hrep, by decide +kernel, by decide +kernel, ?_, ?_, ?_, ?_, ?_⟩
  · rw [hfind 1 (by decide), h1, map_none]
  · rw [hfind 17 (by decide), h17, map_some]
  · rw [hfind 33 (by decide), h33, map_some]
  · exact (hadd 1 _ (by decide) (.inl (by decide +kernel))).mpr (by decide +kernel)
  · rw [hadd 17 (fun _ => 60) (by decide) (.inl (by decide +kernel))]
    decide +kernel

/-- A message overwritten after a message before it in the bucket is freed: freed in its turn, it
is still found, with the method it had at first. -/
theorem classDict_second_method :
    ((((((dictInit hashKey : Dict Nat).addMsg 1 fun _ => 10).bind
      fun d => d.addMsg 9 fun _ => 20).map fun d => d.freeMsg 1).bind
      fun d => d.addMsg 9 fun _ => 30).map
      fun d => (d.uiMethods, (d.freeMsg 9).findMsg 9)) = some (2, some ⟨9, 20⟩) := by
  rw [addMsg_of_scan (p := 4) (by decide) (by decide) (by decide), bind_some,
    addMsg_of_scan (p := 5) (by decide) (by decide) (by decide), map_some, bind_some,
    addMsg_of_scan (p := 4) (by decide) (by decide) (by decide)]
  decide

end Dict

end Harbour.Vm.ClassDict
