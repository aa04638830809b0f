import Harbour.Compiler.DeadCode
import Harbour.Compiler.JumpAdjust
import Mathlib.Data.Finset.Card

/-!
The trace: what it marks is closed under the steps of control.
-/

namespace Harbour.Compiler.DeadCode

open Library.Bytes Library.Chunks PCodeSize Jumps List Function

def Met (instrs : List Bytes) (a : Nat) : Prop := Relation.ReflTransGen (Meets instrs) 0 a

/-- The state of a trace that is at the instruction `cur`, or has marked it, and has to go on to
the positions `owed`. -/
structure Traced (instrs : List Bytes) (info : TraceInfo) (cur : Option Nat) (owed : Nat → Prop) :
    Prop where
  whole : ∀ a i, (a, i) ∈ starts 0 instrs → info.pCodeMark a = 2 →
    ∀ n, a ≤ n → n < a + i.length → info.pCodeMark n = 2
  inner : ∀ a i, (a, i) ∈ starts 0 instrs → info.pCodeMark a ≠ 2 →
    ∀ n, a < n → n < a + i.length → info.pCodeMark n = 0
  pending : ∀ a i, (a, i) ∈ starts 0 instrs → info.pCodeMark a = 0 ∨ info.pCodeMark a = 2 ∨
    info.pCodeMark a = 1 ∧ (a ∈ info.pnJumps.drop info.nJumpPos ∨ cur = some a)
  entries : ∀ a ∈ info.pnJumps, ∃ i, (a, i) ∈ starts 0 instrs
  scanned : info.nJumpPos ≤ info.pnJumps.length
  closed : ∀ a b, info.pCodeMark a = 2 → Flows instrs a b → info.pCodeMark b ≠ 0 ∨ owed b
  origin : info.pCodeMark 0 ≠ 0 ∨ owed 0
  met : ∀ a i, (a, i) ∈ starts 0 instrs → info.pCodeMark a ≠ 0 → Met instrs a

structure Grows (info info' : TraceInfo) : Prop where
  marked : ∀ n, info.pCodeMark n ≠ 0 → info'.pCodeMark n ≠ 0
  done : ∀ n, info'.pCodeMark n = 2 ↔ info.pCodeMark n = 2

theorem Grows.refl (info : TraceInfo) : Grows info info := ⟨fun _ h => h, fun _ => Iff.rfl⟩

theorem Grows.trans {info info' info'' : TraceInfo} (h : Grows info info')
    (h' : Grows info' info'') : Grows info info'' :=
  ⟨fun n hn => h'.marked n (h.marked n hn), fun n => (h'.done n).trans (h.done n)⟩

section Trace

variable {named : Bool} {pFunc : Func} {instrs : List Bytes} {info : TraceInfo} {cur : Option Nat}
  {owed : Nat → Prop} {a b : Nat} {i j : Bytes}

theorem switchBytes_ne_nil (arms : List Arm) : switchBytes arms ≠ [] := cons_ne_nil _ _

theorem Shape.ne_nil (h : Shape i) : i ≠ [] := by
  cases h with
  | plain hcomplete => exact length_pos_iff.mp hcomplete.1
  | switch arms heq =>
    rw [heq]
    exact switchBytes_ne_nil arms

namespace Body

section

variable (hbody : Body named pFunc instrs)

include hbody

theorem solid : Solid instrs :=
  fun i hi => (hbody.shape i hi).ne_nil

theorem origin : ∃ i, (0, i) ∈ starts 0 instrs := by
  obtain ⟨before, hlast⟩ := hbody.last
  rw [hlast]
  cases before with
  | nil => exact ⟨_, mem_cons_self⟩
  | cons first before => exact ⟨first, mem_cons_self⟩

section

variable (hmem : (a, i) ∈ starts 0 instrs)

include hmem

theorem start_end : a + i.length ≤ pFunc.pCode.length := by
  rw [hbody.code]
  have hbounds := (starts_bounds hmem).2
  omega

theorem start_lt : a < pFunc.pCode.length := by
  have hle := hbody.start_end hmem
  have hpos := hbody.solid.length_pos hmem
  omega

theorem drop_start : ∃ behind, pFunc.pCode.drop a = i ++ behind := by
  rw [hbody.code]
  exact drop_of_mem_starts hmem

end

theorem flows_start (h : Flows instrs a b) : ∃ j, (b, j) ∈ starts 0 instrs := by
  cases h with
  | jump hmem hoffset heq =>
    obtain ⟨b', j, hj, heq'⟩ := hbody.lands _ _ _ hmem hoffset
    obtain rfl : b' = b := by omega
    exact ⟨j, hj⟩
  | arm hmem hoffset heq =>
    obtain ⟨b', j, hj, heq'⟩ := hbody.armsLand _ _ _ _ _ hmem hoffset
    obtain rfl : b' = b := by omega
    exact ⟨j, hj⟩
  | next _ _ hj _ => exact ⟨_, hj⟩

end

end Body

theorem addJump_traced (hbody : Body named pFunc instrs) (ht : Traced instrs info cur owed)
    (hb : (b, j) ∈ starts 0 instrs) (hmet : Met instrs b) :
    ∃ info', codeTraceAddJump pFunc info b = .ok info' ∧ Traced instrs info' cur owed ∧
      Grows info info' ∧ info'.pCodeMark b ≠ 0 := by
  unfold codeTraceAddJump
  rw [if_pos (hbody.start_lt hb)]
  by_cases hzero : info.pCodeMark b = 0
  · rw [if_pos hzero]
    have hother : ∀ n, n ≠ b → update info.pCodeMark b 1 n = info.pCodeMark n :=
      fun n hn => update_of_ne hn _ _
    have hself : update info.pCodeMark b 1 b = 1 := update_self ..
    have hdone : ∀ n, update info.pCodeMark b 1 n = 2 ↔ info.pCodeMark n = 2 := by
      intro n
      by_cases hn : n = b
      · rw [hn, hself, hzero]
        decide
      · rw [hother n hn]
    have hmarked : ∀ n, info.pCodeMark n ≠ 0 → update info.pCodeMark b 1 n ≠ 0 := by
      intro n hne
      rw [hother n fun heq => hne (heq ▸ hzero)]
      exact hne
    refine ⟨_, rfl, ⟨fun a i hmem h2 n hle hlt => ?_, fun a i hmem h2 n hlt hlt' => ?_,
      fun a i hmem => ?_, fun a hmem => ?_, ?_, fun a c h2 hflow => ?_, ?_,
      fun a i hmem hne => ?_⟩, ⟨hmarked, hdone⟩, ?_⟩
    · exact (hdone n).mpr (ht.whole a i hmem ((hdone a).mp h2) n hle hlt)
    · have hn : n ≠ b := by
        rintro rfl
        have hapart := starts_apart hmem hb hlt
        omega
      exact (hother n hn).trans (ht.inner a i hmem ((hdone a).not.mp h2) n hlt hlt')
    · dsimp only
      by_cases hab : a = b
      · subst hab
        refine .inr (.inr ⟨hself, .inl ?_⟩)
        rw [drop_append]
        rw [Nat.sub_eq_zero_of_le ht.scanned]
        exact mem_append_right _ mem_cons_self
      · rw [hother a hab]
        refine (ht.pending a i hmem).imp_right fun h => h.imp_right fun h => ⟨h.1, h.2.imp_left ?_⟩
        intro hdrop
        rw [drop_append]
        exact mem_append_left _ hdrop
    · rcases mem_append.mp hmem with hold | hnew
      · exact ht.entries a hold
      · obtain rfl := mem_singleton.mp hnew
        exact ⟨j, hb⟩
    · rw [length_append]
      exact Nat.le_add_right_of_le ht.scanned
    · exact (ht.closed a c ((hdone a).mp h2) hflow).imp_left (hmarked c)
    · exact ht.origin.imp_left (hmarked 0)
    · by_cases hab : a = b
      · rw [hab]
        exact hmet
      · dsimp only at hne
        rw [hother a hab] at hne
        exact ht.met a i hmem hne
    · dsimp only
      rw [hself]
      exact Nat.one_ne_zero
  · rw [if_neg hzero]
    exact ⟨info, rfl, ht, .refl info, hzero⟩

theorem mark_traced (hbody : Body named pFunc instrs) {owed' : Nat → Prop}
    (ht : Traced instrs info (some a) fun b => b = a) (hmem : (a, i) ∈ starts 0 instrs)
    (hmet : Met instrs a) (hnew : info.pCodeMark a ≠ 2)
    (hsucc : ∀ b, Flows instrs a b → info.pCodeMark b ≠ 0 ∨ owed' b) :
    ∃ info', codeTraceMark pFunc info a i.length = .ok info' ∧ Traced instrs info' none owed' ∧
      (∀ n, info.pCodeMark n ≠ 0 → info'.pCodeMark n ≠ 0) ∧
      (∀ n, info.pCodeMark n = 2 → info'.pCodeMark n = 2) ∧ info'.pCodeMark a = 2 := by
  unfold codeTraceMark
  rw [if_pos (hbody.start_end hmem)]
  have hpos := hbody.solid.length_pos hmem
  generalize hmark : (fun n => if a ≤ n ∧ n < a + i.length then 2 else info.pCodeMark n) = mark
  have hin : ∀ n, a ≤ n → n < a + i.length → mark n = 2 := by
    intro n hle hlt
    rw [← hmark]
    exact if_pos ⟨hle, hlt⟩
  have hout : ∀ n, ¬ (a ≤ n ∧ n < a + i.length) → mark n = info.pCodeMark n := by
    intro n hnot
    rw [← hmark]
    exact if_neg hnot
  have hself : mark a = 2 := hin a (Nat.le_refl a) (Nat.lt_add_of_pos_right hpos)
  have hstart : ∀ c k, (c, k) ∈ starts 0 instrs → c ≠ a → ∀ n, c ≤ n → n < c + k.length →
      mark n = info.pCodeMark n := by
    intro c k hc hne n hle hlt
    refine hout n fun hand => ?_
    rcases Nat.lt_or_gt_of_ne hne with hca | hac
    · have hapart := starts_apart hc hmem hca
      omega
    · have hapart := starts_apart hmem hc hac
      omega
  have hmark_start : ∀ c k, (c, k) ∈ starts 0 instrs → c ≠ a → mark c = info.pCodeMark c :=
    fun c k hc hne => hstart c k hc hne c (Nat.le_refl c)
      (Nat.lt_add_of_pos_right (hbody.solid.length_pos hc))
  have hmarked : ∀ n, info.pCodeMark n ≠ 0 → mark n ≠ 0 := by
    intro n hne
    by_cases hand : a ≤ n ∧ n < a + i.length
    · rw [hin n hand.1 hand.2]
      exact Nat.two_pos.ne'
    · rw [hout n hand]
      exact hne
  have howed : ∀ b, info.pCodeMark b ≠ 0 ∨ b = a → mark b ≠ 0 := by
    rintro b (hne | rfl)
    · exact hmarked b hne
    · rw [hself]
      exact Nat.two_pos.ne'
  refine ⟨_, rfl, ⟨fun c k hc h2 n hle hlt => ?_, fun c k hc h2 n hlt hlt' => ?_, fun c k hc => ?_,
    ht.entries, ht.scanned, fun c b h2 hflow => ?_, ?_, fun c k hc hne => ?_⟩, hmarked,
    fun n h2 => ?_, hself⟩
  · by_cases hca : c = a
    · subst hca
      obtain rfl := starts_unique hbody.solid hc hmem
      exact hin n hle hlt
    · have h2' : info.pCodeMark c = 2 := (hmark_start c k hc hca).symm.trans h2
      exact (hstart c k hc hca n hle hlt).trans (ht.whole c k hc h2' n hle hlt)
  · have hca : c ≠ a := by
      rintro rfl
      exact h2 hself
    have h2' : info.pCodeMark c ≠ 2 := fun h => h2 ((hmark_start c k hc hca).trans h)
    exact (hstart c k hc hca n (Nat.le_of_lt hlt) hlt').trans (ht.inner c k hc h2' n hlt hlt')
  · dsimp only
    by_cases hca : c = a
    · rw [hca]
      exact .inr (.inl hself)
    · rw [hmark_start c k hc hca]
      refine (ht.pending c k hc).imp_right fun h => h.imp_right fun h => ⟨h.1, .inl ?_⟩
      exact h.2.resolve_right fun heq => hca (Option.some.inj heq).symm
  · by_cases hca : c = a
    · subst hca
      exact (hsucc b hflow).imp_left (hmarked b)
    · obtain ⟨k, hc⟩ : ∃ k, (c, k) ∈ starts 0 instrs := by
        cases hflow with
        | jump hc => exact ⟨_, hc⟩
        | arm hc => exact ⟨_, hc⟩
        | next hc => exact ⟨_, hc⟩
      have h2' : info.pCodeMark c = 2 := (hmark_start c k hc hca).symm.trans h2
      exact .inl (howed b (ht.closed c b h2' hflow))
  · exact .inl (howed 0 ht.origin)
  · by_cases hca : c = a
    · rw [hca]
      exact hmet
    · dsimp only at hne
      rw [hmark_start c k hc hca] at hne
      exact ht.met c k hc hne
  · by_cases hand : a ≤ n ∧ n < a + i.length
    · exact hin n hand.1 hand.2
    · exact (hout n hand).trans h2

theorem Traced.settle {owed' : Nat → Prop} (ht : Traced instrs info cur owed)
    (h : ∀ b, (∃ j, (b, j) ∈ starts 0 instrs) → owed b → info.pCodeMark b ≠ 0 ∨ owed' b)
    (hbody : Body named pFunc instrs) : Traced instrs info cur owed' := by
  exact { ht with
    closed := fun a b h2 hflow => (ht.closed a b h2 hflow).elim .inl fun howed =>
      h b (hbody.flows_start hflow) howed
    origin := ht.origin.elim .inl fun howed => h 0 hbody.origin howed }

inductive Goes (pFunc : Func) (instrs : List Bytes) (info : TraceInfo) (nPos : Nat) : Prop
  | more {i : Bytes} : (nPos, i) ∈ starts 0 instrs → Met instrs nPos → info.pCodeMark nPos ≠ 2 →
      Traced instrs info (some nPos) (fun b => b = nPos) → Goes pFunc instrs info nPos
  | done : nPos = pFunc.pCode.length → info.fFinished = true →
      Traced instrs info none (fun _ => False) →
      (∀ a i, (a, i) ∈ starts 0 instrs → info.pCodeMark a ≠ 1) → Goes pFunc instrs info nPos

theorem nextJump_spec {mark : Nat → Nat} {jumps : List Nat} {nJumpPos : Nat} :
    match nextJump mark jumps nJumpPos with
    | some (nPos, nJumpPos') => mark nPos = 1 ∧ ∃ skipped rest, jumps = skipped ++ nPos :: rest ∧
        nJumpPos' = nJumpPos + skipped.length + 1 ∧ ∀ n ∈ skipped, mark n ≠ 1
    | none => ∀ n ∈ jumps, mark n ≠ 1 := by
  induction jumps generalizing nJumpPos with
  | nil => exact fun n hn => absurd hn not_mem_nil
  | cons first jumps ih =>
    unfold nextJump
    split_ifs with hone
    · exact ⟨hone, [], jumps, rfl, rfl, fun n hn => absurd hn not_mem_nil⟩
    · specialize @ih (nJumpPos + 1)
      cases hnext : nextJump mark jumps (nJumpPos + 1) with
      | none =>
        rw [hnext] at ih
        exact fun n hn => (mem_cons.mp hn).elim (fun heq => heq ▸ hone) (ih n)
      | some result =>
        rw [hnext] at ih
        obtain ⟨hmark, skipped, rest, hjumps, hpos, hskipped⟩ := ih
        refine ⟨hmark, first :: skipped, rest, by rw [hjumps]; rfl, ?_, fun n hn => ?_⟩
        · rw [hpos, length_cons]
          omega
        · exact (mem_cons.mp hn).elim (fun heq => heq ▸ hone) (hskipped n)

theorem nextPos_goes (hbody : Body named pFunc instrs) (ht : Traced instrs info none fun n => n = b)
    (hb : (∃ j, (b, j) ∈ starts 0 instrs ∧ Met instrs b) ∨ b = pFunc.pCode.length) :
    Goes pFunc instrs (codeTraceNextPos pFunc info b).1 (codeTraceNextPos pFunc info b).2 ∧
      (codeTraceNextPos pFunc info b).1.pCodeMark = info.pCodeMark := by
  unfold codeTraceNextPos
  by_cases hgo : b < pFunc.pCode.length ∧ info.pCodeMark b = 0
  · rw [if_pos hgo]
    obtain ⟨j, hj, hmet⟩ := hb.resolve_right (Nat.ne_of_lt hgo.1)
    have hne : info.pCodeMark b ≠ 2 := fun h2 => absurd (h2.symm.trans hgo.2) (by decide)
    refine ⟨.more hj hmet hne { ht with pending := fun a i hmem => ?_ }, rfl⟩
    exact (ht.pending a i hmem).imp_right fun h => h.imp_right fun h =>
      ⟨h.1, h.2.imp_right fun heq => nomatch heq⟩
  · rw [if_neg hgo]
    have hsettled : Traced instrs info none fun _ => False := by
      refine ht.settle (fun n hstart heq => .inl ?_) hbody
      obtain ⟨j, hj⟩ := hstart
      subst heq
      exact fun hzero => hgo ⟨hbody.start_lt hj, hzero⟩
    have hspec := @nextJump_spec info.pCodeMark (info.pnJumps.drop info.nJumpPos) info.nJumpPos
    cases hnext : nextJump info.pCodeMark (info.pnJumps.drop info.nJumpPos) info.nJumpPos with
    | none =>
      rw [hnext] at hspec
      refine ⟨.done rfl rfl { hsettled with
        pending := fun a i hmem => ?_
        scanned := Nat.le_refl _ } fun a i hmem hone => ?_, rfl⟩
      · refine (ht.pending a i hmem).imp_right fun h => h.elim .inl fun h => ?_
        exact absurd h.1 (hspec a (h.2.resolve_right fun heq => nomatch heq))
      · rcases ht.pending a i hmem with hzero | htwo | ⟨-, hdrop | heq⟩
        · exact absurd (hone.symm.trans hzero) (by decide)
        · exact absurd (hone.symm.trans htwo) (by decide)
        · exact hspec a hdrop hone
        · exact nomatch heq
    | some result =>
      rw [hnext] at hspec
      obtain ⟨nPos, nJumpPos⟩ := result
      obtain ⟨hone, skipped, rest, hdrop, hpos, hskipped⟩ := hspec
      have hin : nPos ∈ info.pnJumps := by
        refine mem_of_mem_drop (i := info.nJumpPos) ?_
        rw [hdrop]
        exact mem_append_right _ mem_cons_self
      obtain ⟨k, hk⟩ := ht.entries nPos hin
      have hmarked : info.pCodeMark nPos ≠ 0 := by
        rw [hone]
        exact Nat.one_ne_zero
      have hrest : info.pnJumps.drop nJumpPos = rest := by
        have hsum : nJumpPos = info.nJumpPos + (skipped.length + 1) := hpos
        rw [hsum, ← drop_drop, hdrop, drop_append,
          drop_eq_nil_of_le (Nat.le_succ _), Nat.add_sub_cancel_left]
        rfl
      refine ⟨.more hk (ht.met nPos k hk hmarked) ?_ { hsettled with
        pending := fun a i hmem => ?_
        scanned := ?_
        closed := fun a b h2 hflow => (hsettled.closed a b h2 hflow).imp_right False.elim
        origin := hsettled.origin.imp_right False.elim }, rfl⟩
      · dsimp only
        rw [hone]
        decide
      · refine (ht.pending a i hmem).imp_right fun h => h.imp_right fun h => ⟨h.1, ?_⟩
        have hmem' := h.2.resolve_right fun heq => nomatch heq
        rw [hdrop] at hmem'
        rw [hrest]
        rcases mem_append.mp hmem' with hskip | hmem'
        · exact absurd h.1 (hskipped a hskip)
        · exact (mem_cons.mp hmem').elim (fun heq => .inr (congrArg some heq.symm)) .inl
      · have hlength := congrArg length hdrop
        rw [length_drop, length_append, length_cons] at hlength
        dsimp only
        omega

end Trace

end Harbour.Compiler.DeadCode
