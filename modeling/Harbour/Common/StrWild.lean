import Harbour.Common.CharClass
import Harbour.Library.Wildcards
import Mathlib.Data.List.GetD

/-!
The matching of wildcards in `strwild.c`.
-/

namespace Harbour.Common.StrWild

open CharClass Library List

def HB_MAX_WILDPATTERN : Nat := 256

/-- `hb_charUpper`, with the upper case table of a code page when there is one. -/
def hb_charUpper (cdp : Option (UInt8 → UInt8)) (iChar : UInt8) : UInt8 :=
  match cdp with
  | some upper => upper iChar
  | none => HB_TOUPPER iChar

/-- What the calls of `hb_strMatchWildRaw` differ in; `nFixed` is the size of the buffers on its
stack, and `contents` what memory holds before it is written. -/
structure Call where
  szString : Bytes
  szPattern : Bytes
  fExact : Bool
  fCase : Bool
  fFile : Bool
  cdp : Option (UInt8 → UInt8)
  nFixed : Nat
  contents : Nat → Nat

structure Vars where
  fAny : Bool
  nPosP : Nat
  nPosV : Nat
  nAny : Nat
  nBufSize : Nat
  nAnyPosP : List Nat
  nAnyPosV : List Nat

def Vars.push (vars : Vars) : Option Vars :=
  if vars.nAny < vars.nAnyPosP.length ∧ vars.nAny < vars.nAnyPosV.length then
    some { vars with
      nAnyPosP := vars.nAnyPosP.set vars.nAny vars.nPosP
      nAnyPosV := vars.nAnyPosV.set vars.nAny vars.nPosV
      nAny := vars.nAny + 1
      fAny := false }
  else none

/-- The loop goes on, or it is left with `fMatch`, or it has missed a buffer. -/
inductive Loop where
  | running (vars : Vars)
  | stopped (fMatch : Bool)
  | fault

namespace Call

variable (call : Call)

def nLen : Nat := call.szString.length

def nSize : Nat := call.szPattern.length

def accepts (p v : UInt8) : Bool :=
  p = 63 || (if call.fCase then hb_charUpper call.cdp p = hb_charUpper call.cdp v else p = v)

def fresh (size : Nat) : List Nat := (range size).map call.contents

def moved (size kept : Nat) (buffer : List Nat) : List Nat :=
  buffer.take kept ++ call.fresh (size - kept)

/-- The buffers with a place for one item more. -/
def grow (vars : Vars) : Vars :=
  if vars.nBufSize ≤ vars.nAny then
    let nBufSize := vars.nBufSize * 2
    let kept := if nBufSize = call.nFixed * 2 then call.nFixed else vars.nBufSize
    { vars with
      nBufSize := nBufSize
      nAnyPosP := call.moved nBufSize kept vars.nAnyPosP
      nAnyPosV := call.moved nBufSize kept vars.nAnyPosV }
  else vars

/-- The body of the loop of `hb_strMatchWildRaw`, with its condition. -/
def step (vars : Vars) : Loop :=
  let cP := call.szPattern.getD vars.nPosP 0
  let cV := call.szString.getD vars.nPosV 0
  if vars.nPosP < call.nSize ∨ call.fExact ∧ ¬ vars.fAny ∧ vars.nPosV < call.nLen then
    if vars.nPosP < call.nSize ∧ cP = 42 then
      .running { vars with fAny := true, nPosP := vars.nPosP + 1 }
    else if vars.nPosV < call.nLen ∧ vars.nPosP < call.nSize ∧ call.accepts cP cV then
      match if vars.fAny then (call.grow vars).push else some vars with
      | some vars => .running { vars with nPosV := vars.nPosV + 1, nPosP := vars.nPosP + 1 }
      | none => .fault
    else if call.fFile ∧ vars.nPosV = call.nLen ∧ vars.nPosP < call.nSize ∧ cP = 46 ∧
        (vars.nPosP + 1 = call.nSize ∨
          vars.nPosP + 2 = call.nSize ∧ call.szPattern.getD (vars.nPosP + 1) 0 = 42) then
      .stopped true
    else if vars.fAny ∧ vars.nPosV < call.nLen then
      .running { vars with nPosV := vars.nPosV + 1 }
    else if 0 < vars.nAny then
      match vars.nAnyPosP[vars.nAny - 1]?, vars.nAnyPosV[vars.nAny - 1]? with
      | some nPosP, some nPosV =>
        .running { vars with nAny := vars.nAny - 1, nPosP, nPosV := nPosV + 1, fAny := true }
      | _, _ => .fault
    else .stopped false
  else .stopped true

def next : Loop → Loop
  | .running vars => call.step vars
  | loop => loop

def start : Vars where
  fAny := false
  nPosP := 0
  nPosV := 0
  nAny := 0
  nBufSize := call.nFixed
  nAnyPosP := call.fresh call.nFixed
  nAnyPosV := call.fresh call.nFixed

end Call

/-- What a call returns, when its loop ends within `fuel` turns. -/
def Call.result (call : Call) (fuel : Nat) : Option Bool :=
  match call.next^[fuel] (.running call.start) with
  | .stopped fMatch => some fMatch
  | _ => none

def hb_strMatchWildRaw (cdp : Option (UInt8 → UInt8)) (contents : Nat → Nat)
    (szString szPattern : Bytes) (fExact fCase fFile : Bool) (fuel : Nat) : Option Bool :=
  Call.result ⟨szString, szPattern, fExact, fCase, fFile, cdp, HB_MAX_WILDPATTERN, contents⟩ fuel

variable {buffer : List Nat} {kept n size : Nat}

section Buffers

variable {call : Call} {vars : Vars}

def Vars.items (vars : Vars) : List (Nat × Nat) :=
  ((vars.nAnyPosP.take vars.nAny).zip (vars.nAnyPosV.take vars.nAny)).reverse

/-- The buffers have the size that is noted, and the items fit. -/
structure Room (call : Call) (vars : Vars) : Prop where
  pos : 0 < vars.nBufSize
  lengthP : vars.nAnyPosP.length = vars.nBufSize
  lengthV : vars.nAnyPosV.length = vars.nBufSize
  le : vars.nAny ≤ vars.nBufSize

theorem length_fresh (size : Nat) : (call.fresh size).length = size := by
  simp [Call.fresh]

theorem length_moved (hkept : kept ≤ buffer.length) (hsize : kept ≤ size) :
    (call.moved size kept buffer).length = size := by
  unfold Call.moved
  rw [length_append, length_take, length_fresh, Nat.min_eq_left hkept]
  omega

theorem take_moved (hkept : buffer.length = kept) :
    (call.moved size kept buffer).take kept = buffer := by
  unfold Call.moved
  rw [← hkept, take_length, take_left]

theorem take_succ_set (hn : n < buffer.length) (v : Nat) :
    (buffer.set n v).take (n + 1) = buffer.take n ++ [v] := by
  rw [take_add_one, getElem?_set_self hn, take_set_of_le (le_refl n)]
  rfl

theorem Room.grow (h : Room call vars) :
    Room call (call.grow vars) ∧ (call.grow vars).items = vars.items ∧
      (call.grow vars).nAny < (call.grow vars).nBufSize ∧
      (call.grow vars).nPosP = vars.nPosP ∧ (call.grow vars).nPosV = vars.nPosV := by
  obtain ⟨hroom, hlengthP, hlengthV, hle⟩ := h
  unfold Call.grow
  split_ifs with hfull
  · have hkept : (if vars.nBufSize * 2 = call.nFixed * 2 then call.nFixed else vars.nBufSize) =
        vars.nBufSize := by
      split_ifs <;> omega
    have hany : vars.nAny = vars.nBufSize := by omega
    simp only [hkept, and_true]
    refine ⟨⟨by simp only; omega, ?_, ?_, by simp only; omega⟩, ?_, by omega⟩
    · exact length_moved hlengthP.ge (by omega)
    · exact length_moved hlengthV.ge (by omega)
    · unfold Vars.items
      simp only [hany]
      rw [take_moved hlengthP, take_moved hlengthV, ← hlengthP, take_length, hlengthP,
        ← hlengthV, take_length]
  · exact ⟨⟨hroom, hlengthP, hlengthV, hle⟩, rfl, Nat.lt_of_not_le hfull, rfl, rfl⟩

theorem Room.push (h : Room call vars) (hlt : vars.nAny < vars.nBufSize) :
    ∃ vars', vars.push = some vars' ∧ Room call vars' ∧
      vars'.items = (vars.nPosP, vars.nPosV) :: vars.items ∧
      vars'.fAny = false ∧ vars'.nPosP = vars.nPosP ∧ vars'.nPosV = vars.nPosV := by
  obtain ⟨hroom, hlengthP, hlengthV, hle⟩ := h
  have hP : vars.nAny < vars.nAnyPosP.length := hlengthP ▸ hlt
  have hV : vars.nAny < vars.nAnyPosV.length := hlengthV ▸ hlt
  refine ⟨_, if_pos ⟨hP, hV⟩, ⟨hroom, ?_, ?_, hlt⟩, ?_, rfl, rfl, rfl⟩
  · rw [length_set, hlengthP]
  · rw [length_set, hlengthV]
  · unfold Vars.items
    rw [take_succ_set hP, take_succ_set hV, zip_append]
    · rw [reverse_append]
      rfl
    · rw [length_take, length_take, hlengthP, hlengthV]

theorem Room.pop (h : Room call vars) (hpos : 0 < vars.nAny) :
    ∃ nPosP nPosV, vars.nAnyPosP[vars.nAny - 1]? = some nPosP ∧
      vars.nAnyPosV[vars.nAny - 1]? = some nPosV ∧
      vars.items = (nPosP, nPosV) :: ((vars.nAnyPosP.take (vars.nAny - 1)).zip
        (vars.nAnyPosV.take (vars.nAny - 1))).reverse := by
  obtain ⟨hroom, hlengthP, hlengthV, hle⟩ := h
  have hP : vars.nAny - 1 < vars.nAnyPosP.length := by omega
  have hV : vars.nAny - 1 < vars.nAnyPosV.length := by omega
  refine ⟨_, _, getElem?_eq_getElem hP, getElem?_eq_getElem hV, ?_⟩
  unfold Vars.items
  obtain ⟨n, hn⟩ : ∃ n, vars.nAny = n + 1 := ⟨vars.nAny - 1, by omega⟩
  simp only [hn, Nat.add_sub_cancel] at hP hV ⊢
  rw [take_add_one, take_add_one, getElem?_eq_getElem hP,
    getElem?_eq_getElem hV, zip_append]
  · rw [reverse_append]
    rfl
  · rw [length_take, length_take, hlengthP, hlengthV]

theorem items_nil (h : vars.nAny = 0) : vars.items = [] := by
  unfold Vars.items
  rw [h]
  rfl

end Buffers

section Simulation

open Wildcards

variable {call : Call} {vars : Vars} {st : State UInt8}

namespace Call

variable (call : Call)

def piece (c : UInt8) : Piece UInt8 := if c = 42 then .star else .test (call.accepts c)

def pieces : List (Piece UInt8) := call.szPattern.map call.piece

def done (rest : Bytes) : Bool := !call.fExact || rest.isEmpty

def place (item : Nat × Nat) : List (Piece UInt8) × Bytes :=
  (call.pieces.drop item.1, call.szString.drop item.2)

end Call

structure Stands (call : Call) (vars : Vars) (st : State UInt8) : Prop where
  room : Room call vars
  pattern : st.pattern = call.pieces.drop vars.nPosP
  text : st.text = call.szString.drop vars.nPosV
  any : st.any = vars.fAny
  stack : st.stack = vars.items.map call.place

inductive Simulates (call : Call) : Loop → Outcome UInt8 → Prop
  | running {vars : Vars} {st : State UInt8} :
      Stands call vars st → Simulates call (.running vars) (.running st)
  | stopped (found : Bool) : Simulates call (.stopped found) (.stopped found)

theorem drop_getD {bytes : Bytes} (hn : n < bytes.length) :
    bytes.drop n = bytes.getD n 0 :: bytes.drop (n + 1) := by
  rw [drop_eq_getElem_cons hn, getD_eq_getElem _ _ hn]

theorem drop_pieces (hn : n < call.nSize) :
    call.pieces.drop n =
      call.piece (call.szPattern.getD n 0) :: call.pieces.drop (n + 1) := by
  unfold Call.pieces
  rw [← map_drop, drop_getD hn, map_cons, map_drop]

theorem drop_pieces_nil (hn : ¬ n < call.nSize) : call.pieces.drop n = [] := by
  apply drop_eq_nil_of_le
  rw [Call.pieces, length_map]
  exact Nat.le_of_not_lt hn

theorem drop_string_nil (hn : ¬ n < call.nLen) : call.szString.drop n = [] :=
  drop_eq_nil_of_le (Nat.le_of_not_lt hn)

theorem simulates_backtrack (h : Stands call vars st) :
    Simulates call
      (if 0 < vars.nAny then
        match vars.nAnyPosP[vars.nAny - 1]?, vars.nAnyPosV[vars.nAny - 1]? with
        | some nPosP, some nPosV =>
          .running { vars with nAny := vars.nAny - 1, nPosP, nPosV := nPosV + 1, fAny := true }
        | _, _ => .fault
      else .stopped false)
      (backtrack st.stack) := by
  obtain ⟨hroom, hpattern, htext, hany, hstack⟩ := h
  split_ifs with hpos
  · obtain ⟨nPosP, nPosV, hP, hV, hitems⟩ := hroom.pop hpos
    rw [hP, hV, hstack, hitems]
    apply Simulates.running
    refine ⟨⟨hroom.pos, hroom.lengthP, hroom.lengthV, ?_⟩, rfl, ?_, rfl, rfl⟩
    · have hle := hroom.le
      simp only
      omega
    · exact tail_drop
  · rw [hstack, items_nil (Nat.eq_zero_of_not_pos hpos)]
    exact .stopped false

theorem simulates_step (hfile : call.fFile = false) (h : Stands call vars st) :
    Simulates call (call.step vars) (Wildcards.step call.done st) := by
  have hback := simulates_backtrack h
  obtain ⟨hroom, hpattern, htext, hany, hstack⟩ := h
  obtain ⟨pattern, text, any, stack⟩ := st
  subst hpattern htext hany
  rcases Nat.lt_or_ge vars.nPosP call.nSize with hP | hP
  · rw [drop_pieces hP]
    rcases eq_or_ne (call.szPattern.getD vars.nPosP 0) 42 with hstar | hstar
    · -- a star
      have hstep : call.step vars =
          .running { vars with fAny := true, nPosP := vars.nPosP + 1 } := by
        unfold Call.step
        simp only [hP, hstar, true_or, and_self, if_true]
      rw [hstep, hstar]
      exact .running ⟨⟨hroom.pos, hroom.lengthP, hroom.lengthV, hroom.le⟩, rfl, rfl, rfl, hstack⟩
    · have hpiece : call.piece (call.szPattern.getD vars.nPosP 0) =
          .test (call.accepts (call.szPattern.getD vars.nPosP 0)) := if_neg hstar
      rw [hpiece]
      rcases Nat.lt_or_ge vars.nPosV call.nLen with hV | hV
      · rw [drop_getD hV]
        rcases haccepts : call.accepts (call.szPattern.getD vars.nPosP 0)
          (call.szString.getD vars.nPosV 0) with _ | _
        · -- another character
          rcases hany : vars.fAny with _ | _
          · simp only [Wildcards.step, haccepts, Bool.false_eq_true, if_false]
            unfold Call.step
            simp only [hP, hstar, haccepts, hany, hfile, true_or, if_true, and_false, if_false,
              Bool.false_eq_true, false_and]
            exact hback
          · simp only [Wildcards.step, haccepts, Bool.false_eq_true, if_false, if_true]
            unfold Call.step
            simp only [hP, hV, hstar, haccepts, hany, hfile, true_or, if_true, and_false, if_false,
              Bool.false_eq_true, false_and, and_self]
            exact .running ⟨⟨hroom.pos, hroom.lengthP, hroom.lengthV, hroom.le⟩,
              by rw [drop_pieces hP, hpiece], rfl, rfl, hstack⟩
        · -- the same character
          rcases hany : vars.fAny with _ | _
          · simp only [Wildcards.step, haccepts, Bool.false_eq_true, if_false, if_true]
            unfold Call.step
            simp only [hP, hV, hstar, haccepts, hany, true_or, if_true, and_false, if_false,
              Bool.false_eq_true, and_self]
            exact .running ⟨⟨hroom.pos, hroom.lengthP, hroom.lengthV, hroom.le⟩, rfl, rfl, rfl,
              hstack⟩
          · obtain ⟨hgrown, hitems, hlt, hgrownP, hgrownV⟩ := hroom.grow
            obtain ⟨vars', hpush, hroom', hitems', hany', hP', hV'⟩ := hgrown.push hlt
            simp only [Wildcards.step, haccepts, if_true]
            unfold Call.step
            simp only [hP, hV, hstar, haccepts, hany, true_or, if_true, and_false, if_false,
              and_self, hpush]
            apply Simulates.running
            refine ⟨⟨hroom'.pos, hroom'.lengthP, hroom'.lengthV, hroom'.le⟩, ?_, ?_, hany'.symm, ?_⟩
            · rw [hP', hgrownP]
            · rw [hV', hgrownV]
            · have hsame : ({ vars' with nPosV := vars'.nPosV + 1, nPosP := vars'.nPosP + 1 } :
                  Vars).items = vars'.items := rfl
              rw [hsame, hitems', hitems, map_cons, ← hstack, Call.place, hgrownP, hgrownV,
                drop_pieces hP, hpiece, drop_getD hV]
      · rw [drop_string_nil (Nat.not_lt.mpr hV)]
        unfold Call.step
        simp only [hP, Nat.not_lt.mpr hV, hstar, hfile, true_or, if_true, and_false, if_false,
          Bool.false_eq_true, false_and]
        exact hback
  · rw [drop_pieces_nil (Nat.not_lt.mpr hP)]
    rcases em (call.fExact = true ∧ ¬ vars.fAny = true ∧ vars.nPosV < call.nLen) with hgoes | hgoes
    · have hfails : call.done (call.szString.drop vars.nPosV) = false := by
        rw [drop_getD hgoes.2.2]
        simp [Call.done, hgoes.1]
      unfold Call.step
      simp only [Wildcards.step, hfails, Nat.not_lt.mpr hP, hgoes, hfile, Bool.or_self]
      exact hback
    · have hdone : (vars.fAny || call.done (call.szString.drop vars.nPosV)) = true := by
        unfold Call.done
        rw [Bool.or_eq_true, Bool.or_eq_true, Bool.not_eq_true', List.isEmpty_iff,
          drop_eq_nil_iff]
        rcases hexact : call.fExact with _ | _
        · exact .inr (.inl rfl)
        · rcases Nat.lt_or_ge vars.nPosV call.nLen with hV | hV
          · exact .inl (not_not.mp fun hany => hgoes ⟨hexact, hany, hV⟩)
          · exact .inr (.inr hV)
      unfold Call.step
      simp only [Wildcards.step, hdone, Nat.not_lt.mpr hP, hgoes, or_self, if_false, if_true]
      exact .stopped true

section

variable (hfile : call.fFile = false) {loop : Loop} {outcome : Outcome UInt8}

include hfile

theorem simulates_next (h : Simulates call loop outcome) :
    Simulates call (call.next loop) (Wildcards.next call.done outcome) := by
  cases h with
  | running h => exact simulates_step hfile h
  | stopped found => exact .stopped found

theorem simulates_iterate (n : Nat) (h : Simulates call loop outcome) :
    Simulates call (call.next^[n] loop) ((Wildcards.next call.done)^[n] outcome) := by
  induction n generalizing loop outcome with
  | zero => exact h
  | succ n ih => exact ih (simulates_next hfile h)

end

theorem stands_start (hfixed : 0 < call.nFixed) :
    Stands call call.start ⟨call.pieces, call.szString, false, []⟩ :=
  ⟨⟨hfixed, length_fresh _, length_fresh _, Nat.zero_le _⟩, rfl, rfl, rfl, rfl⟩

/-- A loop ends and tells whether something holds. -/
def Tells (result : Nat → Option Bool) (holds : Prop) : Prop :=
  ∃ found, (found = true ↔ holds) ∧ ∃ n, ∀ m, result (n + m) = some found

theorem result_tells (hfile : call.fFile = false) (hfixed : 0 < call.nFixed) :
    Tells call.result (Leaves call.done call.pieces call.szString) := by
  have hdone : call.done [] = true := by
    simp [Call.done]
  obtain ⟨n, found, hstop, hiff⟩ := search hdone call.pieces call.szString
  refine ⟨found, hiff, n, fun m => ?_⟩
  have hsim := simulates_iterate hfile n (.running (stands_start hfixed))
  rw [hstop] at hsim
  have hn : call.next^[n] (.running call.start) = .stopped found := by
    generalize call.next^[n] (.running call.start) = loop at hsim
    cases hsim
    rfl
  have hstays : call.next^[n + m] (.running call.start) = .stopped found := by
    rw [Nat.add_comm, Function.iterate_add_apply, hn]
    exact Function.iterate_fixed rfl m
  unfold Call.result
  rw [hstays]

end Simulation

section Specification

open Wildcards

/-- A pattern matches a string: `*` any characters, `?` any one, another character itself, or one
of the same upper case when `fCase`. -/
inductive WildMatches (cdp : Option (UInt8 → UInt8)) (fCase : Bool) : Bytes → Bytes → Prop
  | nil : WildMatches cdp fCase [] []
  | any {p s : Bytes} (skipped : Bytes) :
      WildMatches cdp fCase p s → WildMatches cdp fCase (42 :: p) (skipped ++ s)
  | one {p s : Bytes} (v : UInt8) :
      WildMatches cdp fCase p s → WildMatches cdp fCase (63 :: p) (v :: s)
  | char {p s : Bytes} {c v : UInt8} :
      c ≠ 42 → (c = v ∨ fCase = true ∧ hb_charUpper cdp c = hb_charUpper cdp v) →
      WildMatches cdp fCase p s → WildMatches cdp fCase (c :: p) (v :: s)

variable {call : Call} {p s : Bytes}

theorem accepts_iff {c v : UInt8} : call.accepts c v = true ↔
    c = 63 ∨ c = v ∨ call.fCase = true ∧ hb_charUpper call.cdp c = hb_charUpper call.cdp v := by
  unfold Call.accepts
  rcases hcase : call.fCase with _ | _
  · simp
  · simp only [if_true, Bool.or_eq_true, decide_eq_true_eq, true_and]
    constructor
    · rintro (hone | hupper)
      · exact .inl hone
      · exact .inr (.inr hupper)
    · rintro (hone | rfl | hupper)
      · exact .inl hone
      · exact .inr rfl
      · exact .inr hupper

theorem matches_of_wildMatches (h : WildMatches call.cdp call.fCase p s) :
    Wildcards.Matches (p.map call.piece) s := by
  induction h with
  | nil => exact .nil
  | any skipped _ ih => exact .star skipped ih
  | one v _ ih => exact .test (accepts_iff.mpr (.inl rfl)) ih
  | char hstar hsame _ ih =>
    rw [map_cons, Call.piece, if_neg hstar]
    exact .test (accepts_iff.mpr (.inr hsame)) ih

theorem wildMatches_of_matches (h : Wildcards.Matches (p.map call.piece) s) :
    WildMatches call.cdp call.fCase p s := by
  induction p generalizing s with
  | nil =>
    cases h
    exact .nil
  | cons c p ih =>
    rcases eq_or_ne c 42 with rfl | hstar
    · cases h with
      | star skipped h => exact .any skipped (ih h)
    · rw [map_cons, Call.piece, if_neg hstar] at h
      cases h with
      | test haccepts h =>
        rcases accepts_iff.mp haccepts with rfl | hsame
        · exact .one _ (ih h)
        · exact .char hstar hsame (ih h)

theorem matches_pieces_iff :
    Wildcards.Matches (p.map call.piece) s ↔ WildMatches call.cdp call.fCase p s :=
  ⟨wildMatches_of_matches, matches_of_wildMatches⟩

theorem result_exact (hfile : call.fFile = false) (hexact : call.fExact = true)
    (hfixed : 0 < call.nFixed) :
    Tells call.result (WildMatches call.cdp call.fCase call.szPattern call.szString) := by
  have hdone : call.done = isEmpty := by
    funext rest
    simp [Call.done, hexact]
  have htells := result_tells hfile hfixed
  rw [hdone, leaves_isEmpty, Call.pieces, matches_pieces_iff] at htells
  exact htells

theorem result_begins (hfile : call.fFile = false) (hexact : call.fExact = false)
    (hfixed : 0 < call.nFixed) :
    Tells call.result (∃ beginning, beginning <+: call.szString ∧
      WildMatches call.cdp call.fCase call.szPattern beginning) := by
  have hdone : call.done = fun _ => true := by
    funext rest
    simp [Call.done, hexact]
  have htells := result_tells hfile hfixed
  rw [hdone, leaves_true, Call.pieces] at htells
  simp only [matches_pieces_iff] at htells
  exact htells

/-- The matching of wildcards ends, and never misses a buffer. When it is exact it tells whether
the pattern matches the string, and else whether it matches a beginning of it; and so it does with
fixed buffers of any size, and whatever memory holds. -/
theorem wildcards_correct (cdp : Option (UInt8 → UInt8)) (szString szPattern : Bytes)
    (fCase : Bool) (contents : Nat → Nat) :
    Tells (hb_strMatchWildRaw cdp contents szString szPattern true fCase false)
      (WildMatches cdp fCase szPattern szString) ∧
    Tells (hb_strMatchWildRaw cdp contents szString szPattern false fCase false)
      (∃ beginning, beginning <+: szString ∧ WildMatches cdp fCase szPattern beginning) ∧
    ∀ nFixed, 0 < nFixed →
      Tells (Call.result ⟨szString, szPattern, true, fCase, false, cdp, nFixed, contents⟩)
        (WildMatches cdp fCase szPattern szString) ∧
      Tells (Call.result ⟨szString, szPattern, false, fCase, false, cdp, nFixed, contents⟩)
        (∃ beginning, beginning <+: szString ∧ WildMatches cdp fCase szPattern beginning) := by
  have hfixed : 0 < HB_MAX_WILDPATTERN := by decide
  refine ⟨result_exact rfl rfl hfixed, result_begins rfl rfl hfixed, ?_⟩
  intro nFixed hfixed
  exact ⟨result_exact rfl rfl hfixed, result_begins rfl rfl hfixed⟩

theorem wildcards_correct_small :
    Tells (Call.result ⟨[97, 98, 98], [42, 98], true, false, false, none, 1, fun _ => 0⟩)
      (WildMatches none false [42, 98] [97, 98, 98]) :=
  ((wildcards_correct none [97, 98, 98] [42, 98] false (fun _ => 0)).2.2 1 (by decide)).1

example : Call.result ⟨[97, 98, 98], [42, 98], true, false, false, none, 1, fun _ => 0⟩ 8 =
    some true := by
  decide

end Specification

end Harbour.Common.StrWild
