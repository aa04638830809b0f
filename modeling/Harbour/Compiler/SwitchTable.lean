import Harbour.Compiler.JumpAdjust
import Harbour.Compiler.Switch
import Harbour.Vm.Switch

/-!
The table of a `SWITCH`, as it stands in the code, and how it is read.
-/

namespace Harbour.Compiler.Switch

open Library.Bytes PCodeSize Jumps JumpShorten JumpAdjust Vm.Switch List PCode

variable {α : Type*}

def longBytes (n : Int) : Bytes :=
  if limInt 32 n then pushLong.byte :: leBytes 4 (unsigned 64 n)
  else pushLongLong.byte :: leBytes 8 (unsigned 64 n)

def stringBytes (s : Bytes) : Bytes :=
  (if s.length + 1 > 2 ^ 16 - 1 then pushStrLarge.byte :: leBytes 3 (s.length + 1)
    else if s.length + 1 > 2 ^ 8 - 1 then pushStr.byte :: leBytes 2 (s.length + 1)
    else pushStrShort.byte :: leBytes 1 (s.length + 1)) ++ (s ++ [0])

/-- The bytes that push the value of an entry; that of `OTHERWISE` is NIL. -/
def pushBytes : Option Expr → Bytes
  | some (.long n) => longBytes n
  | some (.string s) => stringBytes s
  | some (.other push) => push
  | none => [pushNil.byte]

/-- The entry is one that `hb_vmSwitch` knows: an integer of 32 bits, or a string of less than 255
bytes. -/
def fits : Option Expr → Bool
  | some (.long n) => limInt 32 n
  | some (.string s) => s.length < 255
  | some (.other _) => false
  | none => true

def answers (pSwitch : Item α) : Option Expr → Bool
  | some (.long n) => pSwitch.numInt = some n
  | some (.string s) => pSwitch.str = some s
  | some (.other _) => false
  | none => true

def labelled : Option Expr → Bool
  | some pExpr => pExpr.isLiteral
  | none => true

/-- The entries of a table between two positions, each with the place that its jump leads to. The
jumps are of any width. -/
inductive Laid (code : Bytes) : (start : Nat) → List (Option Expr × Nat) → (stop : Nat) → Prop
  | nil (start : Nat) : Laid code start [] start
  | cons {start stop target : Nat} {label : Option Expr} {jump rest : Bytes}
      {entries : List (Option Expr × Nat)} (hlabel : labelled label = true)
      (hcode : code.drop start = pushBytes label ++ (jump ++ rest))
      (hkind : (PCodeSize.code jump).kind = some .always) (hcomplete : Complete jump)
      (hoffset : jumpOffset jump = some ((target : Int) - (start + (pushBytes label).length : Nat)))
      (hrest : Laid code (start + (pushBytes label).length + jump.length) entries stop) :
      Laid code start ((label, target) :: entries) stop

variable {casesCnt : Nat} {labels : List (Option Expr)} {n : Int}

section Read

variable {code rest jump : Bytes} {pSwitch : Item α} {start stop target : Nat} {label : Option Expr}
  {entries : List (Option Expr × Nat)}

theorem mkSigned_four (h : limInt 32 n = true) (rest : Bytes) :
    mkSigned 4 (leBytes 4 (unsigned 64 n) ++ rest) = n := by
  obtain ⟨hlow, hhigh⟩ := of_decide_eq_true h
  exact mkSigned_leBytes (by decide) (by decide) hlow hhigh

theorem switchValue_long (hfits : limInt 32 n = true)
    (hcode : code.drop start = longBytes n ++ rest) :
    switchValue code pSwitch start = (decide (pSwitch.numInt = some n), start + 5) := by
  unfold longBytes at hcode
  rw [if_pos hfits, cons_append] at hcode
  have hbehind : code.drop (start + 1) = leBytes 4 (unsigned 64 n) ++ rest := by
    rw [← drop_drop, hcode]
    rfl
  unfold switchValue
  rw [hcode, hbehind, mkSigned_four hfits]
  rfl

theorem switchValue_string {s : Bytes} (hfits : s.length < 255)
    (hcode : code.drop start = stringBytes s ++ rest) :
    switchValue code pSwitch start =
      (decide (pSwitch.str = some s), start + (2 + (s.length + 1))) := by
  unfold stringBytes at hcode
  rw [if_neg (by omega), if_neg (by omega), append_assoc, cons_append] at hcode
  have hlen : mkUnsigned 1 (code.drop (start + 1)) = s.length + 1 := by
    rw [← drop_drop, hcode, drop_succ_cons, drop_zero]
    unfold mkUnsigned
    rw [take_append_of_le_length (Nat.le_of_eq (leBytes_length _ _).symm),
      take_of_length_le (Nat.le_of_eq (leBytes_length _ _)), leValue_leBytes]
    omega
  have htext : code.drop (start + 2) = s ++ ([0] ++ rest) := by
    rw [← drop_drop, hcode, append_assoc]
    rfl
  unfold switchValue
  rw [hcode]
  rw [hlen, htext]
  refine Prod.ext ?_ rfl
  cases pSwitch.str with
  | none => rfl
  | some t =>
    refine decide_eq_decide.mpr ⟨fun ⟨heq, htake⟩ => ?_, fun heq => ?_⟩
    · rw [take_append_of_le_length (by omega), take_of_length_le (by omega)] at htake
      rw [htake]
    · injection heq with heq
      rw [heq]
      exact ⟨rfl, take_left' rfl⟩

theorem switchValue_fits (pSwitch : Item α) (hfits : fits label = true)
    (hcode : code.drop start = pushBytes label ++ rest) :
    switchValue code pSwitch start = (answers pSwitch label, start + (pushBytes label).length) := by
  match label, hfits with
  | none, _ =>
    unfold switchValue
    rw [hcode]
    rfl
  | some (.long n), hfits =>
    have hlength : (longBytes n).length = 5 := by
      unfold longBytes
      rw [if_pos (show limInt 32 n = true from hfits), length_cons, leBytes_length]
    rw [switchValue_long hfits hcode]
    show (_, start + 5) = (_, start + (longBytes n).length)
    rw [hlength]
    rfl
  | some (.string s), hfits =>
    have hless : s.length < 255 := of_decide_eq_true hfits
    have hlength : (stringBytes s).length = 2 + (s.length + 1) := by
      unfold stringBytes
      rw [if_neg (by omega), if_neg (by omega), length_append, length_cons,
        leBytes_length, length_append, length_singleton]
    rw [switchValue_string hless hcode]
    show (_, start + (2 + (s.length + 1))) = (_, start + (stringBytes s).length)
    rw [hlength]
    rfl

theorem switchValue_unknown (pSwitch : Item α) (hlabel : labelled label = true)
    (hfits : fits label = false) (hcode : code.drop start = pushBytes label ++ rest) :
    switchValue code pSwitch start = (false, start) ∧ switchJump code false start = start := by
  match label, hfits with
  | some (.long n), hfits =>
    change code.drop start = longBytes n ++ rest at hcode
    unfold longBytes at hcode
    rw [if_neg (show ¬ limInt 32 n = true from Bool.eq_false_iff.mp hfits), cons_append]
      at hcode
    unfold switchValue switchJump
    rw [hcode]
    exact ⟨rfl, rfl⟩
  | some (.string s), hfits =>
    have hless : ¬ s.length < 255 := of_decide_eq_false hfits
    change code.drop start = stringBytes s ++ rest at hcode
    unfold stringBytes at hcode
    split at hcode
    · unfold switchValue switchJump
      rw [hcode]
      exact ⟨rfl, rfl⟩
    · rw [if_pos (by omega)] at hcode
      unfold switchValue switchJump
      rw [hcode]
      exact ⟨rfl, rfl⟩
  | some (.other push), _ => exact nomatch hlabel

theorem switchJump_jump (hkind : (PCodeSize.code jump).kind = some .always)
    (hcomplete : Complete jump) (hcode : code.drop start = jump ++ rest)
    (hoffset : jumpOffset jump = some ((target : Int) - start)) (fFound : Bool) :
    switchJump code fFound start = if fFound then target else start + jump.length := by
  obtain ⟨b, bytes, rfl⟩ := exists_cons_of_length_pos hcomplete.1
  obtain ⟨width, hwidth⟩ : ∃ width, (PCodeSize.code (b :: bytes)).offsetWidth = some width :=
    isJump_width (show IsJump (b :: bytes) by rw [IsJump, hkind]; rintro ⟨⟩)
  have hlength := width_of_complete hwidth hcomplete
  have hbytes : bytes.length = width := by
    rw [length_cons] at hlength
    omega
  have hbehind : code.drop (start + 1) = bytes ++ rest := by
    rw [← drop_drop, hcode]
    rfl
  have hto : jumpTo code width start = target := by
    rw [jumpOffset_eq hwidth] at hoffset
    injection hoffset with hoffset
    rw [drop_succ_cons, drop_zero] at hoffset
    unfold jumpTo
    rw [hbehind, mkSigned_append (Nat.le_of_eq hbytes.symm), hoffset]
    omega
  rw [hlength]
  unfold switchJump
  rw [hcode]
  change (ofByte b).kind = _ at hkind
  change (ofByte b).offsetWidth = _ at hwidth
  dsimp only [cons_append, headD_cons]
  cases hb : ofByte b <;> rw [hb] at hkind hwidth <;> cases hkind <;> cases hwidth <;>
    rw [hto]

theorem Laid.le (h : Laid code start entries stop) : start ≤ stop := by
  induction h with
  | nil start => exact Nat.le_refl _
  | cons _ _ _ _ _ _ ih =>
    refine Nat.le_trans ?_ ih
    rw [Nat.add_assoc]
    exact Nat.le_add_right _ _

theorem Laid.lt (h : Laid code start ((label, target) :: entries) stop) : start < stop := by
  cases h with
  | cons _ _ _ hcomplete _ hrest =>
    have hpos := hcomplete.1
    have hle := hrest.le
    omega

/-- The loop reads the table up to an entry that answers, or to its end. -/
def Covered (pSwitch : Item α) : List (Option Expr) → (casesCnt : Nat) → Prop
  | [], _ => True
  | _ :: _, 0 => False
  | label :: labels, casesCnt + 1 =>
    fits label = true ∧ (answers pSwitch label = true ∨ Covered pSwitch labels casesCnt)

/-- The place of the first entry that answers, or the end. -/
def destination (pSwitch : Item α) (entries : List (Option Expr × Nat)) (stop : Nat) : Nat :=
  match entries.find? fun entry => answers pSwitch entry.1 with
  | some entry => entry.2
  | none => stop

theorem destination_cons :
    destination pSwitch ((label, target) :: entries) stop =
      if answers pSwitch label then target else destination pSwitch entries stop := by
  unfold destination
  rw [find?_cons]
  cases answers pSwitch label with
  | true => rfl
  | false => rfl

theorem switchLoop_stuck (hvalue : switchValue code pSwitch start = (false, start))
    (hjump : switchJump code false start = start) :
    switchLoop code pSwitch casesCnt start = start := by
  induction casesCnt with
  | zero => rfl
  | succ casesCnt ih =>
    unfold switchLoop
    rw [hvalue]
    simp only [hjump]
    exact ih

theorem switchLoop_laid (h : Laid code start entries stop) (hcount : casesCnt ≤ entries.length) :
    (Covered pSwitch (entries.map Prod.fst) casesCnt →
      switchLoop code pSwitch casesCnt start = destination pSwitch entries stop) ∧
    (¬ Covered pSwitch (entries.map Prod.fst) casesCnt →
      start ≤ switchLoop code pSwitch casesCnt start ∧
        switchLoop code pSwitch casesCnt start < stop) := by
  induction h generalizing casesCnt with
  | nil start =>
    obtain rfl : casesCnt = 0 := Nat.le_zero.mp hcount
    exact ⟨fun _ => rfl, fun hnot => absurd trivial hnot⟩
  | @cons start stop target label jump rest entries hlabel hcode hkind hcomplete hoffset hrest ih =>
    have hlt : start < stop :=
      (Laid.cons hlabel hcode hkind hcomplete hoffset hrest).lt
    cases casesCnt with
    | zero => exact ⟨False.elim, fun _ => ⟨Nat.le_refl _, hlt⟩⟩
    | succ casesCnt =>
      rcases Bool.eq_false_or_eq_true (fits label) with hfits | hfits
      · have hvalue := switchValue_fits pSwitch hfits hcode
        have hdrop : code.drop (start + (pushBytes label).length) = jump ++ rest := by
          rw [← drop_drop, hcode, drop_left]
        have hjump := switchJump_jump hkind hcomplete hdrop hoffset
        unfold switchLoop
        rw [hvalue]
        simp only [hjump]
        rcases Bool.eq_false_or_eq_true (answers pSwitch label) with hanswers | hanswers
        · simp only [hanswers, if_true]
          refine ⟨fun _ => ?_, fun hnot => absurd ⟨hfits, .inl hanswers⟩ hnot⟩
          rw [destination_cons, if_pos hanswers]
        · simp only [hanswers, Bool.false_eq_true, if_false]
          obtain ⟨hyes, hno⟩ := ih (Nat.le_of_succ_le_succ hcount)
          refine ⟨fun hcovered => ?_, fun hnot => ?_⟩
          · rcases hcovered.2 with habsurd | hcovered
            · exact absurd (hanswers.symm.trans habsurd) (by decide)
            · rw [hyes hcovered, destination_cons, if_neg (Bool.eq_false_iff.mp hanswers)]
          · obtain ⟨hle, hless⟩ := hno fun hcovered => hnot ⟨hfits, .inr hcovered⟩
            exact ⟨by omega, hless⟩
      · obtain ⟨hvalue, hjump⟩ := switchValue_unknown pSwitch hlabel hfits hcode
        rw [switchLoop_stuck hvalue hjump]
        refine ⟨fun hcovered => ?_, fun _ => ⟨Nat.le_refl _, hlt⟩⟩
        exact absurd (hfits.symm.trans hcovered.1) (by decide)

/-- When the table is read as it should be: when it has less than 65536 entries and all of them are
known, or when an entry answers that is among those counted and known like all before it. -/
def Selectable (pSwitch : Item α) (labels : List (Option Expr)) : Prop :=
  labels.length < 2 ^ 16 ∧ (∀ label ∈ labels, fits label = true) ∨
    ∃ before label behind, labels = before ++ label :: behind ∧
      before.length < labels.length % 2 ^ 16 ∧ answers pSwitch label = true ∧
      ∀ other ∈ before ++ [label], fits other = true

theorem covered_iff (hcount : casesCnt ≤ labels.length) :
    Covered pSwitch labels casesCnt ↔
      casesCnt = labels.length ∧ (∀ label ∈ labels, fits label = true) ∨
      ∃ before label behind, labels = before ++ label :: behind ∧ before.length < casesCnt ∧
        answers pSwitch label = true ∧ ∀ other ∈ before ++ [label], fits other = true := by
  induction labels generalizing casesCnt with
  | nil =>
    refine ⟨fun _ => .inl ⟨Nat.le_zero.mp hcount, nofun⟩, fun _ => trivial⟩
  | cons label labels ih =>
    cases casesCnt with
    | zero =>
      refine ⟨False.elim, ?_⟩
      rintro (⟨hlength, -⟩ | ⟨before, other, behind, -, hless, -⟩)
      · exact nomatch hlength
      · exact absurd hless (Nat.not_lt_zero _)
    | succ casesCnt =>
      have hnext := ih (Nat.le_of_succ_le_succ hcount)
      constructor
      · rintro ⟨hfits, hanswers | hcovered⟩
        · refine .inr ⟨[], label, labels, rfl, Nat.succ_pos _, hanswers, ?_⟩
          intro other hother
          rw [mem_singleton.mp hother]
          exact hfits
        · rcases hnext.mp hcovered with ⟨hlength, hall⟩ |
            ⟨before, other, behind, rfl, hless, hanswers, hall⟩
          · exact .inl ⟨congrArg Nat.succ hlength, forall_mem_cons.mpr ⟨hfits, hall⟩⟩
          · exact .inr ⟨label :: before, other, behind, rfl, Nat.succ_lt_succ hless, hanswers,
              forall_mem_cons.mpr ⟨hfits, hall⟩⟩
      · rintro (⟨hlength, hall⟩ | ⟨before, other, behind, heq, hless, hanswers, hall⟩)
        · obtain ⟨hfits, hall⟩ := forall_mem_cons.mp hall
          exact ⟨hfits, .inr (hnext.mpr (.inl ⟨Nat.succ.inj hlength, hall⟩))⟩
        · cases before with
          | nil =>
            injection heq with hlabel hlabels
            subst hlabel
            exact ⟨hall label (mem_cons_self ..), .inl hanswers⟩
          | cons first before =>
            injection heq with hlabel hlabels
            subst hlabel
            obtain ⟨hfits, hall⟩ := forall_mem_cons.mp hall
            exact ⟨hfits, .inr (hnext.mpr (.inr ⟨before, other, behind, hlabels,
              Nat.lt_of_succ_lt_succ hless, hanswers, hall⟩))⟩

theorem selectable_iff :
    Selectable pSwitch labels ↔ Covered pSwitch labels (labels.length % 2 ^ 16) := by
  rw [covered_iff (Nat.mod_le _ _)]
  unfold Selectable
  rw [Nat.mod_eq_iff_lt (by decide)]

end Read

end Harbour.Compiler.Switch
