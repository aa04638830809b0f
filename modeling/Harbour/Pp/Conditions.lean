import Mathlib.Data.Nat.Bitwise

/-!
Conditional compilation: which lines of a source are passed on.
-/

namespace Harbour.Pp.Conditions

open List

universe u v w

inductive Error where
  | directiveIfdef
  | directiveElse
  | directiveEndif
  | invalidDirective
deriving DecidableEq

/-- How the lines behind a directive that opens a dump or a stream are read. -/
inductive Stream where
  | dumpC
  | clipper
  | prg
  | c
deriving DecidableEq

/-- `isExact` is whether the line reads as the closing one also where it is not made into tokens,
that is, with nothing abbreviated. -/
inductive Pragma (L : Type*) where
  | begindump
  | enddump (isExact : Bool)
  | text
  | stream
  | cstream
  | endtext (isExact : Bool)
  | other (l : L)

/-- A line is text or a directive. Every other directive counts as text: like text it is passed on
in active parts only. What it brings when it is passed on are the lines of an included file, the
directive that a rule makes of it, or the stream that `TEXT` opens. `none` is a name that is
missing, not a keyword or followed by something. A line with `;` in it is several lines here, and a
line that opens a dump or a stream is the last one of these. -/
inductive Line (L N K : Type*) where
  | other (l : L) (isEndtext : Bool) (brings : List (Line L N K))
  | pragma (p : Pragma L)
  | noKeyword
  | ifdef (n : Option N)
  | ifndef (n : Option N)
  | cond (k : K)
  | elif (k : K)
  | els
  | endif

/-- What comes out of a stream goes through functions that are named where it is opened. They are
calls, not directives. -/
inductive Event (L N K : Type*) where
  | output (l : L)
  | dumped (lines : List (Line L N K))
  | streamed (lines : List (Line L N K))
  | streamEnd
  | defineFind (n : N)
  | calculateValue (k : K) (fNoError : Bool)
  | error (e : Error)

/-- What conditions give can depend on all that has happened. -/
structure Outcomes (L N K : Type*) where
  defined : List (Event L N K) → N → Bool
  value : List (Event L N K) → K → Int

/-- The first entry of the stack is its top. The buffer is that of the dump or of the stream. -/
structure State (L N K : Type*) where
  iCondCompile : Nat
  pCondStack : List Nat
  iStreamDump : Option Stream
  buffer : List (Line L N K)
  log : List (Event L N K)

variable {L : Type u} {N : Type v} {K : Type w}

def condElse : Nat := 1

def condDisable : Nat := 2

def Pragma.opens : Pragma L → Option Stream
  | .begindump => some .dumpC
  | .text => some .clipper
  | .stream => some .prg
  | .cstream => some .c
  | _ => none

def Line.closes : Line L N K → Stream → Bool
  | .pragma (.enddump isExact), .dumpC => isExact
  | .pragma (.endtext _), .dumpC => false
  | .pragma (.endtext isExact), _ => isExact
  | .other _ isEndtext _, .clipper | .other _ isEndtext _, .prg | .other _ isEndtext _, .c =>
    isEndtext
  | _, _ => false

namespace State

def add (s : State L N K) (event : Event L N K) : State L N K :=
  { s with log := s.log ++ [event] }

def pass (s : State L N K) (event : Event L N K) : State L N K :=
  if s.iCondCompile ≠ 0 then s else s.add event

def gather (s : State L N K) (line : Line L N K) : State L N K :=
  { s with buffer := s.buffer ++ [line] }

def close (s : State L N K) : State L N K :=
  { s with
    iStreamDump := none
    buffer := [] }

/-- A line behind a directive that opens a dump or a stream is not made into tokens. -/
def getLine (s : State L N K) (dump : Stream) (line : Line L N K) : State L N K :=
  match dump with
  | .dumpC => if line.closes .dumpC then (s.pass (.dumped s.buffer)).close else s.gather line
  | .clipper =>
    if line.closes .clipper then (s.pass .streamEnd).close else s.pass (.streamed [line])
  | .prg | .c =>
    if line.closes dump then ((s.pass (.streamed s.buffer)).pass .streamEnd).close
    else s.gather line

def pragmaNew (s : State L N K) : Pragma L → State L N K
  | .begindump => { s with iStreamDump := some .dumpC }
  | .text => { s with iStreamDump := some .clipper }
  | .stream => { s with iStreamDump := some .prg }
  | .cstream => { s with iStreamDump := some .c }
  | .enddump _ | .endtext _ => { s with iStreamDump := none }
  | .other l => s.pass (.output l)

def conditionPush (s : State L N K) (fCond : Bool) : State L N K :=
  { s with
    pCondStack := s.iCondCompile :: s.pCondStack
    iCondCompile := if s.iCondCompile ≠ 0 then condDisable else if fCond then 0 else condElse }

variable (outcomes : Outcomes L N K)

def condCompile (s : State L N K) (pToken : Option N) (fNot : Bool) : State L N K :=
  match pToken with
  | none => s.add (.error .directiveIfdef)
  | some n =>
    if s.iCondCompile = 0 then
      let fCond := outcomes.defined s.log n
      (s.add (.defineFind n)).conditionPush (if fNot then fCond else !fCond)
    else s.conditionPush false

def condCompileIf (s : State L N K) (k : K) : State L N K :=
  (s.add (.calculateValue k (s.iCondCompile ≠ 0))).conditionPush (outcomes.value s.log k ≠ 0)

def condCompileElif (s : State L N K) (k : K) : State L N K :=
  if s.iCondCompile &&& condDisable = 0 then
    if s.iCondCompile ≠ 0 then
      { s.add (.calculateValue k false) with
        iCondCompile :=
          if outcomes.value s.log k ≠ 0 then s.iCondCompile ^^^ condElse else s.iCondCompile }
    else { s with iCondCompile := condDisable }
  else s

mutual

def preprocess (s : State L N K) (line : Line L N K) : State L N K :=
  match s.iStreamDump with
  | some dump => s.getLine dump line
  | none =>
    match line with
    | .noKeyword => s.add (.error .invalidDirective)
    | .ifdef n => s.condCompile outcomes n true
    | .ifndef n => s.condCompile outcomes n false
    | .cond k => s.condCompileIf outcomes k
    | .elif k =>
      if s.pCondStack ≠ [] then s.condCompileElif outcomes k else s.add (.error .directiveElse)
    | .endif =>
      match s.pCondStack with
      | iCondCompile :: pCondStack => { s with iCondCompile, pCondStack }
      | [] => s.add (.error .directiveEndif)
    | .els =>
      if s.pCondStack ≠ [] then { s with iCondCompile := s.iCondCompile ^^^ condElse }
      else s.add (.error .directiveElse)
    | .pragma p => s.pragmaNew p
    | .other l _ brings =>
      if s.iCondCompile ≠ 0 then s else preprocessAll (s.add (.output l)) brings

def preprocessAll (s : State L N K) : List (Line L N K) → State L N K
  | [] => s
  | line :: lines => preprocessAll (preprocess s line) lines

end

end State

section Meaning

inductive Head (N K : Type*) where
  | ifdef (n : N)
  | ifndef (n : N)
  | cond (k : K)

/-- The lines of a dump or of a stream with the one that closes it. -/
structure Closed (L N K : Type*) (dump : Stream) where
  body : List (Line L N K)
  last : Line L N K
  body_open : ∀ line ∈ body, line.closes dump = false
  last_closes : last.closes dump = true

def Line.isText : Line L N K → Bool
  | .other _ _ _ => true
  | _ => false

mutual

/-- Lines that are properly nested, where a dump or a stream is closed in the part it is opened in.
In an inactive part `TEXT` opens no stream, so that its lines are to be text. -/
inductive Block (L : Type u) (N : Type v) (K : Type w) where
  | done
  | line (l : L) (isEndtext : Bool) (brings next : Block L N K)
  | text (l : L) (isEndtext : Bool) (closed : Closed L N K .clipper)
      (htext : ∀ line ∈ closed.body, line.isText = true) (next : Block L N K)
  | pragma (p : Pragma L) (hp : p.opens = none) (next : Block L N K)
  | stream (p : Pragma L) (dump : Stream) (hp : p.opens = some dump) (closed : Closed L N K dump)
      (next : Block L N K)
  | noKeyword (next : Block L N K)
  | group (head : Head N K) (body : Block L N K) (branches : Branches L N K) (next : Block L N K)

inductive Branches (L : Type u) (N : Type v) (K : Type w) where
  | endif
  | els (body : Block L N K)
  | elif (k : K) (body : Block L N K) (branches : Branches L N K)

end

def Head.line : Head N K → Line L N K
  | .ifdef n => .ifdef (some n)
  | .ifndef n => .ifndef (some n)
  | .cond k => .cond k

def Closed.lines {dump : Stream} (closed : Closed L N K dump) : List (Line L N K) :=
  closed.body ++ [closed.last]

mutual

def Block.lines : Block L N K → List (Line L N K)
  | .done => []
  | .line l isEndtext brings next => .other l isEndtext brings.lines :: next.lines
  | .text l isEndtext closed _ next =>
    .other l isEndtext [.pragma .text] :: (closed.lines ++ next.lines)
  | .pragma p _ next => .pragma p :: next.lines
  | .stream p _ _ closed next => .pragma p :: (closed.lines ++ next.lines)
  | .noKeyword next => .noKeyword :: next.lines
  | .group head body branches next => head.line :: (body.lines ++ (branches.lines ++ next.lines))

def Branches.lines : Branches L N K → List (Line L N K)
  | .endif => [.endif]
  | .els body => .els :: (body.lines ++ [.endif])
  | .elif k body branches => .elif k :: (body.lines ++ branches.lines)

end

variable (outcomes : Outcomes L N K)

/-- Whether the first branch is taken, and what happens there. The expression of a group that is not
looked at is calculated, and the value thrown away. -/
def Head.meaning (isActive : Bool) (log : List (Event L N K)) :
    Head N K → Bool × List (Event L N K)
  | .ifdef n =>
    if isActive then (outcomes.defined log n, log ++ [.defineFind n]) else (false, log)
  | .ifndef n =>
    if isActive then (!outcomes.defined log n, log ++ [.defineFind n]) else (false, log)
  | .cond k =>
    (isActive && outcomes.value log k ≠ 0, log ++ [.calculateValue k (!isActive)])

def Pragma.passed : Pragma L → List (Event L N K)
  | .other l => [.output l]
  | _ => []

def Stream.passed (body : List (Line L N K)) : Stream → List (Event L N K)
  | .dumpC => [.dumped body]
  | .clipper => body.map (fun line => .streamed [line]) ++ [.streamEnd]
  | .prg | .c => [.streamed body, .streamEnd]

mutual

/-- A `#` without a keyword behind it is an error in every part. -/
def Block.meaning : Block L N K → Bool → List (Event L N K) → List (Event L N K)
  | .done, _, log => log
  | .line l _ brings next, isActive, log =>
    next.meaning isActive (if isActive then brings.meaning true (log ++ [.output l]) else log)
  | .text l _ closed _ next, isActive, log =>
    next.meaning isActive
      (if isActive then log ++ [.output l] ++ Stream.clipper.passed closed.body else log)
  | .pragma p _ next, isActive, log =>
    next.meaning isActive (if isActive then log ++ p.passed else log)
  | .stream _ dump _ closed next, isActive, log =>
    next.meaning isActive (if isActive then log ++ dump.passed closed.body else log)
  | .noKeyword next, isActive, log => next.meaning isActive (log ++ [.error .invalidDirective])
  | .group head body branches next, isActive, log =>
    next.meaning isActive
      (branches.meaning isActive (head.meaning outcomes isActive log).1
        (body.meaning (isActive && (head.meaning outcomes isActive log).1)
          (head.meaning outcomes isActive log).2))

def Branches.meaning :
    Branches L N K → Bool → Bool → List (Event L N K) → List (Event L N K)
  | .endif, _, _, log => log
  | .els body, isActive, isTaken, log => body.meaning (isActive && !isTaken) log
  | .elif k body branches, isActive, isTaken, log =>
    if isActive && !isTaken then
      branches.meaning isActive (outcomes.value log k ≠ 0)
        (body.meaning (outcomes.value log k ≠ 0) (log ++ [.calculateValue k false]))
    else branches.meaning isActive isTaken (body.meaning false log)

end

/-- What can happen in a part that is not passed on. -/
def Event.isSilent : Event L N K → Bool
  | .calculateValue _ fNoError => fNoError
  | .error e => e = .invalidDirective
  | _ => false

end Meaning

section Selection

/-- The state where no dump and no stream is open. -/
def State.plain (iCondCompile : Nat) (pCondStack : List Nat) (log : List (Event L N K)) :
    State L N K :=
  ⟨iCondCompile, pCondStack, none, [], log⟩

/-- The state in a branch of a group, whether the group is active, and whether this branch or an
earlier one is the one that is taken. -/
inductive Inside : Nat → Bool → Bool → Prop where
  | taken : Inside 0 true true
  | searching : Inside condElse true false
  | past : Inside condDisable true true
  | disabled (isTaken : Bool) : Inside condDisable false isTaken

variable (outcomes : Outcomes L N K) {c : Nat} {stack : List Nat} {log : List (Event L N K)}

theorem preprocessAll_cons (s : State L N K) (line : Line L N K) (lines : List (Line L N K)) :
    s.preprocessAll outcomes (line :: lines) =
      (s.preprocess outcomes line).preprocessAll outcomes lines := by
  rw [State.preprocessAll]

theorem preprocessAll_nil (s : State L N K) : s.preprocessAll outcomes [] = s := by
  rw [State.preprocessAll]

theorem preprocessAll_append (s : State L N K) (lines lines' : List (Line L N K)) :
    s.preprocessAll outcomes (lines ++ lines') =
      (s.preprocessAll outcomes lines).preprocessAll outcomes lines' := by
  induction lines generalizing s with
  | nil => rw [nil_append, preprocessAll_nil]
  | cons line lines ih => rw [cons_append, preprocessAll_cons, preprocessAll_cons, ih]

theorem preprocess_stream (dump : Stream) (buffer : List (Line L N K)) (line : Line L N K) :
    State.preprocess outcomes ⟨c, stack, some dump, buffer, log⟩ line =
      State.getLine ⟨c, stack, some dump, buffer, log⟩ dump line := by
  rw [State.preprocess.eq_def]

theorem preprocess_pragma (p : Pragma L) :
    (State.plain c stack log : State L N K).preprocess outcomes (.pragma p) =
      (State.plain c stack log).pragmaNew p := by
  simp only [State.preprocess, State.plain]

theorem preprocess_other (l : L) (isEndtext : Bool) (brings : List (Line L N K)) :
    (State.plain c stack log : State L N K).preprocess outcomes (.other l isEndtext brings) =
      if c ≠ 0 then State.plain c stack log
      else (State.plain c stack (log ++ [.output l])).preprocessAll outcomes brings := by
  simp only [State.preprocess, State.plain, State.add]
  rfl

theorem preprocess_noKeyword :
    (State.plain c stack log : State L N K).preprocess outcomes .noKeyword =
      State.plain c stack (log ++ [.error .invalidDirective]) := by
  simp only [State.preprocess, State.plain, State.add]

theorem preprocess_endif (c' : Nat) :
    (State.plain c (c' :: stack) log : State L N K).preprocess outcomes .endif =
      State.plain c' stack log := by
  simp only [State.preprocess, State.plain]

theorem preprocessAll_gather {dump : Stream} (hdump : dump ≠ .clipper)
    (body buffer : List (Line L N K)) (hbody : ∀ line ∈ body, line.closes dump = false) :
    State.preprocessAll outcomes ⟨c, stack, some dump, buffer, log⟩ body =
      ⟨c, stack, some dump, buffer ++ body, log⟩ := by
  induction body generalizing buffer with
  | nil => rw [preprocessAll_nil, append_nil]
  | cons line body ih =>
    have hline : line.closes dump = false := hbody line mem_cons_self
    have hgather : State.preprocess outcomes ⟨c, stack, some dump, buffer, log⟩ line =
        ⟨c, stack, some dump, buffer ++ [line], log⟩ := by
      rw [preprocess_stream]
      cases dump with
      | clipper => exact absurd rfl hdump
      | dumpC | prg | c => simp [State.getLine, State.gather, hline]
    rw [preprocessAll_cons, hgather, ih _ fun line' h => hbody line' (mem_cons_of_mem line h),
      append_assoc, singleton_append]

theorem preprocessAll_clipper (body : List (Line L N K))
    (hbody : ∀ line ∈ body, line.closes .clipper = false) :
    State.preprocessAll outcomes ⟨c, stack, some .clipper, [], log⟩ body =
      ⟨c, stack, some .clipper, [],
        if c = 0 then log ++ body.map (fun line => .streamed [line]) else log⟩ := by
  induction body generalizing log with
  | nil => simp [preprocessAll_nil]
  | cons line body ih =>
    have hline : line.closes .clipper = false := hbody line mem_cons_self
    have hstep : State.preprocess outcomes ⟨c, stack, some .clipper, [], log⟩ line =
        ⟨c, stack, some .clipper, [], if c = 0 then log ++ [.streamed [line]] else log⟩ := by
      rw [preprocess_stream]
      by_cases hzero : c = 0 <;> simp [State.getLine, State.pass, State.add, hline, hzero]
    rw [preprocessAll_cons, hstep, ih fun line' h => hbody line' (mem_cons_of_mem line h)]
    by_cases hzero : c = 0 <;> simp [hzero]

/-- A dump or a stream is passed on in an active part, and read to its end in every part. -/
theorem preprocessAll_closed {dump : Stream} (closed : Closed L N K dump) :
    State.preprocessAll outcomes ⟨c, stack, some dump, [], log⟩ closed.lines =
      State.plain c stack (if c = 0 then log ++ dump.passed closed.body else log) := by
  obtain ⟨body, last, hbody, hlast⟩ := closed
  rw [Closed.lines, preprocessAll_append]
  cases dump with
  | clipper =>
    rw [preprocessAll_clipper outcomes body hbody, preprocessAll_cons, preprocessAll_nil,
      preprocess_stream]
    by_cases hzero : c = 0 <;> simp [State.getLine, State.pass, State.add, State.close,
      State.plain, Stream.passed, hlast, hzero]
  | dumpC | prg | c =>
    rw [preprocessAll_gather outcomes (by decide) body [] hbody, preprocessAll_cons,
      preprocessAll_nil, preprocess_stream]
    by_cases hzero : c = 0 <;> simp [State.getLine, State.pass, State.add, State.close,
      State.plain, Stream.passed, hlast, hzero]

theorem pragmaNew_opens {p : Pragma L} {dump : Stream} (hp : p.opens = some dump) :
    (State.plain c stack log : State L N K).pragmaNew p = ⟨c, stack, some dump, [], log⟩ := by
  cases p with
  | begindump | text | stream | cstream => cases hp; rfl
  | enddump | endtext | other => cases hp

theorem pragmaNew_none {p : Pragma L} (hp : p.opens = none) :
    (State.plain c stack log : State L N K).pragmaNew p =
      State.plain c stack (if c = 0 then log ++ p.passed else log) := by
  cases p with
  | begindump | text | stream | cstream => cases hp
  | enddump | endtext => simp [State.pragmaNew, State.plain, Pragma.passed]
  | other l =>
    by_cases hzero : c = 0 <;>
      simp [State.pragmaNew, State.pass, State.add, State.plain, Pragma.passed, hzero]

/-- In an inactive part the lines behind `TEXT` are read as lines, and passed over. -/
theorem preprocessAll_skipped (hc : c ≠ 0) (closed : Closed L N K .clipper)
    (htext : ∀ line ∈ closed.body, line.isText = true) :
    (State.plain c stack log).preprocessAll outcomes closed.lines = State.plain c stack log := by
  obtain ⟨body, last, _, hlast⟩ := closed
  have hskip (body : List (Line L N K)) (htext : ∀ line ∈ body, line.isText = true) :
      (State.plain c stack log).preprocessAll outcomes body = State.plain c stack log := by
    induction body with
    | nil => rw [preprocessAll_nil]
    | cons line body ih =>
      have hline : line.isText = true := htext line mem_cons_self
      cases line with
      | other l isEndtext brings =>
        rw [preprocessAll_cons, preprocess_other, if_pos hc,
          ih fun line' h => htext line' (mem_cons_of_mem _ h)]
      | _ => cases hline
  rw [Closed.lines, preprocessAll_append, hskip body htext, preprocessAll_cons, preprocessAll_nil]
  cases last with
  | other l isEndtext brings => rw [preprocess_other, if_pos hc]
  | pragma p =>
    cases p with
    | endtext => rw [preprocess_pragma]; rfl
    | _ => cases hlast
  | _ => cases hlast

theorem preprocess_head (head : Head N K) (isActive : Bool) (hactive : isActive = decide (c = 0)) :
    ∃ iCondCompile, Inside iCondCompile isActive (head.meaning outcomes isActive log).1 ∧
      (isActive && (head.meaning outcomes isActive log).1) = decide (iCondCompile = 0) ∧
      (State.plain c stack log).preprocess outcomes head.line =
        State.plain iCondCompile (c :: stack) (head.meaning outcomes isActive log).2 := by
  by_cases hzero : c = 0
  · subst hzero
    have htrue : isActive = true := by rw [hactive]; rfl
    subst htrue
    have hpush (fCond : Bool) (log : List (Event L N K)) :
        ∃ iCondCompile, Inside iCondCompile true fCond ∧
          (true && fCond) = decide (iCondCompile = 0) ∧
          State.conditionPush (State.plain 0 stack log) fCond =
            State.plain iCondCompile (0 :: stack) log := by
      cases fCond with
      | true => exact ⟨0, .taken, rfl, rfl⟩
      | false => exact ⟨condElse, .searching, rfl, rfl⟩
    cases head with
    | ifdef n =>
      simp only [Head.line, State.preprocess, State.plain, State.condCompile]
      exact hpush (outcomes.defined log n) (log ++ [.defineFind n])
    | ifndef n =>
      simp only [Head.line, State.preprocess, State.plain, State.condCompile]
      exact hpush (!outcomes.defined log n) (log ++ [.defineFind n])
    | cond k =>
      simp only [Head.line, State.preprocess, State.plain, State.condCompileIf]
      exact hpush (outcomes.value log k ≠ 0) (log ++ [.calculateValue k false])
  · have hfalse : isActive = false := by rw [hactive, decide_eq_false hzero]
    subst hfalse
    refine ⟨condDisable, .disabled _, rfl, ?_⟩
    cases head with
    | ifdef n | ifndef n => simp [Head.line, Head.meaning, State.preprocess, State.plain,
        State.condCompile, State.conditionPush, hzero]
    | cond k => simp [Head.line, Head.meaning, State.preprocess, State.plain, State.condCompileIf,
        State.conditionPush, State.add, hzero]

variable (log) in
theorem preprocess_elif (k : K) {isActive isTaken : Bool} (hstack : stack ≠ [])
    (hinside : Inside c isActive isTaken) :
    ∃ iCondCompile isHere log', Inside iCondCompile isActive (isTaken || isHere) ∧
      isHere = decide (iCondCompile = 0) ∧
      (State.plain c stack log).preprocess outcomes (.elif k) =
        State.plain iCondCompile stack log' ∧
      ∀ body branches, (Branches.elif k body branches).meaning outcomes isActive isTaken log =
        branches.meaning outcomes isActive (isTaken || isHere)
          (Block.meaning outcomes body isHere log') := by
  cases hinside with
  | taken =>
    refine ⟨condDisable, false, log, .past, rfl, ?_, fun _ _ => ?_⟩
    · simp [State.preprocess, State.plain, hstack, State.condCompileElif]
    · simp [Branches.meaning]
  | past =>
    refine ⟨condDisable, false, log, .past, rfl, ?_, fun _ _ => ?_⟩
    · simp [State.preprocess, State.plain, hstack, State.condCompileElif, condDisable]
    · simp [Branches.meaning]
  | disabled =>
    refine ⟨condDisable, false, log, .disabled _, rfl, ?_, fun _ _ => ?_⟩
    · simp [State.preprocess, State.plain, hstack, State.condCompileElif, condDisable]
    · simp [Branches.meaning]
  | searching =>
    by_cases hvalue : outcomes.value log k ≠ 0
    · refine ⟨0, true, log ++ [.calculateValue k false], .taken, rfl, ?_, fun _ _ => ?_⟩
      · simp [State.preprocess, State.plain, hstack, State.condCompileElif, State.add, condElse,
          condDisable, hvalue]
      · simp [Branches.meaning, hvalue]
    · refine ⟨condElse, false, log ++ [.calculateValue k false], .searching, rfl, ?_,
        fun _ _ => ?_⟩
      · simp [State.preprocess, State.plain, hstack, State.condCompileElif, State.add, condElse,
          condDisable, hvalue]
      · simp [Branches.meaning, hvalue]

variable (log) in
theorem preprocess_els {isActive isTaken : Bool} (hstack : stack ≠ [])
    (hinside : Inside c isActive isTaken) :
    ∃ iCondCompile, (isActive && !isTaken) = decide (iCondCompile = 0) ∧
      (State.plain c stack log).preprocess outcomes .els =
        State.plain iCondCompile stack log := by
  refine ⟨c ^^^ condElse, ?_, ?_⟩
  · cases hinside with
    | taken => rfl
    | past => rfl
    | searching => rfl
    | disabled => rfl
  · simp only [State.preprocess, State.plain]
    exact if_pos hstack

mutual

theorem preprocessAll_block (block : Block L N K) (c : Nat) (stack : List Nat)
    (log : List (Event L N K)) :
    (State.plain c stack log).preprocessAll outcomes block.lines =
      State.plain c stack (block.meaning outcomes (c = 0) log) := by
  cases block with
  | done => rw [Block.lines, preprocessAll_nil, Block.meaning]
  | line l isEndtext brings next =>
    rw [Block.lines, preprocessAll_cons, preprocess_other, Block.meaning]
    by_cases hzero : c = 0
    · subst hzero
      rw [if_neg (by decide), preprocessAll_block brings, preprocessAll_block next]
      rfl
    · rw [if_pos hzero, preprocessAll_block next]
      simp [hzero]
  | text l isEndtext closed htext next =>
    rw [Block.lines, preprocessAll_cons, preprocess_other, preprocessAll_append, Block.meaning]
    by_cases hzero : c = 0
    · subst hzero
      rw [if_neg (by decide), preprocessAll_cons, preprocessAll_nil, preprocess_pragma,
        pragmaNew_opens rfl, preprocessAll_closed, preprocessAll_block next]
      rfl
    · rw [if_pos hzero, preprocessAll_skipped outcomes hzero closed htext,
        preprocessAll_block next]
      simp [hzero]
  | pragma p hp next =>
    rw [Block.lines, preprocessAll_cons, preprocess_pragma, pragmaNew_none hp,
      preprocessAll_block next, Block.meaning]
    simp only [decide_eq_true_eq]
  | stream p dump hp closed next =>
    rw [Block.lines, preprocessAll_cons, preprocess_pragma, pragmaNew_opens hp,
      preprocessAll_append, preprocessAll_closed, preprocessAll_block next, Block.meaning]
    simp only [decide_eq_true_eq]
  | noKeyword next =>
    rw [Block.lines, preprocessAll_cons, preprocess_noKeyword, preprocessAll_block next,
      Block.meaning]
  | group head body branches next =>
    obtain ⟨iCondCompile, hinside, hbody, hhead⟩ := preprocess_head outcomes head _ rfl
    rw [Block.lines, preprocessAll_cons, preprocessAll_append, preprocessAll_append, hhead,
      preprocessAll_block body, preprocessAll_branches branches hinside,
      preprocessAll_block next, Block.meaning, hbody]

theorem preprocessAll_branches (branches : Branches L N K) {c c' : Nat} {stack : List Nat}
    {log : List (Event L N K)} {isActive isTaken : Bool} (hinside : Inside c isActive isTaken) :
    (State.plain c (c' :: stack) log).preprocessAll outcomes branches.lines =
      State.plain c' stack (branches.meaning outcomes isActive isTaken log) := by
  have hne : c' :: stack ≠ [] := cons_ne_nil c' stack
  cases branches with
  | endif =>
    rw [Branches.lines, preprocessAll_cons, preprocessAll_nil, preprocess_endif, Branches.meaning]
  | els body =>
    obtain ⟨iCondCompile, hbody, hels⟩ := preprocess_els outcomes log hne hinside
    rw [Branches.lines, preprocessAll_cons, preprocessAll_append, hels,
      preprocessAll_block body, Branches.meaning, hbody, preprocessAll_cons, preprocessAll_nil,
      preprocess_endif]
  | elif k body branches =>
    obtain ⟨iCondCompile, isHere, log, hinside', hhere, helif, hmeaning⟩ :=
      preprocess_elif outcomes log k hne hinside
    rw [Branches.lines, preprocessAll_cons, preprocessAll_append, helif,
      preprocessAll_block body, preprocessAll_branches branches hinside', hmeaning, hhere]

end

/-- Nothing is passed on between the two logs. -/
def Silent (log log' : List (Event L N K)) : Prop :=
  ∃ events, log' = log ++ events ∧ ∀ event ∈ events, event.isSilent = true

theorem Silent.refl (log : List (Event L N K)) : Silent log log :=
  ⟨[], (append_nil log).symm, fun _ h => absurd h not_mem_nil⟩

theorem Silent.trans {log log' log'' : List (Event L N K)} (h : Silent log log')
    (h' : Silent log' log'') : Silent log log'' := by
  obtain ⟨events, rfl, hevents⟩ := h
  obtain ⟨events', rfl, hevents'⟩ := h'
  refine ⟨events ++ events', append_assoc .., fun event h => ?_⟩
  rcases mem_append.mp h with h | h
  · exact hevents event h
  · exact hevents' event h

theorem Silent.add {event : Event L N K} (h : event.isSilent = true) (log : List (Event L N K)) :
    Silent log (log ++ [event]) :=
  ⟨[event], rfl, fun _ hmem => by rwa [eq_of_mem_singleton hmem]⟩

mutual

theorem meaning_disabled (block : Block L N K) (log : List (Event L N K)) :
    Silent log (block.meaning outcomes false log) := by
  cases block with
  | done => exact .refl log
  | line l isEndtext brings next => exact meaning_disabled next log
  | text l isEndtext closed htext next => exact meaning_disabled next log
  | pragma p hp next => exact meaning_disabled next log
  | stream p dump hp closed next => exact meaning_disabled next log
  | noKeyword next =>
    exact (Silent.add rfl log).trans (meaning_disabled next _)
  | group head body branches next =>
    have hhead : (head.meaning outcomes false log).1 = false ∧
        Silent log (head.meaning outcomes false log).2 := by
      cases head with
      | ifdef n | ifndef n => exact ⟨rfl, .refl log⟩
      | cond k => exact ⟨rfl, .add rfl log⟩
    rw [Block.meaning, hhead.1, Bool.false_and]
    exact hhead.2.trans <| (meaning_disabled body _).trans <|
      (branches_disabled branches false false rfl _).trans (meaning_disabled next _)

theorem branches_disabled (branches : Branches L N K) (isActive isTaken : Bool)
    (hdisabled : (isActive && !isTaken) = false) (log : List (Event L N K)) :
    Silent log (branches.meaning outcomes isActive isTaken log) := by
  cases branches with
  | endif => exact .refl log
  | els body =>
    rw [Branches.meaning, hdisabled]
    exact meaning_disabled body log
  | elif k body branches =>
    rw [Branches.meaning, hdisabled, if_neg Bool.false_ne_true]
    exact (meaning_disabled body log).trans
      (branches_disabled branches isActive isTaken hdisabled _)

end

/-- Conditional compilation passes on the lines of the branches that are taken and leaves its own
state as it was. Behind a branch that is taken, and in a branch that is not, no line is passed on
and no `#elif` looked at. -/
theorem conditions_select (outcomes : Outcomes L N K) :
    (∀ (block : Block L N K) iCondCompile pCondStack log,
      (State.plain iCondCompile pCondStack log).preprocessAll outcomes block.lines =
        State.plain iCondCompile pCondStack (block.meaning outcomes (iCondCompile = 0) log)) ∧
    (∀ (block : Block L N K) log, Silent log (block.meaning outcomes false log)) ∧
    ∀ (branches : Branches L N K) isActive log,
      Silent log (branches.meaning outcomes isActive true log) := by
  refine ⟨preprocessAll_block outcomes, meaning_disabled outcomes, ?_⟩
  intro branches isActive log
  exact branches_disabled outcomes branches isActive true (by simp) log

/-- `#pragma begindump` in a part that is not passed on opens a dump there, which takes in the
`#endif`: the group stays open, and the line behind it is lost. A line that a rule turns into
`#else` ends the branch where it is passed on, and a `#` alone is an error where it is not. -/
theorem conditions_pragma_disabled :
    let outcomes : Outcomes Nat Nat Nat := ⟨fun _ _ => false, fun _ k => k⟩
    (State.plain 0 [] []).preprocessAll outcomes
        [.cond 0, .pragma .begindump, .endif, .other 1 false []] =
      ⟨condElse, [0], some .dumpC, [.endif, .other 1 false []], [.calculateValue 0 false]⟩ ∧
    (State.plain 0 [] []).preprocessAll outcomes [.cond 1, .other 1 false [.els], .other 2 false [],
        .endif] =
      State.plain 0 [] [.calculateValue 1 false, .output 1] ∧
    (State.plain 0 [] []).preprocessAll outcomes [.cond 0, .noKeyword, .endif] =
      State.plain 0 [] [.calculateValue 0 false, .error .invalidDirective] := by
  refine ⟨?_, ?_, ?_⟩ <;> rfl

end Selection

end Harbour.Pp.Conditions
