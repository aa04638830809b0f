import Harbour.Rdd.MemoSmt
import Harbour.Rdd.MemoSix
import Harbour.Rdd.MemoFlex

/-!
The readers of memo items on any buffer. Every byte is asked for by its place in the buffer, and the
grammar of the items says which buffers should be read.
-/

namespace Harbour.Rdd.MemoReaders

open Library.Bytes MemoItem MemoSmt MemoSix MemoFlex List

/-- What stands behind the type of an item: as many bytes as the type says, or a length with a text
or with the items of an array. -/
inductive Shape where
  | fixed (n : Nat)
  | text
  | array
deriving DecidableEq

/-- The bytes of a type and those that start with a length, and the types. -/
structure Grammar where
  nType : Nat
  nHead : Nat
  shapes : List (Nat × Shape)

def Shape.size (nHead : Nat) : Shape → Nat
  | .fixed n => n
  | .text => nHead
  | .array => nHead

def Grammar.shape (g : Grammar) (bytes : Bytes) : Option Shape := g.shapes.lookup (leValue bytes)

inductive WellFormed (g : Grammar) : Bytes → Prop where
  | fixed (usType operand : Bytes) (htype : usType.length = g.nType)
      (hshape : g.shape usType = some (.fixed operand.length)) : WellFormed g (usType ++ operand)
  | text (usType head pszStr : Bytes) (htype : usType.length = g.nType)
      (hshape : g.shape usType = some .text) (hhead : head.length = g.nHead)
      (hlength : pszStr.length = leValue (head.take 2)) : WellFormed g (usType ++ (head ++ pszStr))
  | array (usType head : Bytes) (items : List Bytes) (htype : usType.length = g.nType)
      (hshape : g.shape usType = some .array) (hhead : head.length = g.nHead)
      (hlength : items.length = leValue (head.take 2))
      (hitems : ∀ item ∈ items, WellFormed g item) :
      WellFormed g (usType ++ (head ++ items.flatten))

def Headed (g : Grammar) (p : Nat → Bytes → Prop) (bytes : Bytes) : Prop :=
  ∃ head tail : Bytes, bytes = head ++ tail ∧ head.length = g.nHead ∧ p (leValue (head.take 2)) tail

def Row (p : Bytes → Prop) (n : Nat) (bytes : Bytes) : Prop :=
  ∃ items : List Bytes, bytes = items.flatten ∧ items.length = n ∧ ∀ item ∈ items, p item

/-- The bytes of a root array, which has no type. -/
def RootFormed (g : Grammar) : Bytes → Prop := Headed g (Row (WellFormed g))

/-- Why a reader ends without an item: `EDBF_CORRUPT`, a byte that is not in the buffer, or arrays
that are too deep. -/
inductive Fault where
  | corrupt
  | outside
  | depth
deriving DecidableEq

def bytesAt (buf : Bytes) (pos n : Nat) : Except Fault Bytes :=
  if pos + n ≤ buf.length then .ok ((buf.drop pos).take n) else .error .outside

/-- `HB_GET_LE_UINT16` and its like behind a place: the offset and the number of the bytes. -/
abbrev Get := Nat → Nat → Except Fault Nat

def getAt (buf : Bytes) (pos : Nat) : Get := fun off n => (bytesAt buf (pos + off) n).map leValue

/-- What a reader does with a type. Operands are asked for by their offsets and sizes. -/
inductive Branch where
  | fixed (n : Nat) (operands : List (Nat × Nat)) (value : (Nat → Nat) → Item)
  | text
  | array

def Branch.shape : Branch → Shape
  | .fixed n _ _ => .fixed n
  | .text => .text
  | .array => .array

def Branch.within : Branch → Bool
  | .fixed n operands _ => operands.all fun operand => operand.1 + operand.2 ≤ n
  | _ => true

/-- The bytes that are left before the type is read, how a length is read, whether an array has to
have a byte for each item, and the types. -/
structure ItemFormat extends Grammar where
  nFirst : Nat
  length : Get → Except Fault Nat
  fCheck : Bool
  branches : List (Nat × Branch)
  typed : 0 < nType ∧ nType ≤ nFirst
  first : ∀ shape ∈ shapes, nFirst ≤ nType + shape.2.size nHead
  same : branches.map (fun branch => (branch.1, branch.2.shape)) = shapes
  within : branches.all (fun branch => branch.2.within) = true
  counts : ∀ (buf : Bytes) pos, pos + nHead ≤ buf.length →
    length (getAt buf pos) = .ok (leValue (((buf.drop pos).take nHead).take 2))

section

variable (iTrans : Trans) (f : ItemFormat) (buf : Bytes)

def readHead (fCheck : Bool) (body : (ulLen pos : Nat) → Except Fault (Item × Nat)) (pos : Nat) :
    Except Fault (Item × Nat) :=
  if buf.length < pos + f.nHead then .error .corrupt
  else do
    let ulLen ← f.length (getAt buf pos)
    let pos := pos + f.nHead
    if fCheck ∧ buf.length < pos + ulLen then .error .corrupt
    else body ulLen pos

def readText : Nat → Except Fault (Item × Nat) :=
  readHead f buf true fun ulLen pos => do
    let pszStr ← bytesAt buf pos ulLen
    .ok (.string (readStr iTrans pszStr), pos + ulLen)

def readRow (read : Nat → Except Fault (Item × Nat)) :
    (ulLen pos : Nat) → Except Fault (List Item × Nat)
  | 0, pos => .ok ([], pos)
  | ulLen + 1, pos => do
    let (item, pos) ← read pos
    let (items, pos) ← readRow read ulLen pos
    .ok (item :: items, pos)

def readArray (read : Nat → Except Fault (Item × Nat)) : Nat → Except Fault (Item × Nat) :=
  readHead f buf f.fCheck fun ulLen pos => do
    let (items, pos) ← readRow read ulLen pos
    .ok (.array items, pos)

def readBranch (read : Nat → Except Fault (Item × Nat)) (pos : Nat) :
    Branch → Except Fault (Item × Nat)
  | .fixed n operands value =>
    if buf.length < pos + n then .error .corrupt
    else do
      let values ← operands.mapM fun operand => getAt buf pos operand.1 operand.2
      .ok (value (values.getD · 0), pos + n)
  | .text => readText iTrans f buf pos
  | .array => readArray f buf read pos

def readItem : (depth pos : Nat) → Except Fault (Item × Nat)
  | 0, _ => .error .depth
  | depth + 1, pos =>
    if buf.length < pos + f.nFirst then .error .corrupt
    else do
      let usType ← getAt buf pos 0 f.nType
      match f.branches.lookup usType with
      | none => .error .corrupt
      | some branch => readBranch iTrans f buf (readItem depth) (pos + f.nType) branch

end

section Formats

variable (platform : Platform) (iTrans : Trans)

def leaf (n : Nat) (item : Item) : Branch := .fixed n [] fun _ => item

def num (n off m : Nat) (put : Nat → Item) : Branch := .fixed n [(off, m)] fun v => put (v 0)

def numLen (n : Nat) (put : Nat → Int → Item) : Branch :=
  .fixed (n + 1) [(0, n), (n, 1)] fun v => put (v 0) (v 1)

def numDec (n : Nat) (cast : Nat → Int) (put : Int → Int → Item) : Branch :=
  .fixed (n + 2) [(0, n), (n, 1), (n + 1, 1)] fun v =>
    if v 2 ≠ 0 then
      itemPutNDLen platform (platform.ofMaxInt (cast (v 0))) ((v 1 : Int) - (v 2 + 1)) (v 2)
    else put (cast (v 0)) (v 1)

def double : Branch :=
  .fixed 10 [(0, 1), (1, 1), (2, 8)] fun v => itemPutNDLen platform (UInt64.ofNat (v 2))
    (if v 1 ≠ 0 then (v 0 : Int) - (v 1 + 1) else v 0) (v 1)

def sixDouble : Branch :=
  .fixed 12 [(4, 8), (0, 2), (2, 2)] fun v =>
    itemPutNDLen platform (UInt64.ofNat (v 0)) (v 1) (v 2)

theorem getAt_ok {buf : Bytes} {pos off n : Nat} (h : pos + off + n ≤ buf.length) :
    getAt buf pos off n = .ok (leValue ((buf.drop (pos + off)).take n)) := by
  rw [getAt, bytesAt, if_pos h]
  rfl

theorem getAt_head {buf : Bytes} {pos : Nat} (h : pos + 2 ≤ buf.length) :
    getAt buf pos 0 2 = .ok (leValue (((buf.drop pos).take 2).take 2)) := by
  rw [getAt_ok h, take_take]
  rfl

def smtItems : ItemFormat where
  nType := 1
  nHead := 2
  shapes := [(6, .array), (1, .text), (2, .fixed 4), (3, .fixed 10), (4, .fixed 4), (5, .fixed 1),
    (0, .fixed 0)]
  nFirst := 1
  length get := get 0 2
  fCheck := true
  branches := [(smtItArray.toNat, .array), (smtItChar.toNat, .text),
    (smtItInt.toNat, num 4 0 4 fun n => itemPutNInt (platform.castLong n)),
    (smtItDouble.toNat, double platform),
    (smtItDate.toNat, num 4 0 4 fun n => .date (platform.castLong n)),
    (smtItLogical.toNat, num 1 0 1 fun n => .logical (n ≠ 0)), (smtItNil.toNat, leaf 0 .nil)]
  typed := by decide
  first := by decide
  same := rfl
  within := rfl
  counts _ _ h := getAt_head h

/-- `hb_fptReadSixItem`, whose offsets count from the item and not from behind its type. -/
def sixItems : ItemFormat where
  nType := 2
  nHead := 12
  shapes := [(2, .fixed 12), (8, .fixed 12), (32, .fixed 12), (128, .fixed 12), (1024, .text),
    (32768, .array), (0, .fixed 12)]
  nFirst := sixItemBufSize
  length get := do
    let ulLen ← get (2 - 2) 4
    .ok (ulLen % 2 ^ 16)
  fCheck := false
  branches := [(fptitSixLNum, num 12 (6 - 2) 4 fun n => itemPutNL platform (platform.castLong n)),
    (fptitSixDNum, sixDouble platform),
    (fptitSixLDate, num 12 (6 - 2) 4 fun n => .date (platform.castLong n)),
    (fptitSixLog, num 12 (6 - 2) 2 fun n => .logical (n ≠ 0)), (fptitSixChar, .text),
    (fptitSixArray, .array), (fptitSixNil, leaf 12 .nil)]
  typed := by decide
  first := by decide
  same := rfl
  within := rfl
  counts buf pos h := by
    have hlow : (buf.drop pos).take (2 + 2) =
        (buf.drop pos).take 2 ++ ((buf.drop pos).drop 2).take 2 := take_add
    have htwo : ((buf.drop pos).take 2).length = 2 := by
      rw [length_take, length_drop]
      omega
    have hlt := leValue_lt ((buf.drop pos).take 2)
    rw [htwo] at hlt
    rw [getAt_ok (by omega), take_take]
    refine congrArg Except.ok ?_
    change leValue ((buf.drop pos).take (2 + 2)) % 2 ^ 16 = leValue ((buf.drop pos).take 2)
    rw [hlow, leValue_append, htwo]
    omega

/-- `hb_fptReadFlexItem` of an item that is no root. -/
def flexItems : ItemFormat where
  nType := 1
  nHead := 2
  shapes := [(0x00, .fixed 0), (0x19, .fixed 0), (0x1A, .fixed 0), (0x0B, .fixed 1),
    (0x0E, .fixed 4), (0x0A, .fixed 4), (0x02, .fixed 1), (0x12, .fixed 2), (0x1D, .fixed 3),
    (0x01, .fixed 1), (0x11, .fixed 2), (0x1C, .fixed 3), (0x03, .fixed 2), (0x13, .fixed 3),
    (0x1E, .fixed 4), (0x04, .fixed 2), (0x14, .fixed 3), (0x1F, .fixed 4), (0x05, .fixed 4),
    (0x15, .fixed 5), (0x20, .fixed 6), (0x21, .fixed 6), (0x09, .fixed 8), (0x0F, .fixed 10),
    (0x1B, .fixed 10), (0x18, .fixed 0), (0x07, .text), (0x0C, .array)]
  nFirst := 1
  length get := get 0 2
  fCheck := true
  branches := [(flexarNil.toNat, leaf 0 .nil), (flexarTrue.toNat, leaf 0 (.logical true)),
    (flexarFalse.toNat, leaf 0 (.logical false)),
    (flexarLogic.toNat, num 1 0 1 fun n => .logical (n ≠ 0)),
    (flexarDateJ.toNat, num 4 0 4 fun n => .date (platform.castLong n)),
    (flexarDateX.toNat, num 4 0 4 fun n => .date (platform.castLong n)),
    (flexarChar.toNat, num 1 0 1 fun n => itemPutNI (signed 8 n)),
    (flexarChar1.toNat, numLen 1 fun n iLen => itemPutNILen (signed 8 n) iLen),
    (flexarChar2.toNat, numDec platform 1 (fun n => signed 8 n) itemPutNILen),
    (flexarUChar.toNat, num 1 0 1 fun n => itemPutNI n),
    (flexarUChar1.toNat, numLen 1 fun n iLen => itemPutNILen n iLen),
    (flexarUChar2.toNat, numDec platform 1 (fun n => n) itemPutNILen),
    (flexarShort.toNat, num 2 0 2 fun n => itemPutNI (signed 16 n)),
    (flexarShort1.toNat, numLen 2 fun n iLen => itemPutNILen (signed 16 n) iLen),
    (flexarShort2.toNat, numDec platform 2 (fun n => signed 16 n) itemPutNILen),
    (flexarUShort.toNat, num 2 0 2 fun n => itemPutNInt n),
    (flexarUShort1.toNat, numLen 2 fun n iLen => itemPutNIntLen n iLen),
    (flexarUShort2.toNat, numDec platform 2 (fun n => n) itemPutNIntLen),
    (flexarLong.toNat, num 4 0 4 fun n => itemPutNL platform (platform.castLong n)),
    (flexarLong1.toNat, numLen 4 fun n iLen => itemPutNLLen platform (platform.castLong n) iLen),
    (flexarLong2.toNat, numDec platform 4 platform.castLong (itemPutNLLen platform)),
    (flexarULong2.toNat, numDec platform 4 (fun n => n) itemPutNIntLen),
    (flexarDouble.toNat, num 8 0 8 fun n => itemPutND platform (UInt64.ofNat n)),
    (flexarDouble2.toNat, double platform),
    (flexarLDouble.toNat, leaf 10 (itemPutND platform 0)),
    (flexarNul.toNat, leaf 0 (.string [])), (flexarStr.toNat, .text), (flexarAray.toNat, .array)]
  typed := by decide
  first := by decide
  same := rfl
  within := rfl
  counts _ _ h := getAt_head h

def fptReadSMTItem (buf : Bytes) : Except Fault (Item × Nat) :=
  readItem iTrans (smtItems platform) buf (buf.length + 1) 0

def fptReadSixItem (buf : Bytes) : Except Fault (Item × Nat) :=
  readItem iTrans (sixItems platform) buf (buf.length + 1) 0

def fptReadFlexItem (bRoot : Bool) (buf : Bytes) : Except Fault (Item × Nat) :=
  if bRoot then
    readArray (flexItems platform) buf (readItem iTrans (flexItems platform) buf (buf.length + 1)) 0
  else readItem iTrans (flexItems platform) buf (buf.length + 1) 0

end Formats

variable {p : Bytes → Prop} {r : Except Fault (Item × Nat)} {read : Nat → Except Fault (Item × Nat)}
  {front : Bytes} {items : List Bytes}

section Sound

def Outcome {α : Type} (buf : Bytes) (pos : Nat) (p : Bytes → Prop) (r : Except Fault (α × Nat)) :
    Prop :=
  r = .error .corrupt ∨ ∃ a bytes rest, buf.drop pos = bytes ++ rest ∧ p bytes ∧
    pos + bytes.length ≤ buf.length ∧ r = .ok (a, pos + bytes.length)

variable {iTrans : Trans} {f : ItemFormat} {buf bytes rest : Bytes} {pos n next : Nat}

theorem Outcome.ok {α : Type} {a : α} {r : Except Fault (α × Nat)}
    (hsplit : buf.drop pos = bytes ++ rest) (hp : p bytes) (hnext : next = pos + bytes.length)
    (hle : next ≤ buf.length) (hr : r = .ok (a, next)) : Outcome buf pos p r :=
  .inr ⟨a, bytes, rest, hsplit, hp, hnext ▸ hle, hnext ▸ hr⟩

theorem drop_split (h : pos + n ≤ buf.length) : ∃ bytes, (buf.drop pos).take n = bytes ∧
    bytes.length = n ∧ buf.drop pos = bytes ++ buf.drop (pos + n) := by
  refine ⟨_, rfl, ?_, ?_⟩
  · rw [length_take, length_drop]
    omega
  · rw [← drop_drop, take_append_drop]

theorem readHead_outcome {fCheck : Bool} {p : Nat → Bytes → Prop}
    {body : Nat → Nat → Except Fault (Item × Nat)} (hbody : ∀ {ulLen},
      pos + f.nHead ≤ buf.length → (fCheck = true → pos + f.nHead + ulLen ≤ buf.length) →
        Outcome buf (pos + f.nHead) (p ulLen) (body ulLen (pos + f.nHead))) :
    Outcome buf pos (Headed f.toGrammar p) (readHead f buf fCheck body pos) := by
  unfold readHead
  split
  · exact .inl rfl
  · rename_i hhead
    obtain ⟨head, htake, hlength, hsplit⟩ := drop_split (Nat.le_of_not_lt hhead)
    rw [f.counts buf pos (Nat.le_of_not_lt hhead), htake]
    dsimp only [bind, Except.bind]
    split
    · exact .inl rfl
    · rename_i hcheck
      rcases hbody (Nat.le_of_not_lt hhead) fun h => Nat.le_of_not_lt fun hlt => hcheck ⟨h, hlt⟩
        with hcorrupt | ⟨item, tail, rest, hrest, hp, hend, hok⟩
      · exact .inl hcorrupt
      · exact .ok (by rw [hsplit, hrest, append_assoc]) ⟨head, tail, rfl, hlength, hp⟩
          (by rw [length_append, hlength, Nat.add_assoc]) hend hok

theorem readText_outcome : Outcome buf pos
    (Headed f.toGrammar fun n pszStr => pszStr.length = n) (readText iTrans f buf pos) := by
  refine readHead_outcome fun _ htext => ?_
  obtain ⟨pszStr, -, hcount, hrest⟩ := drop_split (htext rfl)
  rw [bytesAt, if_pos (htext rfl)]
  exact .ok hrest hcount (by rw [hcount]) (htext rfl) rfl

theorem readRow_outcome {low : Nat}
    (hread : ∀ {pos}, low ≤ pos → pos ≤ buf.length → Outcome buf pos p (read pos))
    (hlow : low ≤ pos) (hle : pos ≤ buf.length) :
    Outcome buf pos (Row p n) (readRow read n pos) := by
  induction n generalizing pos with
  | zero => exact .ok (nil_append _).symm ⟨[], rfl, rfl, nofun⟩ rfl hle rfl
  | succ n ih =>
    unfold readRow
    rcases hread hlow hle with hcorrupt | ⟨item, bytes, rest, hsplit, hitem, hend, hok⟩
    · rw [hcorrupt]
      exact .inl rfl
    · rw [hok]
      dsimp only [bind, Except.bind]
      rcases ih (hlow.trans (Nat.le_add_right _ _)) hend with
        hcorrupt | ⟨row, _, rest', hsplit', ⟨items, rfl, hcount, hitems⟩, hend', hrow⟩
      · rw [hcorrupt]
        exact .inl rfl
      · have hrest : rest = items.flatten ++ rest' := by
          rw [← hsplit', ← drop_drop, hsplit, drop_left]
        rw [hrow]
        exact .ok (by rw [hsplit, hrest, flatten_cons, append_assoc])
          ⟨bytes :: items, rfl, congrArg Nat.succ hcount, forall_mem_cons.mpr ⟨hitem, hitems⟩⟩
          (by rw [flatten_cons, length_append, Nat.add_assoc]) hend' rfl

theorem readArray_outcome (hread : ∀ {next}, pos + f.nHead ≤ next → next ≤ buf.length →
      Outcome buf next (WellFormed f.toGrammar) (read next)) :
    Outcome buf pos (RootFormed f.toGrammar) (readArray f buf read pos) := by
  refine readHead_outcome fun hhead _ => ?_
  rcases readRow_outcome hread (Nat.le_refl _) hhead with
    hcorrupt | ⟨row, bytes, rest, hrest, hitems, hend, hrow⟩
  · rw [hcorrupt]
    exact .inl rfl
  · rw [hrow]
    exact .ok hrest hitems rfl hend rfl

theorem lookup_shape (usType : Bytes) :
    f.shape usType = (f.branches.lookup (leValue usType)).map Branch.shape := by
  rw [Grammar.shape, ← f.same]
  induction f.branches with
  | nil => rfl
  | cons branch branches ih =>
    rw [map_cons, lookup_cons, lookup_cons, ih]
    split <;> rfl

theorem mem_of_lookup {α : Type} {l : List (Nat × α)} {key : Nat} {a : α}
    (h : l.lookup key = some a) : (key, a) ∈ l := by
  obtain ⟨front, behind, rfl, -⟩ := lookup_eq_some_iff.mp h
  exact mem_append_right _ mem_cons_self

def operandValues (operands : List (Nat × Nat)) (bytes : Bytes) : List Nat :=
  operands.map fun operand => leValue ((bytes.drop operand.1).take operand.2)

theorem operands_ok {operands : List (Nat × Nat)}
    (hwithin : (operands.all fun operand => operand.1 + operand.2 ≤ n) = true)
    (hle : pos + n ≤ buf.length) :
    operands.mapM (fun operand => getAt buf pos operand.1 operand.2) =
      .ok (operandValues operands (buf.drop pos)) := by
  induction operands with
  | nil => rfl
  | cons operand operands ih =>
    rw [all_cons, Bool.and_eq_true, decide_eq_true_iff] at hwithin
    rw [mapM_cons, getAt_ok (by omega), ih hwithin.2, operandValues, operandValues, map_cons,
      drop_drop]
    rfl

theorem lookup_within {usType : Nat} {branch : Branch}
    (h : f.branches.lookup usType = some branch) : branch.within = true :=
  all_eq_true.mp f.within _ (mem_of_lookup h)

theorem Outcome.typed {q : Bytes → Prop} {usType : Bytes}
    (hsplit : buf.drop pos = usType ++ buf.drop (pos + usType.length))
    (hr : Outcome buf (pos + usType.length) p r) (hpq : ∀ {bytes}, p bytes → q (usType ++ bytes)) :
    Outcome buf pos q r := by
  rcases hr with hcorrupt | ⟨item, bytes, rest, hrest, hp, hend, hok⟩
  · exact .inl hcorrupt
  · exact .ok (by rw [hsplit, hrest, append_assoc]) (hpq hp)
      (by rw [length_append, Nat.add_assoc]) hend hok

theorem readItem_outcome {depth : Nat} (hdepth : buf.length < pos + depth)
    (hle : pos ≤ buf.length) :
    Outcome buf pos (WellFormed f.toGrammar) (readItem iTrans f buf depth pos) := by
  induction depth generalizing pos with
  | zero => omega
  | succ depth ih =>
    obtain ⟨hpos, hfirst⟩ := f.typed
    unfold readItem
    split
    · exact .inl rfl
    · obtain ⟨usType, htake, hlength, hsplit⟩ :=
        drop_split (show pos + f.nType ≤ buf.length by omega)
      have hget : getAt buf pos 0 f.nType = .ok (leValue usType) := by
        rw [getAt_ok (by omega), ← htake]
        rfl
      have hshape := lookup_shape (f := f) usType
      rw [hget]
      dsimp only [bind, Except.bind]
      rw [← hlength] at hsplit ⊢
      cases hbranch : f.branches.lookup (leValue usType) with
      | none => exact .inl rfl
      | some branch =>
        rw [hbranch] at hshape
        dsimp only
        cases branch with
        | fixed n operands value =>
          rw [readBranch]
          split
          · exact .inl rfl
          · rename_i hfits
            obtain ⟨operand, -, hcount, hrest⟩ := drop_split (Nat.le_of_not_lt hfits)
            rw [operands_ok (lookup_within hbranch) (Nat.le_of_not_lt hfits)]
            subst hcount
            exact .ok (by rw [hsplit, hrest, append_assoc]) (.fixed usType operand hlength hshape)
              (by rw [length_append, Nat.add_assoc]) (Nat.le_of_not_lt hfits) rfl
        | text =>
          refine Outcome.typed hsplit readText_outcome ?_
          rintro _ ⟨head, pszStr, rfl, hhead, htext⟩
          exact .text usType head pszStr hlength hshape hhead htext
        | array =>
          refine Outcome.typed hsplit (readArray_outcome fun hnext hend => ih (by omega) hend) ?_
          rintro _ ⟨head, _, rfl, hhead, items, rfl, hcount, hitems⟩
          exact .array usType head items hlength hshape hhead hcount hitems

end Sound

section Complete

variable {iTrans : Trans} {f : ItemFormat} {buf usType head pszStr rest : Bytes} {pos depth : Nat}

theorem drop_behind (h : buf.drop pos = front ++ rest) :
    buf.drop (pos + front.length) = rest := by
  rw [← drop_drop, h, drop_left]

theorem end_le (h : buf.drop pos = front ++ rest) (hpos : 0 < front.length) :
    pos + front.length ≤ buf.length := by
  have hlength := congrArg List.length h
  rw [length_drop, length_append] at hlength
  omega

theorem WellFormed.length_pos {g : Grammar} (hpos : 0 < g.nType) {bytes : Bytes}
    (h : WellFormed g bytes) : 0 < bytes.length := by
  cases h with
  | fixed usType operand htype | text usType head pszStr htype | array usType head items htype =>
    rw [length_append]
    omega

theorem readHead_eq (fCheck : Bool) (body : Nat → Nat → Except Fault (Item × Nat))
    (hdrop : buf.drop pos = head ++ rest) (hhead : head.length = f.nHead)
    (hle : pos + f.nHead ≤ buf.length)
    (hcheck : fCheck = true → pos + f.nHead + leValue (head.take 2) ≤ buf.length) :
    readHead f buf fCheck body pos = body (leValue (head.take 2)) (pos + f.nHead) := by
  have htake : (buf.drop pos).take f.nHead = head := by rw [hdrop, ← hhead, take_left]
  rw [readHead, if_neg (Nat.not_lt.mpr hle), f.counts buf pos hle, htake]
  exact if_neg fun h => Nat.not_lt.mpr (hcheck h.1) h.2

theorem readText_complete (hdrop : buf.drop pos = head ++ (pszStr ++ rest))
    (hhead : head.length = f.nHead) (hlength : pszStr.length = leValue (head.take 2))
    (hle : pos + (head ++ pszStr).length ≤ buf.length) :
    ∃ item, readText iTrans f buf pos = .ok (item, pos + (head ++ pszStr).length) := by
  rw [length_append, hhead, hlength, ← Nat.add_assoc] at hle ⊢
  rw [readText, readHead_eq true _ hdrop hhead (by omega) fun _ => hle, bytesAt, if_pos hle]
  exact ⟨_, rfl⟩

theorem readRow_complete (hread : ∀ item ∈ items, ∀ {pos rest}, buf.drop pos = item ++ rest →
      ∃ value, read pos = .ok (value, pos + item.length))
    (hdrop : buf.drop pos = items.flatten ++ rest) :
    ∃ row, readRow read items.length pos = .ok (row, pos + items.flatten.length) := by
  induction items generalizing pos with
  | nil => exact ⟨[], rfl⟩
  | cons item items ih =>
    obtain ⟨hitem, hitems⟩ := forall_mem_cons.mp hread
    rw [flatten_cons, append_assoc] at hdrop
    obtain ⟨value, hvalue⟩ := hitem hdrop
    obtain ⟨row, hrow⟩ := ih hitems (drop_behind hdrop)
    rw [length_cons, readRow, hvalue]
    dsimp only [bind, Except.bind]
    rw [hrow, flatten_cons, length_append, Nat.add_assoc]
    exact ⟨_, rfl⟩

theorem readArray_complete (hread : ∀ item ∈ items, ∀ {pos rest}, buf.drop pos = item ++ rest →
      ∃ value, read pos = .ok (value, pos + item.length)) (hpos : ∀ item ∈ items, 0 < item.length)
    (hdrop : buf.drop pos = head ++ (items.flatten ++ rest)) (hhead : head.length = f.nHead)
    (hlength : items.length = leValue (head.take 2))
    (hle : pos + (head ++ items.flatten).length ≤ buf.length) :
    ∃ item, readArray f buf read pos = .ok (item, pos + (head ++ items.flatten).length) := by
  have hcount : items.length ≤ items.flatten.length := by
    have hsum := length_le_sum_of_one_le (items.map List.length)
      (by simpa using fun item hitem => Nat.succ_le_of_lt (hpos item hitem))
    rwa [length_map, ← length_flatten] at hsum
  obtain ⟨row, hrow⟩ := readRow_complete hread (drop_behind hdrop)
  rw [length_append, hhead, ← Nat.add_assoc] at hle ⊢
  rw [hhead] at hrow
  rw [readArray, readHead_eq f.fCheck _ hdrop hhead (by omega) fun _ => by omega, ← hlength]
  rw [hrow]
  exact ⟨_, rfl⟩

theorem readItem_typed (hdrop : buf.drop pos = usType ++ rest) (htype : usType.length = f.nType)
    {shape : Shape} (hshape : f.shape usType = some shape)
    (hsize : pos + usType.length + shape.size f.nHead ≤ buf.length) :
    match shape with
    | .fixed n => ∃ item, readItem iTrans f buf (depth + 1) pos =
        .ok (item, pos + usType.length + n)
    | .text => readItem iTrans f buf (depth + 1) pos =
        readText iTrans f buf (pos + usType.length)
    | .array => readItem iTrans f buf (depth + 1) pos =
        readArray f buf (readItem iTrans f buf depth) (pos + usType.length) := by
  have hfirst := f.first _ (mem_of_lookup hshape)
  have hget : getAt buf pos 0 f.nType = .ok (leValue usType) := by
    rw [getAt_ok (by omega), Nat.add_zero, hdrop, ← htype, take_left]
  rw [lookup_shape] at hshape
  obtain ⟨branch, hbranch, rfl⟩ := Option.map_eq_some_iff.mp hshape
  rw [readItem, if_neg (by dsimp only at hfirst; omega), hget]
  dsimp only [bind, Except.bind]
  rw [hbranch, ← htype]
  cases branch with
  | fixed n operands value =>
    replace hsize : pos + usType.length + n ≤ buf.length := hsize
    dsimp only [Branch.shape]
    rw [readBranch, if_neg (Nat.not_lt.mpr hsize), operands_ok (lookup_within hbranch) hsize]
    exact ⟨_, rfl⟩
  | text => rfl
  | array => rfl

theorem readItem_complete {bytes : Bytes} (h : WellFormed f.toGrammar bytes)
    (hdepth : bytes.length < depth) (hdrop : buf.drop pos = bytes ++ rest) :
    ∃ item, readItem iTrans f buf depth pos = .ok (item, pos + bytes.length) := by
  have hend := end_le hdrop (h.length_pos f.typed.1)
  obtain ⟨depth, rfl⟩ : ∃ n, depth = n + 1 := ⟨depth - 1, by omega⟩
  induction h generalizing pos rest depth with
  | fixed usType operand htype hshape =>
    rw [length_append, ← Nat.add_assoc] at hend ⊢
    rw [append_assoc] at hdrop
    exact readItem_typed hdrop htype hshape hend
  | text usType head pszStr htype hshape hhead hlength =>
    rw [length_append, ← Nat.add_assoc] at hend ⊢
    rw [append_assoc, append_assoc] at hdrop
    have hread : readItem iTrans f buf (depth + 1) pos = _ := readItem_typed hdrop htype hshape
      (by rw [length_append] at hend; rw [Shape.size]; omega)
    rw [hread]
    exact readText_complete (drop_behind hdrop) hhead hlength hend
  | array usType head items htype hshape hhead hlength hitems ih =>
    have htyped := f.typed.1
    rw [length_append, ← Nat.add_assoc] at hend ⊢
    rw [length_append, length_append] at hdepth
    rw [append_assoc, append_assoc] at hdrop
    have hread : readItem iTrans f buf (depth + 1) pos = _ := readItem_typed hdrop htype hshape
      (by rw [length_append] at hend; rw [Shape.size]; omega)
    rw [hread]
    refine readArray_complete (fun item hmem pos rest hitem => ?_)
      (fun item hmem => (hitems item hmem).length_pos htyped) (drop_behind hdrop) hhead hlength hend
    have hle : item.length ≤ items.flatten.length := by
      rw [length_flatten]
      exact le_sum_of_mem (mem_map_of_mem hmem)
    obtain ⟨depth, rfl⟩ : ∃ n, depth = n + 1 := ⟨depth - 1, by omega⟩
    exact ih item hmem hitem (end_le hitem ((hitems item hmem).length_pos htyped)) depth (by omega)

end Complete

section Results

variable (platform : Platform) (iTrans : Trans) (buf : Bytes)

/-- Bytes of the form stand at the beginning and the reader stops behind them, in the buffer; or
there are none and it reports corruption. -/
def Decides (form : Bytes → Prop) (r : Except Fault (Item × Nat)) : Prop :=
  (∃ item bytes rest, buf = bytes ++ rest ∧ form bytes ∧ bytes.length ≤ buf.length ∧
    r = .ok (item, bytes.length)) ∨
  (¬ ∃ bytes rest, buf = bytes ++ rest ∧ form bytes) ∧ r = .error .corrupt

variable {buf}

theorem decides_of {form : Bytes → Prop} (hsound : Outcome buf 0 form r)
    (hcomplete : ∀ {bytes rest}, buf = bytes ++ rest → form bytes →
      ∃ item, r = .ok (item, 0 + bytes.length)) : Decides buf form r := by
  rcases hsound with hcorrupt | ⟨item, bytes, rest, hsplit, hform, hle, hok⟩
  · refine .inr ⟨fun ⟨bytes, rest, hsplit, hform⟩ => ?_, hcorrupt⟩
    obtain ⟨item, hok⟩ := hcomplete hsplit hform
    rw [hcorrupt] at hok
    cases hok
  · rw [Nat.zero_add] at hle hok
    exact .inl ⟨item, bytes, rest, hsplit, hform, hle, hok⟩

theorem readItem_decides (f : ItemFormat) :
    Decides buf (WellFormed f.toGrammar) (readItem iTrans f buf (buf.length + 1) 0) := by
  refine decides_of (readItem_outcome (by omega) (Nat.zero_le _)) fun hsplit hform => ?_
  refine readItem_complete hform ?_ hsplit
  rw [hsplit, length_append]
  omega

theorem readArray_decides (f : ItemFormat) : Decides buf (RootFormed f.toGrammar)
    (readArray f buf (readItem iTrans f buf (buf.length + 1)) 0) := by
  refine decides_of (readArray_outcome fun _ hle => readItem_outcome (by omega) hle) ?_
  rintro _ rest hsplit ⟨head, _, rfl, hhead, items, rfl, hlength, hitems⟩
  have hend : 0 + (head ++ items.flatten).length ≤ buf.length := by
    simp only [hsplit, length_append]
    omega
  refine readArray_complete (fun item hmem pos rest' hitem => ?_)
    (fun item hmem => (hitems item hmem).length_pos f.typed.1)
    (by rw [drop_zero, hsplit, append_assoc]) hhead hlength hend
  refine readItem_complete (hitems item hmem) ?_ hitem
  have hle := end_le hitem ((hitems item hmem).length_pos f.typed.1)
  omega

/-- On any buffer each of the readers of memo items ends, asks for no byte that is not in the
buffer, and tells whether an item stands at its beginning. -/
theorem memoReaders_decide (buf : Bytes) :
    Decides buf (WellFormed (smtItems platform).toGrammar) (fptReadSMTItem platform iTrans buf) ∧
      Decides buf (WellFormed (sixItems platform).toGrammar)
        (fptReadSixItem platform iTrans buf) ∧
      Decides buf (WellFormed (flexItems platform).toGrammar)
        (fptReadFlexItem platform iTrans false buf) ∧
      Decides buf (RootFormed (flexItems platform).toGrammar)
        (fptReadFlexItem platform iTrans true buf) :=
  ⟨readItem_decides iTrans _, readItem_decides iTrans _, readItem_decides iTrans _,
    readArray_decides iTrans _⟩

end Results

end Harbour.Rdd.MemoReaders
