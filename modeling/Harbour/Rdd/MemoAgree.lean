import Harbour.Rdd.MemoReaders

/-!
A reader of memo items that is given a place in the buffer, and the reader of the same format that
is given the bytes that are left, come to the same items.
-/

namespace Harbour.Rdd.MemoReaders

open Library.Bytes MemoItem MemoSmt MemoSix MemoFlex List

/-- Both give the same value and stop at the same place, or both fail. -/
inductive Agrees {α : Type} (buf : Bytes) :
    Except Fault (α × Nat) → Except ErrCode (α × Bytes) → Prop where
  | ok (a : α) (pos : Nat) (h : pos ≤ buf.length) :
    Agrees buf (.ok (a, pos)) (.ok (a, buf.drop pos))
  | error (fault : Fault) (errCode : ErrCode) : Agrees buf (.error fault) (.error errCode)

variable {α β : Type} {platform : Platform} {iTrans : Trans} {f : ItemFormat} {buf : Bytes}
  {pos n : Nat} {read : Nat → Except Fault (Item × Nat)}
  {readLeft : Bytes → Except ErrCode (Item × Bytes)}

theorem Agrees.bind {r : Except Fault (α × Nat)} {left : Except ErrCode (α × Bytes)}
    (h : Agrees buf r left) {k : α × Nat → Except Fault (β × Nat)}
    {kLeft : α × Bytes → Except ErrCode (β × Bytes)}
    (hk : ∀ a pos, pos ≤ buf.length → Agrees buf (k (a, pos)) (kLeft (a, buf.drop pos))) :
    Agrees buf (r >>= k) (left >>= kLeft) := by
  cases h with
  | ok a pos hpos => exact hk a pos hpos
  | error fault errCode => exact .error fault errCode

theorem takeBytes_drop (errCode : ErrCode) (hpos : pos ≤ buf.length) :
    takeBytes errCode n (buf.drop pos) =
      if buf.length < pos + n then .error errCode
      else .ok ((buf.drop pos).take n, buf.drop (pos + n)) := by
  rw [takeBytes, length_drop, drop_drop]
  by_cases h : buf.length < pos + n
  · rw [if_pos h, if_neg (by omega)]
  · rw [if_neg h, if_pos (by omega)]

section Lengths

theorem readItems_agrees
    (hread : ∀ pos, pos ≤ buf.length → Agrees buf (read pos) (readLeft (buf.drop pos)))
    (hpos : pos ≤ buf.length) :
    Agrees buf (readRow read n pos) (readItems readLeft n (buf.drop pos)) := by
  induction n generalizing pos with
  | zero => exact .ok [] pos hpos
  | succ n ih =>
    refine (hread pos hpos).bind fun item pos hpos => ?_
    exact (ih hpos).bind fun items pos hpos => .ok (item :: items) pos hpos

theorem items_agree
    (hread : ∀ pos, pos ≤ buf.length → Agrees buf (read pos) (readLeft (buf.drop pos)))
    (hpos : pos ≤ buf.length) :
    Agrees buf
      (do let (items, pos) ← readRow read n pos; .ok (Item.array items, pos))
      (do let (items, memo) ← readItems readLeft n (buf.drop pos); .ok (Item.array items, memo)) :=
  (readItems_agrees hread hpos).bind fun items => .ok (Item.array items)

theorem chars_agree (hpos : pos ≤ buf.length) :
    Agrees buf
      (if true ∧ buf.length < pos + n then .error .corrupt
      else do
        let pszStr ← bytesAt buf pos n
        .ok (Item.string (readStr iTrans pszStr), pos + n))
      (do
        let (pszStr, memo) ← takeBytes .corrupt n (buf.drop pos)
        .ok (Item.string (readStr iTrans pszStr), memo)) := by
  rw [takeBytes_drop _ hpos]
  by_cases h : buf.length < pos + n
  · rw [if_pos h, if_pos ⟨rfl, h⟩]
    exact .error _ _
  · rw [if_neg h, if_neg fun hcheck => h hcheck.2, bytesAt, if_pos (Nat.le_of_not_lt h)]
    exact .ok _ _ (Nat.le_of_not_lt h)

theorem readHead_counts {fCheck : Bool} {body : Nat → Nat → Except Fault (Item × Nat)}
    (hhead : pos + f.nHead ≤ buf.length) :
    readHead f buf fCheck body pos =
      let ulLen := leValue (((buf.drop pos).take f.nHead).take 2)
      if fCheck ∧ buf.length < pos + f.nHead + ulLen then .error .corrupt
      else body ulLen (pos + f.nHead) := by
  rw [readHead, if_neg (Nat.not_lt.mpr hhead), f.counts buf pos hhead]
  rfl

variable (htwo : f.nHead = 2) (hpos : pos ≤ buf.length)

include htwo hpos

theorem readHead_agrees {fCheck : Bool} {body : Nat → Nat → Except Fault (Item × Nat)}
    {left : Bytes × Bytes → Except ErrCode (Item × Bytes)}
    (hbody : ∀ head pos, pos ≤ buf.length → Agrees buf
      (if fCheck ∧ buf.length < pos + leValue head then .error .corrupt
        else body (leValue head) pos) (left (head, buf.drop pos))) :
    Agrees buf (readHead f buf fCheck body pos)
      (takeBytes .corrupt 2 (buf.drop pos) >>= left) := by
  rw [takeBytes_drop _ hpos]
  by_cases h : buf.length < pos + 2
  · rw [if_pos h, readHead, htwo, if_pos h]
    exact .error _ _
  · rw [if_neg h, readHead_counts (htwo.symm ▸ Nat.le_of_not_lt h), htwo, take_take]
    exact hbody _ _ (Nat.le_of_not_lt h)

theorem readText_agrees :
    Agrees buf (readText iTrans f buf pos)
      (do
        let (buffer, memo) ← takeBytes .corrupt 2 (buf.drop pos)
        let (pszStr, memo) ← takeBytes .corrupt (leValue buffer) memo
        .ok (Item.string (readStr iTrans pszStr), memo)) :=
  readHead_agrees htwo hpos fun _ _ => chars_agree

theorem readArray_agrees (hcheck : f.fCheck = true)
    (hread : ∀ pos, pos ≤ buf.length → Agrees buf (read pos) (readLeft (buf.drop pos))) :
    Agrees buf (readArray f buf read pos)
      (do
        let (buffer, memo) ← takeBytes .corrupt 2 (buf.drop pos)
        if memo.length < leValue buffer then .error .corrupt
        else do
          let (items, memo) ← readItems readLeft (leValue buffer) memo
          .ok (Item.array items, memo)) := by
  refine readHead_agrees htwo hpos fun head pos hpos => ?_
  dsimp only
  rw [hcheck, length_drop]
  by_cases h : buf.length < pos + leValue head
  · rw [if_pos ⟨rfl, h⟩, if_pos (by omega)]
    exact .error _ _
  · rw [if_neg fun hlt => h hlt.2, if_neg (by omega)]
    exact items_agree hread hpos

end Lengths

section Operands

theorem operandValues_take {operands : List (Nat × Nat)}
    (hwithin : (operands.all fun operand => operand.1 + operand.2 ≤ n) = true) (bytes : Bytes) :
    operandValues operands (bytes.take n) = operandValues operands bytes := by
  refine map_congr_left fun operand hmem => ?_
  have hle := of_decide_eq_true (all_eq_true.mp hwithin operand hmem)
  rw [drop_take, take_take, Nat.min_eq_left (by omega)]

theorem fixed_agrees {operands : List (Nat × Nat)} {value : (Nat → Nat) → Item}
    {left : Bytes × Bytes → Except ErrCode (Item × Bytes)}
    (hwithin : (operands.all fun operand => operand.1 + operand.2 ≤ n) = true)
    (hleft : ∀ bytes memo : Bytes, bytes.length = n →
      left (bytes, memo) = .ok (value ((operandValues operands bytes).getD · 0), memo))
    (hpos : pos ≤ buf.length) :
    Agrees buf (readBranch iTrans f buf read pos (.fixed n operands value))
      (takeBytes .corrupt n (buf.drop pos) >>= left) := by
  rw [takeBytes_drop _ hpos, readBranch]
  by_cases h : buf.length < pos + n
  · rw [if_pos h, if_pos h]
    exact .error _ _
  · have hle := Nat.le_of_not_lt h
    have hsame := hleft ((buf.drop pos).take n) (buf.drop (pos + n))
      (by rw [length_take, length_drop]; omega)
    rw [operandValues_take hwithin] at hsame
    rw [if_neg h, if_neg h, operands_ok hwithin hle]
    change Agrees buf (.ok (value _, _)) (left _)
    rw [hsame]
    exact .ok _ _ hle

theorem leValue_byte (bytes : Bytes) (k : Nat) :
    leValue ((bytes.drop k).take 1) = (bytes.getD k 0).toNat := by
  rw [getD_eq_getElem?_getD, ← head?_drop]
  cases bytes.drop k with
  | nil => rfl
  | cons b rest => simp [leValue]

variable (hpos : pos ≤ buf.length)

include hpos

theorem leaf_agrees (item : Item) :
    Agrees buf (readBranch iTrans f buf read pos (leaf 0 item)) (.ok (item, buf.drop pos)) := by
  rw [leaf, readBranch, Nat.add_zero, if_neg (Nat.not_lt.mpr hpos)]
  exact .ok _ _ hpos

theorem num_agrees {put : Nat → Item} :
    Agrees buf (readBranch iTrans f buf read pos (num n 0 n put))
      (readNum n put (buf.drop pos)) := by
  unfold num
  refine fixed_agrees ?_ (fun bytes memo hlength => ?_) hpos
  · simp
  · rw [← hlength]
    simp [operandValues]

theorem numLen_agrees {put : Nat → Int → Item} :
    Agrees buf (readBranch iTrans f buf read pos (numLen n put))
      (readNumLen n put (buf.drop pos)) := by
  unfold numLen
  refine fixed_agrees ?_ (fun bytes memo hlength => ?_) hpos
  · simp
  · have hlast : (bytes.drop n).take 1 = bytes.drop n := take_of_length_le (by simp [hlength])
    simp [operandValues, hlast]

theorem numDec_agrees {cast : Nat → Int} {put : Int → Int → Item} :
    Agrees buf (readBranch iTrans f buf read pos (numDec platform n cast put))
      (readNumDec platform n cast put (buf.drop pos)) := by
  unfold numDec
  refine fixed_agrees ?_ (fun bytes memo hlength => ?_) hpos
  · simp
  · simp only [operandValues, map_cons, map_nil, leValue_byte]
    rfl

theorem double_agrees :
    Agrees buf (readBranch iTrans f buf read pos (double platform))
      (do
        let (bytes, memo) ← takeBytes .corrupt 10 (buf.drop pos)
        .ok (readSMTDouble platform bytes, memo)) := by
  refine fixed_agrees rfl (fun bytes memo hlength => ?_) hpos
  have hall : (bytes.drop 2).take 8 = bytes.drop 2 := take_of_length_le (by simp [hlength])
  simp only [readSMTDouble, operandValues, map_cons, map_nil, leValue_byte, hall]
  rfl

end Operands

section Types

/-- What is read behind a type. -/
def pick (iTrans : Trans) (f : ItemFormat) (buf : Bytes) (read : Nat → Except Fault (Item × Nat))
    (pos : Nat) (branches : List (Nat × Branch)) (usType : Nat) : Except Fault (Item × Nat) :=
  match branches.lookup usType with
  | none => .error .corrupt
  | some branch => readBranch iTrans f buf read pos branch

variable {left left' : Except ErrCode (Item × Bytes)} {branches : List (Nat × Branch)}
  {key depth : Nat} {branch : Branch} {memo : Bytes}

theorem pick_nil (usType : Nat) (errCode : ErrCode) :
    Agrees buf (pick iTrans f buf read pos [] usType) (.error errCode) :=
  .error _ _

theorem pick_cons {usType : Nat} {p : Prop} [Decidable p] (hp : p ↔ usType = key)
    (hthen : Agrees buf (readBranch iTrans f buf read pos branch) left)
    (helse : Agrees buf (pick iTrans f buf read pos branches usType) left') :
    Agrees buf (pick iTrans f buf read pos ((key, branch) :: branches) usType)
      (if p then left else left') := by
  unfold pick at helse ⊢
  rw [lookup_cons]
  by_cases h : usType = key
  · rw [if_pos (hp.mpr h), beq_iff_eq.mpr h]
    exact hthen
  · rw [if_neg (hp.not.mpr h), beq_eq_false_iff_ne.mpr h]
    exact helse

variable {usType : UInt8}

theorem pick_byte {byte : UInt8}
    (hthen : Agrees buf (readBranch iTrans f buf read pos branch) left)
    (helse : Agrees buf (pick iTrans f buf read pos branches usType.toNat) left') :
    Agrees buf (pick iTrans f buf read pos ((byte.toNat, branch) :: branches) usType.toNat)
      (if usType = byte then left else left') :=
  pick_cons UInt8.toNat_inj.symm hthen helse

theorem pick_byte_or {byte byte' : UInt8}
    (hthen : Agrees buf (readBranch iTrans f buf read pos branch) left)
    (helse : Agrees buf (pick iTrans f buf read pos branches usType.toNat) left') :
    Agrees buf (pick iTrans f buf read pos
        ((byte.toNat, branch) :: (byte'.toNat, branch) :: branches) usType.toNat)
      (if usType = byte ∨ usType = byte' then left else left') := by
  rw [ite_or]
  exact pick_byte hthen (pick_byte hthen helse)

variable (hfirst : f.nFirst = 1)

include hfirst

theorem readItem_empty (h : buf.drop pos = []) :
    readItem iTrans f buf (depth + 1) pos = .error .corrupt := by
  rw [readItem, hfirst, if_pos (Nat.lt_succ_of_le (drop_eq_nil_iff.mp h))]

theorem readItem_byte (htype : f.nType = 1) (h : buf.drop pos = usType :: memo) :
    pos + 1 ≤ buf.length ∧ memo = buf.drop (pos + 1) ∧
      readItem iTrans f buf (depth + 1) pos =
        pick iTrans f buf (readItem iTrans f buf depth) (pos + 1) f.branches usType.toNat := by
  have hlength := congrArg List.length h
  rw [length_drop, length_cons] at hlength
  have hle : pos + 1 ≤ buf.length := by omega
  refine ⟨hle, by rw [← drop_drop, h]; rfl, ?_⟩
  rw [readItem, hfirst, htype, if_neg (Nat.not_lt.mpr hle), getAt_ok hle, Nat.add_zero, h]
  simp only [take_succ_cons, take_zero, leValue, Nat.mul_zero, Nat.add_zero]
  rfl

end Types

theorem readSMTItem_agrees (depth : Nat) (hpos : pos ≤ buf.length) :
    Agrees buf (readItem iTrans (smtItems platform) buf depth pos)
      (readSMTItem platform iTrans depth (buf.drop pos)) := by
  induction depth generalizing pos with
  | zero => exact .error _ _
  | succ depth ih =>
    cases h : buf.drop pos with
    | nil =>
      rw [readItem_empty rfl h]
      exact .error _ _
    | cons type memo =>
      obtain ⟨hle, rfl, hread⟩ := readItem_byte (f := smtItems platform) rfl rfl h
      rw [readSMTItem, hread]
      refine pick_byte (readArray_agrees rfl hle rfl fun _ => ih) ?_
      refine pick_byte (readText_agrees rfl hle) ?_
      refine pick_byte (num_agrees hle) ?_
      refine pick_byte (double_agrees hle) ?_
      refine pick_byte (num_agrees hle) ?_
      refine pick_byte (fixed_agrees rfl (fun bytes memo _ => ?_) hle) ?_
      · simp only [operandValues, map_cons, map_nil, leValue_byte, ne_eq, ← UInt8.toNat_inj]
        rfl
      · exact pick_byte (leaf_agrees hle .nil) (pick_nil _ _)

section Six

variable (hle : pos + sixItemBufSize ≤ buf.length)

include hle

theorem sixFixed_agrees {operands : List (Nat × Nat)} {value : (Nat → Nat) → Item} {item : Item}
    (hwithin : (operands.all fun operand => operand.1 + operand.2 ≤ 12) = true)
    (hitem : item = value ((operandValues operands ((buf.drop pos).drop 2)).getD · 0)) :
    Agrees buf (readBranch iTrans f buf read (pos + 2) (.fixed 12 operands value))
      (.ok (item, (buf.drop pos).drop sixItemBufSize)) := by
  have hend : pos + 2 + 12 ≤ buf.length := hle
  rw [drop_drop] at hitem ⊢
  rw [readBranch, if_neg (Nat.not_lt.mpr hend), operands_ok hwithin hend, hitem]
  exact .ok _ _ hle

theorem sixHead_eq {fCheck : Bool} {body : Nat → Nat → Except Fault (Item × Nat)} :
    readHead (sixItems platform) buf fCheck body (pos + 2) =
      if fCheck ∧ buf.length < pos + sixItemBufSize + sixLength true (buf.drop pos) then
        .error .corrupt
      else body (sixLength true (buf.drop pos)) (pos + sixItemBufSize) := by
  have hhead : pos + 2 + (sixItems platform).nHead ≤ buf.length := hle
  have hcount := (sixItems platform).counts buf (pos + 2) hhead
  have hsame : sixLength true (buf.drop pos) =
      leValue (((buf.drop (pos + 2)).take (sixItems platform).nHead).take 2) := by
    change (getAt buf (pos + 2) 0 4 >>= fun ulLen => .ok (ulLen % 2 ^ 16)) = _ at hcount
    have hend : pos + 2 + 12 ≤ buf.length := hle
    rw [getAt_ok (show pos + 2 + 0 + 4 ≤ buf.length by omega)] at hcount
    rw [← Except.ok.inj hcount, sixLength, field, drop_drop]
    rfl
  rw [readHead_counts hhead, ← hsame]
  rfl

end Six

theorem readSixItem_agrees (depth : Nat) (hpos : pos ≤ buf.length) :
    Agrees buf (readItem iTrans (sixItems platform) buf depth pos)
      (readSixItem platform true iTrans depth (buf.drop pos)) := by
  induction depth generalizing pos with
  | zero => exact .error _ _
  | succ depth ih =>
    have htype : readItem iTrans (sixItems platform) buf (depth + 1) pos =
        if buf.length < pos + sixItemBufSize then .error .corrupt
        else getAt buf pos 0 2 >>= pick iTrans (sixItems platform) buf
          (readItem iTrans (sixItems platform) buf depth) (pos + 2)
          (sixItems platform).branches := rfl
    rw [htype, readSixItem, length_drop]
    by_cases h : buf.length < pos + sixItemBufSize
    · rw [if_pos h, if_neg (by omega)]
      exact .error _ _
    · have hle := Nat.le_of_not_lt h
      have hnext : (buf.drop pos).drop sixItemBufSize = buf.drop (pos + sixItemBufSize) := drop_drop
      rw [if_neg h, if_pos (by omega), getAt_ok (show pos + 0 + 2 ≤ buf.length by
        simp at hle; omega)]
      refine pick_cons Iff.rfl (sixFixed_agrees hle rfl (by simp [operandValues, field])) ?_
      refine pick_cons Iff.rfl (sixFixed_agrees hle rfl (by simp [operandValues, field])) ?_
      refine pick_cons Iff.rfl (sixFixed_agrees hle rfl (by simp [operandValues, field])) ?_
      refine pick_cons Iff.rfl (sixFixed_agrees hle rfl (by simp [operandValues, field])) ?_
      refine pick_cons Iff.rfl ?_ (pick_cons Iff.rfl ?_
        (pick_cons Iff.rfl (sixFixed_agrees hle rfl rfl) (pick_nil _ _)))
      · change Agrees buf (readText iTrans (sixItems platform) buf (pos + 2)) _
        rw [readText, sixHead_eq hle, hnext]
        exact chars_agree hle
      · change Agrees buf (readArray (sixItems platform) buf _ (pos + 2)) _
        rw [readArray, sixHead_eq hle, hnext]
        exact items_agree (fun _ => ih) hle

theorem readFlexItem_agrees (depth : Nat) (hpos : pos ≤ buf.length) :
    Agrees buf (readItem iTrans (flexItems platform) buf depth pos)
      (readFlexItem platform iTrans depth false (buf.drop pos)) := by
  induction depth generalizing pos with
  | zero => exact .error _ _
  | succ depth ih =>
    cases h : buf.drop pos with
    | nil =>
      rw [readItem_empty rfl h]
      exact .error _ _
    | cons usType memo =>
      obtain ⟨hle, rfl, hread⟩ := readItem_byte (f := flexItems platform) rfl rfl h
      rw [hread]
      refine pick_byte (leaf_agrees hle .nil) ?_
      refine pick_byte (leaf_agrees hle (.logical true)) ?_
      refine pick_byte (leaf_agrees hle (.logical false)) ?_
      refine pick_byte (num_agrees hle) ?_
      refine pick_byte_or (num_agrees hle) ?_
      refine pick_byte (num_agrees hle) (pick_byte (numLen_agrees hle) ?_)
      refine pick_byte (numDec_agrees hle) ?_
      refine pick_byte (num_agrees hle) (pick_byte (numLen_agrees hle) ?_)
      refine pick_byte (numDec_agrees hle) ?_
      refine pick_byte (num_agrees hle) (pick_byte (numLen_agrees hle) ?_)
      refine pick_byte (numDec_agrees hle) ?_
      refine pick_byte (num_agrees hle) (pick_byte (numLen_agrees hle) ?_)
      refine pick_byte (numDec_agrees hle) ?_
      refine pick_byte (num_agrees hle) (pick_byte (numLen_agrees hle) ?_)
      refine pick_byte (numDec_agrees hle) (pick_byte (numDec_agrees hle) ?_)
      refine pick_byte (num_agrees hle) (pick_byte (double_agrees hle) ?_)
      refine pick_byte (fixed_agrees rfl (fun _ _ _ => rfl) hle) ?_
      refine pick_byte (leaf_agrees hle (.string [])) ?_
      refine pick_byte (readText_agrees rfl hle) ?_
      exact pick_byte (readArray_agrees rfl hle rfl fun _ => ih) (pick_nil _ _)

theorem readFlexRoot_agrees (depth : Nat) :
    Agrees buf
      (readArray (flexItems platform) buf (readItem iTrans (flexItems platform) buf depth) 0)
      (readFlexItem platform iTrans (depth + 1) true buf) := by
  have hitems := @readFlexItem_agrees platform iTrans buf
  exact readArray_agrees rfl (Nat.zero_le _) rfl fun _ => hitems depth

/-- The readers of a place on a whole buffer, and those of the bytes that are left. -/
theorem memoReaders_agree (platform : Platform) (iTrans : Trans) (buf : Bytes) :
    Agrees buf (fptReadSMTItem platform iTrans buf)
        (readSMTItem platform iTrans (buf.length + 1) buf) ∧
      Agrees buf (fptReadSixItem platform iTrans buf)
        (readSixItem platform true iTrans (buf.length + 1) buf) ∧
      Agrees buf (fptReadFlexItem platform iTrans false buf)
        (readFlexItem platform iTrans (buf.length + 1) false buf) ∧
      Agrees buf (fptReadFlexItem platform iTrans true buf)
        (readFlexItem platform iTrans (buf.length + 2) true buf) :=
  ⟨readSMTItem_agrees _ (Nat.zero_le _), readSixItem_agrees _ (Nat.zero_le _),
    readFlexItem_agrees _ (Nat.zero_le _), readFlexRoot_agrees _⟩

end Harbour.Rdd.MemoReaders
