import Harbour.Rdd.NsxLeaf

/-!
What is packed into an NSX leaf page comes back, and no page makes the reader leave its bounds.
-/

namespace Harbour.Rdd.NsxLeafCodec

open Library.Memory Library.Bytes NsxLeaf List Option

variable {m n pos : Nat} {mem : Mem}

variable {bytes src : Bytes} {uc : UInt8} {uiOffset : Nat} {buf : Mem}

def rle : Bytes → Bytes
  | [] => []
  | uc :: src =>
    if uc = NSX_RLE_CHAR then
      if src.head? = some NSX_RLE_CHAR then
        let more := repeats NSX_RLE_CHAR (src.drop 1)
        [NSX_RLE_CHAR, UInt8.ofNat (more + 2), NSX_RLE_CHAR] ++ rle (src.drop (1 + more))
      else [NSX_RLE_CHAR, 1] ++ rle src
    else if src.take 3 = [uc, uc, uc] then
      let more := repeats uc (src.drop 3)
      [NSX_RLE_CHAR, UInt8.ofNat (more + 4), uc] ++ rle (src.drop (3 + more))
    else [uc] ++ rle src
termination_by src => src.length
decreasing_by all_goals simp only [length_cons, length_drop]; omega

theorem eq_repeats_append (uc : UInt8) (src : Bytes) :
    src = replicate (repeats uc src) uc ++ src.drop (repeats uc src) := by
  induction src with
  | nil => rfl
  | cons c src ih =>
    unfold repeats
    by_cases hc : c = uc
    · rw [takeWhile_cons_of_pos (by simpa using hc), length_cons, replicate_succ,
        drop_succ_cons, cons_append, hc]
      exact congrArg _ ih
    · rw [takeWhile_cons_of_neg (by simpa using hc)]
      rfl

theorem run_eq (h : src.take n = replicate n uc) :
    src = replicate (n + repeats uc (src.drop n)) uc ++
      src.drop (n + repeats uc (src.drop n)) := by
  have hrest := eq_repeats_append uc (src.drop n)
  rw [drop_drop] at hrest
  rw [replicate_add, append_assoc, ← hrest, ← h, take_append_drop]

theorem head_run (h : src.head? = some uc) :
    src.take 1 = replicate 1 uc := by
  cases src with
  | nil => exact absurd h nofun
  | cons c src => exact congrArg (fun c => [c]) (some.inj h)

/-- The packed form is stored if it is shorter than the bound; else nothing counts. -/
def Packs (page : Mem) (pDst : Nat) (iMax : Int) (bytes : Bytes) (packed : Mem × Nat × Int) :
    Prop :=
  (bytes.length < iMax ∧
    packed = (page.write pDst bytes, pDst + bytes.length, iMax - bytes.length)) ∨
  (iMax ≤ bytes.length ∧ packed.2.2 ≤ 0 ∧
    ∀ a : Nat, a < pDst ∨ pDst + iMax ≤ a → packed.1 a = page a)

section Packs

variable {page : Mem} {pDst : Nat} {iMax iMax' : Int} {c rest : Bytes} {packed : Mem × Nat × Int}

theorem Packs.append (hroom : ¬ iMax - c.length ≤ 0)
    (h : Packs (page.write pDst c) (pDst + c.length) (iMax - c.length) rest packed) :
    Packs page pDst iMax (c ++ rest) packed := by
  unfold Packs
  rw [length_append, Nat.cast_add]
  rcases h with ⟨hlt, hpacked⟩ | ⟨hle, hstop, hsame⟩
  · refine .inl ⟨by omega, ?_⟩
    rw [hpacked, Mem.write_append, Nat.add_assoc, Int.sub_sub]
  · refine .inr ⟨by omega, hstop, fun a ha => ?_⟩
    rw [hsame a (by omega), Mem.write_outside _ _ _ (by omega)]

theorem Packs.stop (hfull : iMax - c.length ≤ 0) (hstop : iMax' ≤ 0) :
    Packs page pDst iMax (c ++ rest) (page, pDst, iMax') := by
  refine .inr ⟨?_, hstop, fun _ _ => rfl⟩
  rw [length_append]
  omega

end Packs

theorem packLoop_packs (src : Bytes) (page : Mem) (pDst : Nat) (iMax : Int) (hmax : 0 < iMax) :
    Packs page pDst iMax (rle src) (packLoop page pDst iMax src) := by
  induction src using rle.induct generalizing page pDst iMax with
  | case1 =>
    unfold rle packLoop
    refine .inl ⟨hmax, ?_⟩
    simp
  | case2 src hhead more ih =>
    unfold rle packLoop
    rw [if_pos rfl, if_pos rfl, if_pos hhead, if_pos hhead]
    split
    · next hfull => exact .stop hfull hfull
    · next hroom => exact .append hroom (ih _ _ _ (not_le.mp hroom))
  | case3 src hhead ih =>
    unfold rle packLoop
    rw [if_pos rfl, if_pos rfl, if_neg hhead, if_neg hhead]
    split
    · next hfull => exact .stop hfull hfull
    · next hroom => exact .append hroom (ih _ _ _ (not_le.mp hroom))
  | case4 uc src hother htake more ih =>
    unfold rle packLoop
    rw [if_neg hother, if_neg hother, if_pos htake, if_pos htake]
    split
    · next hfull => exact .stop hfull hfull
    · next hroom => exact .append hroom (ih _ _ _ (not_le.mp hroom))
  | case5 uc src hother htake ih =>
    unfold rle packLoop
    rw [if_neg hother, if_neg hother, if_neg htake, if_neg htake]
    split
    · next hfull =>
      refine .stop (c := [uc]) ?_ (le_of_eq hfull)
      exact le_of_eq hfull
    · next hroom =>
      have hpos : 0 < iMax - 1 := by omega
      exact .append (c := [uc]) (not_le.mpr hpos) (ih _ _ _ hpos)

section Unpack

variable {page : Mem} {used len ucDupCount : Nat}

theorem read_succ (mem : Mem) (pos n : Nat) :
    mem.read pos (n + 1) = mem pos :: mem.read (pos + 1) n := by
  rw [Nat.add_comm, Mem.read_add]
  rfl

theorem write_char (buf : Mem) (pos : Nat) (uc : UInt8) (src : Bytes) :
    (buf.write pos [uc]).write (pos + 1) src = buf.write pos (uc :: src) :=
  buf.write_append pos [uc] src

theorem getByte_eq (h : uiOffset < used) : getByte page used uiOffset = some (page uiOffset) :=
  if_pos h

theorem putBytes_eq (h : ucDupCount + bytes.length ≤ len) :
    putBytes len buf ucDupCount bytes = some (buf.write ucDupCount bytes) :=
  if_pos h

/-- A packed form is unpacked to a string, wherever it lies. -/
def Unpacks (page : Mem) (used len : Nat) (packed src : Bytes) : Prop :=
  ∀ uiOffset ucDupCount buf, page.read uiOffset packed.length = packed →
    uiOffset + packed.length ≤ used → ucDupCount + src.length ≤ len →
    unpackLoop page used len packed.length uiOffset ucDupCount buf =
      some (some (uiOffset + packed.length, ucDupCount + src.length), buf.write ucDupCount src)

theorem unpacks_nil : Unpacks page used len [] [] := by
  intro uiOffset ucDupCount buf _ _ _
  rw [Mem.write_nil]
  rfl

variable {packed : Bytes}

theorem Unpacks.run (h : Unpacks page used len packed src) (htwo : 2 ≤ m) (hbyte : m < 256) :
    Unpacks page used len ([NSX_RLE_CHAR, UInt8.ofNat m, uc] ++ packed)
      (replicate m uc ++ src) := by
  intro uiOffset ucDupCount buf hread hused hlen
  simp only [cons_append, nil_append, length_cons] at hread hused ⊢
  simp only [read_succ, List.cons.injEq] at hread
  obtain ⟨hmark, hcount, hchar, hrest⟩ := hread
  have hm : (UInt8.ofNat m).toNat = m := UInt8.toNat_ofNat_of_lt' hbyte
  have hne : UInt8.ofNat m ≠ 1 := fun h1 => by
    have := congrArg UInt8.toNat h1
    rw [hm] at this
    change m = 1 at this
    omega
  rw [length_append, length_replicate] at hlen
  rw [unpackLoop, getByte_eq (by omega), bind_eq_bind, bind_some, if_pos hmark]
  dsimp only
  rw [getByte_eq (by omega), bind_some, hcount, if_pos hne, hm, if_neg (by omega),
    getByte_eq (by omega), bind_some, hchar, bind_eq_bind,
    putBytes_eq (by rw [length_replicate]; omega), bind_some,
    h _ _ _ hrest (by omega) (by omega)]
  have hwrite := buf.write_append ucDupCount (replicate m uc) src
  rw [length_replicate] at hwrite
  rw [hwrite, length_append, length_replicate]
  simp only [Nat.add_assoc, Nat.add_comm, Nat.add_left_comm]

theorem Unpacks.mark (h : Unpacks page used len packed src) :
    Unpacks page used len ([NSX_RLE_CHAR, 1] ++ packed) (NSX_RLE_CHAR :: src) := by
  intro uiOffset ucDupCount buf hread hused hlen
  simp only [cons_append, nil_append, length_cons] at hread hused hlen ⊢
  simp only [read_succ, List.cons.injEq] at hread
  obtain ⟨hmark, hcount, hrest⟩ := hread
  rw [unpackLoop, getByte_eq (by omega), bind_eq_bind, bind_some, if_pos hmark]
  dsimp only
  rw [getByte_eq (by omega), bind_some, hcount, if_neg (not_not.mpr rfl), if_neg (by omega),
    hmark, putBytes_eq (by rw [length_singleton]; omega), bind_eq_bind,
    bind_some, h _ _ _ hrest (by omega) (by omega)]
  rw [write_char]
  simp only [Nat.add_comm, Nat.add_left_comm]

theorem Unpacks.char (h : Unpacks page used len packed src) (hother : uc ≠ NSX_RLE_CHAR) :
    Unpacks page used len ([uc] ++ packed) (uc :: src) := by
  intro uiOffset ucDupCount buf hread hused hlen
  simp only [cons_append, nil_append, length_cons] at hread hused hlen ⊢
  simp only [read_succ, List.cons.injEq] at hread
  rw [unpackLoop, getByte_eq (by omega), bind_eq_bind, bind_some, hread.1,
    if_neg hother, if_neg (by omega), putBytes_eq (by rw [length_singleton]; omega),
    bind_eq_bind, bind_some, h _ _ _ hread.2 (by omega) (by omega)]
  rw [write_char]
  simp only [Nat.add_comm, Nat.add_left_comm]

theorem run_length (h : src.take m = replicate m uc) :
    m + repeats uc (src.drop m) ≤ src.length := by
  have hlength := congrArg length (run_eq h)
  rw [length_append, length_replicate] at hlength
  omega

theorem unpacks_rle (page : Mem) (used len : Nat) (src : Bytes) (hmax : src.length < 256) :
    Unpacks page used len (rle src) src := by
  induction src using rle.induct with
  | case1 =>
    unfold rle
    exact unpacks_nil
  | case2 src hhead more ih =>
    have hrun := run_eq (head_run hhead)
    have hle := run_length (head_run hhead)
    rw [rle, if_pos rfl, if_pos hhead]
    have hsrc : NSX_RLE_CHAR :: src =
        replicate (more + 2) NSX_RLE_CHAR ++ src.drop (1 + more) := by
      rw [show more + 2 = 1 + more + 1 by omega, replicate_succ, cons_append, ← hrun]
    rw [length_cons] at hmax
    rw [hsrc]
    exact (ih (by rw [length_drop]; omega)).run (by omega) (by omega)
  | case3 src hhead ih =>
    rw [length_cons] at hmax
    rw [rle, if_pos rfl, if_neg hhead]
    exact (ih (by omega)).mark
  | case4 uc src hother htake more ih =>
    have hrun := run_eq (n := 3) htake
    have hle := run_length (m := 3) htake
    rw [rle, if_neg hother, if_pos htake]
    have hsrc : uc :: src = replicate (more + 4) uc ++ src.drop (3 + more) := by
      rw [show more + 4 = 3 + more + 1 by omega, replicate_succ, cons_append, ← hrun]
    rw [length_cons] at hmax
    rw [hsrc]
    exact (ih (by rw [length_drop]; omega)).run (by omega) (by omega)
  | case5 uc src hother htake ih =>
    rw [length_cons] at hmax
    rw [rle, if_neg hother, if_neg htake]
    exact (ih (by omega)).char hother

end Unpack

section Bounds

variable {page : Mem} {used len : Nat}

theorem unpackLoop_some (page : Mem) (ucSize uiOffset ucDupCount : Nat) (buf : Mem)
    (hused : uiOffset + ucSize ≤ used) (hlen : ucDupCount ≤ len) :
    ∃ found buf', unpackLoop page used len ucSize uiOffset ucDupCount buf = some (found, buf') ∧
      ∀ uiOffset' ucDupCount', found = some (uiOffset', ucDupCount') → ucDupCount' ≤ len := by
  have hnone : ∀ buf' : Mem, ∃ found buf'', some ((none : Option (Nat × Nat)), buf') =
      some (found, buf'') ∧
        ∀ uiOffset' ucDupCount', found = some (uiOffset', ucDupCount') → ucDupCount' ≤ len :=
    fun buf' => ⟨none, buf', rfl, nofun⟩
  induction ucSize using Nat.strong_induction_on generalizing uiOffset ucDupCount buf with
  | _ ucSize ih =>
    cases ucSize with
    | zero => exact ⟨_, _, rfl, fun _ _ h => by cases h; exact hlen⟩
    | succ n =>
      rw [unpackLoop, getByte_eq (by omega), bind_eq_bind, bind_some]
      split
      · cases n with
        | zero => exact hnone buf
        | succ n =>
          dsimp only
          rw [getByte_eq (by omega), bind_some]
          split
          · cases n with
            | zero => exact hnone buf
            | succ n =>
              dsimp only
              split
              · exact hnone buf
              · next hroom =>
                rw [getByte_eq (by omega), bind_some, bind_eq_bind,
                  putBytes_eq (by rw [length_replicate]; omega), bind_some]
                exact ih n (by omega) _ _ _ (by omega) (by omega)
          · split
            · exact hnone buf
            · next hroom =>
              rw [putBytes_eq (by rw [length_singleton]; omega), bind_eq_bind,
                bind_some]
              exact ih n (by omega) _ _ _ (by omega) (by omega)
      · split
        · exact hnone buf
        · next hroom =>
          rw [putBytes_eq (by rw [length_singleton]; omega), bind_eq_bind,
            bind_some]
          exact ih n (by omega) _ _ _ (by omega) (by omega)

theorem getBytes_eq (h : uiOffset + n ≤ used) :
    getBytes page used uiOffset n = some (page.read uiOffset n) :=
  if_pos h

theorem getChars_isSome (page : Mem) (tag : Tag) {ucSize : Nat} (ucDupCount : Nat) (buf : Mem)
    (hused : uiOffset + ucSize ≤ used) :
    (getChars page used tag ucSize uiOffset ucDupCount buf).isSome := by
  unfold getChars
  dsimp only
  split
  · next hraw =>
    rw [getBytes_eq hused, bind_eq_bind, bind_some,
      putBytes_eq (by rw [Mem.read_length]; omega), bind_eq_bind, bind_some]
    rfl
  · split
    · rfl
    · next hshort =>
      obtain ⟨found, buf', hloop, hlen⟩ := unpackLoop_some page ucSize uiOffset
        ucDupCount buf hused (show ucDupCount ≤ tag.KeyLength by omega)
      rw [hloop, bind_eq_bind, bind_some]
      cases found with
      | none => rfl
      | some found =>
        have hle := hlen found.1 found.2 rfl
        dsimp only
        rw [putBytes_eq (by rw [length_replicate]; omega), bind_eq_bind,
          bind_some]
        rfl

theorem hb_nsxLeafGetKey_isSome (tag : Tag) (uiOffset : Nat) (buf : Mem) (ulRecNo : Nat) :
    (hb_nsxLeafGetKey page used tag uiOffset buf ulRecNo).isSome := by
  unfold hb_nsxLeafGetKey
  dsimp only
  generalize hb_nsxGetKeyRecSize page = ucRecLen
  split
  · rfl
  · next hhead =>
    split
    · rfl
    · next hrec =>
      rw [getBytes_eq (by omega), bind_eq_bind, bind_some, getByte_eq (by omega),
        bind_eq_bind, bind_some]
      split
      · split
        · rfl
        · next hsize =>
          rw [getByte_eq (by omega), bind_eq_bind, bind_some]
          obtain ⟨chars, hchars⟩ := Option.isSome_iff_exists.mp (getChars_isSome page
            tag (page (uiOffset + ucRecLen.toNat + 1)).toNat buf
            (show uiOffset + ucRecLen.toNat + 1 + 1 +
              (page (uiOffset + ucRecLen.toNat) - (ucRecLen + 2)).toNat ≤ used by omega))
          rw [hchars]
          rfl
      · rfl

end Bounds

section Entries

def dupEntry (recLen ulRecNo : Nat) : Bytes :=
  leBytes recLen ulRecNo ++ [UInt8.ofNat (recLen + 1)]

/-- A key with the first `ucDupCount` characters of the previous one, the others being packed. -/
def entry (recLen ulRecNo ucDupCount : Nat) (bytes : Bytes) : Bytes :=
  leBytes recLen ulRecNo ++
    (UInt8.ofNat (recLen + 2 + bytes.length) :: UInt8.ofNat ucDupCount :: bytes)

variable {page : Mem} {used ucDupCount ulRecNo ulRecNo' : Nat} {tag : Tag}

theorem dupEntry_length (recLen ulRecNo : Nat) : (dupEntry recLen ulRecNo).length = recLen + 1 := by
  rw [dupEntry, length_append, leBytes_length, length_singleton]

theorem entry_length (recLen ulRecNo ucDupCount : Nat) (bytes : Bytes) :
    (entry recLen ulRecNo ucDupCount bytes).length = recLen + 2 + bytes.length := by
  rw [entry, length_append, leBytes_length, length_cons, length_cons]
  omega

theorem size_sub (c : UInt8) (n : Nat) :
    UInt8.ofNat (c.toNat + 2 + n) - (c + 2) = UInt8.ofNat n := by
  rw [UInt8.ofNat_add, UInt8.ofNat_add, UInt8.ofNat_toNat]
  have hswap := UInt8.add_sub_cancel (UInt8.ofNat n) (c + 2)
  rw [UInt8.add_comm] at hswap
  exact hswap

theorem read_append {bytes' : Bytes} (h : mem.read pos (bytes ++ bytes').length = bytes ++ bytes') :
    mem.read pos bytes.length = bytes ∧
      mem.read (pos + bytes.length) bytes'.length = bytes' := by
  rw [length_append, Mem.read_add] at h
  exact append_inj h (Mem.read_length _ _ _)

structure Stored (page : Mem) (used uiOffset : Nat) (bytes : Bytes) : Prop where
  low : 1 ≤ (hb_nsxGetKeyRecSize page).toNat
  high : (hb_nsxGetKeyRecSize page).toNat ≤ 4
  read : page.read uiOffset bytes.length = bytes
  used : uiOffset + bytes.length ≤ used

theorem hb_nsxLeafGetKey_dup (tag : Tag) (buf : Mem) (ulRecNo' : Nat)
    (h : Stored page used uiOffset (dupEntry (hb_nsxGetKeyRecSize page).toNat ulRecNo)) :
    hb_nsxLeafGetKey page used tag uiOffset buf ulRecNo' =
      some (uiOffset + (dupEntry (hb_nsxGetKeyRecSize page).toNat ulRecNo).length, buf,
        ulRecNo % 256 ^ (hb_nsxGetKeyRecSize page).toNat) := by
  obtain ⟨hlow, hhigh, hread, hused⟩ := h
  rw [dupEntry_length] at hused
  rw [dupEntry_length]
  unfold hb_nsxLeafGetKey
  dsimp only
  generalize hb_nsxGetKeyRecSize page = ucRecLen at *
  obtain ⟨hrec, hsize⟩ := read_append hread
  rw [leBytes_length] at hrec hsize
  have hsize : page (uiOffset + ucRecLen.toNat) = UInt8.ofNat (ucRecLen.toNat + 1) :=
    (List.cons.inj ((read_succ _ _ _).symm.trans hsize)).1
  have hsame : (UInt8.ofNat (ucRecLen.toNat + 1)).toNat = ucRecLen.toNat + 1 :=
    UInt8.toNat_ofNat_of_lt' (by change _ < 256; omega)
  rw [if_neg (by omega), if_neg (not_not.mpr ⟨hlow, hhigh⟩), getBytes_eq (by omega),
    bind_eq_bind, bind_some, getByte_eq (by omega), bind_eq_bind,
    bind_some, hsize, if_neg (not_not.mpr hsame), hrec, leValue_leBytes]
  rfl

theorem hb_nsxLeafGetKey_entry (hmax : bytes.length ≤ NSX_MAXKEYLEN) (hdup : ucDupCount < 256)
    (h : Stored page used uiOffset
      (entry (hb_nsxGetKeyRecSize page).toNat ulRecNo ucDupCount bytes)) :
    hb_nsxLeafGetKey page used tag uiOffset buf ulRecNo' =
      (getChars page used tag bytes.length (uiOffset + (hb_nsxGetKeyRecSize page).toNat + 1 + 1)
        ucDupCount buf).bind fun chars =>
          some (chars.1, chars.2, ulRecNo % 256 ^ (hb_nsxGetKeyRecSize page).toNat) := by
  obtain ⟨hlow, hhigh, hread, hused⟩ := h
  rw [entry_length] at hused
  unfold hb_nsxLeafGetKey
  generalize hb_nsxGetKeyRecSize page = ucRecLen at *
  obtain ⟨hrec, hrest⟩ := read_append hread
  rw [leBytes_length] at hrec hrest
  rw [length_cons, length_cons, read_succ, read_succ, List.cons.injEq,
    List.cons.injEq] at hrest
  obtain ⟨hsize, hcount, hbytes⟩ := hrest
  simp only [NSX_MAXKEYLEN] at hmax ⊢
  have hbyte : (UInt8.ofNat bytes.length).toNat = bytes.length :=
    UInt8.toNat_ofNat_of_lt' (by change _ < 256; omega)
  have hcountByte : (UInt8.ofNat ucDupCount).toNat = ucDupCount := UInt8.toNat_ofNat_of_lt' hdup
  have hother : (UInt8.ofNat (ucRecLen.toNat + 2 + bytes.length)).toNat ≠ ucRecLen.toNat + 1 := by
    rw [UInt8.toNat_ofNat']
    omega
  rw [if_neg (by omega), if_neg (not_not.mpr ⟨hlow, hhigh⟩), getBytes_eq (by omega),
    bind_eq_bind, bind_some, getByte_eq (by omega), bind_eq_bind,
    bind_some, hsize, if_pos hother, size_sub, hbyte, if_neg (by omega),
    getByte_eq (by omega), bind_eq_bind, bind_some, hcount, hcountByte, hrec,
    leValue_leBytes]

theorem Stored.chars (h : Stored page used uiOffset
      (entry (hb_nsxGetKeyRecSize page).toNat ulRecNo ucDupCount bytes)) :
    page.read (uiOffset + (hb_nsxGetKeyRecSize page).toNat + 1 + 1) bytes.length = bytes := by
  obtain ⟨-, hrest⟩ := read_append h.read
  rw [leBytes_length, length_cons, length_cons, read_succ, read_succ, List.cons.injEq,
    List.cons.injEq] at hrest
  exact hrest.2.2

theorem hb_nsxLeafGetKey_raw (hlen : bytes.length + ucDupCount = tag.KeyLength)
    (h : Stored page used uiOffset
      (entry (hb_nsxGetKeyRecSize page).toNat ulRecNo ucDupCount bytes)) :
    hb_nsxLeafGetKey page used tag uiOffset buf ulRecNo' =
      some (uiOffset + (entry (hb_nsxGetKeyRecSize page).toNat ulRecNo ucDupCount bytes).length,
        buf.write ucDupCount bytes, ulRecNo % 256 ^ (hb_nsxGetKeyRecSize page).toNat) := by
  have hle := tag.le
  have hused := h.used
  simp only [NSX_MAXKEYLEN] at hle
  rw [hb_nsxLeafGetKey_entry (by simp only [NSX_MAXKEYLEN]; omega) (by omega) h]
  rw [entry_length] at hused
  unfold getChars
  rw [entry_length, if_pos hlen, getBytes_eq (by omega), h.chars, bind_eq_bind,
    bind_some, putBytes_eq (by omega), bind_eq_bind, bind_some,
    bind_some]
  rw [Nat.add_assoc uiOffset, Nat.add_assoc uiOffset, Nat.add_assoc uiOffset]

theorem hb_nsxLeafGetKey_rle (hshort : (rle src).length + ucDupCount < tag.KeyLength)
    (hlen : ucDupCount + src.length ≤ tag.KeyLength) (h : Stored page used uiOffset
      (entry (hb_nsxGetKeyRecSize page).toNat ulRecNo ucDupCount (rle src))) :
    hb_nsxLeafGetKey page used tag uiOffset buf ulRecNo' =
      some (uiOffset + (entry (hb_nsxGetKeyRecSize page).toNat ulRecNo ucDupCount (rle src)).length,
        buf.write ucDupCount (src ++
          replicate (tag.KeyLength - (ucDupCount + src.length)) tag.TrailChar),
        ulRecNo % 256 ^ (hb_nsxGetKeyRecSize page).toNat) := by
  have hle := tag.le
  have hused := h.used
  simp only [NSX_MAXKEYLEN] at hle
  rw [hb_nsxLeafGetKey_entry (by simp only [NSX_MAXKEYLEN]; omega) (by omega) h]
  rw [entry_length] at hused
  have hunpack := unpacks_rle page used tag.KeyLength src (by omega)
    _ ucDupCount buf h.chars (by omega) hlen
  unfold getChars
  rw [entry_length, if_neg (by omega), if_neg (by omega), hunpack, bind_eq_bind,
    bind_some]
  dsimp only
  rw [putBytes_eq (by rw [length_replicate]; omega), bind_eq_bind, bind_some,
    bind_some, Mem.write_append]
  rw [Nat.add_assoc uiOffset, Nat.add_assoc uiOffset, Nat.add_assoc uiOffset]

end Entries

section Stores

variable (tag : Tag) (page : Mem) (uiOffset : Nat) (prev : Option Bytes) (key : Bytes)
  (ulRecNo : Nat)

def packed (ucDupCount : Nat) : Bytes :=
  rle ((key.drop ucDupCount).rdropWhile (· = tag.TrailChar))

def stored (recLen ucDupCount : Nat) : Bytes :=
  if (packed tag key ucDupCount).length < (key.drop ucDupCount).length ∧
    uiOffset + recLen + 2 + (packed tag key ucDupCount).length ≤ NSX_PAGELEN
  then packed tag key ucDupCount else key.drop ucDupCount

variable {tag page uiOffset prev key ulRecNo}

theorem write_entry (page : Mem) (uiOffset ulRecNo recLen : Nat) (size dup : UInt8)
    (bytes : Bytes) :
    (((page.write uiOffset (leBytes recLen ulRecNo)).write (uiOffset + recLen + 1) [dup]).write
      (uiOffset + recLen + 2) bytes).write (uiOffset + recLen) [size] =
        page.write uiOffset (leBytes recLen ulRecNo ++ (size :: dup :: bytes)) := by
  have hdup := (page.write uiOffset (leBytes recLen ulRecNo)).write_append
    (uiOffset + recLen + 1) [dup] bytes
  have hsize := (page.write uiOffset (leBytes recLen ulRecNo)).write_append
    (uiOffset + recLen) [size] (dup :: bytes)
  have hrec := page.write_append uiOffset (leBytes recLen ulRecNo) (size :: dup :: bytes)
  rw [leBytes_length] at hrec
  rw [length_singleton] at hdup hsize
  rw [hdup, Mem.write_comm _ (by rw [length_singleton]), ← hrec]
  exact hsize

theorem write_congr {mem' : Mem} (h : ∀ a, a < pos ∨ pos + bytes.length ≤ a → mem a = mem' a) :
    mem.write pos bytes = mem'.write pos bytes := by
  funext a
  by_cases ha : a < pos ∨ pos + bytes.length ≤ a
  · rw [Mem.write_outside _ _ _ ha, Mem.write_outside _ _ _ ha, h a ha]
  · obtain ⟨k, rfl⟩ := Nat.exists_eq_add_of_le (show pos ≤ a by omega)
    rw [Mem.write_inside _ _ (by omega), Mem.write_inside _ _ (by omega)]

theorem recLen_eq {c : UInt8} (hlow : 1 ≤ c.toNat) (hhigh : c.toNat ≤ 4) :
    (if c = 1 then 1 else if c = 2 then 2 else if c = 3 then 3 else 4) = c.toNat := by
  have hall : ∀ n, 1 ≤ n → n ≤ 4 → (if UInt8.ofNat n = 1 then 1 else if UInt8.ofNat n = 2 then 2
      else if UInt8.ofNat n = 3 then 3 else 4) = n := by
    intro n hn hn'
    obtain rfl | rfl | rfl | rfl : n = 1 ∨ n = 2 ∨ n = 3 ∨ n = 4 := by omega
    all_goals rfl
  have := hall c.toNat hlow hhigh
  rwa [UInt8.ofNat_toNat] at this

theorem hb_nsxLeafPutKey_dup (uiOffset ulRecNo : Nat) (hlow : 1 ≤ (hb_nsxGetKeyRecSize page).toNat)
    (hhigh : (hb_nsxGetKeyRecSize page).toNat ≤ 4) (hall : dupCount prev key = tag.KeyLength) :
    hb_nsxLeafPutKey tag page uiOffset prev key ulRecNo =
      if uiOffset + (hb_nsxGetKeyRecSize page).toNat + 1 ≤ NSX_PAGELEN then
        (page.write uiOffset (dupEntry (hb_nsxGetKeyRecSize page).toNat ulRecNo),
          uiOffset + (dupEntry (hb_nsxGetKeyRecSize page).toNat ulRecNo).length)
      else (page, 0) := by
  unfold hb_nsxLeafPutKey
  dsimp only
  rw [recLen_eq hlow hhigh, hall, Nat.sub_self, if_pos rfl, dupEntry_length]
  generalize hb_nsxGetKeyRecSize page = c at *
  have hsize : (c + 1).toNat = c.toNat + 1 := by
    exact Nat.mod_eq_of_lt (by change c.toNat + 1 < 256; omega)
  split
  · next hfull => rw [if_neg (by omega)]
  · next hroom =>
    have hwrite := page.write_append uiOffset (leBytes c.toNat ulRecNo) [c + 1]
    rw [leBytes_length] at hwrite
    rw [if_pos (by omega), hwrite, hsize, dupEntry, UInt8.ofNat_add, UInt8.ofNat_toNat]
    rfl

theorem hb_nsxLeafPutKey_entry (uiOffset ulRecNo : Nat)
    (hlow : 1 ≤ (hb_nsxGetKeyRecSize page).toNat) (hhigh : (hb_nsxGetKeyRecSize page).toNat ≤ 4)
    (hkey : key.length = tag.KeyLength) (hless : dupCount prev key < tag.KeyLength) :
    let recLen := (hb_nsxGetKeyRecSize page).toNat
    let bytes := stored tag uiOffset key recLen (dupCount prev key)
    if uiOffset + recLen + 2 + bytes.length ≤ NSX_PAGELEN then
      hb_nsxLeafPutKey tag page uiOffset prev key ulRecNo =
        (page.write uiOffset (entry recLen ulRecNo (dupCount prev key) bytes),
          uiOffset + (entry recLen ulRecNo (dupCount prev key) bytes).length)
    else (hb_nsxLeafPutKey tag page uiOffset prev key ulRecNo).2 = 0 := by
  have hle := tag.le
  simp only [NSX_MAXKEYLEN] at hle
  unfold hb_nsxLeafPutKey
  dsimp only
  rw [recLen_eq hlow hhigh, entry_length]
  unfold entry
  generalize hb_nsxGetKeyRecSize page = c at *
  generalize dupCount prev key = dup at *
  have hsize : (c + 1 + 1).toNat = c.toNat + 2 := by
    change ((c.toNat + 1) % 256 + 1) % 256 = _
    omega
  have hbyte : ∀ n, c + 1 + 1 + UInt8.ofNat n = UInt8.ofNat (c.toNat + 2 + n) := fun n => by
    rw [UInt8.ofNat_add, ← hsize, UInt8.ofNat_toNat]
  have hrest : (key.drop dup).length = tag.KeyLength - dup := by rw [length_drop, hkey]
  rw [hsize, if_neg (show ¬ tag.KeyLength - dup = 0 by omega)]
  by_cases hroom : uiOffset + c.toNat + 2 ≤ NSX_PAGELEN
  · simp only [NSX_PAGELEN] at hroom
    rw [if_neg (show ¬ NSX_PAGELEN ≤ uiOffset + c.toNat by simp only [NSX_PAGELEN]; omega),
      if_neg (show ¬ NSX_PAGELEN < uiOffset + (c.toNat + 2) by simp only [NSX_PAGELEN]; omega)]
    by_cases hblank : (key.drop dup).rdropWhile (· = tag.TrailChar) = []
    · have hstored : stored tag uiOffset key c.toNat dup = [] := by
        have hpacked : packed tag key dup = [] := by
          rw [packed, hblank]
          exact rle.eq_1
        rw [stored, hpacked, length_nil, if_pos ⟨by omega, hroom⟩]
      have hwrite := write_entry page uiOffset ulRecNo c.toNat (c + 1 + 1) (UInt8.ofNat dup) []
      rw [Mem.write_nil] at hwrite
      rw [if_pos hblank, hstored, length_nil, if_pos hroom, hwrite, ← hbyte 0]
      simp
    · have hmax : 0 < min ((NSX_PAGELEN : Int) - uiOffset - (c.toNat + 2 : Nat) + 1)
          (tag.KeyLength - dup : Nat) := by
        simp only [NSX_PAGELEN]
        omega
      have hpack := packLoop_packs ((key.drop dup).rdropWhile (· = tag.TrailChar))
        ((page.write uiOffset (leBytes c.toNat ulRecNo)).write (uiOffset + c.toNat + 1)
          [UInt8.ofNat dup]) (uiOffset + c.toNat + 2) _ hmax
      rw [if_neg hblank, if_pos hmax]
      change Packs _ _ _ (packed tag key dup) _ at hpack
      generalize packLoop _ _ _ _ = result at *
      simp only [NSX_PAGELEN] at hpack ⊢
      rcases hpack with ⟨hshort, rfl⟩ | ⟨hlong, hstop, hsame⟩
      · have hstored : stored tag uiOffset key c.toNat dup = packed tag key dup := by
          rw [stored, if_pos ⟨by omega, by simp only [NSX_PAGELEN]; omega⟩]
        have hbyteLen : (UInt8.ofNat (c.toNat + 2 + (packed tag key dup).length)).toNat =
            c.toNat + 2 + (packed tag key dup).length :=
          UInt8.toNat_ofNat_of_lt' (by change _ < 256; omega)
        rw [hstored, if_pos (by omega)]
        dsimp only
        rw [if_pos (by omega), write_entry, Nat.add_sub_cancel_left, hbyte, hbyteLen]
      · have hstored : stored tag uiOffset key c.toNat dup = key.drop dup := by
          rw [stored, if_neg (fun h => by simp only [NSX_PAGELEN] at h; omega)]
        rw [hstored, hrest, if_neg (not_lt.mpr hstop), take_of_length_le (le_of_eq hrest),
          write_congr (fun a ha => hsame a (by omega)), write_entry, hbyte]
        split
        · next hfits => rw [if_neg (by omega), Nat.add_assoc uiOffset (c.toNat + 2)]
        · next hfull => rw [if_pos (by omega)]
  · rw [if_neg (show ¬ uiOffset + c.toNat + 2 + _ ≤ NSX_PAGELEN by omega)]
    split
    · rfl
    · rw [if_pos (by omega)]

theorem dupLoop_le (prev key : Bytes) : dupLoop prev key ≤ key.length := by
  fun_induction dupLoop prev key with
  | case1 p ps ks ih => exact Nat.succ_le_succ ih
  | case2 => exact Nat.zero_le _
  | case3 => exact Nat.zero_le _

theorem dupLoop_take (prev key : Bytes) :
    prev.take (dupLoop prev key) = key.take (dupLoop prev key) := by
  fun_induction dupLoop prev key with
  | case1 p ps ks ih => rw [take_succ_cons, take_succ_cons, ih]
  | case2 | case3 => rw [take_zero, take_zero]

theorem dupCount_le (hkey : key.length = tag.KeyLength) : dupCount prev key ≤ tag.KeyLength := by
  cases prev with
  | none => exact Nat.zero_le _
  | some prev => exact hkey ▸ dupLoop_le prev key

theorem read_take (mem : Mem) (pos : Nat) (h : m ≤ n) :
    mem.read pos m = (mem.read pos n).take m := by
  obtain ⟨k, rfl⟩ := Nat.exists_eq_add_of_le h
  rw [Mem.read_add, take_left' (Mem.read_length _ _ _)]

theorem read_dupCount (hkey : key.length = tag.KeyLength)
    (hprev : ∀ p ∈ prev, buf.read 0 tag.KeyLength = p) :
    buf.read 0 (dupCount prev key) = key.take (dupCount prev key) := by
  cases prev with
  | none => rfl
  | some prev =>
    change buf.read 0 (dupLoop prev key) = key.take (dupLoop prev key)
    rw [read_take buf 0 (hkey ▸ dupLoop_le prev key), hprev prev rfl, dupLoop_take]

theorem rdropWhile_append (uc : UInt8) (bytes : Bytes) :
    bytes.rdropWhile (· = uc) ++
      replicate (bytes.length - (bytes.rdropWhile (· = uc)).length) uc = bytes := by
  induction bytes using reverseRecOn with
  | nil => rfl
  | append_singleton bytes c ih =>
    by_cases hc : c = uc
    · have hle := ( rdropWhile_prefix (p := (· = uc)) (l := bytes)).length_le
      rw [rdropWhile_concat_pos _ _ _ (by simpa using hc), length_append,
        length_singleton, Nat.sub_add_comm hle, replicate_succ', ← append_assoc,
        ih, hc]
    · rw [rdropWhile_concat_neg _ _ _ (by simpa using hc), Nat.sub_self]
      exact append_nil _

def packedSize (tag : Tag) (prev : Option Bytes) (key : Bytes) (recLen : Nat) : Nat :=
  if dupCount prev key = tag.KeyLength then recLen + 1
  else recLen + 2 + (packed tag key (dupCount prev key)).length

def rawSize (tag : Tag) (prev : Option Bytes) (key : Bytes) (recLen : Nat) : Nat :=
  if dupCount prev key = tag.KeyLength then recLen + 1
  else recLen + 2 + (tag.KeyLength - dupCount prev key)

theorem stored_length_le (uiOffset : Nat) (prev : Option Bytes) (recLen : Nat)
    (hkey : key.length = tag.KeyLength) :
    (stored tag uiOffset key recLen (dupCount prev key)).length ≤
      tag.KeyLength - dupCount prev key := by
  unfold stored
  rw [length_drop, hkey]
  split
  · next h => exact Nat.le_of_lt h.1
  · rw [length_drop, hkey]

def entrySize (ucSize : UInt8) : Nat := if ucSize = 0 then 256 else ucSize.toNat

theorem entrySize_ofNat (hpos : 0 < n) (hle : n ≤ 256) :
    n = entrySize (UInt8.ofNat n) := by
  unfold entrySize
  split
  · next hzero =>
    have := congrArg UInt8.toNat hzero
    change n % 256 = 0 at this
    omega
  · next hne =>
    have hlt : n ≠ 256 := fun h => hne (h ▸ rfl)
    rw [UInt8.toNat_ofNat_of_lt' (by change n < 256; omega)]

theorem write_size (page : Mem) (uiOffset ulRecNo recLen : Nat) (size : UInt8) (bytes : Bytes) :
    page.write uiOffset (leBytes recLen ulRecNo ++ size :: bytes) (uiOffset + recLen) = size := by
  have hread := (read_append (page.read_write uiOffset
    (leBytes recLen ulRecNo ++ size :: bytes))).2
  rw [leBytes_length, length_cons, read_succ] at hread
  exact (List.cons.inj hread).1

theorem recSize_write (hoff : NSX_LEAFKEYOFFSET ≤ uiOffset) :
    hb_nsxGetKeyRecSize (page.write uiOffset bytes) = hb_nsxGetKeyRecSize page :=
  Mem.write_outside _ _ _ (.inl (hoff.trans_lt' (by decide)))

theorem hb_nsxLeafGetKey_stored {used : Nat} (ulRecNo' : Nat) (hkey : key.length = tag.KeyLength)
    (hless : dupCount prev key < tag.KeyLength) (hbuf : ∀ p ∈ prev, buf.read 0 tag.KeyLength = p)
    (page : Mem) (h : Stored page used uiOffset (entry (hb_nsxGetKeyRecSize page).toNat ulRecNo
      (dupCount prev key) (stored tag uiOffset key (hb_nsxGetKeyRecSize page).toNat
        (dupCount prev key)))) :
    ∃ buf', hb_nsxLeafGetKey page used tag uiOffset buf ulRecNo' =
      some (uiOffset + (entry (hb_nsxGetKeyRecSize page).toNat ulRecNo (dupCount prev key)
        (stored tag uiOffset key (hb_nsxGetKeyRecSize page).toNat (dupCount prev key))).length,
        buf', ulRecNo % 256 ^ (hb_nsxGetKeyRecSize page).toNat) ∧
      buf'.read 0 tag.KeyLength = key := by
  have hdup := read_dupCount hkey hbuf
  -- both forms put the rest of the key behind the characters that are there already
  have hfinish : (buf.write (dupCount prev key) (key.drop (dupCount prev key))).read 0
      tag.KeyLength = key := by
    have hhead : (buf.write (dupCount prev key) (key.drop (dupCount prev key))).read 0
        (dupCount prev key) = key.take (dupCount prev key) :=
      (Mem.read_write_outside _ (.inl (by omega))).trans hdup
    have hlength : tag.KeyLength = dupCount prev key + (key.drop (dupCount prev key)).length := by
      rw [length_drop, hkey, Nat.add_sub_cancel' (Nat.le_of_lt hless)]
    rw [hlength, Mem.read_add, Nat.zero_add, hhead, Mem.read_write, take_append_drop]
  refine ⟨_, ?_, hfinish⟩
  generalize dupCount prev key = dup at *
  unfold stored at h ⊢
  have hrest : (key.drop dup).length = tag.KeyLength - dup := by rw [length_drop, hkey]
  split at h
  · next hshort =>
    rw [if_pos hshort]
    have hle := ( rdropWhile_prefix (p := (· = tag.TrailChar)) (l := key.drop dup)).length_le
    have hchars := rdropWhile_append tag.TrailChar (key.drop dup)
    refine (hb_nsxLeafGetKey_rle ?_ ?_ h).trans ?_
    · change (packed tag key dup).length + dup < _
      omega
    · omega
    · rw [show tag.KeyLength - (dup + ((key.drop dup).rdropWhile (· = tag.TrailChar)).length) =
        (key.drop dup).length - ((key.drop dup).rdropWhile (· = tag.TrailChar)).length by omega,
        hchars]
      rfl
  · next hraw =>
    rw [if_neg hraw]
    exact hb_nsxLeafGetKey_raw (by omega) h

structure Placed (tag : Tag) (page : Mem) (uiOffset : Nat) (prev : Option Bytes) (key : Bytes)
    (ulRecNo : Nat) (put : Mem × Nat) : Prop where
  outside : ∀ a, a < uiOffset ∨ put.2 ≤ a → put.1 a = page a
  fits : put.2 ≤ NSX_PAGELEN
  behind : uiOffset < put.2
  size : put.2 - uiOffset =
    entrySize (put.1 (uiOffset + (hb_nsxGetKeyRecSize page).toNat))
  get : ∀ used buf ulRecNo', put.2 ≤ used → (∀ p ∈ prev, buf.read 0 tag.KeyLength = p) →
    ∃ buf', hb_nsxLeafGetKey put.1 used tag uiOffset buf ulRecNo' = some (put.2, buf', ulRecNo) ∧
      buf'.read 0 tag.KeyLength = key

theorem placed_write (hlow : 1 ≤ (hb_nsxGetKeyRecSize page).toNat)
    (hhigh : (hb_nsxGetKeyRecSize page).toNat ≤ 4) (hoff : NSX_LEAFKEYOFFSET ≤ uiOffset)
    (hfits : uiOffset + bytes.length ≤ NSX_PAGELEN) (hpos : 0 < bytes.length)
    (hle : bytes.length ≤ 256)
    (hsize : ∃ rest, bytes = leBytes (hb_nsxGetKeyRecSize page).toNat ulRecNo ++
      UInt8.ofNat bytes.length :: rest)
    (hget : ∀ page' used buf ulRecNo', hb_nsxGetKeyRecSize page' = hb_nsxGetKeyRecSize page →
      Stored page' used uiOffset bytes → (∀ p ∈ prev, buf.read 0 tag.KeyLength = p) →
      ∃ buf', hb_nsxLeafGetKey page' used tag uiOffset buf ulRecNo' =
        some (uiOffset + bytes.length, buf', ulRecNo) ∧ buf'.read 0 tag.KeyLength = key) :
    Placed tag page uiOffset prev key ulRecNo
      (page.write uiOffset bytes, uiOffset + bytes.length) := by
  have hrecSize : hb_nsxGetKeyRecSize (page.write uiOffset bytes) = hb_nsxGetKeyRecSize page :=
    recSize_write hoff
  refine ⟨fun a ha => Mem.write_outside _ _ _ ha, hfits, Nat.lt_add_of_pos_right hpos, ?_,
    fun used buf ulRecNo' hused hbuf => ?_⟩
  · obtain ⟨rest, hrest⟩ := hsize
    have hbyte := write_size page uiOffset ulRecNo
      (hb_nsxGetKeyRecSize page).toNat (UInt8.ofNat bytes.length) rest
    rw [← hrest] at hbyte
    dsimp only
    rw [hbyte, Nat.add_sub_cancel_left]
    exact entrySize_ofNat hpos hle
  · refine hget _ used buf ulRecNo' hrecSize ⟨?_, ?_, Mem.read_write _ _ _, hused⟩ hbuf
    · rw [hrecSize]
      exact hlow
    · rw [hrecSize]
      exact hhigh

theorem hb_nsxLeafPutKey_placed (hlow : 1 ≤ (hb_nsxGetKeyRecSize page).toNat)
    (hhigh : (hb_nsxGetKeyRecSize page).toNat ≤ 4) (hoff : NSX_LEAFKEYOFFSET ≤ uiOffset)
    (hkey : key.length = tag.KeyLength) (hrec : ulRecNo < 256 ^ (hb_nsxGetKeyRecSize page).toNat)
    (hput : (hb_nsxLeafPutKey tag page uiOffset prev key ulRecNo).2 ≠ 0) :
    Placed tag page uiOffset prev key ulRecNo
      (hb_nsxLeafPutKey tag page uiOffset prev key ulRecNo) := by
  have hle := tag.le
  have hmod := Nat.mod_eq_of_lt hrec
  simp only [NSX_MAXKEYLEN] at hle
  by_cases hall : dupCount prev key = tag.KeyLength
  · have heq := hb_nsxLeafPutKey_dup uiOffset ulRecNo hlow hhigh hall
    split at heq
    · next hfits =>
      rw [heq]
      have hlength := dupEntry_length (hb_nsxGetKeyRecSize page).toNat ulRecNo
      refine placed_write hlow hhigh hoff (by omega) (by omega) (by omega)
        ⟨[], by rw [hlength, dupEntry]⟩ fun page' used buf ulRecNo' hsame hstored hbuf => ?_
      rw [← hsame] at hstored hmod ⊢
      have hget := hb_nsxLeafGetKey_dup tag buf ulRecNo' hstored
      rw [hmod] at hget
      refine ⟨buf, hget, ?_⟩
      have hdup := read_dupCount hkey hbuf
      rwa [hall, ← hkey, take_length, hkey] at hdup
    · next hfull => exact absurd (congrArg Prod.snd heq) hput
  · have hless := Nat.lt_of_le_of_ne (dupCount_le hkey) hall
    have heq := hb_nsxLeafPutKey_entry uiOffset ulRecNo hlow hhigh hkey hless
    dsimp only at heq
    split at heq
    · next hfits =>
      rw [heq]
      have hlength := entry_length (hb_nsxGetKeyRecSize page).toNat ulRecNo (dupCount prev key)
        (stored tag uiOffset key (hb_nsxGetKeyRecSize page).toNat (dupCount prev key))
      have hshort := stored_length_le uiOffset prev
        (hb_nsxGetKeyRecSize page).toNat hkey
      refine placed_write hlow hhigh hoff (by omega) (by omega) (by omega)
        ⟨_, by rw [hlength]; exact rfl⟩ fun page' used buf ulRecNo' hsame hstored hbuf => ?_
      rw [← hsame] at hstored hmod ⊢
      have hget := hb_nsxLeafGetKey_stored ulRecNo' hkey hless hbuf page' hstored
      rwa [hmod] at hget
    · next hfull => exact absurd heq hput

theorem hb_nsxLeafPutKey_refuses (hlow : 1 ≤ (hb_nsxGetKeyRecSize page).toNat)
    (hhigh : (hb_nsxGetKeyRecSize page).toNat ≤ 4) (hkey : key.length = tag.KeyLength)
    (hput : (hb_nsxLeafPutKey tag page uiOffset prev key ulRecNo).2 = 0) :
    NSX_PAGELEN < uiOffset + packedSize tag prev key (hb_nsxGetKeyRecSize page).toNat ∧
      NSX_PAGELEN < uiOffset + rawSize tag prev key (hb_nsxGetKeyRecSize page).toNat := by
  unfold packedSize rawSize
  by_cases hall : dupCount prev key = tag.KeyLength
  · have heq := hb_nsxLeafPutKey_dup uiOffset ulRecNo hlow hhigh hall
    rw [if_pos hall, if_pos hall]
    split at heq
    · next hfits =>
      rw [heq, dupEntry_length] at hput
      omega
    · next hfull => omega
  · have hless := Nat.lt_of_le_of_ne (dupCount_le hkey) hall
    have heq := hb_nsxLeafPutKey_entry uiOffset ulRecNo hlow hhigh hkey hless
    have hrest : (key.drop (dupCount prev key)).length = tag.KeyLength - dupCount prev key := by
      rw [length_drop, hkey]
    rw [if_neg hall, if_neg hall]
    dsimp only at heq
    split at heq
    · next hfits =>
      rw [heq, entry_length] at hput
      omega
    · next hfull =>
      unfold stored at hfull
      split at hfull
      · next hpacked => omega
      · next hraw =>
        omega

/--
A key that `hb_nsxLeafPutKey` stores changes the bytes of its entry only and is found there again;
a key is refused only where it fits neither packed nor as it is; and the reader keeps to its
bounds on every page.
-/
theorem hb_nsxLeafPutKey_codec (hlow : 1 ≤ (hb_nsxGetKeyRecSize page).toNat)
    (hhigh : (hb_nsxGetKeyRecSize page).toNat ≤ 4) (hoff : NSX_LEAFKEYOFFSET ≤ uiOffset)
    (hkey : key.length = tag.KeyLength)
    (hrec : ulRecNo < 256 ^ (hb_nsxGetKeyRecSize page).toNat) :
    ((hb_nsxLeafPutKey tag page uiOffset prev key ulRecNo).2 ≠ 0 →
      Placed tag page uiOffset prev key ulRecNo
        (hb_nsxLeafPutKey tag page uiOffset prev key ulRecNo)) ∧
    ((hb_nsxLeafPutKey tag page uiOffset prev key ulRecNo).2 = 0 →
      NSX_PAGELEN < uiOffset + packedSize tag prev key (hb_nsxGetKeyRecSize page).toNat ∧
      NSX_PAGELEN < uiOffset + rawSize tag prev key (hb_nsxGetKeyRecSize page).toNat) ∧
    ∀ page' used' uiOffset' buf' ulRecNo',
      (hb_nsxLeafGetKey page' used' tag uiOffset' buf' ulRecNo').isSome :=
  ⟨hb_nsxLeafPutKey_placed hlow hhigh hoff hkey hrec, hb_nsxLeafPutKey_refuses hlow hhigh hkey,
    fun _ _ _ _ _ => hb_nsxLeafGetKey_isSome ..⟩

/-- A key behind one that begins with the same letter, both with blanks behind. -/
theorem hb_nsxLeafPutKey_codec_second :
    let tag : Tag := ⟨4, 32, by decide, by decide⟩
    let first := hb_nsxLeafPutKey tag (fun a => if a = 1 then 2 else 0) 6 none [65, 66, 32, 32] 7
    let second := hb_nsxLeafPutKey tag first.1 12 (some [65, 66, 32, 32]) [65, 67, 32, 32] 9
    first.2 = 12 ∧ second.2 = 17 ∧
      Placed tag first.1 12 (some [65, 66, 32, 32]) [65, 67, 32, 32] 9 second := by
  intro tag first second
  have hend : second.2 = 17 := by decide +kernel
  refine ⟨by decide +kernel, hend, ?_⟩
  refine (hb_nsxLeafPutKey_codec ?_ ?_ (by decide) rfl ?_).1 fun hzero => ?_
  · decide +kernel
  · decide +kernel
  · decide +kernel
  · exact absurd (hend.symm.trans hzero) (by decide)

end Stores

end Harbour.Rdd.NsxLeafCodec
