import Harbour.Library.Bytes

/-!
A byte-addressed memory and a pointer into it that moves on as bytes are stored.
-/

namespace Harbour.Library.Memory

open List Option

abbrev Mem := Nat → UInt8

variable {bytes bytes' : Bytes} {hi i lo n n' off pos pos' width : Nat}

namespace Mem

def write (mem : Mem) (pos : Nat) (bytes : Bytes) : Mem :=
  fun a => if pos ≤ a then (bytes[a - pos]?).getD (mem a) else mem a

def read (mem : Mem) (pos n : Nat) : Bytes :=
  (range n).map fun i => mem (pos + i)

section

variable (mem : Mem)

include mem

theorem write_outside (pos : Nat) (bytes : Bytes) {a : Nat} (h : a < pos ∨ pos + bytes.length ≤ a) :
    write mem pos bytes a = mem a := by
  unfold write
  rcases h with h | h
  · rw [if_neg (by omega)]
  · rw [if_pos (by omega), getElem?_eq_none (by omega), getD_none]

theorem write_inside (pos : Nat) (h : i < bytes.length) :
    write mem pos bytes (pos + i) = bytes.get ⟨i, h⟩ := by
  unfold write
  rw [if_pos (by omega), Nat.add_sub_cancel_left, getElem?_eq_getElem h, getD_some]
  rfl

@[simp]
theorem write_nil (pos : Nat) : write mem pos [] = mem := by
  funext a
  exact write_outside mem pos [] (by simp; omega)

theorem write_write (pos off : Nat) (bytes bytes' : Bytes) (h : off ≤ bytes.length) :
    write (write mem pos bytes) (pos + off) bytes' =
      write mem pos (bytes.take off ++ bytes' ++ bytes.drop (off + bytes'.length)) := by
  funext a
  have htake : (bytes.take off).length = off := by simp [h]
  by_cases ha : pos ≤ a
  · obtain ⟨i, rfl⟩ : ∃ i, a = pos + i := ⟨a - pos, by omega⟩
    simp only [write, if_pos ha, Nat.add_sub_cancel_left, getElem?_append,
      length_append, htake]
    by_cases hlow : i < off
    · rw [if_neg (by omega), if_pos (by omega), if_pos hlow, getElem?_take, if_pos hlow]
    · rw [if_pos (by omega), if_neg hlow, show pos + i - (pos + off) = i - off by omega]
      by_cases hhigh : i < off + bytes'.length
      · rw [if_pos hhigh, getElem?_eq_getElem (by omega)]
        rfl
      · rw [if_neg hhigh, getElem?_eq_none (by omega), getD_none, getElem?_drop]
        congr 2
        omega
  · simp only [write, if_neg ha, if_neg (show ¬ pos + off ≤ a by omega)]

theorem write_append (pos : Nat) (bytes bytes' : Bytes) :
    write (write mem pos bytes) (pos + bytes.length) bytes' =
      write mem pos (bytes ++ bytes') := by
  rw [write_write _ _ _ _ _ (Nat.le_refl _), take_length, drop_eq_nil_of_le (by omega),
    append_nil]

theorem write_comm (h : pos + bytes.length ≤ pos') :
    write (write mem pos' bytes') pos bytes = write (write mem pos bytes) pos' bytes' := by
  funext a
  by_cases ha : a < pos'
  · have hbelow : write mem pos' bytes' a = mem a := write_outside mem pos' bytes' (.inl ha)
    rw [write_outside (write mem pos bytes) pos' bytes' (.inl ha)]
    simp only [write] at hbelow ⊢
    rw [hbelow]
  · have hafter : write mem pos bytes a = mem a := write_outside mem pos bytes (.inr (by omega))
    rw [write_outside (write mem pos' bytes') pos bytes (.inr (by omega))]
    simp only [write] at hafter ⊢
    rw [hafter]

@[simp]
theorem read_length (pos n : Nat) : (read mem pos n).length = n := by
  simp [read]

theorem read_getElem (pos n : Nat) (h : i < (read mem pos n).length) :
    (read mem pos n).get ⟨i, h⟩ = mem (pos + i) := by
  simp [read]

theorem read_write (pos : Nat) (bytes : Bytes) :
    read (write mem pos bytes) pos bytes.length = bytes := by
  apply ext_get
  · simp
  · intro i hi hi'
    rw [read_getElem, write_inside mem pos hi']

theorem read_write_prefix (pos : Nat) (bytes spill : Bytes) :
    read (write mem pos (bytes ++ spill)) pos bytes.length = bytes := by
  apply ext_get
  · simp
  · intro i hi hi'
    rw [read_getElem, write_inside mem pos (by simp; omega)]
    simp [getElem_append_left hi']

theorem read_add (pos n n' : Nat) :
    read mem pos (n + n') = read mem pos n ++ read mem (pos + n) n' := by
  unfold read
  rw [List.range_add, List.map_append, List.map_map]
  simp [Nat.add_assoc]

end

theorem read_congr {mem mem' : Mem} (h : ∀ a, pos ≤ a → a < pos + n → mem a = mem' a) :
    read mem pos n = read mem' pos n := by
  apply map_congr_left
  intro i hi
  rw [mem_range] at hi
  exact h _ (by omega) (by omega)

theorem read_write_outside (mem : Mem) (h : pos' + n ≤ pos ∨ pos + bytes.length ≤ pos') :
    read (write mem pos bytes) pos' n = read mem pos' n :=
  read_congr fun a hle hlt => write_outside _ _ _ (by omega)

theorem read_records {α : Type} {mem : Mem} {put : α → Bytes} (hwidth : ∀ x, (put x).length = width)
    {items : List α} (h : mem.read pos (items.length * width) = items.flatMap put)
    (hi : i < items.length) : mem.read (pos + i * width) width = put items[i] := by
  induction items generalizing pos i with
  | nil => exact absurd hi (Nat.not_lt_zero i)
  | cons item items ih =>
    rw [length_cons, Nat.succ_mul, Nat.add_comm, read_add, flatMap_cons] at h
    obtain ⟨hhead, htail⟩ := append_inj h (by rw [read_length, hwidth])
    cases i with
    | zero => simpa using hhead
    | succ i =>
      have hrest := ih htail (Nat.lt_of_succ_lt_succ hi)
      rw [Nat.add_assoc, Nat.add_comm width, ← Nat.succ_mul] at hrest
      simpa using hrest

theorem read_write_inside (mem : Mem) (pos : Nat) (h : off + bytes.length ≤ n) :
    read (write mem (pos + off) bytes) pos n =
      (read mem pos n).take off ++ bytes ++ (read mem pos n).drop (off + bytes.length) := by
  obtain ⟨rest, rfl⟩ : ∃ rest, n = off + (bytes.length + rest) :=
    ⟨n - off - bytes.length, by omega⟩
  have hlow : read (write mem (pos + off) bytes) pos off = read mem pos off :=
    read_congr fun a _ hlt => write_outside _ _ _ (.inl hlt)
  have hhigh : read (write mem (pos + off) bytes) (pos + off + bytes.length) rest =
      read mem (pos + off + bytes.length) rest :=
    read_congr fun a hle _ => write_outside _ _ _ (.inr hle)
  rw [read_add, read_add, read_write, hlow, hhigh, read_add mem pos, read_add mem (pos + off),
    take_left' (read_length _ _ _), ← drop_drop, drop_left' (read_length _ _ _),
    drop_left' (read_length _ _ _), append_assoc]

end Mem

section Numbers

open Bytes

def getLE (mem : Mem) (pos width : Nat) : Nat := leValue (mem.read pos width)

def getBE (mem : Mem) (pos width : Nat) : Nat := leValue (mem.read pos width).reverse

theorem getLE_add (mem : Mem) (pos a b : Nat) :
    getLE mem pos (a + b) = getLE mem pos a + 256 ^ a * getLE mem (pos + a) b := by
  rw [getLE, Mem.read_add, leValue_append, Mem.read_length]
  rfl

theorem getLE_lt (mem : Mem) (pos width : Nat) : getLE mem pos width < 256 ^ width := by
  have h := leValue_lt (mem.read pos width)
  rwa [Mem.read_length] at h

theorem getLE_of_read {mem : Mem} (h : mem.read pos width = leBytes width n) :
    getLE mem pos width = n % 256 ^ width := by
  rw [getLE, h, leValue_leBytes]

theorem getBE_of_read {mem : Mem} (h : mem.read pos width = beBytes width n) :
    getBE mem pos width = n % 256 ^ width := by
  rw [getBE, h, beBytes, reverse_reverse, leValue_leBytes]

end Numbers

structure File where
  mem : Mem
  size : Nat
  blank : ∀ a, size ≤ a → mem a = 0

variable {file file' : File}

namespace File

def readAt (file : File) (pos n : Nat) : Option Bytes :=
  if pos + n ≤ file.size then some (file.mem.read pos n) else none

def writeAt (file : File) (pos : Nat) (bytes : Bytes) : File where
  mem := file.mem.write pos bytes
  size := if bytes.isEmpty then file.size else max file.size (pos + bytes.length)
  blank a ha := by
    cases bytes with
    | nil => simpa using file.blank a (by simpa using ha)
    | cons b bytes =>
      simp only [isEmpty_cons, Bool.false_eq_true, if_false] at ha
      rw [Mem.write_outside _ _ _ (by omega), file.blank a (by omega)]

theorem writeAt_mem (file : File) (pos : Nat) (bytes : Bytes) :
    (file.writeAt pos bytes).mem = file.mem.write pos bytes := rfl

def truncAt (file : File) (size : Nat) : File where
  mem a := if a < size then file.mem a else 0
  size := size
  blank _ ha := if_neg (Nat.not_lt.mpr ha)

/-- The bytes from `lo` to `hi` stay, and the file is not cut off among them. -/
structure Keeps (file file' : File) (lo hi : Nat) : Prop where
  same : ∀ a, lo ≤ a → a < hi → file'.mem a = file.mem a
  size : min file.size hi ≤ file'.size

theorem keeps_refl (file : File) (lo hi : Nat) : Keeps file file lo hi :=
  ⟨fun _ _ _ => rfl, Nat.min_le_left _ _⟩

theorem Keeps.trans {file'' : File} (h : Keeps file file' lo hi) (h' : Keeps file' file'' lo hi) :
    Keeps file file'' lo hi where
  same a hle hlt := (h'.same a hle hlt).trans (h.same a hle hlt)
  size := by have := h.size; have := h'.size; omega

theorem Keeps.mono {lo' hi' : Nat} (h : Keeps file file' lo hi) (hlo : lo ≤ lo') (hhi : hi' ≤ hi) :
    Keeps file file' lo' hi' where
  same a hle hlt := h.same a (hlo.trans hle) (hlt.trans_le hhi)
  size := by have := h.size; omega

theorem size_le_writeAt (file : File) (pos : Nat) (bytes : Bytes) :
    file.size ≤ (file.writeAt pos bytes).size := by
  unfold writeAt
  split_ifs
  · exact Nat.le_refl _
  · exact Nat.le_max_left _ _

theorem end_le_writeAt (file : File) (pos : Nat) (h : bytes ≠ []) :
    pos + bytes.length ≤ (file.writeAt pos bytes).size := by
  have hfull : bytes.isEmpty = false := by simpa using h
  simp only [writeAt, hfull, Bool.false_eq_true, if_false]
  exact Nat.le_max_right _ _

theorem keeps_writeAt (file : File) (h : hi ≤ pos ∨ pos + bytes.length ≤ lo) :
    Keeps file (file.writeAt pos bytes) lo hi where
  same _ hle hlt := Mem.write_outside _ _ _ (by omega)
  size := (Nat.min_le_left _ _).trans (size_le_writeAt file pos bytes)

theorem keeps_truncAt (file : File) {size : Nat} (h : hi ≤ size) :
    Keeps file (file.truncAt size) lo hi where
  same _ _ hlt := if_pos (hlt.trans_le h)
  size := (Nat.min_le_right _ _).trans h

theorem Keeps.read (h : Keeps file file' lo hi) (hlo : lo ≤ pos) (hhi : pos + n ≤ hi) :
    file'.mem.read pos n = file.mem.read pos n :=
  Mem.read_congr fun a hle hlt => h.same a (by omega) (by omega)

end File

/-- The memory and the pointer that a function gets by reference. -/
structure Buffer where
  mem : Mem
  ptr : Nat

variable {buf' : Buffer}

namespace Buffer

/-- Stores bytes at an offset from the pointer, which stays. -/
def poke (buf : Buffer) (off : Nat) (bytes : Bytes) : Buffer :=
  { buf with mem := buf.mem.write (buf.ptr + off) bytes }

def advance (buf : Buffer) (n : Nat) : Buffer :=
  { buf with ptr := buf.ptr + n }

def putByte (buf : Buffer) (b : UInt8) : Buffer :=
  (buf.poke 0 [b]).advance 1

def fill (buf : Buffer) (bytes : Bytes) (n : Nat) : Buffer :=
  ⟨buf.mem.write buf.ptr bytes, buf.ptr + n⟩

section

variable (buf : Buffer)

include buf

theorem putByte_eq_fill (b : UInt8) : buf.putByte b = buf.fill [b] 1 := rfl

theorem fill_advance (bytes : Bytes) (n n' : Nat) :
    (buf.fill bytes n).advance n' = buf.fill bytes (n + n') := by
  simp [fill, advance, Nat.add_assoc]

theorem fill_poke (bytes bytes' : Bytes) (n off : Nat) (h : n + off ≤ bytes.length) :
    (buf.fill bytes n).poke off bytes' =
      buf.fill (bytes.take (n + off) ++ bytes' ++ bytes.drop (n + off + bytes'.length)) n := by
  simp [fill, poke, Nat.add_assoc, Mem.write_write _ _ _ _ _ h]

theorem fill_putByte (bytes : Bytes) (b : UInt8) :
    (buf.fill bytes bytes.length).putByte b = buf.fill (bytes ++ [b]) (bytes ++ [b]).length := by
  rw [putByte, fill_poke _ _ _ _ _ (by simp), fill_advance, take_of_length_le (by simp),
    drop_eq_nil_of_le (by simp), append_nil, length_append, length_singleton]

theorem fill_put (bytes bytes' : Bytes) :
    ((buf.fill bytes bytes.length).poke 0 bytes').advance bytes'.length =
      buf.fill (bytes ++ bytes') (bytes ++ bytes').length := by
  rw [fill_poke _ _ _ _ _ (by simp), fill_advance, take_of_length_le (by simp),
    drop_eq_nil_of_le (by simp), append_nil, length_append]

theorem poke_poke {off' : Nat} (h : off + bytes.length ≤ off') :
    (buf.poke off' bytes').poke off bytes = (buf.poke off bytes).poke off' bytes' := by
  simp only [poke, Mem.write_comm buf.mem (show buf.ptr + off + bytes.length ≤
    buf.ptr + off' by omega)]

theorem putByte_poke_poke (b : UInt8) (pre text spill : Bytes) :
    (((buf.putByte b).poke pre.length (text ++ spill)).poke 0 pre).advance
        (text.length + pre.length) =
      buf.fill (b :: (pre ++ text) ++ spill) (b :: (pre ++ text)).length := by
  rw [poke_poke _ (by simp), putByte_eq_fill, fill_poke _ _ _ _ _ (by simp),
    fill_poke _ _ _ _ _ (by simp [Nat.add_comm 1]), fill_advance,
    drop_eq_nil_of_le (show (_ : Bytes).length ≤ _ by simp)]
  congr 1
  · simp [Nat.add_comm 1]
  · simp
    omega

theorem putByte_poke_gap (b : UInt8) (pre payload : Bytes) (h : pre.length ≤ off) (n : Nat) :
    (((buf.putByte b).poke off payload).poke 0 pre).advance n =
      ⟨(buf.mem.write buf.ptr (b :: pre)).write (buf.ptr + 1 + off) payload, buf.ptr + 1 + n⟩ := by
  rw [poke_poke _ (by simpa using h)]
  have hpre : (buf.mem.write buf.ptr [b]).write (buf.ptr + 1) pre =
      buf.mem.write buf.ptr (b :: pre) := Mem.write_append buf.mem buf.ptr [b] pre
  simp [putByte, poke, advance, hpre]

theorem fill_fill (bytes spill bytes' : Bytes) (n : Nat) (h : spill.length ≤ bytes'.length) :
    (buf.fill (bytes ++ spill) bytes.length).fill bytes' n =
      buf.fill (bytes ++ bytes') (bytes.length + n) := by
  simp only [fill, Nat.add_assoc]
  rw [Mem.write_write _ _ _ _ _ (by simp), take_left, drop_eq_nil_of_le (by simp; omega),
    append_nil]

end

structure Grows (buf buf' : Buffer) (n : Nat) : Prop where
  ptr_le : buf.ptr + n ≤ buf'.ptr
  below : ∀ a < buf.ptr, buf'.mem a = buf.mem a

theorem grows_refl (buf : Buffer) : Grows buf buf 0 :=
  ⟨(Nat.le_refl _), fun _ _ => rfl⟩

theorem Grows.trans {buf buf'' : Buffer} (h : Grows buf buf' n) (h' : Grows buf' buf'' n') :
    Grows buf buf'' (n + n') where
  ptr_le := by have := h.ptr_le; have := h'.ptr_le; omega
  below a ha := (h'.below a (by have := h.ptr_le; omega)).trans (h.below a ha)

theorem Grows.mono {buf : Buffer} (h : Grows buf buf' n) (hle : n' ≤ n) :
    Grows buf buf' n' :=
  ⟨by have := h.ptr_le; omega, h.below⟩

theorem grows_fill (buf : Buffer) (bytes : Bytes) (n : Nat) : Grows buf (buf.fill bytes n) n where
  ptr_le := (Nat.le_refl _)
  below _ ha := Mem.write_outside _ _ _ (.inl ha)

end Buffer

end Harbour.Library.Memory
