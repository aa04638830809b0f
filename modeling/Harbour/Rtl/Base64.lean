import Harbour.Library.Bytes
import Mathlib.Tactic.IntervalCases

/-!
The functions of `base64c.c` and `base64d.c`.
-/

namespace Harbour.Rtl.Base64

open List Library.Bytes

def s_b64chars : Bytes :=
  (range' 65 26 ++ range' 97 26 ++ range' 48 10 ++ [43, 47]).map UInt8.ofNat

/-- The bits above the lowest eight of an `int` are not looked at. -/
def b64char (c : UInt8) : UInt8 := s_b64chars.getD (c &&& 0x3F).toNat 0

/-- What the loop of `HB_BASE64ENCODE` gives to `ADD_CHAR` and `ADD_EQ`. -/
def chars : Bytes → Bytes
  | [] => []
  | [x] => [b64char (x >>> 2), b64char (x <<< 4), 61, 61]
  | [x, y] => [b64char (x >>> 2), b64char (x <<< 4 ||| (y >>> 4 &&& 0x0F)), b64char (y <<< 2), 61]
  | x :: y :: z :: s =>
    b64char (x >>> 2) :: b64char (x <<< 4 ||| (y >>> 4 &&& 0x0F)) ::
      b64char (y <<< 2 ||| (z >>> 6 &&& 0x03)) :: b64char z :: chars s

/-- The rest of the line, and the bytes written. -/
structure Encoder where
  lln : Nat
  p : Bytes

def addChar (lin : Nat) (s : Encoder) (c : UInt8) : Encoder :=
  let lln := if s.lln = 0 then 2 ^ 64 - 1 else s.lln - 1
  if lln = 0 then ⟨lin, s.p ++ [c, 13, 10]⟩ else ⟨lln, s.p ++ [c]⟩

/-- The size that is allocated, and the string that is written without the zero behind it. -/
structure Encoded where
  dst : Nat
  t : Bytes
  deriving DecidableEq

/-- `lin` is 0 where lines are not broken. -/
def lineLength (nLine : Int) : Nat :=
  let lin := unsigned 64 nLine
  if lin ≤ 2 then 0 else lin

theorem lineLength_lt (nLine : Int) : lineLength nLine < 2 ^ 64 := by
  have hlt := unsigned_lt 64 nLine
  unfold lineLength
  dsimp only
  split <;> omega

theorem lineLength_three (nLine : Int) : lineLength nLine = 0 ∨ 3 ≤ lineLength nLine := by
  unfold lineLength
  dsimp only
  split <;> omega

/-- A string overflow is none; the empty string has a byte of its own. -/
def HB_BASE64ENCODE (x : Bytes) (nLine : Int) : Option Encoded :=
  let len := x.length
  if 0 < len then
    let lin := lineLength nLine
    let dst := (4 * ((len + 2) % 2 ^ 64 / 3) + 1) % 2 ^ 64
    let dst := if lin = 0 then dst else (dst + (dst + lin - 1) % 2 ^ 64 / lin * 2) % 2 ^ 64
    if dst > len then
      let s := (chars x).foldl (addChar lin) ⟨lin, []⟩
      some ⟨dst, if lin ≠ 0 ∧ lin ≠ s.lln then s.p ++ [13, 10] else s.p⟩
    else none
  else some ⟨1, []⟩

def s_decoding : List Int :=
  [62, -1, -1, -1, 63, 52, 53, 54, 55, 56, 57, 58, 59, 60, 61, -1, -1, -1, -2, -1,
    -1, -1, 0, 1, 2, 3, 4, 5, 6, 7, 8, 9, 10, 11, 12, 13, 14, 15, 16, 17,
    18, 19, 20, 21, 22, 23, 24, 25, -1, -1, -1, -1, -1, -1, 26, 27, 28, 29, 30, 31,
    32, 33, 34, 35, 36, 37, 38, 39, 40, 41, 42, 43, 44, 45, 46, 47, 48, 49, 50, 51]

def base64_decode_value (c : UInt8) : Int :=
  let value_in := signed 8 c.toNat - 43
  if value_in < 0 ∨ 80 ≤ value_in then -1 else s_decoding.getD value_in.toNat 0

/-- Which of the four loops reads next, and the buffer with the place in it. -/
structure Decoder where
  loop : Nat
  pszPlainchar : Nat
  code : Bytes

def Decoder.put (s : Decoder) (f : UInt8 → UInt8) : Option Decoder :=
  if s.pszPlainchar < s.code.length then
    some { s with code := s.code.modify s.pszPlainchar f }
  else none

def decodeFragment (s : Decoder) (fragment : UInt8) : Option Decoder :=
  let next (s : Decoder) : Decoder := { s with pszPlainchar := s.pszPlainchar + 1 }
  match s.loop with
  | 0 => { s with loop := 1 }.put fun _ => (fragment &&& 0x3F) <<< 2
  | 1 => ({ s with loop := 2 }.put (· ||| (fragment &&& 0x30) >>> 4)).bind fun s =>
    (next s).put fun _ => (fragment &&& 0x0F) <<< 4
  | 2 => ({ s with loop := 3 }.put (· ||| (fragment &&& 0x3C) >>> 2)).bind fun s =>
    (next s).put fun _ => (fragment &&& 0x03) <<< 6
  | _ => ({ s with loop := 0 }.put (· ||| fragment &&& 0x3F)).map next

def decodeChar (s : Decoder) (c : UInt8) : Option Decoder :=
  let fragment := base64_decode_value c
  if fragment < 0 then some s else decodeFragment s (UInt8.ofNat fragment.toNat)

/-- The result, none where a byte is written outside of the buffer, the zero behind the result
included; `fresh` is what memory holds. -/
def HB_BASE64DECODE (fresh : Nat → UInt8) (text : Bytes) : Option Bytes :=
  let nSrcLen := text.length
  if 0 < nSrcLen then
    let nDstLen := nSrcLen * 3 % 2 ^ 64 / 4 + 1
    (text.foldlM decodeChar ⟨0, 0, (range nDstLen).map fresh⟩).bind fun s =>
      if s.pszPlainchar < s.code.length then some (s.code.take s.pszPlainchar) else none
  else some []

section Encoder

variable {lin width : Nat} (hwidth : width = if lin = 0 then 2 ^ 64 else lin) (hlin : lin < 2 ^ 64)

include hwidth hlin

theorem foldl_addChar (cs : Bytes) : ∃ q r, cs.length = width * q + r ∧ r < width ∧
    (cs.foldl (addChar lin) ⟨lin, []⟩).p.length = cs.length + 2 * q ∧
      (cs.foldl (addChar lin) ⟨lin, []⟩).lln = (width - r) % 2 ^ 64 := by
  have hle : width ≤ 2 ^ 64 ∧ width % 2 ^ 64 = lin ∧ 0 < width := by split at hwidth <;> omega
  obtain ⟨hle, hmod, hpos⟩ := hle
  induction cs using reverseRecOn with
  | nil => exact ⟨0, 0, by simp, hpos, rfl, hmod.symm⟩
  | append_singleton cs c ih =>
    obtain ⟨q, r, hlength, hr, hp, hlln⟩ := ih
    rw [foldl_append, foldl_cons, foldl_nil, length_append, length_singleton]
    have hless : (if (width - r) % 2 ^ 64 = 0 then 2 ^ 64 - 1 else (width - r) % 2 ^ 64 - 1) =
        width - (r + 1) := by
      split <;> omega
    rw [addChar, hlln, hless]
    split
    · refine ⟨q + 1, 0, ?_, hpos, ?_, hmod.symm⟩
      · rw [Nat.mul_succ]
        omega
      · simp only [length_append, length_cons, length_nil, hp]
        omega
    · have hlt : width - (r + 1) < 2 ^ 64 := by omega
      refine ⟨q, r + 1, by omega, by omega, ?_, (Nat.mod_eq_of_lt hlt).symm⟩
      simp only [length_append, length_cons, length_nil, hp]
      omega

end Encoder

theorem chars_length (x : Bytes) : (chars x).length = 4 * ((x.length + 2) / 3) := by
  fun_induction chars x with
  | case1 => rfl
  | case2 | case3 => simp
  | case4 x y z s ih =>
    simp only [length_cons, ih]
    omega

def Digit (c : UInt8) : Bool := decide (0 ≤ base64_decode_value c)

theorem filter_addChar (lin : Nat) (cs : Bytes) (s : Encoder) :
    (cs.foldl (addChar lin) s).p.filter Digit = s.p.filter Digit ++ cs.filter Digit := by
  induction cs generalizing s with
  | nil => simp
  | cons c cs ih =>
    have hone : (addChar lin s c).p.filter Digit = s.p.filter Digit ++ [c].filter Digit := by
      have hbreak : [13, 10].filter Digit = [] := by decide
      unfold addChar
      generalize (if s.lln = 0 then 2 ^ 64 - 1 else s.lln - 1) = lln
      dsimp only
      split
      · rw [← singleton_append, filter_append, filter_append, hbreak, append_nil]
      · rw [filter_append]
    rw [foldl_cons, ih, hone, append_assoc, ← filter_append, singleton_append]

theorem decode_filter (text : Bytes) (s : Decoder) :
    (text.filter Digit).foldlM decodeChar s = text.foldlM decodeChar s := by
  induction text generalizing s with
  | nil => rfl
  | cons c text ih =>
    rw [foldlM_cons]
    by_cases hdigit : Digit c
    · rw [filter_cons_of_pos hdigit, foldlM_cons]
      exact congrArg _ (funext ih)
    · have hnot : base64_decode_value c < 0 := by simpa [Digit] using hdigit
      rw [filter_cons_of_neg hdigit, ih, decodeChar, if_pos hnot]
      rfl

theorem value_b64char (c : UInt8) : base64_decode_value (b64char c) = (c &&& 0x3F).toNat := by
  have hall : ∀ n < 64, base64_decode_value (s_b64chars.getD n 0) = (n : Nat) := by decide
  refine hall _ ?_
  exact Nat.and_lt_two_pow _ (show (0x3F : UInt8).toNat < 2 ^ 6 by decide)

theorem first_byte (x y : UInt8) : (x >>> 2 &&& 0x3F &&& 0x3F) <<< 2 |||
    ((x <<< 4 ||| (y >>> 4 &&& 0x0F)) &&& 0x3F &&& 0x30) >>> 4 = x := by
  rw [← UInt8.toBitVec_inj]
  apply BitVec.eq_of_getLsbD_eq
  intro i hi
  interval_cases i <;> simp

theorem second_byte (x y z : UInt8) : ((x <<< 4 ||| (y >>> 4 &&& 0x0F)) &&& 0x3F &&& 0x0F) <<< 4 |||
    ((y <<< 2 ||| (z >>> 6 &&& 0x03)) &&& 0x3F &&& 0x3C) >>> 2 = y := by
  rw [← UInt8.toBitVec_inj]
  apply BitVec.eq_of_getLsbD_eq
  intro i hi
  interval_cases i <;> simp

theorem third_byte (y z : UInt8) : ((y <<< 2 ||| (z >>> 6 &&& 0x03)) &&& 0x3F &&& 0x03) <<< 6 |||
    z &&& 0x3F &&& 0x3F = z := by
  rw [← UInt8.toBitVec_inj]
  apply BitVec.eq_of_getLsbD_eq
  intro i hi
  interval_cases i <;> simp

theorem put_append {done rest : Bytes} {a : UInt8} {f : UInt8 → UInt8} {loop p : Nat}
    (hp : p = done.length) :
    Decoder.put ⟨loop, p, done ++ a :: rest⟩ f = some ⟨loop, p, done ++ f a :: rest⟩ := by
  have hmodify : (done ++ a :: rest).modify done.length f = done ++ f a :: rest := by
    clear hp
    induction done with
    | nil => rfl
    | cons d done ih => exact congrArg (d :: ·) ih
  rw [Decoder.put, hp, if_pos (by simp), hmodify]

section Groups

variable {done rest : Bytes} {p : Nat}

/-- The digits of a text; every other character is passed over. -/
def fragments (text : Bytes) : Bytes :=
  (text.filter Digit).map fun c => UInt8.ofNat (base64_decode_value c).toNat

/-- The bytes of digits in groups of four, of which the last may be short. -/
def decoded : Bytes → Bytes
  | a :: b :: c :: d :: ds =>
    ((a &&& 0x3F) <<< 2 ||| (b &&& 0x30) >>> 4) :: ((b &&& 0x0F) <<< 4 ||| (c &&& 0x3C) >>> 2) ::
      ((c &&& 0x03) <<< 6 ||| d &&& 0x3F) :: decoded ds
  | [a, b, c] =>
    [(a &&& 0x3F) <<< 2 ||| (b &&& 0x30) >>> 4, (b &&& 0x0F) <<< 4 ||| (c &&& 0x3C) >>> 2]
  | [a, b] => [(a &&& 0x3F) <<< 2 ||| (b &&& 0x30) >>> 4]
  | _ => []

theorem foldlM_fragments (text : Bytes) (s : Decoder) :
    text.foldlM decodeChar s = (fragments text).foldlM decodeFragment s := by
  rw [← decode_filter, fragments]
  have hdigits : ∀ c ∈ text.filter Digit, Digit c := fun c hc => (mem_filter.mp hc).2
  generalize text.filter Digit = digits at hdigits
  induction digits generalizing s with
  | nil => rfl
  | cons c digits ih =>
    obtain ⟨hc, hdigits⟩ := forall_mem_cons.mp hdigits
    have hvalue : ¬ base64_decode_value c < 0 := by simpa [Digit] using hc
    rw [map_cons, foldlM_cons, foldlM_cons, decodeChar, if_neg hvalue]
    exact congrArg _ (funext fun s => ih s hdigits)

variable (hp : p = done.length) (x y f : UInt8)

include hp

theorem fragment_first : decodeFragment ⟨0, p, done ++ x :: rest⟩ f =
    some ⟨1, p, done ++ (f &&& 0x3F) <<< 2 :: rest⟩ := put_append hp

theorem fragment_second : decodeFragment ⟨1, p, done ++ x :: y :: rest⟩ f =
    some ⟨2, p + 1, (done ++ [x ||| (f &&& 0x30) >>> 4]) ++ (f &&& 0x0F) <<< 4 :: rest⟩ := by
  have hnext : p + 1 = (done ++ [x ||| (f &&& 0x30) >>> 4]).length := by simp [hp]
  simp only [decodeFragment, put_append hp, Option.bind_some]
  rw [append_cons, put_append hnext]

theorem fragment_third : decodeFragment ⟨2, p, done ++ x :: y :: rest⟩ f =
    some ⟨3, p + 1, (done ++ [x ||| (f &&& 0x3C) >>> 2]) ++ (f &&& 0x03) <<< 6 :: rest⟩ := by
  have hnext : p + 1 = (done ++ [x ||| (f &&& 0x3C) >>> 2]).length := by simp [hp]
  simp only [decodeFragment, put_append hp, Option.bind_some]
  rw [append_cons, put_append hnext]

theorem fragment_fourth : decodeFragment ⟨3, p, done ++ x :: rest⟩ f =
    some ⟨0, p + 1, (done ++ [x ||| f &&& 0x3F]) ++ rest⟩ := by
  simp only [decodeFragment, put_append hp, Option.map_some]
  rw [append_cons]

theorem foldlM_decoded (ds rest : Bytes) (hroom : ds.length * 3 / 4 < rest.length) :
    ∃ loop rest', ds.foldlM decodeFragment ⟨0, p, done ++ rest⟩ =
      some ⟨loop, p + (decoded ds).length, done ++ decoded ds ++ rest'⟩ ∧ rest' ≠ [] := by
  have hcons (rest : Bytes) (h : 0 < rest.length) : ∃ x s, rest = x :: s :=
    exists_cons_of_length_pos h
  induction ds using decoded.induct generalizing done rest p with
  | case1 a b c d ds ih =>
    simp only [length_cons] at hroom
    obtain ⟨x, rest, rfl⟩ := hcons rest (by omega)
    obtain ⟨y, rest, rfl⟩ := hcons rest (by rw [length_cons] at hroom; omega)
    obtain ⟨z, rest, rfl⟩ := hcons rest (by simp only [length_cons] at hroom; omega)
    simp only [length_cons] at hroom
    simp only [foldlM_cons, fragment_first hp, Option.bind_eq_bind, Option.bind_some]
    rw [fragment_second hp, Option.bind_some, fragment_third (by simp [hp]), Option.bind_some,
      fragment_fourth (by simp [hp]), Option.bind_some]
    have hplace : p + 1 + 1 + 1 = (done ++ [(a &&& 0x3F) <<< 2 ||| (b &&& 0x30) >>> 4] ++
        [(b &&& 0x0F) <<< 4 ||| (c &&& 0x3C) >>> 2] ++
        [(c &&& 0x03) <<< 6 ||| d &&& 0x3F]).length := by
      simp [hp]
    obtain ⟨loop, rest', hfold, hne⟩ := ih hplace rest (by omega)
    refine ⟨loop, rest', ?_, hne⟩
    rw [hfold]
    have hlength : p + 1 + 1 + 1 + (decoded ds).length = p + ((decoded ds).length + 1 + 1 + 1) := by
      omega
    simp [decoded, hlength]
  | case2 a b c =>
    obtain ⟨x, rest, rfl⟩ := hcons rest (by omega)
    obtain ⟨y, rest, rfl⟩ := hcons rest (by rw [length_cons] at hroom; simp at hroom; omega)
    obtain ⟨z, rest, rfl⟩ := hcons rest (by simp only [length_cons] at hroom; simp at hroom; omega)
    simp only [foldlM_cons, fragment_first hp, Option.bind_eq_bind, Option.bind_some]
    rw [fragment_second hp, Option.bind_some, fragment_third (by simp [hp]), Option.bind_some]
    exact ⟨3, (c &&& 0x03) <<< 6 :: rest, by simp [decoded], cons_ne_nil _ _⟩
  | case3 a b =>
    obtain ⟨x, rest, rfl⟩ := hcons rest (by omega)
    obtain ⟨y, rest, rfl⟩ := hcons rest (by rw [length_cons] at hroom; simp at hroom; omega)
    simp only [foldlM_cons, fragment_first hp, Option.bind_eq_bind, Option.bind_some]
    rw [fragment_second hp, Option.bind_some]
    exact ⟨2, (b &&& 0x0F) <<< 4 :: rest, by simp [decoded], cons_ne_nil _ _⟩
  | case4 ds hfour hthree htwo =>
    obtain ⟨x, rest, rfl⟩ := hcons rest (by omega)
    rcases ds with _ | ⟨a, _ | ⟨b, ds⟩⟩
    · exact ⟨0, x :: rest, by simp [decoded], cons_ne_nil _ _⟩
    · simp only [foldlM_cons, fragment_first hp, Option.bind_eq_bind, Option.bind_some]
      exact ⟨1, (a &&& 0x3F) <<< 2 :: rest, by simp [decoded], cons_ne_nil _ _⟩
    · rcases ds with _ | ⟨c, _ | ⟨d, ds⟩⟩
      · exact absurd rfl (htwo a b)
      · exact absurd rfl (hthree a b c)
      · exact absurd rfl (hfour a b c d ds)

end Groups

theorem decoded_append (ds ds' : Bytes) (h : 4 ∣ ds.length) :
    decoded (ds ++ ds') = decoded ds ++ decoded ds' := by
  induction ds using decoded.induct with
  | case1 a b c d ds ih =>
    simp only [cons_append, decoded]
    rw [ih ((Nat.dvd_add_left (Nat.dvd_refl 4)).mp h)]
  | case2 a b c => simp at h
  | case3 a b => simp at h
  | case4 ds hfour hthree htwo =>
    rcases ds with _ | ⟨a, _ | ⟨b, _ | ⟨c, _ | ⟨d, ds⟩⟩⟩⟩
    · rfl
    · simp at h
    · exact absurd rfl (htwo a b)
    · exact absurd rfl (hthree a b c)
    · exact absurd rfl (hfour a b c d ds)

theorem decoded_length (ds : Bytes) : (decoded ds).length = ds.length * 3 / 4 := by
  fun_induction decoded ds with
  | case1 a b c d ds ih =>
    simp only [length_cons, ih]
    omega
  | case2 | case3 => simp
  | case4 ds hfour hthree htwo =>
    rcases ds with _ | ⟨a, _ | ⟨b, _ | ⟨c, _ | ⟨d, ds⟩⟩⟩⟩
    · rfl
    · simp
    · exact absurd rfl (htwo a b)
    · exact absurd rfl (hthree a b c)
    · exact absurd rfl (hfour a b c d ds)

/-- After `k` digits the place is that of the last of their bytes. -/
structure Place (size k : Nat) (s : Decoder) : Prop where
  loop : s.loop = k % 4
  place : s.pszPlainchar = k * 3 / 4
  size : s.code.length = size

theorem put_place {s s' : Decoder} {f : UInt8 → UInt8} (h : s.put f = some s') :
    s'.loop = s.loop ∧ s'.pszPlainchar = s.pszPlainchar ∧ s'.code.length = s.code.length := by
  obtain ⟨-, h⟩ := Option.ite_none_right_eq_some.mp h
  rw [← Option.some.inj h]
  exact ⟨rfl, rfl, length_modify ..⟩

theorem Place.next {size k : Nat} {s s' : Decoder} {fragment : UInt8} (h : Place size k s)
    (hnext : decodeFragment s fragment = some s') : Place size (k + 1) s' := by
  obtain ⟨loop, p, code⟩ := s
  obtain ⟨hloop, hp, hsize⟩ := h
  dsimp only at hloop hp hsize
  obtain hk | hk | hk | hk : k % 4 = 0 ∨ k % 4 = 1 ∨ k % 4 = 2 ∨ k % 4 = 3 := by omega
  all_goals
    rw [hk] at hloop
    subst hloop
    simp only [decodeFragment, Option.bind_eq_some_iff, Option.map_eq_some_iff] at hnext
  · obtain ⟨hl, hp', hs⟩ := put_place hnext
    dsimp only at hl hp' hs
    exact ⟨by omega, by omega, hs.trans hsize⟩
  · obtain ⟨t, ht, hnext⟩ := hnext
    obtain ⟨hl, hp', hs⟩ := put_place ht
    obtain ⟨hl', hp'', hs'⟩ := put_place hnext
    dsimp only at hl hp' hs hl' hp'' hs'
    exact ⟨by omega, by omega, hs'.trans (hs.trans hsize)⟩
  · obtain ⟨t, ht, hnext⟩ := hnext
    obtain ⟨hl, hp', hs⟩ := put_place ht
    obtain ⟨hl', hp'', hs'⟩ := put_place hnext
    dsimp only at hl hp' hs hl' hp'' hs'
    exact ⟨by omega, by omega, hs'.trans (hs.trans hsize)⟩
  · obtain ⟨t, ht, rfl⟩ := hnext
    obtain ⟨hl, hp', hs⟩ := put_place ht
    dsimp only at hl hp' hs
    exact ⟨by dsimp only; omega, by dsimp only; omega, hs.trans hsize⟩

theorem place_start (code : Bytes) : Place code.length 0 ⟨0, 0, code⟩ := ⟨rfl, rfl, rfl⟩

theorem Place.fold {size : Nat} (ds : Bytes) {k : Nat} {s s' : Decoder} (h : Place size k s)
    (hfold : ds.foldlM decodeFragment s = some s') : Place size (k + ds.length) s' := by
  induction ds generalizing k s with
  | nil =>
    cases hfold
    exact h
  | cons d ds ih =>
    rw [foldlM_cons] at hfold
    obtain ⟨t, ht, hfold⟩ := Option.bind_eq_some_iff.mp hfold
    rw [length_cons, Nat.add_comm ds.length, ← Nat.add_assoc]
    exact ih (h.next ht) hfold

/-- The bytes of the digits have room in what three quarters of the length are in 64 bits. -/
def Fits (text : Bytes) : Prop :=
  (fragments text).length * 3 / 4 ≤ text.length * 3 % 2 ^ 64 / 4

theorem fits_of_lt {text : Bytes} (h : text.length * 3 < 2 ^ 64) : Fits text := by
  have hfewer : (fragments text).length ≤ text.length := by
    rw [fragments, length_map]
    exact length_filter_le _ _
  unfold Fits
  rw [Nat.mod_eq_of_lt h]
  omega

theorem decode_of_fits (fresh : Nat → UInt8) {text : Bytes} (h : Fits text) :
    HB_BASE64DECODE fresh text = some (decoded (fragments text)) := by
  unfold HB_BASE64DECODE
  dsimp only
  split
  case isTrue =>
    have hstart : 0 = ([] : Bytes).length := rfl
    have hroom : (fragments text).length * 3 / 4 <
        ((range (text.length * 3 % 2 ^ 64 / 4 + 1)).map fresh).length := by
      rw [length_map, length_range]
      exact Nat.lt_succ_of_le h
    obtain ⟨loop, rest', hfold, hne⟩ := foldlM_decoded hstart (fragments text) _ hroom
    have hrest := length_pos_of_ne_nil hne
    rw [nil_append] at hfold
    rw [foldlM_fragments, hfold, Option.bind_some, if_pos (by simp; omega)]
    simp
  case isFalse hnone =>
    rw [length_eq_zero_iff.mp (Nat.eq_zero_of_not_pos hnone)]
    rfl

theorem fits_of_decode {fresh : Nat → UInt8} {text x : Bytes}
    (h : HB_BASE64DECODE fresh text = some x) : Fits text := by
  unfold HB_BASE64DECODE at h
  dsimp only at h
  split at h
  case isTrue =>
    obtain ⟨s, hfold, hfinal⟩ := Option.bind_eq_some_iff.mp h
    obtain ⟨hlt, -⟩ := Option.ite_none_right_eq_some.mp hfinal
    rw [foldlM_fragments] at hfold
    obtain ⟨-, hplace, hsize⟩ := Place.fold (fragments text) (place_start _) hfold
    rw [length_map, length_range] at hsize
    unfold Fits
    omega
  case isFalse hnone =>
    rw [length_eq_zero_iff.mp (Nat.eq_zero_of_not_pos hnone)]
    exact Nat.le_refl 0

theorem fragments_b64char (c : UInt8) (cs : Bytes) :
    fragments (b64char c :: cs) = (c &&& 0x3F) :: fragments cs := by
  have hdigit : Digit (b64char c) = true := by
    rw [Digit, value_b64char]
    exact decide_eq_true (Int.natCast_nonneg _)
  unfold fragments
  rw [filter_cons_of_pos hdigit, map_cons, value_b64char, Int.toNat_natCast, UInt8.ofNat_toNat]

theorem decoded_chars (x : Bytes) : decoded (fragments (chars x)) = x := by
  have hpad : ∀ cs, fragments (61 :: cs) = fragments cs := fun cs => rfl
  have hshift (x : UInt8) : x <<< 4 = x <<< 4 ||| ((0 : UInt8) >>> 4 &&& 0x0F) := by simp
  have hshift' (y : UInt8) : y <<< 2 = y <<< 2 ||| ((0 : UInt8) >>> 6 &&& 0x03) := by simp
  fun_induction chars x with
  | case1 => rfl
  | case2 x =>
    rw [hshift]
    simp only [fragments_b64char, hpad]
    exact congrArg (· :: []) (first_byte x 0)
  | case3 x y =>
    rw [hshift']
    simp only [fragments_b64char, hpad]
    exact congrArg₂ (· :: [·]) (first_byte x y) (second_byte x y 0)
  | case4 x y z s ih =>
    simp only [fragments_b64char]
    rw [decoded, ih]
    rw [first_byte, second_byte, third_byte]

/-- What the encoder does with a text and a line length is right. -/
def RoundTrips (x : Bytes) (nLine : Int) : Prop :=
  ∃ e, HB_BASE64ENCODE x nLine = some e ∧ e.t.length < e.dst ∧
    ∀ fresh, HB_BASE64DECODE fresh e.t = some x

/-- The sums that the size is computed from fit in 64 bits. -/
def EncodeFits (x : Bytes) (nLine : Int) : Prop :=
  let lin := lineLength nLine
  let n := 4 * ((x.length + 2) / 3)
  x = [] ∨ n + 1 < 2 ^ 64 ∧ (lin = 0 ∨ n + lin < 2 ^ 64 ∧ n + 1 + (n + lin) / lin * 2 < 2 ^ 64)

/-- The characters of an encoded text, with those that end its lines. -/
def textLength (x : Bytes) (nLine : Int) : Nat :=
  let lin := lineLength nLine
  let n := 4 * ((x.length + 2) / 3)
  if lin = 0 then n else n + (n + lin - 1) / lin * 2

/-- Three quarters of the encoded text, as they are computed in 64 bits, are as long as the text. -/
def Sized (x : Bytes) (nLine : Int) : Prop :=
  EncodeFits x nLine ∧ (x = [] ∨ x.length ≤ textLength x nLine * 3 % 2 ^ 64 / 4)

instance (x : Bytes) (nLine : Int) : Decidable (Sized x nLine) :=
  inferInstanceAs (Decidable ((_ ∨ _ ∧ (_ ∨ _ ∧ _)) ∧ (_ ∨ _)))

/-- A size that does not fit in 64 bits is found to be too small. -/
theorem wrapped_size {len lin : Nat} (hlen : len < 2 ^ 64) (hlin : lin = 0 ∨ 3 ≤ lin)
    (hover : ¬ 4 * ((len + 2) / 3) + 1 < 2 ^ 64) {dst : Nat}
    (hdst : (4 * ((len + 2) % 2 ^ 64 / 3) + 1) % 2 ^ 64 = dst) :
    (if lin = 0 then dst else (dst + (dst + lin - 1) % 2 ^ 64 / lin * 2) % 2 ^ 64) ≤ len := by
  have hsmall : 5 * dst + 6 ≤ 3 * len := by
    rcases Nat.lt_or_ge (len + 2) (2 ^ 64) with hsum | hsum
    · rw [Nat.mod_eq_of_lt hsum] at hdst
      omega
    · have hnone : (len + 2) % 2 ^ 64 / 3 = 0 := by omega
      rw [hnone] at hdst
      omega
  split
  · omega
  · have hthree : 3 ≤ lin := by omega
    have hle := Nat.div_mul_le_self ((dst + lin - 1) % 2 ^ 64) lin
    have hmod := Nat.mod_le (dst + (dst + lin - 1) % 2 ^ 64 / lin * 2) (2 ^ 64)
    have hlt : (dst + lin - 1) % 2 ^ 64 ≤ dst + lin - 1 := Nat.mod_le _ _
    generalize (dst + lin - 1) % 2 ^ 64 / lin = lines at *
    cases lines with
    | zero => omega
    | succ lines =>
      have hmul := Nat.mul_le_mul_left lines hthree
      rw [Nat.succ_mul] at hle
      omega

theorem encode_fits_iff {x : Bytes} (hlength : x.length < 2 ^ 64) (nLine : Int) :
    (∃ e, HB_BASE64ENCODE x nLine = some e ∧ e.t.length < e.dst) ↔ EncodeFits x nLine := by
  unfold HB_BASE64ENCODE EncodeFits
  dsimp only
  rcases Nat.eq_zero_or_pos x.length with hzero | hpos
  · simp [length_eq_zero_iff.mp hzero]
  rw [if_pos hpos]
  have hlin := lineLength_lt nLine
  have hthree := lineLength_three nLine
  generalize lineLength nLine = lin at *
  obtain ⟨q, r, hsplit, hr, hp, hlln⟩ := foldl_addChar rfl hlin (chars x)
  generalize (chars x).foldl (addChar lin) ⟨lin, []⟩ = s at *
  rw [chars_length] at hsplit hp
  have hx : x ≠ [] := ne_nil_of_length_pos hpos
  simp only [hx, false_or, Option.ite_none_right_eq_some]
  by_cases hover : 4 * ((x.length + 2) / 3) + 1 < 2 ^ 64
  swap
  · refine iff_of_false ?_ fun h => hover h.1
    rintro ⟨e, ⟨hgt, -⟩, -⟩
    exact absurd (wrapped_size hlength hthree hover rfl) (Nat.not_le.mpr hgt)
  have hdst : (4 * ((x.length + 2) % 2 ^ 64 / 3) + 1) % 2 ^ 64 = 4 * ((x.length + 2) / 3) + 1 := by
    rw [Nat.mod_eq_of_lt (by omega : x.length + 2 < 2 ^ 64), Nat.mod_eq_of_lt hover]
  rw [and_iff_right hover, hdst]
  rcases hthree with rfl | hthree
  · have hq : q = 0 := by
      rw [if_pos rfl] at hsplit
      omega
    refine iff_of_true ⟨_, ⟨?_, rfl⟩, ?_⟩ (.inl rfl) <;> simp only [ne_eq, not_true_eq_false,
      false_and, if_true, if_false] <;> omega
  · have hne : lin ≠ 0 := by omega
    simp only [if_neg hne] at hsplit hr hlln
    have hlast : (lin ≠ 0 ∧ lin ≠ s.lln) ↔ r ≠ 0 := by
      omega
    have hlines : (4 * ((x.length + 2) / 3) + lin) / lin = q + 1 := by
      rw [hsplit, show lin * q + r + lin = r + lin * (q + 1) by rw [Nat.mul_succ]; omega,
        Nat.add_mul_div_left _ _ (by omega), Nat.div_eq_of_lt hr, Nat.zero_add]
    have hsum : 4 * ((x.length + 2) / 3) + 1 + lin - 1 = 4 * ((x.length + 2) / 3) + lin := by omega
    rw [if_neg hne, hsum]
    simp only [hlast, hne, false_or, Option.some.injEq, and_assoc, exists_and_left, exists_eq_left',
      apply_ite length, length_append, length_cons, length_nil, hp]
    rcases Nat.lt_or_ge (4 * ((x.length + 2) / 3) + lin) (2 ^ 64) with hlt | hge
    · rw [Nat.mod_eq_of_lt hlt, hlines]
      split <;> omega
    · have hwrapped : (4 * ((x.length + 2) / 3) + lin) % 2 ^ 64 / lin = 0 :=
        Nat.div_eq_of_lt (by omega)
      have hnone : q = 0 → lin * q = 0 := fun hq => by rw [hq, Nat.mul_zero]
      split <;> omega

theorem encode_spec {x : Bytes} {nLine : Int} {e : Encoded} (hx : x ≠ [])
    (hsize : 4 * ((x.length + 2) / 3) + 1 < 2 ^ 64) (h : HB_BASE64ENCODE x nLine = some e) :
    fragments e.t = fragments (chars x) ∧ e.t.length = textLength x nLine := by
  unfold HB_BASE64ENCODE at h
  dsimp only at h
  rw [if_pos (length_pos_of_ne_nil hx)] at h
  obtain ⟨-, h⟩ := Option.ite_none_right_eq_some.mp h
  have hlin := lineLength_lt nLine
  have hthree := lineLength_three nLine
  have hfilter := filter_addChar (lineLength nLine) (chars x) ⟨lineLength nLine, []⟩
  unfold textLength
  dsimp only
  generalize lineLength nLine = lin at *
  obtain ⟨q, r, hsplit, hr, hp, hlln⟩ := foldl_addChar rfl hlin (chars x)
  generalize (chars x).foldl (addChar lin) ⟨lin, []⟩ = s at *
  rw [chars_length] at hsplit hp
  obtain rfl := Option.some.inj h
  dsimp only
  constructor
  · unfold fragments
    split
    · rw [filter_append, hfilter]
      simp [show [13, 10].filter Digit = [] by decide]
    · rw [hfilter]
      rfl
  · rcases hthree with rfl | hthree
    · have hq : q = 0 := by
        rw [if_pos rfl] at hsplit
        omega
      simp [hp, hq]
    · have hne : lin ≠ 0 := by omega
      simp only [if_neg hne] at hsplit hr hlln
      have hlast : (lin ≠ 0 ∧ lin ≠ s.lln) ↔ r ≠ 0 := by
        omega
      have hsum : 4 * ((x.length + 2) / 3) + lin - 1 = r + lin - 1 + lin * q := by omega
      rw [if_neg hne, hsum, Nat.add_mul_div_left _ _ (by omega)]
      simp only [hlast, apply_ite length, length_append, length_cons, length_nil, hp]
      split
      · have hone : (r + lin - 1) / lin = 1 := Nat.div_eq_of_lt_le (by omega) (by omega)
        omega
      · have hnone : (r + lin - 1) / lin = 0 := Nat.div_eq_of_lt (by omega)
        omega

theorem returns_iff_sized {x : Bytes} (hlength : x.length < 2 ^ 64) (nLine : Int) :
    RoundTrips x nLine ↔ Sized x nLine := by
  unfold Sized
  rw [← encode_fits_iff hlength]
  rcases eq_or_ne x [] with rfl | hx
  · exact iff_of_true ⟨⟨1, []⟩, rfl, by decide, fun _ => rfl⟩
      ⟨⟨⟨1, []⟩, rfl, by decide⟩, .inl rfl⟩
  have hbytes : (fragments (chars x)).length * 3 / 4 = x.length := by
    rw [← decoded_length, decoded_chars]
  have hfits (e : Encoded) (he : HB_BASE64ENCODE x nLine = some e) (hlt : e.t.length < e.dst) :
      Fits e.t ↔ x.length ≤ textLength x nLine * 3 % 2 ^ 64 / 4 := by
    have hsize := ((encode_fits_iff hlength nLine).mp ⟨e, he, hlt⟩).resolve_left hx
    obtain ⟨hfragments, htext⟩ := encode_spec hx hsize.1 he
    rw [Fits, hfragments, hbytes, htext]
  constructor
  · rintro ⟨e, he, hlt, hdecode⟩
    exact ⟨⟨e, he, hlt⟩, .inr ((hfits e he hlt).mp (fits_of_decode (hdecode fun _ => 0)))⟩
  · rintro ⟨⟨e, he, hlt⟩, hlong⟩
    have hsize := ((encode_fits_iff hlength nLine).mp ⟨e, he, hlt⟩).resolve_left hx
    have hfit := (hfits e he hlt).mpr (hlong.resolve_left hx)
    refine ⟨e, he, hlt, fun fresh => ?_⟩
    rw [decode_of_fits fresh hfit, (encode_spec hx hsize.1 he).1, decoded_chars]

/-- Encoding with lines and decoding stay in their buffers and give the text back if and only if the
sizes of both are computed without an overflow that matters; so does decoding any text. -/
theorem base64_roundTrips_iff {x : Bytes} (hlength : x.length < 2 ^ 64) (nLine : Int) :
    (RoundTrips x nLine ↔ Sized x nLine) ∧
      ∀ fresh text, (∃ y, HB_BASE64DECODE fresh text = some y) ↔ Fits text :=
  ⟨returns_iff_sized hlength nLine, fun fresh _ =>
    ⟨fun ⟨_, h⟩ => fits_of_decode h, fun h => ⟨_, decode_of_fits fresh h⟩⟩⟩

/-- Two lines with their ends, the second one short; and a line length that is negative. -/
theorem base64_roundTrips_lines :
    RoundTrips (replicate 60 77) 76 ∧ ¬ RoundTrips (replicate 60 77) (-1) ∧
      textLength (replicate 60 77) 76 = 84 := by
  have hiff := fun nLine => (base64_roundTrips_iff
    (show (replicate 60 (77 : UInt8)).length < 2 ^ 64 by decide) nLine).1
  exact ⟨(hiff 76).mpr (by decide), (hiff (-1)).not.mpr (by decide), by decide⟩

/-- A negative line length is a great one, and the bytes of a line end are not allocated. -/
theorem negative_line_overruns : ¬ RoundTrips [77] (-1) := by
  rintro ⟨e, he, hfits, -⟩
  have hencoded : HB_BASE64ENCODE [77] (-1) = some ⟨5, [84, 81, 61, 61, 13, 10]⟩ := by decide
  obtain rfl := Option.some.inj (hencoded.symm.trans he)
  exact absurd hfits (by decide)

/-- Decoding passes over what is no digit and gives the bytes of the digits, whatever memory holds,
and texts of whole groups one after the other. -/
theorem base64_decodes (fresh : Nat → UInt8) {text : Bytes} (h : text.length * 3 < 2 ^ 64) :
    HB_BASE64DECODE fresh text = some (decoded (fragments text)) ∧
      ∀ text', 4 ∣ (fragments text).length → (text ++ text').length * 3 < 2 ^ 64 →
        HB_BASE64DECODE fresh (text ++ text') =
          some (decoded (fragments text) ++ decoded (fragments text')) := by
  refine ⟨decode_of_fits fresh (fits_of_lt h), fun text' hgroups hboth => ?_⟩
  rw [decode_of_fits fresh (fits_of_lt hboth), fragments, filter_append, map_append]
  exact congrArg some (decoded_append _ _ hgroups)

theorem base64_decodes_groups :
    HB_BASE64DECODE (fun _ => 0) ([65, 66, 10, 67, 68] ++ [61, 65, 66]) =
      some (decoded [0, 1, 2, 3] ++ decoded [0, 1]) :=
  (base64_decodes _ (by decide)).2 [61, 65, 66] (by decide) (by decide)

end Harbour.Rtl.Base64
