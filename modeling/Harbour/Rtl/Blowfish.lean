import Harbour.Library.Bytes

/-!
The Blowfish cipher of `hbbfish.c` and the functions of `hbbffnc.c`.
-/

namespace Harbour.Rtl.Blowfish

open List

abbrev HB_U32 := BitVec 32

structure HB_BLOWFISH where
  P : Fin 18 → HB_U32
  S1 : BitVec 8 → HB_U32
  S2 : BitVec 8 → HB_U32
  S3 : BitVec 8 → HB_U32
  S4 : BitVec 8 → HB_U32

namespace HB_BLOWFISH

variable (bf : HB_BLOWFISH)

def F (x : HB_U32) : HB_U32 :=
  ((bf.S1 (x.extractLsb' 24 8) + bf.S2 (x.extractLsb' 16 8)) ^^^ bf.S3 (x.extractLsb' 8 8)) +
    bf.S4 (x.extractLsb' 0 8)

def R (x : HB_U32) (n : Fin 18) : HB_U32 := bf.F x ^^^ bf.P n

def rounds (x : HB_U32 × HB_U32) (keys : Fin 18 × Fin 18) : HB_U32 × HB_U32 :=
  let xR := x.2 ^^^ bf.R x.1 keys.1
  (x.1 ^^^ bf.R xR keys.2, xR)

def encryptKeys : List (Fin 18 × Fin 18) :=
  [(1, 2), (3, 4), (5, 6), (7, 8), (9, 10), (11, 12), (13, 14), (15, 16)]

def decryptKeys : List (Fin 18 × Fin 18) :=
  [(16, 15), (14, 13), (12, 11), (10, 9), (8, 7), (6, 5), (4, 3), (2, 1)]

def hb_blowfishEncrypt (xl xr : HB_U32) : HB_U32 × HB_U32 :=
  let x := encryptKeys.foldl bf.rounds (xl ^^^ bf.P 0, xr)
  (x.2 ^^^ bf.P 17, x.1)

def hb_blowfishDecrypt (xl xr : HB_U32) : HB_U32 × HB_U32 :=
  let x := decryptKeys.foldl bf.rounds (xl ^^^ bf.P 17, xr)
  (x.2 ^^^ bf.P 0, x.1)

theorem rounds_swap (x : HB_U32 × HB_U32) (keys : Fin 18 × Fin 18) :
    bf.rounds (bf.rounds x keys).swap keys.swap = x.swap := by
  obtain ⟨xl, xr⟩ := x
  simp [rounds, BitVec.xor_assoc]

theorem foldl_swap (keys : List (Fin 18 × Fin 18)) (x : HB_U32 × HB_U32) :
    (keys.reverse.map Prod.swap).foldl bf.rounds (keys.foldl bf.rounds x).swap = x.swap := by
  induction keys generalizing x with
  | nil => rfl
  | cons k keys ih =>
    rw [reverse_cons, map_append, foldl_append, foldl_cons, ih]
    exact bf.rounds_swap x k

theorem hb_blowfishDecrypt_encrypt (xl xr : HB_U32) :
    bf.hb_blowfishDecrypt (bf.hb_blowfishEncrypt xl xr).1 (bf.hb_blowfishEncrypt xl xr).2 =
      (xl, xr) := by
  have hkeys : decryptKeys = encryptKeys.reverse.map Prod.swap := rfl
  have hundone := bf.foldl_swap encryptKeys (xl ^^^ bf.P 0, xr)
  unfold hb_blowfishDecrypt hb_blowfishEncrypt
  dsimp only
  rw [BitVec.xor_assoc, BitVec.xor_self, BitVec.xor_zero, hkeys]
  change foldl bf.rounds (_, _) _ = (_, _) at hundone
  rw [hundone, BitVec.xor_assoc, BitVec.xor_self, BitVec.xor_zero]

end HB_BLOWFISH

def HB_GET_BE_UINT32 (b₀ b₁ b₂ b₃ : UInt8) : HB_U32 :=
  b₀.toBitVec ++ b₁.toBitVec ++ b₂.toBitVec ++ b₃.toBitVec

def HB_PUT_BE_UINT32 (x : HB_U32) : Bytes :=
  [24, 16, 8, 0].map fun i => UInt8.ofBitVec (x.extractLsb' i 8)

def codeBlocks (code : HB_U32 → HB_U32 → HB_U32 × HB_U32) : Bytes → Bytes
  | b₀ :: b₁ :: b₂ :: b₃ :: b₄ :: b₅ :: b₆ :: b₇ :: rest =>
    let x := code (HB_GET_BE_UINT32 b₀ b₁ b₂ b₃) (HB_GET_BE_UINT32 b₄ b₅ b₆ b₇)
    HB_PUT_BE_UINT32 x.1 ++ HB_PUT_BE_UINT32 x.2 ++ codeBlocks code rest
  | rest => rest

variable (bf : HB_BLOWFISH)

/-- The result of a function that returns NIL is none. -/
def HB_BLOWFISHENCRYPT (pData : Bytes) (fRaw : Bool) : Option Bytes :=
  let nLen := pData.length
  if nLen = 0 then some []
  else
    let nSize := (if fRaw then (nLen + 7) / 8 else nLen / 8 + 1) * 8
    let pszData := pData ++ replicate (nSize - nLen) 0
    some (codeBlocks bf.hb_blowfishEncrypt
      (if fRaw then pszData else pszData.set (nSize - 1) (UInt8.ofNat (nSize - nLen))))

def HB_BLOWFISHDECRYPT (pData : Bytes) (fRaw : Bool) : Option Bytes :=
  let nSize := pData.length
  if 8 ≤ nSize ∧ nSize % 8 = 0 then
    let pszData := codeBlocks bf.hb_blowfishDecrypt pData
    let nPad := (pszData.getD (nSize - 1) 0).toNat
    let nLen :=
      if fRaw then nSize
      else nSize - if (BitVec.ofNat 64 nPad - 1) &&& ~~~7 = 0 then nPad else nSize
    if nLen ≠ 0 then some (pszData.take nLen) else none
  else if nSize = 0 then some [] else none

/-- `hb_bf_initvect`, the length of the seed being cast to `int`. -/
def hb_bf_initvect (pszVect : Bytes) : Bytes :=
  let iLen := Library.Bytes.signed 32 (pszVect.length % 2 ^ 32)
  (range 8).map fun i =>
    if 0 < iLen then UInt8.ofNat i ^^^ pszVect.getD (i % iLen.toNat) 0 else UInt8.ofNat i

def hb_bf_encode (vect : Bytes) : Bytes := codeBlocks bf.hb_blowfishEncrypt vect

/-- The loop of a CFB function from `n` on; `feedback` of a byte read and the one written stays in
the vector. -/
def cfbLoop (feedback : UInt8 → UInt8 → UInt8) : (n : Nat) → (vect pszSource : Bytes) → Bytes
  | _, _, [] => []
  | n, vect, c :: pszSource =>
    let i := n % 8
    let vect := if i = 0 then hb_bf_encode bf vect else vect
    let x := vect.getD i 0 ^^^ c
    x :: cfbLoop feedback (n + 1) (vect.set i (feedback c x)) pszSource

def HB_BLOWFISHENCRYPT_CFB (pData pszVect : Bytes) : Bytes :=
  cfbLoop bf (fun _ x => x) 0 (hb_bf_initvect pszVect) pData

def HB_BLOWFISHDECRYPT_CFB (pData pszVect : Bytes) : Bytes :=
  cfbLoop bf (fun c _ => c) 0 (hb_bf_initvect pszVect) pData

theorem get_put (x : HB_U32) : ∃ b₀ b₁ b₂ b₃, HB_PUT_BE_UINT32 x = [b₀, b₁, b₂, b₃] ∧
    HB_GET_BE_UINT32 b₀ b₁ b₂ b₃ = x := by
  refine ⟨_, _, _, _, rfl, ?_⟩
  unfold HB_GET_BE_UINT32
  apply BitVec.eq_of_getLsbD_eq
  intro i hi
  simp only [BitVec.getLsbD_append, BitVec.getLsbD_extractLsb']
  grind

theorem put_get (b₀ b₁ b₂ b₃ : UInt8) :
    HB_PUT_BE_UINT32 (HB_GET_BE_UINT32 b₀ b₁ b₂ b₃) = [b₀, b₁, b₂, b₃] := by
  unfold HB_PUT_BE_UINT32 HB_GET_BE_UINT32
  simp only [map_cons, map_nil, cons.injEq, ← UInt8.toBitVec_inj, and_true]
  refine ⟨?_, ?_, ?_, ?_⟩ <;>
  · apply BitVec.eq_of_getLsbD_eq
    intro i hi
    simp only [BitVec.getLsbD_append, BitVec.getLsbD_extractLsb']
    grind

variable {bf}

theorem codeBlocks_undone (data : Bytes) :
    codeBlocks bf.hb_blowfishDecrypt (codeBlocks bf.hb_blowfishEncrypt data) = data := by
  fun_induction codeBlocks bf.hb_blowfishEncrypt data with
  | case1 b₀ b₁ b₂ b₃ b₄ b₅ b₆ b₇ rest x ih =>
    have hx := bf.hb_blowfishDecrypt_encrypt (HB_GET_BE_UINT32 b₀ b₁ b₂ b₃)
      (HB_GET_BE_UINT32 b₄ b₅ b₆ b₇)
    obtain ⟨c₀, c₁, c₂, c₃, hput, hget⟩ := get_put x.1
    obtain ⟨d₀, d₁, d₂, d₃, hput', hget'⟩ := get_put x.2
    rw [hput, hput']
    simp only [cons_append, nil_append, codeBlocks, hget, hget', ih]
    simp only [x, hx, put_get, cons_append, nil_append]
  | case2 data hshort => exact codeBlocks.eq_2 _ _ hshort

theorem codeBlocks_length (code : HB_U32 → HB_U32 → HB_U32 × HB_U32) (data : Bytes) :
    (codeBlocks code data).length = data.length := by
  fun_induction codeBlocks code data with
  | case1 b₀ b₁ b₂ b₃ b₄ b₅ b₆ b₇ rest x ih => simp [HB_PUT_BE_UINT32, ih]
  | case2 data hshort => rfl

theorem decrypt_encrypt (text : Bytes) : ∃ cipher,
    HB_BLOWFISHENCRYPT bf text false = some cipher ∧
      HB_BLOWFISHDECRYPT bf cipher false = some text := by
  rcases eq_or_ne text [] with rfl | htext
  · exact ⟨[], rfl, rfl⟩
  have hpos := length_pos_of_ne_nil htext
  refine ⟨_, if_neg (by omega), ?_⟩
  generalize hpad : (text.length / 8 + 1) * 8 - text.length = nPad
  have hbounds : 1 ≤ nPad ∧ nPad ≤ 8 := by omega
  have haccepted : (BitVec.ofNat 64 nPad - 1) &&& ~~~7 = 0 := by
    obtain ⟨hlow, hhigh⟩ := hbounds
    rcases nPad with _ | _ | _ | _ | _ | _ | _ | _ | _ | n <;> first | decide | omega
  have hlast : ((text ++ replicate nPad 0).set (text.length + nPad - 1) (UInt8.ofNat nPad)).getD
      (text.length + nPad - 1) 0 = UInt8.ofNat nPad := by grind
  have hcount : (UInt8.ofNat nPad).toNat = nPad :=
    UInt8.toNat_ofNat_of_lt' (hbounds.2.trans_lt (by decide))
  have htake : ((text ++ replicate nPad 0).set (text.length + nPad - 1)
      (UInt8.ofNat nPad)).take text.length = text := by
    rw [set_append_right _ _ (by omega), take_left]
  simp only [HB_BLOWFISHDECRYPT, Bool.false_eq_true, if_false, codeBlocks_undone,
    codeBlocks_length, length_set, length_append, length_replicate, hpad]
  rw [show (text.length / 8 + 1) * 8 = text.length + nPad by omega, hlast, hcount, if_pos haccepted,
    if_pos (by omega), Nat.add_sub_cancel, if_pos (by omega), htake]

theorem cfbLoop_undone (n : Nat) (vect text : Bytes) :
    cfbLoop bf (fun c _ => c) n vect (cfbLoop bf (fun _ x => x) n vect text) = text := by
  induction text generalizing n vect with
  | nil => rfl
  | cons c text ih =>
    simp only [cfbLoop, ih]
    rw [← UInt8.xor_assoc, UInt8.xor_self, UInt8.zero_xor]

/-- Decryption undoes encryption: of a block, of a padded text and in the CFB mode. -/
theorem blowfish_inverts (bf : HB_BLOWFISH) :
    (∀ L R : HB_U32, bf.hb_blowfishDecrypt (bf.hb_blowfishEncrypt L R).1
      (bf.hb_blowfishEncrypt L R).2 = (L, R)) ∧
    (∀ text : Bytes, ∃ cipher, HB_BLOWFISHENCRYPT bf text false = some cipher ∧
      HB_BLOWFISHDECRYPT bf cipher false = some text) ∧
    ∀ text seed : Bytes,
      HB_BLOWFISHDECRYPT_CFB bf (HB_BLOWFISHENCRYPT_CFB bf text seed) seed = text := by
  refine ⟨bf.hb_blowfishDecrypt_encrypt, decrypt_encrypt, fun text seed => ?_⟩
  exact cfbLoop_undone _ _ _

section Streams

variable {bf : HB_BLOWFISH} {feedback : UInt8 → UInt8 → UInt8} {n : Nat} {vect vect' : Bytes}

theorem cfbLoop_take (n : Nat) (vect text rest : Bytes) :
    (cfbLoop bf feedback n vect (text ++ rest)).take text.length =
      cfbLoop bf feedback n vect text := by
  induction text generalizing n vect with
  | nil => rfl
  | cons c text ih =>
    simp only [cons_append, cfbLoop, length_cons, take_succ_cons, ih]

/-- With `j` bytes left in a block, vectors that agree on the bytes before are the same after it. -/
theorem cfbLoop_block (j : Nat) (hj : j ≤ 8) (hblock : (n + j) % 8 = 0) (hlength : vect.length = 8)
    (hlength' : vect'.length = 8) (hagree : ∀ i < 8 - j, vect[i]? = vect'[i]?) (cipher : Bytes) :
    (cfbLoop bf (fun c _ => c) n vect cipher).drop j =
      (cfbLoop bf (fun c _ => c) n vect' cipher).drop j := by
  induction j generalizing n vect vect' cipher with
  | zero =>
    obtain rfl : vect = vect' := ext_getElem? fun i => by
      rcases Nat.lt_or_ge i 8 with hi | hi
      · exact hagree i hi
      · rw [getElem?_eq_none (by omega), getElem?_eq_none (by omega)]
    rfl
  | succ j ih =>
    cases cipher with
    | nil => rfl
    | cons c cipher =>
      have hi : n % 8 = 8 - (j + 1) := by omega
      simp only [cfbLoop, drop_succ_cons, hi]
      refine ih (by omega) (by omega) ?_ ?_ ?_ cipher
      · split <;> simp [hb_bf_encode, codeBlocks_length, hlength]
      · split <;> simp [hb_bf_encode, codeBlocks_length, hlength']
      · intro i hlt
        split
        case isTrue hzero =>
          obtain rfl : i = 0 := by omega
          simp [hzero, hb_bf_encode, codeBlocks_length, hlength, hlength']
        case isFalse =>
          rw [getElem?_set, getElem?_set, hlength, hlength']
          split
          · rfl
          · exact hagree i (by omega)

theorem cfbLoop_damaged (cipher damaged rest : Bytes) (hsame : cipher.length = damaged.length)
    (hblock : (n + cipher.length) % 8 = 0) (hlength : vect.length = 8)
    (hlength' : vect'.length = 8) :
    (cfbLoop bf (fun c _ => c) n vect (cipher ++ rest)).drop (cipher.length + 8) =
      (cfbLoop bf (fun c _ => c) n vect' (damaged ++ rest)).drop (cipher.length + 8) := by
  induction cipher generalizing n vect vect' damaged with
  | nil =>
    obtain rfl := length_eq_zero_iff.mp hsame.symm
    rw [length_nil] at hblock ⊢
    rw [Nat.zero_add]
    exact cfbLoop_block 8 (le_refl 8) (by omega) hlength hlength' (by simp) rest
  | cons c cipher ih =>
    obtain ⟨d, damaged, rfl⟩ := exists_cons_of_length_eq_add_one hsame.symm
    rw [length_cons] at hblock
    rw [length_cons, Nat.add_right_comm]
    simp only [cons_append, cfbLoop, drop_succ_cons]
    refine ih damaged (Nat.succ.inj hsame) (by omega) ?_ ?_
    · split <;> simp [hb_bf_encode, codeBlocks_length, hlength]
    · split <;> simp [hb_bf_encode, codeBlocks_length, hlength']

/-- In the CFB mode a text is coded from its beginning on, and behind damaged blocks, and even with
another seed, one block more is lost. -/
theorem cfb_resumes (bf : HB_BLOWFISH) :
    (∀ text rest seed, (HB_BLOWFISHENCRYPT_CFB bf (text ++ rest) seed).take text.length =
      HB_BLOWFISHENCRYPT_CFB bf text seed) ∧
    (∀ cipher rest seed, (HB_BLOWFISHDECRYPT_CFB bf (cipher ++ rest) seed).take cipher.length =
      HB_BLOWFISHDECRYPT_CFB bf cipher seed) ∧
    ∀ cipher damaged rest seed seed', cipher.length = damaged.length → cipher.length % 8 = 0 →
      (HB_BLOWFISHDECRYPT_CFB bf (cipher ++ rest) seed).drop (cipher.length + 8) =
        (HB_BLOWFISHDECRYPT_CFB bf (damaged ++ rest) seed').drop (cipher.length + 8) := by
  have hseed (seed : Bytes) : (hb_bf_initvect seed).length = 8 := by simp [hb_bf_initvect]
  refine ⟨fun text rest seed => cfbLoop_take _ _ _ _, fun cipher rest seed => cfbLoop_take _ _ _ _,
    fun cipher damaged rest seed seed' hsame hblock => ?_⟩
  exact cfbLoop_damaged cipher damaged rest hsame (by omega) (hseed seed) (hseed seed')

theorem cfb_resumes_block :
    let bf : HB_BLOWFISH := ⟨fun _ => 1, fun _ => 2, fun _ => 3, fun _ => 4, fun _ => 5⟩
    (HB_BLOWFISHDECRYPT_CFB bf (replicate 8 6 ++ replicate 9 7) []).drop 16 =
      (HB_BLOWFISHDECRYPT_CFB bf (replicate 8 8 ++ replicate 9 7) [1]).drop 16 :=
  (cfb_resumes _).2.2 (replicate 8 6) (replicate 8 8) (replicate 9 7) [] [1] rfl rfl

end Streams

end Harbour.Rtl.Blowfish
