/-
# `Aes.Refine` — the AES code computes AES-256

`aesKeyExpansion` followed by `aesEncryption` is `Fips197.aes256`.  The three
points at which the program and the standard speak different languages are
settled one at a time.

* **Tables.**  `s_box` is the affine map after inversion in GF(2^8), the rows of
  `gf_8_mult` are the products by `x` and `x + 1`, and the used entries of
  `rcon` are powers of `x`: finite checks by the kernel.
* **Words.**  The key schedule computes with words whose most significant byte is
  byte 0 of the standard's word (`beWord`); XOR, `RotWord` and `SubWord` agree
  with the standard's through it, whatever the byte order of the host.
* **Memory.**  The last loop of the key expansion leaves in memory, on either
  host, the bytes of the standard's words in order (`bytes_reverseWord`); the
  cipher reads nothing else of the schedule (`matrix_addRoundKey`).

The rounds are then a simulation, one round at a time, under `matrix`.
-/
import AeadPerf.Aes.Bytes
import AeadPerf.Aes.Fips197

namespace AeadPerf.Aes

open Words
open Fips197 (State KeyWord gfMul)

/-! ## The tables -/

theorem sBoxAt_eq : ∀ b : Byte, sBoxAt b = Fips197.subByte b := by decide +kernel

theorem gf8_two : ∀ b : Byte, gf8 0x02 (by decide) b = gfMul 0x02 b := by decide +kernel

theorem gf8_three : ∀ b : Byte, gf8 0x03 (by decide) b = gfMul 0x03 b := by decide +kernel

theorem gfMul_one (b : Byte) : gfMul 1#8 b = b := BinField.one_mul' Fips197.rijndael (by decide) b

/-! ## One round -/

theorem matrix_eq_toState (s : Block) : matrix s = Fips197.toState s := by
  funext r c
  simp only [matrix, Fips197.toState, Nat.add_comm]

theorem matrix_subBytes_eq (s : Block) : matrix (subBytes s) = Fips197.subBytes (matrix s) := by
  funext r c
  rw [matrix_subBytes, sBoxAt_eq]
  rfl

theorem matrix_shiftRows_eq (s : Block) : matrix (shiftRows s) = Fips197.shiftRows (matrix s) :=
  funext fun r => funext fun c => matrix_shiftRows s r c

theorem matrix_mixColumns_eq (o : ByteOrder) (s : Block) :
    matrix (ofColArr o (mixColumns o (colArr o s))) = Fips197.mixColumns (matrix s) := by
  funext r c
  rw [matrix_mixColumns, Fips197.mixColumns, Fips197.mixColumn_eq, mixColumn, get_four]
  simp only [gf8_two, gf8_three]
  fin_cases r <;> simp [Fips197.mixPoly, gfMul_one]

/-- The words of a key schedule, as the bytes they occupy in memory. -/
def scheduleBytes (o : ByteOrder) (ks : KeySchedule) (i : Nat) : KeyWord :=
  fun j => (o.bytes (ks.toArray.getD i 0)).get j

theorem matrix_addRoundKey_eq (o : ByteOrder) (ks : KeySchedule) (k : Fin 15) (s : Block) :
    matrix (addRoundKey o ks k s) = Fips197.addRoundKey (scheduleBytes o ks) k (matrix s) := by
  funext r c
  rw [matrix_addRoundKey, Fips197.addRoundKey, scheduleBytes]
  simp [roundKey, get_eq, show 4 * k.val + c.val < 60 by omega]

theorem matrix_aesRound_eq (o : ByteOrder) (ks : KeySchedule) (k : Fin 15) (s : Block) :
    matrix (aesRound o ks k s) = Fips197.roundStep (scheduleBytes o ks) (matrix s) k := by
  rw [aesRound, matrix_addRoundKey_eq, matrix_mixColumns_eq, matrix_shiftRows_eq,
    matrix_subBytes_eq, Fips197.roundStep]

/-! ## All rounds -/

/-- The first `m` passes of the round loop. -/
theorem matrix_rounds_eq (o : ByteOrder) (ks : KeySchedule) (m : Nat) (hm : m ≤ 13) (s : Block) :
    matrix (Fin.foldl m (fun s j => aesRound o ks ⟨j.val + 1, by omega⟩ s) s)
      = (List.range' 1 m).foldl (Fips197.roundStep (scheduleBytes o ks)) (matrix s) := by
  induction m with
  | zero => rfl
  | succ m ih =>
      rw [Fin.foldl_succ_last, matrix_aesRound_eq, List.range'_concat, List.foldl_append]
      simp only [Fin.val_castSucc, Fin.val_last]
      rw [ih (by omega), Nat.one_mul, Nat.add_comm 1 m]
      rfl

/-- The cipher reads its key schedule as bytes in memory. -/
theorem matrix_aesEncryption (o : ByteOrder) (ks : KeySchedule) (block : Block) :
    matrix (aesEncryption o block ks) = Fips197.cipher (scheduleBytes o ks) (matrix block) := by
  rw [aesEncryption, matrix_addRoundKey_eq, matrix_shiftRows_eq, matrix_subBytes_eq,
    matrix_rounds_eq o ks 13 le_rfl, matrix_addRoundKey_eq, Fips197.cipher]
  rfl

/-! ## The key schedule -/

/-- The value of a word whose first byte is the most significant. -/
def beWord (w : KeyWord) : Word := ofLE (w 3) (w 2) (w 1) (w 0)

theorem beWord_xor (v w : KeyWord) : beWord v ^^^ beWord w = beWord fun j => v j ^^^ w j := by
  refine word_ext ?_
  intro j hj
  interval_cases j <;> simp [byteAt_xor, beWord]

theorem byteAt_rotWord (w : Word) (j : Nat) (hj : j < 4) :
    byteAt (rotWord w) j = byteAt w ((j + 3) % 4) := by
  refine BitVec.eq_of_getLsbD_eq ?_
  intro i hi
  simp only [byteAt, rotWord, BitVec.getLsbD_extractLsb', BitVec.getLsbD_or, BitVec.getLsbD_shiftLeft,
    BitVec.getLsbD_ushiftRight, hi, decide_true, Bool.true_and]
  cases j with
  | zero => simp [hi, Nat.add_comm]
  | succ j =>
      -- the bits that `word >>> 24` would contribute lie above bit 31
      rw [BitVec.getLsbD_of_ge w (24 + (8 * (j + 1) + i)) (by omega),
        show (j + 1 + 3) % 4 = j by omega]
      simp [show 8 * (j + 1) + i - 8 = 8 * j + i by omega, show 8 * (j + 1) + i < 32 by omega,
        show 8 ≤ 8 * (j + 1) + i by omega]

theorem rotWord_beWord (w : KeyWord) : rotWord (beWord w) = beWord (Fips197.rotWord w) := by
  refine word_ext ?_
  intro j hj
  rw [byteAt_rotWord _ j hj]
  interval_cases j <;> simp [beWord, Fips197.rotWord]

theorem subWord_ofLE (o : ByteOrder) (b₀ b₁ b₂ b₃ : Byte) :
    subWord o (ofLE b₀ b₁ b₂ b₃) = ofLE (sBoxAt b₀) (sBoxAt b₁) (sBoxAt b₂) (sBoxAt b₃) := by
  have hloop : Fin.foldl 4 (fun byteArr i => byteArr.set i (sBoxAt byteArr[i]))
      (o.bytes (ofLE b₀ b₁ b₂ b₃)) = Vector.ofFn fun i => sBoxAt (o.bytes (ofLE b₀ b₁ b₂ b₃))[i] :=
    foldl_set_eq_ofFn (fun _ b => sBoxAt b) (o.bytes (ofLE b₀ b₁ b₂ b₃))
  rw [subWord, hloop]
  cases o with
  | little =>
      simp only [ByteOrder.word, ByteOrder.bytes, get_ofFn]
      simp
  | big =>
      simp only [ByteOrder.word, ByteOrder.bytes, get_ofFn]
      simp

theorem subWord_beWord (o : ByteOrder) (w : KeyWord) :
    subWord o (beWord w) = beWord (Fips197.subWord w) := by
  rw [beWord, subWord_ofLE]
  simp only [sBoxAt_eq]
  rfl

theorem rcon_eq : ∀ n : Fin 7, rcon[n.val] = beWord (Fips197.rcon (n.val + 1)) := by
  decide +kernel

/-- The first loop of the key expansion: the words of the key. -/
theorem getElem_loadKey (key : Vector Byte 32) (ks : KeySchedule) (j : Nat) (hj : j < 8) :
    (loadKey key ks)[j] = beWord (Fips197.keyWord key j) := by
  have hloop := getElem_foldl_set (m := 8) (by decide) (fun i _ =>
    (key[4 * i.val]).setWidth 32 <<< 24 ||| (key[4 * i.val + 1]).setWidth 32 <<< 16
      ||| (key[4 * i.val + 2]).setWidth 32 <<< 8 ||| (key[4 * i.val + 3]).setWidth 32) ks j (by omega)
  rw [dif_pos hj, or_shift_be] at hloop
  rw [loadKey, hloop, Fips197.keyWord, dif_pos hj]
  rfl

/-- The word that is XORed into word `i`. -/
theorem expandTmp_beWord (o : ByteOrder) (i : Nat) (h₁ : 8 ≤ i) (h₂ : i < 60) (temp : KeyWord) :
    expandTmp o i h₂ (beWord temp) = beWord (
      if i % 8 = 0 then fun j => Fips197.subWord (Fips197.rotWord temp) j ^^^ Fips197.rcon (i / 8) j
      else if i % 8 = 4 then Fips197.subWord temp
      else temp) := by
  have hrcon := rcon_eq ⟨i / 8 - 1, by omega⟩
  simp only [show i / 8 - 1 + 1 = i / 8 by omega] at hrcon
  simp only [expandTmp, show (8 > 6) = True by simp, true_and]
  split
  · rw [hrcon, rotWord_beWord, subWord_beWord, beWord_xor]
  · split
    · exact subWord_beWord o temp
    · rfl

/-- One pass of the second loop is the recurrence of the standard. -/
theorem getElem_expandPass (o : ByteOrder) (key : Vector Byte 32) (ks : KeySchedule) (i : Nat)
    (h₁ : 8 ≤ i) (h₂ : i < 60)
    (hks : ∀ (j : Nat) (hj : j < i), ks[j] = beWord (Fips197.keyWord key j))
    (j : Nat) (hj : j < i + 1) :
    (expandPass o ks i h₂)[j] = beWord (Fips197.keyWord key j) := by
  rw [expandPass, Vector.getElem_set]
  by_cases hij : i = j
  · subst hij
    rw [if_pos rfl, hks (i - 8) (by omega), hks (i - 1) (by omega), expandTmp_beWord o i h₁ h₂,
      beWord_xor, Fips197.keyWord.eq_1 key i, dif_neg (by omega)]
  · rw [if_neg hij]
    exact hks j (by omega)

/-- Both loops: the words of the standard, first byte most significant. -/
theorem getElem_expanded (o : ByteOrder) (key : Vector Byte 32) (ks : KeySchedule) (m : Nat)
    (hm : m ≤ 52) (j : Nat) (hj : j < 8 + m) :
    (Fin.foldl m (fun ks j => expandPass o ks (8 + j.val) (by omega)) (loadKey key ks))[j]
      = beWord (Fips197.keyWord key j) := by
  induction m generalizing j with
  | zero => exact getElem_loadKey key ks j hj
  | succ m ih =>
      simp only [Fin.foldl_succ_last, Fin.val_castSucc, Fin.val_last]
      exact getElem_expandPass o key _ (8 + m) (by omega) (by omega)
        (fun j hj => ih (by omega) j hj) j (by omega)

/-- The last loop reverses the memory bytes of a word on a little-endian host
and is the identity on a big-endian one. -/
theorem bytes_reverseWord (o : ByteOrder) (w : KeyWord) (j : Fin 4) :
    (o.bytes (reverseWord o (beWord w))).get j = w j := by
  rw [reverseWord, or_shift_be]
  cases o <;> fin_cases j <;> simp [ByteOrder.bytes, beWord, get_eq]

/-- **The key schedule in memory is the standard's**, on either host. -/
theorem scheduleBytes_aesKeyExpansion (o : ByteOrder) (key : Vector Byte 32) (ks : KeySchedule)
    (i : Nat) (hi : i < 60) :
    scheduleBytes o (aesKeyExpansion o key ks) i = Fips197.keyWord key i := by
  funext j
  have hloop := getElem_foldl_set le_rfl (fun _ w => reverseWord o w)
    (Fin.foldl 52 (fun ks j => expandPass o ks (8 + j.val) (by omega)) (loadKey key ks)) i hi
  rw [dif_pos hi, getElem_expanded o key ks 52 le_rfl i hi] at hloop
  have hword : (aesKeyExpansion o key ks).toArray.getD i 0 = reverseWord o (beWord (Fips197.keyWord key i)) := by
    rw [← hloop]
    simp [aesKeyExpansion, hi]
  rw [scheduleBytes, hword]
  exact bytes_reverseWord o _ j

/-! ## The whole -/

/-- The cipher reads the words 0 to 59 only. -/
theorem cipher_congr {v w : Nat → KeyWord} (h : ∀ i < 60, v i = w i) (s : State) :
    Fips197.cipher v s = Fips197.cipher w s := by
  have hadd : ∀ round < 15, ∀ s, Fips197.addRoundKey v round s = Fips197.addRoundKey w round s := by
    intro round hr s
    funext r c
    rw [Fips197.addRoundKey, Fips197.addRoundKey, h (4 * round + c.val) (by omega)]
  have hrounds : ∀ s, (List.range' 1 13).foldl (Fips197.roundStep v) s
      = (List.range' 1 13).foldl (Fips197.roundStep w) s := by
    intro s
    refine List.foldl_ext _ _ _ ?_
    intro s round hr
    exact hadd round (by simp at hr; omega) _
  simp only [Fips197.cipher, hadd 0 (by decide), hadd 14 (by decide), hrounds]

/-- Key expansion and cipher together, on either host. -/
theorem aesEncryption_eq_aes256 (o : ByteOrder) (key : Vector Byte 32) (ks : KeySchedule)
    (block : Block) :
    aesEncryption o block (aesKeyExpansion o key ks) = Fips197.aes256 key block := by
  have hcipher : matrix (aesEncryption o block (aesKeyExpansion o key ks))
      = Fips197.cipher (Fips197.keyWord key) (matrix block) := by
    rw [matrix_aesEncryption, cipher_congr fun i hi => scheduleBytes_aesKeyExpansion o key ks i hi]
  rw [matrix_eq_toState, matrix_eq_toState] at hcipher
  rw [Fips197.aes256, ← Fips197.ofState_toState (aesEncryption o block (aesKeyExpansion o key ks))]
  exact congrArg Fips197.ofState hcipher

/-- **The byte order of the host does not show** in the ciphertext, nor what the key
schedule arrays held before. -/
theorem aesEncryption_byteOrder (secretKey : Vector Byte 32) (keySchedule keySchedule' : KeySchedule)
    (plainText : Block) :
    aesEncryption .big plainText (aesKeyExpansion .big secretKey keySchedule)
      = aesEncryption .little plainText (aesKeyExpansion .little secretKey keySchedule') := by
  have hbig := aesEncryption_eq_aes256 .big secretKey keySchedule plainText
  have hlittle := aesEncryption_eq_aes256 .little secretKey keySchedule' plainText
  exact hbig.trans hlittle.symm

/-- The vector of `test_aes.c`. -/
example :
    aesEncryption .little
      #v[0x00, 0x11, 0x22, 0x33, 0x44, 0x55, 0x66, 0x77, 0x88, 0x99, 0xaa, 0xbb, 0xcc, 0xdd, 0xee, 0xff]
      (aesKeyExpansion .little (Vector.ofFn fun i => BitVec.ofNat 8 i) (Vector.replicate 60 0))
    = #v[0x8e, 0xa2, 0xb7, 0xca, 0x51, 0x67, 0x45, 0xbf, 0xea, 0xfc, 0x49, 0x90, 0x4b, 0x49, 0x60, 0x89] := by
  decide +kernel

/-- `aes_key_expansion` and then `aes_encryption` on a little-endian host: the
FIPS-197 ciphertext, whatever the key schedule array held before. -/
theorem aesEncryption_fips197 (secretKey : Vector Byte 32) (keySchedule : KeySchedule)
    (plainText : Block) :
    aesEncryption .little plainText (aesKeyExpansion .little secretKey keySchedule)
      = Fips197.aes256 secretKey plainText :=
  aesEncryption_eq_aes256 .little secretKey keySchedule plainText

end AeadPerf.Aes
