/-
# `Aes.Core` — the AES-256 code of `aes.c`

The functions of `ciphers/rijndael/aes.c` under the source's names, statement by
statement.

The state of `aes_encryption` is a C union of a byte matrix and an array of
32-bit words.  Here it is its sixteen bytes of memory, a `Block`, with two
views:

    MATRIX(s, r, c)     `matrix s r c`     byte 4 * c + r
    S.col_arr           `colArr o s`       the words of the four columns, read in
                                           the byte order `o` of the host

Functions that the source gives a `uint32_t *` take and return the words; their
callers convert with `colArr` and `ofColArr`, which is what writing one member
of the union and reading the other does.  `SubWord`, `MixColumns`, `KeyAddition`
and the last loop of `aes_key_expansion` look at words as bytes or mix the two,
so all of them depend on `o` on the face of it.

Loops with constant bounds are folds over `Fin n`.  Both `do … while(++i < n)`
loops of the key expansion start below their bound, so they are the same folds.
-/
import AeadPerf.Aes.Tables

namespace AeadPerf.Aes

open Words

/-- A block of `BLK_BYTES` bytes; also the memory of the state union. -/
abbrev Block := Vector Byte 16

/-- The `N_COLUMNS * (N_ROUNDS + 1)` words of a key schedule. -/
abbrev KeySchedule := Vector Word 60

/-! ## The two views of the state -/

/-- `MATRIX(s, r, c)`, that is `s[c][r]`. -/
def matrix (s : Block) (r c : Fin 4) : Byte := s[4 * c.val + r.val]

/-- `MATRIX(s, r, c) = b`. -/
def setMatrix (s : Block) (r c : Fin 4) (b : Byte) : Block := s.set (4 * c.val + r.val) b

/-- The state as an array of words. -/
def colArr (o : ByteOrder) (s : Block) : Vector Word 4 :=
  Vector.ofFn fun c => o.word #v[matrix s 0 c, matrix s 1 c, matrix s 2 c, matrix s 3 c]

/-- The memory of an array of words. -/
def ofColArr (o : ByteOrder) (w : Vector Word 4) : Block :=
  Vector.ofFn fun i => (o.bytes (w.get (Fin.ofNat 4 (i.val / 4)))).get (Fin.ofNat 4 i.val)

/-! ## Key expansion helpers -/

/-- `SubWord`: the s-box on every byte of a word, through a byte pointer. -/
def subWord (o : ByteOrder) (word : Word) : Word :=
  o.word (Fin.foldl 4 (fun byteArr i => byteArr.set i (sBoxAt byteArr[i])) (o.bytes word))

/-- `RotWord`. -/
def rotWord (word : Word) : Word := word <<< 8 ||| word >>> 24

/-! ## Round functions -/

/-- `SubBytes`. -/
def subBytes (state : Block) : Block :=
  Fin.foldl 4 (fun s c =>
    Fin.foldl 4 (fun s r => setMatrix s r c (sBoxAt (matrix s r c))) s) state

/-- `ShiftRows`: rows 1 to 3, each through the local array `tmp`. -/
def shiftRows (state : Block) : Block :=
  [1, 2, 3].foldl (fun s (r : Fin 4) =>
    let tmp := Fin.foldl 4 (fun tmp c => tmp.set c (matrix s r (c + r))) (Vector.replicate 4 0)
    Fin.foldl 4 (fun s c => setMatrix s r c tmp[c]) s) state

/-- The four assignments to `COLARR(state[c], 0 … 3)` in `MixColumns`. -/
def mixColumn (col : Vector Byte 4) : Vector Byte 4 := #v[
  gf8 0x02 (by decide) col[0] ^^^ gf8 0x03 (by decide) col[1] ^^^ col[2] ^^^ col[3],
  col[0] ^^^ gf8 0x02 (by decide) col[1] ^^^ gf8 0x03 (by decide) col[2] ^^^ col[3],
  col[0] ^^^ col[1] ^^^ gf8 0x02 (by decide) col[2] ^^^ gf8 0x03 (by decide) col[3],
  gf8 0x03 (by decide) col[0] ^^^ col[1] ^^^ col[2] ^^^ gf8 0x02 (by decide) col[3]]

/-- `MixColumns`: `col` is a copy of the column, all four bytes are overwritten. -/
def mixColumns (o : ByteOrder) (state : Vector Word 4) : Vector Word 4 :=
  Fin.foldl 4 (fun st c => st.set c (o.word (mixColumn (o.bytes st[c])))) state

/-- `KeyAddition`. -/
def keyAddition (state roundKey : Vector Word 4) : Vector Word 4 :=
  Fin.foldl 4 (fun st c => st.set c (st[c] ^^^ roundKey[c])) state

/-! ## The API -/

/-- The key words: `(k[4i] << 24) | (k[4i+1] << 16) | (k[4i+2] << 8) | k[4i+3]`. -/
def loadKey (secretKey : Vector Byte 32) (keySchedule : KeySchedule) : KeySchedule :=
  Fin.foldl 8 (fun ks i => ks.set i.val
    ((secretKey[4 * i.val]).setWidth 32 <<< 24 ||| (secretKey[4 * i.val + 1]).setWidth 32 <<< 16
      ||| (secretKey[4 * i.val + 2]).setWidth 32 <<< 8 ||| (secretKey[4 * i.val + 3]).setWidth 32))
    keySchedule

/-- The word XORed into word `i ≥ Nk = 8`, computed from word `i - 1`. -/
def expandTmp (o : ByteOrder) (i : Nat) (h : i < 60) (tmp : Word) : Word :=
  if i % 8 = 0 then subWord o (rotWord tmp) ^^^ rcon[i / 8 - 1]
  else if 8 > 6 ∧ i % 8 = 4 then subWord o tmp
  else tmp

/-- The pass of the second loop for word `i`. -/
def expandPass (o : ByteOrder) (ks : KeySchedule) (i : Nat) (h : i < 60) : KeySchedule :=
  ks.set i (ks[i - 8] ^^^ expandTmp o i h ks[i - 1])

/-- The last loop: each word reassembled from its memory bytes, first byte on top. -/
def reverseWord (o : ByteOrder) (w : Word) : Word :=
  let k := o.bytes w
  (k[0]).setWidth 32 <<< 24 ||| (k[1]).setWidth 32 <<< 16 ||| (k[2]).setWidth 32 <<< 8
    ||| (k[3]).setWidth 32

/-- `aes_key_expansion`: fills the caller's array `keySchedule`. -/
def aesKeyExpansion (o : ByteOrder) (secretKey : Vector Byte 32) (keySchedule : KeySchedule) :
    KeySchedule :=
  let ks := loadKey secretKey keySchedule
  let ks := Fin.foldl 52 (fun ks j => expandPass o ks (8 + j.val) (by omega)) ks
  Fin.foldl 60 (fun ks i => ks.set i.val (reverseWord o ks[i])) ks

/-- `key_schedule + r * N_COLUMNS`. -/
def roundKey (keySchedule : KeySchedule) (r : Fin 15) : Vector Word 4 :=
  Vector.ofFn fun c => keySchedule[4 * r.val + c.val]

/-- `KeyAddition(S.col_arr, key_schedule + r * N_COLUMNS)` on the state union. -/
def addRoundKey (o : ByteOrder) (keySchedule : KeySchedule) (r : Fin 15) (s : Block) : Block :=
  ofColArr o (keyAddition (colArr o s) (roundKey keySchedule r))

/-- The body of the round loop of `aes_encryption`. -/
def aesRound (o : ByteOrder) (keySchedule : KeySchedule) (r : Fin 15) (s : Block) : Block :=
  let s := subBytes s
  let s := shiftRows s
  let s := ofColArr o (mixColumns o (colArr o s))
  addRoundKey o keySchedule r s

/-- `aes_encryption`: the sixteen bytes copied to `cipher_text`. -/
def aesEncryption (o : ByteOrder) (plainText : Block) (keySchedule : KeySchedule) : Block :=
  let s := addRoundKey o keySchedule 0 plainText
  let s := Fin.foldl 13 (fun s j => aesRound o keySchedule ⟨j.val + 1, by omega⟩ s) s
  let s := subBytes s
  let s := shiftRows s
  addRoundKey o keySchedule 14 s

end AeadPerf.Aes
