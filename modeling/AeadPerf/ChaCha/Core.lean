/-
# `ChaCha.Core` — the scalar ChaCha20 code of `chacha20.c`

The functions of `ciphers/chacha20/chacha20.c` under the source's names.  Arrays of
a size the code knows are `Vector`s, and an index written as a constant carries its
bound; the message arrays, whose sizes the caller knows, are checked at run time
(`Lib.Checked`).  Local arrays that the code fills before it reads them start as
zeros here.

`chacha20.c` and `chacha20_sse.c` hold the same encryption function twice, with the
`chacha20_expansion` of their own file.  It stands here once, `encryption64`, with
the expansion as a parameter; `chacha20Encryption` is the scalar instance.
-/
import AeadPerf.Lib.KeyStream
import AeadPerf.Lib.Words

namespace AeadPerf.ChaCha

open Words Checked KeyStream

/-! ## Loads and stores -/

/-- `_load_word32_le(b + off)`. -/
def loadWord32Le {n : Nat} (b : Vector Byte n) (off : Nat) (h : off + 3 < n) : Word :=
  (b[off]).setWidth 32 ||| (b[off + 1]).setWidth 32 <<< 8 ||| (b[off + 2]).setWidth 32 <<< 16
    ||| (b[off + 3]).setWidth 32 <<< 24

/-- The four assignments of `_store_word32_le(b + off, …)`, to the bytes of the given words. -/
def storeBytes {n : Nat} (b : Vector Byte n) (off : Nat) (h : off + 3 < n) (w₀ w₁ w₂ w₃ : Word) :
    Vector Byte n :=
  let b := b.set off (w₀.setWidth 8)
  let b := b.set (off + 1) (w₁.setWidth 8)
  let b := b.set (off + 2) (w₂.setWidth 8)
  b.set (off + 3) (w₃.setWidth 8)

/-- `_store_word32_le(b + off, w)` for a `uint32_t` `w`. -/
def storeWord32Le {n : Nat} (b : Vector Byte n) (off : Nat) (h : off + 3 < n) (w : Word) :
    Vector Byte n :=
  storeBytes b off h w (w >>> 8) (w >>> 16) (w >>> 24)

theorem loadWord32Le_eq {n : Nat} (b : Vector Byte n) (off : Nat) (h : off + 3 < n) :
    loadWord32Le b off h = ofLE b[off] b[off + 1] b[off + 2] b[off + 3] :=
  or_shift_le _ _ _ _

/-- `sigma_const`, the characters of `expand 32-byte k`. -/
def sigmaConst : Vector Byte 16 :=
  #v[0x65, 0x78, 0x70, 0x61, 0x6e, 0x64, 0x20, 0x33, 0x32, 0x2d, 0x62, 0x79, 0x74, 0x65, 0x20, 0x6b]

/-! ## The core -/

/-- `rotl_32`. -/
def rotl32 (inp : Word) (shift : Int) : Word :=
  if shift < 0 then 0 else inp <<< shift.toNat ||| inp >>> (32 - shift).toNat

/-- `chacha_quarter_round`. -/
def chachaQuarterRound (x : Vector Word 16) (a b c d : Fin 16) : Vector Word 16 :=
  let x := x.set a (x[a] + x[b])
  let x := x.set d (x[d] ^^^ x[a])
  let x := x.set d (rotl32 x[d] 16)
  let x := x.set c (x[c] + x[d])
  let x := x.set b (x[b] ^^^ x[c])
  let x := x.set b (rotl32 x[b] 12)
  let x := x.set a (x[a] + x[b])
  let x := x.set d (x[d] ^^^ x[a])
  let x := x.set d (rotl32 x[d] 8)
  let x := x.set c (x[c] + x[d])
  let x := x.set b (x[b] ^^^ x[c])
  x.set b (rotl32 x[b] 7)

/-- The first half of the round loop's body. -/
def columnPass (z : Vector Word 16) : Vector Word 16 :=
  let z := chachaQuarterRound z 0 4 8 12
  let z := chachaQuarterRound z 1 5 9 13
  let z := chachaQuarterRound z 2 6 10 14
  chachaQuarterRound z 3 7 11 15

/-- The second half. -/
def diagonalPass (z : Vector Word 16) : Vector Word 16 :=
  let z := chachaQuarterRound z 0 5 10 15
  let z := chachaQuarterRound z 1 6 11 12
  let z := chachaQuarterRound z 2 7 8 13
  chachaQuarterRound z 3 4 9 14

/-- The ten passes of the round loop. -/
def rounds (z : Vector Word 16) : Vector Word 16 :=
  Fin.foldl 10 (fun z _ => diagonalPass (columnPass z)) z

/-- The body of the last loop of `chacha20_hash`, on `z` and `y`. -/
def hashPass (x : Vector Word 16) (zy : Vector Word 16 × Vector Byte 64) (i : Fin 16) :
    Vector Word 16 × Vector Byte 64 :=
  let z := zy.1.set i (zy.1[i] + x[i])
  (z, storeWord32Le zy.2 (i.val * 4) (by omega) z[i])

/-- `chacha20_hash`: the serialised output `y`. -/
def chacha20Hash (x : Vector Word 16) (y : Vector Byte 64) : Vector Byte 64 :=
  (Fin.foldl 16 (hashPass x) (rounds x, y)).2

/-- The state matrix of `chacha20_expansion`, assignments to `state[0]` to `state[15]`. -/
def expansionState (key : Vector Byte 32) (input : Vector Byte 16) : Vector Word 16 := #v[
  loadWord32Le sigmaConst 0 (by decide), loadWord32Le sigmaConst 4 (by decide),
  loadWord32Le sigmaConst 8 (by decide), loadWord32Le sigmaConst 12 (by decide),
  loadWord32Le key 0 (by decide), loadWord32Le key 4 (by decide),
  loadWord32Le key 8 (by decide), loadWord32Le key 12 (by decide),
  loadWord32Le key 16 (by decide), loadWord32Le key 20 (by decide),
  loadWord32Le key 24 (by decide), loadWord32Le key 28 (by decide),
  loadWord32Le input 0 (by decide), loadWord32Le input 4 (by decide),
  loadWord32Le input 8 (by decide), loadWord32Le input 12 (by decide)]

/-- `chacha20_expansion`. -/
def chacha20Expansion (key : Vector Byte 32) (input : Vector Byte 16) : Vector Byte 64 :=
  chacha20Hash (expansionState key input) (Vector.replicate 64 0)

/-! ## The API -/

/-- `_store_word32_le(iv, c)`. -/
def storeCount (iv : Vector Byte 16) (c : Word) : Vector Byte 16 := storeWord32Le iv 0 (by decide) c

/-- The counter in the first four bytes of `iv`. -/
def loadCount (iv : Vector Byte 16) : Word := loadWord32Le iv 0 (by decide)

/-- `_store_word32_le(iv, c); memcpy(iv + 4, n, 12);` -/
def initIv (n : Vector Byte 12) (c : Word) : Vector Byte 16 :=
  let iv := storeCount (Vector.replicate 16 0) c
  Fin.foldl 12 (fun iv j => iv.set (4 + j.val) n[j]) iv

/-- The variables `count` and `iv`. -/
structure IvState where
  count : Word
  iv : Vector Byte 16
  deriving DecidableEq, Repr

section Encryption64

variable (expansion : Vector Byte 32 → Vector Byte 16 → Vector Byte 64)

/-- `chacha20_expansion(k, iv, keystream)`. -/
def ivKeyStream (k : Vector Byte 32) (s : IvState) : Run (Vector Byte 64 × IvState) :=
  .ok (expansion k s.iv, s)

/-- `count += 1; _store_word32_le(iv, count);` -/
def ivAdvance (s : IvState) : Run IvState :=
  .ok { count := s.count + 1, iv := storeCount s.iv (s.count + 1) }

/-- The encryption function of `chacha20.c` and `chacha20_sse.c`. -/
def encryption64 (inp : Array Byte) (out : Sink) (k : Vector Byte 32) (n : Vector Byte 12)
    (c : Word) (inlen : CInt) : Run Sink := do
  let (out, _) ← encryptBlocks (ivKeyStream expansion k) ivAdvance (xorAt inp) inlen out ⟨c, initIv n c⟩
  pure out

end Encryption64

/-- `chacha20_encryption`. -/
def chacha20Encryption (inp : Array Byte) (out : Sink) (k : Vector Byte 32) (n : Vector Byte 12)
    (c : Word) (inlen : CInt) : Run Sink :=
  encryption64 chacha20Expansion inp out k n c inlen

end AeadPerf.ChaCha
