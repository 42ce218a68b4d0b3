/-
# `ChaCha.Rfc8439` — ChaCha20 as RFC 8439 defines it

The reference for the three implementations.  The state is a 4 × 4 matrix of words,

    row 0     the four constants
    rows 1, 2 the key, little-endian words
    row 3     the block counter, then the nonce, little-endian words

and a double round is a quarter round on every column followed by a quarter round
on every diagonal.  A diagonal starts in row 0 and moves one column to the right
with every row, so the entry at row `r` of column `c` lies on the diagonal that
starts in column `c - r`.
-/
import AeadPerf.Lib.Words
import Mathlib.Data.Fin.VecNotation
import Mathlib.Algebra.Group.Fin.Basic

namespace AeadPerf.Rfc8439

open Words

/-- A state, by row and column. -/
abbrev State := Fin 4 → Fin 4 → Word

/-- The quarter round: the new `a`, `b`, `c`, `d`. -/
def quarterRound (a b c d : Word) : Fin 4 → Word :=
  let a := a + b
  let d := (d ^^^ a).rotateLeft 16
  let c := c + d
  let b := (b ^^^ c).rotateLeft 12
  let a := a + b
  let d := (d ^^^ a).rotateLeft 8
  let c := c + d
  let b := (b ^^^ c).rotateLeft 7
  ![a, b, c, d]

def columnRound (s : State) : State := fun r c =>
  quarterRound (s 0 c) (s 1 c) (s 2 c) (s 3 c) r

def diagonalRound (s : State) : State := fun r c =>
  quarterRound (s 0 (c - r)) (s 1 (c - r + 1)) (s 2 (c - r + 2)) (s 3 (c - r + 3)) r

def innerBlock (s : State) : State := diagonalRound (columnRound s)

/-- Word `i` of `b`, little-endian. -/
def leWord {n : Nat} (b : Vector Byte n) (i : Nat) (h : 4 * i + 3 < n) : Word :=
  ofLE b[4 * i] b[4 * i + 1] b[4 * i + 2] b[4 * i + 3]

/-- The state that a block starts from. -/
def initState (key : Vector Byte 32) (counter : Word) (nonce : Vector Byte 12) : State :=
  ![![0x61707865, 0x3320646e, 0x79622d32, 0x6b206574],
    ![leWord key 0 (by decide), leWord key 1 (by decide), leWord key 2 (by decide),
      leWord key 3 (by decide)],
    ![leWord key 4 (by decide), leWord key 5 (by decide), leWord key 6 (by decide),
      leWord key 7 (by decide)],
    ![counter, leWord nonce 0 (by decide), leWord nonce 1 (by decide), leWord nonce 2 (by decide)]]

/-- The words of a state row by row, each little-endian. -/
def serialize (s : State) : Vector Byte 64 :=
  Vector.ofFn fun i =>
    byteAt (s ⟨i.val / 16, by omega⟩ ⟨i.val / 4 % 4, by omega⟩) (i.val % 4)

/-- The block function. -/
def block (key : Vector Byte 32) (counter : Word) (nonce : Vector Byte 12) : Vector Byte 64 :=
  let s := initState key counter nonce
  serialize fun r c => (innerBlock^[10] s) r c + s r c

/-- Byte `i` of the keystream: block `i / 64`, the counter modulo 2^32. -/
def keyStream (key : Vector Byte 32) (counter : Word) (nonce : Vector Byte 12) (i : Nat) : Byte :=
  (block key (counter + BitVec.ofNat 32 (i / 64)) nonce).get (Fin.ofNat 64 i)

end AeadPerf.Rfc8439
