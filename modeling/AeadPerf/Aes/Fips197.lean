/-
# `Aes.Fips197` — AES-256 as FIPS-197 defines it

The reference the code is compared with.  It knows no table: bytes are elements
of GF(2^8) = GF(2)[x]/(x^8 + x^4 + x^3 + x + 1), and

    S-box            inversion (0 ↦ 0), then the affine map over GF(2)
    MixColumns       multiplication by {03}x³ + {01}x² + {01}x + {02} modulo x⁴ + 1
    round constants  the powers of x
    key schedule     the Nk = 8 recurrence on four-byte words

The field operations are `BinField.mul` and `BinField.inv` at the Rijndael
modulus.  That `gfInv` is inversion in the quotient ring is `toRing_gfInv`, and
that `mixColumn` is the product modulo x⁴ + 1 of polynomials over it is
`mixColumn_dvd`; both are about Mathlib's `AdjoinRoot` and `Polynomial`, so the
definitions below can be executed and still mean what the standard says.

A state is a function of row and column, a word a function of the byte index,
byte 0 the most significant one.
-/
import AeadPerf.Lib.BinField
import AeadPerf.Lib.Words
import Mathlib.Data.Fin.VecNotation

namespace AeadPerf.Fips197

open Words

/-! ## The field -/

/-- The lower part of x^8 + x^4 + x^3 + x + 1. -/
def rijndael : Byte := 0x1b

def gfMul (a b : Byte) : Byte := BinField.mul rijndael a b

/-- The inverse, with `0 ↦ 0`. -/
def gfInv (a : Byte) : Byte := BinField.inv rijndael a

/-- `x ^ n`. -/
def xPow (n : Nat) : Byte := (BinField.xtime rijndael)^[n] 1

theorem toRing_xPow (n : Nat) :
    BinField.toRing rijndael (xPow n) = AdjoinRoot.root (BinField.modulus rijndael) ^ n := by
  induction n with
  | zero => exact BinField.toRing_one rijndael (by decide)
  | succ n ih =>
      rw [xPow, Function.iterate_succ_apply', BinField.toRing_xtime, pow_succ', ← ih]
      rfl

/-- Every nonzero byte times its `gfInv` is 1. -/
theorem gfMul_gfInv : ∀ a : Byte, a ≠ 0 → gfMul a (gfInv a) = 1 := by decide +kernel

/-- `gfInv` is inversion in GF(2)[x]/(x^8 + x^4 + x^3 + x + 1). -/
theorem toRing_gfInv (a : Byte) :
    BinField.toRing rijndael (gfInv a) = Ring.inverse (BinField.toRing rijndael a) :=
  BinField.toRing_inv_eq rijndael (by decide) gfMul_gfInv a

/-! ## The transformations -/

/-- The affine map: bit `i` of the result is the sum of bits `i`, `i + 4`,
`i + 5`, `i + 6`, `i + 7` modulo 8 of the argument and of bit `i` of `{63}`. -/
def affine (b : Byte) : Byte :=
  b ^^^ b.rotateRight 4 ^^^ b.rotateRight 5 ^^^ b.rotateRight 6 ^^^ b.rotateRight 7 ^^^ 0x63

def subByte (b : Byte) : Byte := affine (gfInv b)

/-- A state, by row and column. -/
abbrev State := Fin 4 → Fin 4 → Byte

/-- Byte `i` of a block is row `i % 4` of column `i / 4`. -/
def toState (block : Vector Byte 16) : State := fun r c => block[r.val + 4 * c.val]

def ofState (s : State) : Vector Byte 16 :=
  Vector.ofFn fun i => s ⟨i.val % 4, by omega⟩ ⟨i.val / 4, by omega⟩

theorem toState_ofState (s : State) : toState (ofState s) = s := by
  funext r c
  have hdiv : (r.val + 4 * c.val) / 4 = c.val := by omega
  have hmod : (r.val + 4 * c.val) % 4 = r.val := by omega
  simp only [toState, ofState, Vector.getElem_ofFn, hdiv, hmod, Fin.eta]

theorem ofState_toState (block : Vector Byte 16) : ofState (toState block) = block := by
  refine Vector.ext ?_
  intro i hi
  simp only [toState, ofState, Vector.getElem_ofFn, Nat.mod_add_div]

def subBytes (s : State) : State := fun r c => subByte (s r c)

def shiftRows (s : State) : State := fun r c => s r (c + r)

/-- The coefficients of {03}x³ + {01}x² + {01}x + {02}, constant term first. -/
def mixPoly : Fin 4 → Byte := ![0x02, 0x01, 0x01, 0x03]

/-- `mixPoly` times the column, modulo x⁴ + 1. -/
def mixColumn (col : Fin 4 → Byte) : Fin 4 → Byte := BinField.cyclic rijndael mixPoly col

theorem mixColumn_eq (col : Fin 4 → Byte) (r : Fin 4) :
    mixColumn col r = gfMul (mixPoly r) (col 0) ^^^ gfMul (mixPoly (r - 1)) (col 1)
      ^^^ gfMul (mixPoly (r - 2)) (col 2) ^^^ gfMul (mixPoly (r - 3)) (col 3) := rfl

open Polynomial in
/-- `mixColumn` is the product of polynomials over the quotient ring. -/
theorem mixColumn_dvd (col : Fin 4 → Byte) :
    (X ^ 4 + 1 : (AdjoinRoot (BinField.modulus rijndael))[X]) ∣
      (∑ i : Fin 4, C (BinField.toRing rijndael (mixPoly i)) * X ^ i.val)
        * (∑ j : Fin 4, C (BinField.toRing rijndael (col j)) * X ^ j.val)
      - ∑ r : Fin 4, C (BinField.toRing rijndael (mixColumn col r)) * X ^ r.val :=
  BinField.cyclic_dvd rijndael mixPoly col

def mixColumns (s : State) : State := fun r c => mixColumn (fun j => s j c) r

/-! ## The key schedule -/

/-- A word, byte 0 the most significant. -/
abbrev KeyWord := Fin 4 → Byte

def subWord (w : KeyWord) : KeyWord := fun j => subByte (w j)

def rotWord (w : KeyWord) : KeyWord := fun j => w (j + 1)

def rcon (n : Nat) : KeyWord := ![xPow (n - 1), 0, 0, 0]

/-- Word `i` of the key schedule of a 32-byte key. -/
def keyWord (key : Vector Byte 32) (i : Nat) : KeyWord :=
  if h : i < 8 then fun j => key[4 * i + j.val]
  else
    let temp := keyWord key (i - 1)
    let temp :=
      if i % 8 = 0 then fun j => subWord (rotWord temp) j ^^^ rcon (i / 8) j
      else if i % 8 = 4 then subWord temp
      else temp
    fun j => keyWord key (i - 8) j ^^^ temp j
termination_by i

/-! ## The cipher -/

def addRoundKey (w : Nat → KeyWord) (round : Nat) (s : State) : State :=
  fun r c => s r c ^^^ w (4 * round + c.val) r

def roundStep (w : Nat → KeyWord) (s : State) (round : Nat) : State :=
  addRoundKey w round (mixColumns (shiftRows (subBytes s)))

/-- The fourteen rounds on a state, for a schedule of words `w`. -/
def cipher (w : Nat → KeyWord) (s : State) : State :=
  let s := addRoundKey w 0 s
  let s := (List.range' 1 13).foldl (roundStep w) s
  addRoundKey w 14 (shiftRows (subBytes s))

/-- The ciphertext of a 16-byte block. -/
def aes256 (key : Vector Byte 32) (block : Vector Byte 16) : Vector Byte 16 :=
  ofState (cipher (keyWord key) (toState block))

end AeadPerf.Fips197
