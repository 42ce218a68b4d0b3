/-
# `Aes.Perm` — the cipher permutes blocks

For any schedule of words at all, expanded from a key or not, `aesEncryption` is
a bijection of blocks.  There is no decryption in the program, so the inverse
of every transformation is given here:

    AddRoundKey     itself
    ShiftRows       rotate row r the other way
    SubBytes        undo the affine map, invert (an involution with 0 ↦ 0)
    MixColumns      multiply by {0b}x³ + {0d}x² + {09}x + {0e}

They are inverses on the states of `Fips197`; `matrix_aesEncryption` carries the
result to the code, and the last round needs no treatment of its own because
nothing is said about rounds, only about compositions.
-/
import AeadPerf.Aes.Refine
import Mathlib.Logic.Function.Basic

namespace AeadPerf.Fips197

open Words

/-! ## SubBytes -/

theorem gfInv_gfInv (b : Byte) : gfInv (gfInv b) = b :=
  BinField.inv_inv' rijndael (by decide) gfMul_gfInv b

/-- The inverse of `affine`. -/
def invAffine (b : Byte) : Byte := b.rotateRight 2 ^^^ b.rotateRight 5 ^^^ b.rotateRight 7 ^^^ 0x05

theorem invAffine_affine : ∀ b : Byte, invAffine (affine b) = b := by decide +kernel

theorem affine_invAffine : ∀ b : Byte, affine (invAffine b) = b := by decide +kernel

theorem subByte_bijective : Function.Bijective subByte := by
  refine Function.bijective_iff_has_inverse.mpr ⟨fun b => gfInv (invAffine b), ?_, ?_⟩
  · intro b
    exact (congrArg gfInv (invAffine_affine (gfInv b))).trans (gfInv_gfInv b)
  · intro b
    exact (congrArg affine (gfInv_gfInv (invAffine b))).trans (affine_invAffine b)

theorem subBytes_bijective : Function.Bijective subBytes :=
  Function.Bijective.piMap fun _ => Function.Bijective.piMap fun _ => subByte_bijective

/-! ## ShiftRows -/

theorem shiftRows_bijective : Function.Bijective shiftRows := by
  refine Function.bijective_iff_has_inverse.mpr ⟨fun s r c => s r (c - r), ?_, ?_⟩
  · intro s
    funext r c
    exact congrArg (s r) (sub_add_cancel c r)
  · intro s
    funext r c
    exact congrArg (s r) (add_sub_cancel_right c r)

/-! ## MixColumns -/

/-- The coefficients of {0b}x³ + {0d}x² + {09}x + {0e}. -/
def invMixPoly : Fin 4 → Byte := ![0x0e, 0x09, 0x0d, 0x0b]

theorem mixColumn_bijective : Function.Bijective mixColumn :=
  BinField.cyclic_bijective rijndael (b := invMixPoly) (by decide) (by decide +kernel)
    (by decide +kernel)

/-- Transposed, `mixColumns` is `mixColumn` on every column. -/
theorem mixColumns_bijective : Function.Bijective mixColumns := by
  have hswap : Function.Bijective (Function.swap : State → State) :=
    Function.Involutive.bijective fun _ => rfl
  have hcols : Function.Bijective fun (s : State) c => mixColumn (s c) :=
    Function.Bijective.piMap fun _ => mixColumn_bijective
  exact hswap.comp (hcols.comp hswap)

/-! ## The cipher -/

theorem addRoundKey_bijective (w : Nat → KeyWord) (round : Nat) :
    Function.Bijective (addRoundKey w round) := by
  refine Function.Involutive.bijective ?_
  intro s
  funext r c
  simp only [addRoundKey, BitVec.xor_assoc, BitVec.xor_self, BitVec.xor_zero]

theorem roundStep_bijective (w : Nat → KeyWord) (round : Nat) :
    Function.Bijective fun s => roundStep w s round :=
  (addRoundKey_bijective w round).comp
    (mixColumns_bijective.comp (shiftRows_bijective.comp subBytes_bijective))

/-- Any number of rounds. -/
theorem foldl_roundStep_bijective (w : Nat → KeyWord) (rounds : List Nat) :
    Function.Bijective fun s => rounds.foldl (roundStep w) s := by
  induction rounds with
  | nil => exact Function.bijective_id
  | cons round rounds ih => exact ih.comp (roundStep_bijective w round)

theorem cipher_bijective (w : Nat → KeyWord) : Function.Bijective (cipher w) := by
  have hrounds := (foldl_roundStep_bijective w (List.range' 1 13)).comp (addRoundKey_bijective w 0)
  have hlast := (addRoundKey_bijective w 14).comp (shiftRows_bijective.comp subBytes_bijective)
  have hcipher : cipher w = (addRoundKey w 14 ∘ shiftRows ∘ subBytes)
      ∘ (fun s => (List.range' 1 13).foldl (roundStep w) s) ∘ addRoundKey w 0 := by
    funext s
    simp only [cipher, Function.comp_apply]
  rw [hcipher]
  exact hlast.comp hrounds

end AeadPerf.Fips197

namespace AeadPerf.Aes

open Words

theorem matrix_bijective : Function.Bijective matrix := by
  rw [show matrix = Fips197.toState from funext matrix_eq_toState]
  refine Function.bijective_iff_has_inverse.mpr ⟨Fips197.ofState, ?_, ?_⟩
  · exact Fips197.ofState_toState
  · exact Fips197.toState_ofState

theorem aesEncryption_bijective (o : ByteOrder) (ks : KeySchedule) :
    Function.Bijective fun plainText => aesEncryption o plainText ks := by
  have hcomp : Function.Bijective (matrix ∘ fun plainText => aesEncryption o plainText ks) := by
    have hmatrix : (matrix ∘ fun plainText => aesEncryption o plainText ks)
        = Fips197.cipher (scheduleBytes o ks) ∘ matrix :=
      funext fun block => matrix_aesEncryption o ks block
    rw [hmatrix]
    exact (Fips197.cipher_bijective _).comp matrix_bijective
  exact (Function.Bijective.of_comp_iff' matrix_bijective _).mp hcomp

/-- **The cipher is a permutation under every key schedule**, and so distinct
counter blocks have distinct keystream blocks. -/
theorem aesEncryption_permutes_blocks (o : ByteOrder) (keySchedule : KeySchedule) :
    Function.Bijective (fun plainText => aesEncryption o plainText keySchedule)
      ∧ ∀ counter counter' : Block, counter ≠ counter' →
          aesEncryption o counter keySchedule ≠ aesEncryption o counter' keySchedule :=
  ⟨aesEncryption_bijective o keySchedule,
    fun _ _ hne => (aesEncryption_bijective o keySchedule).injective.ne hne⟩

end AeadPerf.Aes
