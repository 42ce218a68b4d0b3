/-
# `ChaCha.Perm` — the rounds of ChaCha20 lose nothing

The ten passes of the round loop of `chacha20_hash`, up to the addition of the input,
are a bijection on the working states.  The inverse is built from the inside out:

    half a quarter round     a += b, d ^= a, d <<<= r, c += d, b ^= c, b <<<= s
                             undone from the last assignment on (`halfRoundInv`)
    quarter round            two halves (`quarterRound_eq`)
    column round             a quarter round on every column, transposed
    diagonal round           the column round between `skew` and `unskew`
    the loop                 ten of both, and `mat` carries them to the code

Loading the state is injective too, so inputs that differ are still told apart by the
working state before the addition (`rounds_bijective_expansionState_ne`).
-/
import AeadPerf.ChaCha.Rows
import Mathlib.Logic.Function.Iterate

namespace AeadPerf.Rfc8439

open Words

/-! ## The quarter round -/

/-- Four of the eight assignments of a quarter round, with their shifts. -/
def halfRound (r s : Nat) (v : Fin 4 → Word) : Fin 4 → Word :=
  let a := v 0 + v 1
  let d := (v 3 ^^^ a).rotateLeft r
  let c := v 2 + d
  let b := (v 1 ^^^ c).rotateLeft s
  ![a, b, c, d]

def halfRoundInv (r s : Nat) (v : Fin 4 → Word) : Fin 4 → Word :=
  let b := (v 1).rotateRight s ^^^ v 2
  let c := v 2 - v 3
  let d := (v 3).rotateRight r ^^^ v 0
  let a := v 0 - b
  ![a, b, c, d]

/-- An xor and a rotation, undone … -/
theorem rotateRight_xor_cancel {s : Nat} (hs : s < 32) (x y : Word) :
    ((x ^^^ y).rotateLeft s).rotateRight s ^^^ y = x := by
  rw [rotateRight_rotateLeft _ hs, BitVec.xor_assoc, BitVec.xor_self, BitVec.xor_zero]

/-- … and the other way round. -/
theorem rotateLeft_xor_cancel {s : Nat} (hs : s < 32) (x y : Word) :
    (x.rotateRight s ^^^ y ^^^ y).rotateLeft s = x := by
  rw [BitVec.xor_assoc, BitVec.xor_self, BitVec.xor_zero, rotateLeft_rotateRight _ hs]

theorem halfRoundInv_halfRound {r s : Nat} (hr : r < 32) (hs : s < 32) (v : Fin 4 → Word) :
    halfRoundInv r s (halfRound r s v) = v := by
  have hb : halfRoundInv r s (halfRound r s v) 1 = v 1 := rotateRight_xor_cancel hs _ _
  have hc : halfRoundInv r s (halfRound r s v) 2 = v 2 := BitVec.add_sub_cancel _ _
  have hd : halfRoundInv r s (halfRound r s v) 3 = v 3 := rotateRight_xor_cancel hr _ _
  have ha : halfRoundInv r s (halfRound r s v) 0 = v 0 := by
    show v 0 + v 1 - halfRoundInv r s (halfRound r s v) 1 = v 0
    rw [hb, BitVec.add_sub_cancel]
  funext i
  fin_cases i
  · exact ha
  · exact hb
  · exact hc
  · exact hd

theorem halfRound_halfRoundInv {r s : Nat} (hr : r < 32) (hs : s < 32) (v : Fin 4 → Word) :
    halfRound r s (halfRoundInv r s v) = v := by
  have ha : halfRound r s (halfRoundInv r s v) 0 = v 0 := BitVec.sub_add_cancel _ _
  have hd : halfRound r s (halfRoundInv r s v) 3 = v 3 := by
    show ((v 3).rotateRight r ^^^ v 0 ^^^ halfRound r s (halfRoundInv r s v) 0).rotateLeft r = v 3
    rw [ha, rotateLeft_xor_cancel hr]
  have hc : halfRound r s (halfRoundInv r s v) 2 = v 2 := by
    show v 2 - v 3 + halfRound r s (halfRoundInv r s v) 3 = v 2
    rw [hd, BitVec.sub_add_cancel]
  have hb : halfRound r s (halfRoundInv r s v) 1 = v 1 := by
    show ((v 1).rotateRight s ^^^ v 2 ^^^ halfRound r s (halfRoundInv r s v) 2).rotateLeft s = v 1
    rw [hc, rotateLeft_xor_cancel hs]
  funext i
  fin_cases i
  · exact ha
  · exact hb
  · exact hc
  · exact hd

theorem halfRound_bijective {r s : Nat} (hr : r < 32) (hs : s < 32) :
    Function.Bijective (halfRound r s) :=
  Function.bijective_iff_has_inverse.mpr
    ⟨halfRoundInv r s, halfRoundInv_halfRound hr hs, halfRound_halfRoundInv hr hs⟩

theorem quarterRound_eq (v : Fin 4 → Word) :
    quarterRound (v 0) (v 1) (v 2) (v 3) = halfRound 8 7 (halfRound 16 12 v) := rfl

theorem quarterRound_bijective :
    Function.Bijective fun v : Fin 4 → Word => quarterRound (v 0) (v 1) (v 2) (v 3) := by
  have hround : (fun v : Fin 4 → Word => quarterRound (v 0) (v 1) (v 2) (v 3))
      = halfRound 8 7 ∘ halfRound 16 12 := funext quarterRound_eq
  have hfirst := halfRound_bijective (r := 16) (s := 12) (by decide) (by decide)
  have hsecond := halfRound_bijective (r := 8) (s := 7) (by decide) (by decide)
  rw [hround]
  exact hsecond.comp hfirst

/-! ## The rounds -/

/-- Transposed, `columnRound` is the quarter round on every column. -/
theorem columnRound_bijective : Function.Bijective columnRound := by
  have hswap : Function.Bijective (Function.swap : State → State) :=
    Function.Involutive.bijective fun _ => rfl
  have hcols : Function.Bijective (Pi.map fun (_ : Fin 4) (v : Fin 4 → Word) =>
      quarterRound (v 0) (v 1) (v 2) (v 3)) :=
    Function.Bijective.piMap fun _ => quarterRound_bijective
  have hround : columnRound = Function.swap ∘ (Pi.map fun (_ : Fin 4) (v : Fin 4 → Word) =>
      quarterRound (v 0) (v 1) (v 2) (v 3)) ∘ Function.swap := rfl
  rw [hround]
  exact hswap.comp (hcols.comp hswap)

end AeadPerf.Rfc8439

namespace AeadPerf.ChaCha

open Words
open Rfc8439 (State)

theorem unskew_skew (s : State) : unskew (skew s) = s := by
  funext r c
  simp only [unskew, skew, sub_add_cancel]

theorem skew_unskew (s : State) : skew (unskew s) = s := by
  funext r c
  simp only [unskew, skew, add_sub_cancel_right]

theorem skew_bijective : Function.Bijective skew :=
  Function.bijective_iff_has_inverse.mpr ⟨unskew, unskew_skew, skew_unskew⟩

theorem unskew_bijective : Function.Bijective unskew :=
  Function.bijective_iff_has_inverse.mpr ⟨skew, skew_unskew, unskew_skew⟩

theorem diagonalRound_bijective : Function.Bijective Rfc8439.diagonalRound := by
  have hround : Rfc8439.diagonalRound = unskew ∘ Rfc8439.columnRound ∘ skew :=
    funext fun s => (unskew_columnRound_skew s).symm
  rw [hround]
  exact unskew_bijective.comp (Rfc8439.columnRound_bijective.comp skew_bijective)

theorem innerBlock_bijective : Function.Bijective Rfc8439.innerBlock :=
  diagonalRound_bijective.comp Rfc8439.columnRound_bijective

/-- Every matrix is that of a working state. -/
theorem mat_bijective : Function.Bijective mat := by
  refine ⟨mat_injective, ?_⟩
  intro s
  refine ⟨Vector.ofFn fun i => s (Fin.ofNat 4 (i.val / 4)) (Fin.ofNat 4 i.val), ?_⟩
  funext r c
  have hrow : Fin.ofNat 4 ((4 * r.val + c.val) / 4) = r := Fin.ext (by simp; omega)
  have hcol : Fin.ofNat 4 (4 * r.val + c.val) = c := Fin.ext (by simp)
  simp only [mat, Vector.getElem_ofFn, hrow, hcol]

/-- The round loop of the code. -/
theorem rounds_bijective : Function.Bijective rounds := by
  have hcomp : Function.Bijective (mat ∘ rounds) := by
    have hmat : mat ∘ rounds = Rfc8439.innerBlock^[10] ∘ mat := funext mat_rounds
    rw [hmat]
    exact (innerBlock_bijective.iterate 10).comp mat_bijective
  exact (Function.Bijective.of_comp_iff' mat_bijective rounds).mp hcomp

/-! ## The input -/

/-- A word determines the bytes it was loaded from. -/
theorem loadWord32Le_inj {n : Nat} {b b' : Vector Byte n} {off : Nat} (h : off + 3 < n)
    (heq : loadWord32Le b off h = loadWord32Le b' off h) (j : Nat) (hj : j < 4) :
    b[off + j] = b'[off + j] := by
  rw [loadWord32Le_eq, loadWord32Le_eq] at heq
  have hbyte := congrArg (byteAt · j) heq
  interval_cases j <;> simpa using hbyte

theorem expansionState_injective (key : Vector Byte 32) : Function.Injective (expansionState key) := by
  intro input input' h
  have hwords : ∀ (i : Nat) (hi : 4 * i + 3 < 16),
      loadWord32Le input (4 * i) hi = loadWord32Le input' (4 * i) hi := by
    intro i hi
    have hword := congrArg (fun x => x[12 + i]?) h
    rcases (by omega : i = 0 ∨ i = 1 ∨ i = 2 ∨ i = 3) with rfl | rfl | rfl | rfl <;>
      simpa [expansionState] using hword
  refine Vector.ext ?_
  intro j hj
  have hbyte := loadWord32Le_inj (by omega) (hwords (j / 4) (by omega)) (j % 4) (by omega)
  simpa only [Nat.div_add_mod] using hbyte

/-- **The rounds are a bijection**, so inputs to one key that differ reach working states
that differ. -/
theorem rounds_bijective_expansionState_ne :
    Function.Bijective rounds
      ∧ ∀ (key : Vector Byte 32) (input input' : Vector Byte 16), input ≠ input' →
          rounds (expansionState key input) ≠ rounds (expansionState key input') := by
  refine ⟨rounds_bijective, ?_⟩
  intro key input input' hne
  exact rounds_bijective.injective.ne ((expansionState_injective key).ne hne)

end AeadPerf.ChaCha
