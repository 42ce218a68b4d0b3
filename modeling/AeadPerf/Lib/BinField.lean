/-
# `Lib.BinField` — GF(2)[x] modulo a polynomial, on bit vectors

A bit vector of width `w` is a polynomial over GF(2) of degree below `w`, bit
`i` the coefficient of `x^i`.  Given the lower part `p` of a modulus
`x^w + p(x)`, the ring operations are bit operations:

    addition            ^^^
    times x             `xtime`   shift, and subtract the modulus if x^w appears
    multiplication      `mul`     Horner's rule over the bits of one factor
    power 2^w - 2       `inv`     the inverse, in a field of 2^w elements

That these *are* the operations of GF(2)[x]/(x^w + p) is stated against
Mathlib's `AdjoinRoot`: `toRing` sends a bit vector to its class, is injective
(`toRing_injective`), and carries each operation to the ring's (`toRing_xor`,
`toRing_mul`, `toRing_inv`).  No irreducibility is
assumed; where every nonzero vector has a multiplicative inverse, which is a
finite check for a given `p`, `toRing_inv_eq` says that `inv` is inversion with
`0 ↦ 0`.
-/
import Mathlib.RingTheory.AdjoinRoot
import Mathlib.Algebra.CharP.Two
import Mathlib.Algebra.Field.ZMod
import Mathlib.Data.Fin.VecNotation
import Mathlib.Tactic.FinCases
import Mathlib.Tactic.LinearCombination

namespace BinField

variable {w : Nat} (p : BitVec w)

/-! ## The operations -/

/-- Multiplication by `x`. -/
def xtime (a : BitVec w) : BitVec w := a <<< 1 ^^^ if a.msb then p else 0

/-- Horner's rule: bits `n - 1, …, 0` of `b` still to be processed. -/
def mulAux (a b : BitVec w) : Nat → BitVec w → BitVec w
  | 0, acc => acc
  | n + 1, acc => mulAux a b n (xtime p acc ^^^ if b.getLsbD n then a else 0)

/-- The product modulo `x^w + p`. -/
def mul (a b : BitVec w) : BitVec w := mulAux p a b w 0

/-- `a ^ (2 ^ w - 2)`. -/
def inv (a : BitVec w) : BitVec w :=
  (fun r => let t := mul p r a; mul p t t)^[w - 1] 1

/-! ## The ring -/

open Polynomial

/-- The polynomial of a bit vector. -/
noncomputable def toPoly (a : BitVec w) : (ZMod 2)[X] :=
  ∑ i ∈ Finset.range w, if a.getLsbD i then X ^ i else 0

/-- `x^w + p(x)`. -/
noncomputable def modulus : (ZMod 2)[X] := X ^ w + toPoly p

/-- The class of a bit vector in GF(2)[x]/(x^w + p). -/
noncomputable def toRing (a : BitVec w) : AdjoinRoot (modulus p) := AdjoinRoot.mk _ (toPoly a)

theorem coeff_toPoly (a : BitVec w) (i : Nat) :
    (toPoly a).coeff i = if a.getLsbD i then 1 else 0 := by
  have hterm : ∀ j, (if a.getLsbD j then (X : (ZMod 2)[X]) ^ j else 0).coeff i
      = if i = j then (if a.getLsbD i then 1 else 0) else 0 := by
    intro j
    by_cases h : i = j
    · subst h
      cases a.getLsbD i <;> simp
    · cases a.getLsbD j <;> simp [h, coeff_X_pow]
  simp only [toPoly, finsetSum_coeff, hterm, Finset.sum_ite_eq, Finset.mem_range]
  by_cases hi : i < w
  · simp [hi]
  · simp [hi, BitVec.getLsbD_of_ge a i (by omega)]

theorem degree_toPoly_lt (a : BitVec w) : (toPoly a).degree < w := by
  refine (degree_lt_iff_coeff_zero _ _).mpr ?_
  intro i hi
  rw [coeff_toPoly, BitVec.getLsbD_of_ge a i hi]
  rfl

theorem degree_modulus : (modulus p).degree = w := by
  have h := degree_toPoly_lt p
  rw [modulus, degree_add_eq_left_of_degree_lt] <;> rw [degree_X_pow]
  exact h

theorem toPoly_injective {a b : BitVec w} (h : toPoly a = toPoly b) : a = b := by
  refine BitVec.eq_of_getLsbD_eq ?_
  intro i _
  have hi := congrArg (fun q => q.coeff i) h
  simp only [coeff_toPoly] at hi
  cases ha : a.getLsbD i <;> cases hb : b.getLsbD i <;> simp [ha, hb] at hi ⊢

/-- Distinct bit vectors are distinct ring elements. -/
theorem toRing_injective {a b : BitVec w} (h : toRing p a = toRing p b) : a = b := by
  have hdvd : modulus p ∣ toPoly a - toPoly b := AdjoinRoot.mk_eq_mk.mp h
  have hdeg : (toPoly a - toPoly b).degree < (modulus p).degree := by
    rw [degree_modulus]
    exact (degree_sub_le _ _).trans_lt (max_lt (degree_toPoly_lt a) (degree_toPoly_lt b))
  exact toPoly_injective (sub_eq_zero.mp (eq_zero_of_dvd_of_degree_lt hdvd hdeg))

theorem two_eq_zero : (2 : AdjoinRoot (modulus p)) = 0 := by
  have h : AdjoinRoot.of (modulus p) 2 = 2 := map_ofNat _ 2
  rw [← h, show (2 : ZMod 2) = 0 from rfl, map_zero]

theorem toRing_xor (a b : BitVec w) : toRing p (a ^^^ b) = toRing p a + toRing p b := by
  rw [toRing, toRing, toRing, ← map_add]
  congr 1
  ext i
  simp only [coeff_add, coeff_toPoly, BitVec.getLsbD_xor]
  cases a.getLsbD i <;> cases b.getLsbD i <;> decide

@[simp] theorem toRing_zero : toRing p 0 = 0 := by
  have h : toPoly (0 : BitVec w) = 0 := by simp [toPoly]
  rw [toRing, h, map_zero]

theorem toRing_one (hw : 0 < w) : toRing p 1 = 1 := by
  have h : toPoly (1 : BitVec w) = 1 := by
    ext i
    have hbit : (1 : BitVec w).getLsbD i = decide (i = 0) := by
      rw [show (1 : BitVec w) = 1#w from rfl, BitVec.getLsbD_one]
      simp [hw]
    rw [coeff_toPoly, coeff_one, hbit]
    simp
  rw [toRing, h, map_one]

theorem toRing_ite (c : Prop) [Decidable c] (a : BitVec w) :
    toRing p (if c then a else 0) = if c then toRing p a else 0 := by
  split
  · rfl
  · exact toRing_zero p

/-- `xtime` multiplies by `x`. -/
theorem toRing_xtime (a : BitVec w) :
    toRing p (xtime p a) = AdjoinRoot.root (modulus p) * toRing p a := by
  have hpoly : X * toPoly a = toPoly (a <<< 1) + if a.msb then X ^ w else 0 := by
    ext i
    cases i with
    | zero =>
        by_cases hw : w = 0
        · subst hw
          simp [coeff_toPoly, BitVec.msb_eq_getLsbD_last, BitVec.eq_nil a]
        · have hX : (X ^ w : (ZMod 2)[X]).coeff 0 = 0 := by simp [coeff_X_pow, Ne.symm hw]
          cases a.msb <;> simp [coeff_toPoly, hX]
    | succ i =>
        rw [coeff_X_mul, coeff_add, coeff_toPoly, coeff_toPoly]
        have hshift : (a <<< 1).getLsbD (i + 1) = (decide (i + 1 < w) && a.getLsbD i) := by
          simp
        rw [hshift]
        rcases Nat.lt_trichotomy (i + 1) w with h | h | h
        · have hX : (X ^ w : (ZMod 2)[X]).coeff (i + 1) = 0 := by simp [coeff_X_pow]; omega
          cases a.msb <;> simp [h, hX]
        · subst h
          rw [BitVec.msb_eq_getLsbD_last]
          simp only [lt_self_iff_false, decide_false, Bool.false_and, Nat.add_sub_cancel]
          cases a.getLsbD i <;> simp
        · have hX : (X ^ w : (ZMod 2)[X]).coeff (i + 1) = 0 := by simp [coeff_X_pow]; omega
          rw [BitVec.getLsbD_of_ge a i (by omega)]
          cases a.msb <;> simp [hX]
  have hmod : AdjoinRoot.mk (modulus p) (X ^ w) = toRing p p := by
    have h0 : AdjoinRoot.mk (modulus p) (X ^ w + toPoly p) = 0 := AdjoinRoot.mk_self
    rw [map_add] at h0
    have h2 := two_eq_zero p
    rw [toRing]
    linear_combination h0 - AdjoinRoot.mk (modulus p) (toPoly p) * h2
  have hmk := congrArg (AdjoinRoot.mk (modulus p)) hpoly
  rw [map_mul, AdjoinRoot.mk_X, map_add] at hmk
  rw [xtime, toRing_xor, toRing_ite, show toRing p a = AdjoinRoot.mk _ (toPoly a) from rfl, hmk]
  congr 1
  split
  · exact hmod.symm
  · exact (map_zero _).symm

/-- The value of the bits `n - 1, …, 0` of `b`, as a ring element. -/
noncomputable def lowBits (b : BitVec w) (n : Nat) : AdjoinRoot (modulus p) :=
  ∑ i ∈ Finset.range n, if b.getLsbD i then AdjoinRoot.root (modulus p) ^ i else 0

theorem toRing_eq_lowBits (b : BitVec w) : toRing p b = lowBits p b w := by
  rw [toRing, toPoly, map_sum, lowBits]
  refine Finset.sum_congr rfl ?_
  intro i _
  split
  · rw [map_pow, AdjoinRoot.mk_X]
  · exact map_zero _

theorem toRing_mulAux (a b : BitVec w) (n : Nat) (acc : BitVec w) :
    toRing p (mulAux p a b n acc)
      = AdjoinRoot.root (modulus p) ^ n * toRing p acc + toRing p a * lowBits p b n := by
  induction n generalizing acc with
  | zero => simp [mulAux, lowBits]
  | succ n ih =>
      rw [mulAux, ih, toRing_xor, toRing_xtime, toRing_ite, lowBits, lowBits, Finset.sum_range_succ]
      split <;> ring

/-- `mul` is the product of the ring. -/
theorem toRing_mul (a b : BitVec w) : toRing p (mul p a b) = toRing p a * toRing p b := by
  rw [mul, toRing_mulAux, toRing_zero, toRing_eq_lowBits p b]
  ring

/-- `inv` is the power `2^w - 2`. -/
theorem toRing_inv (hw : 0 < w) (a : BitVec w) :
    toRing p (inv p a) = toRing p a ^ (2 ^ w - 2) := by
  have hiter : ∀ k, toRing p ((fun r => let t := mul p r a; mul p t t)^[k] 1)
      = toRing p a ^ (2 ^ (k + 1) - 2) := by
    intro k
    induction k with
    | zero => exact toRing_one p hw
    | succ k ih =>
        rw [Function.iterate_succ_apply']
        simp only [toRing_mul, ih]
        have hpow : 2 ^ (k + 1) - 2 + 1 + (2 ^ (k + 1) - 2 + 1) = 2 ^ (k + 1 + 1) - 2 := by
          have := Nat.one_le_two_pow (n := k)
          rw [Nat.pow_succ, Nat.pow_succ]
          omega
        rw [← hpow, pow_add (toRing p a), pow_succ (toRing p a)]
  rw [inv, hiter, Nat.sub_add_cancel hw]

/-- Where `inv` inverts every nonzero vector, it is inversion with `0 ↦ 0`. -/
theorem toRing_inv_eq (hw : 1 < w) (h : ∀ a : BitVec w, a ≠ 0 → mul p a (inv p a) = 1)
    (a : BitVec w) : toRing p (inv p a) = Ring.inverse (toRing p a) := by
  by_cases ha : a = 0
  · subst ha
    have hpos : 2 ^ w - 2 ≠ 0 := by
      have := Nat.pow_le_pow_right (n := 2) (by decide) hw
      omega
    rw [toRing_inv p (by omega), toRing_zero, Ring.inverse_zero, zero_pow hpos]
  · have hmul : toRing p a * toRing p (inv p a) = 1 := by
      rw [← toRing_mul, h a ha, toRing_one p (by omega)]
    have hunit : IsUnit (toRing p a) := IsUnit.of_mul_eq_one _ hmul
    rw [← Ring.inverse_mul_cancel_left _ (toRing p (inv p a)) hunit, hmul, mul_one]

theorem one_mul' (hw : 0 < w) (a : BitVec w) : mul p 1 a = a := by
  apply toRing_injective p
  rw [toRing_mul, toRing_one p hw, one_mul]

theorem inv_inv' (hw : 1 < w) (h : ∀ a : BitVec w, a ≠ 0 → mul p a (inv p a) = 1) (a : BitVec w) :
    inv p (inv p a) = a := by
  apply toRing_injective p
  rw [toRing_inv_eq p hw h, toRing_inv_eq p hw h]
  by_cases ha : a = 0
  · rw [ha, toRing_zero, Ring.inverse_zero, Ring.inverse_zero]
  · have hmul : toRing p a * toRing p (inv p a) = 1 := by
      rw [← toRing_mul, h a ha, toRing_one p (by omega)]
    obtain ⟨u, hu⟩ : IsUnit (toRing p a) := IsUnit.of_mul_eq_one _ hmul
    rw [← hu, Ring.inverse_unit, Ring.inverse_unit, inv_inv]

/-! ## Products modulo x⁴ + 1

Polynomials of degree below 4 over the ring, as their coefficients, constant
term first.  In characteristic 2 their product modulo x⁴ + 1 is the cyclic
convolution. -/

/-- Coefficient `r` of the product: the indices of the products that meet in it
add up to `r` modulo 4. -/
def cyclic (a s : Fin 4 → BitVec w) (r : Fin 4) : BitVec w :=
  mul p (a r) (s 0) ^^^ mul p (a (r - 1)) (s 1) ^^^ mul p (a (r - 2)) (s 2)
    ^^^ mul p (a (r - 3)) (s 3)

theorem toRing_cyclic (a s : Fin 4 → BitVec w) (r : Fin 4) :
    toRing p (cyclic p a s r)
      = toRing p (a r) * toRing p (s 0) + toRing p (a (r - 1)) * toRing p (s 1)
        + toRing p (a (r - 2)) * toRing p (s 2) + toRing p (a (r - 3)) * toRing p (s 3) := by
  simp only [cyclic, toRing_xor, toRing_mul]

/-- The product of the two polynomials and the polynomial of `cyclic` differ by
a multiple of x⁴ + 1. -/
theorem cyclic_dvd (a s : Fin 4 → BitVec w) :
    (X ^ 4 + 1 : (AdjoinRoot (modulus p))[X]) ∣
      (∑ i : Fin 4, C (toRing p (a i)) * X ^ i.val) * (∑ j : Fin 4, C (toRing p (s j)) * X ^ j.val)
      - ∑ r : Fin 4, C (toRing p (cyclic p a s r)) * X ^ r.val := by
  have h2 : (2 : (AdjoinRoot (modulus p))[X]) = 0 := by
    rw [← map_ofNat C 2, two_eq_zero, map_zero]
  -- the products whose degree reaches 4, shifted down by 4
  let a' := fun i => C (toRing p (a i))
  let s' := fun i => C (toRing p (s i))
  let q := a' 1 * s' 3 + a' 2 * s' 2 + a' 3 * s' 1 + (a' 2 * s' 3 + a' 3 * s' 2) * X
    + a' 3 * s' 3 * X ^ 2
  refine ⟨q, ?_⟩
  simp only [toRing_cyclic, Fin.sum_univ_four, map_add, map_mul, Fin.isValue, Fin.reduceSub,
    Fin.val_zero, Fin.val_one, Fin.val_two, show (3 : Fin 4).val = 3 from rfl, sub_self, q, a', s']
  linear_combination (-q) * h2

theorem cyclic_assoc (a b s : Fin 4 → BitVec w) :
    cyclic p a (cyclic p b s) = cyclic p (cyclic p a b) s := by
  funext r
  apply toRing_injective p
  simp only [toRing_cyclic]
  fin_cases r <;> simp only [Fin.isValue, Fin.reduceFinMk, Fin.zero_eta, Fin.reduceSub, Fin.mk_one] <;>
    ring

/-- The constant polynomial 1. -/
theorem cyclic_one (hw : 0 < w) (s : Fin 4 → BitVec w) : cyclic p ![1, 0, 0, 0] s = s := by
  funext r
  apply toRing_injective p
  have h0 : toRing p 0#w = 0 := toRing_zero p
  have h1 : toRing p 1#w = 1 := toRing_one p hw
  rw [toRing_cyclic]
  fin_cases r <;> simp [h0, h1]

/-- Multiplying by `a` is a bijection where `a` has an inverse. -/
theorem cyclic_bijective (hw : 0 < w) {a b : Fin 4 → BitVec w} (hba : cyclic p b a = ![1, 0, 0, 0])
    (hab : cyclic p a b = ![1, 0, 0, 0]) : Function.Bijective (cyclic p a) := by
  refine Function.bijective_iff_has_inverse.mpr ⟨cyclic p b, ?_, ?_⟩
  · intro s
    rw [cyclic_assoc, hba, cyclic_one p hw]
  · intro s
    rw [cyclic_assoc, hab, cyclic_one p hw]

end BinField
