/-
# `Aes.Bytes` — what each AES function does to the bytes of the state

One lemma per function of `Aes.Core`, in terms of `matrix`, so that nothing
above this module unfolds a loop, a union view or a table lookup of words:

    SubBytes        s[r,c]  ↦  S(s[r,c])
    ShiftRows       s[r,c]  ↦  s[r, c + r]
    MixColumns      column c  ↦  mixColumn of column c
    KeyAddition     s[r,c]  ↦  s[r,c] ^ byte r of the memory of word c of the key

The host's byte order appears in the last line only, in the memory of a round
key word.  The two conversions of the union cancel everywhere else, which is
why `aes_encryption` depends on the host no further than its key schedule does.
-/
import AeadPerf.Aes.Core
import Mathlib.Tactic.FinCases
import Mathlib.Data.Fintype.Basic

namespace AeadPerf.Aes

open Words

/-! ## In-place loops over arrays -/

/-- `for(i = 0; i < m; i++) v[i] = f(i, v[i])` touches the first `m` entries,
each once. -/
theorem getElem_foldl_set {α : Type} {n m : Nat} (hm : m ≤ n) (f : Fin m → α → α) (v : Vector α n)
    (j : Nat) (hj : j < n) :
    (Fin.foldl m (fun v i => v.set i.val (f i v[i.val])) v)[j]
      = if h : j < m then f ⟨j, h⟩ v[j] else v[j] := by
  induction m generalizing j with
  | zero => simp
  | succ m ih =>
      have hinit := ih (by omega) (fun i => f i.castSucc)
      simp only [Fin.foldl_succ_last, Fin.val_castSucc, Fin.val_last, Vector.getElem_set, hinit]
      rcases Nat.lt_trichotomy j m with h | rfl | h
      · simp [h, show j < m + 1 by omega, show m ≠ j by omega]
      · simp [Fin.last]
      · simp [show ¬ j < m by omega, show ¬ j < m + 1 by omega, show m ≠ j by omega]

/-- The same loop over a whole array, as an equation. -/
theorem foldl_set_eq_ofFn {α : Type} {n : Nat} (f : Fin n → α → α) (v : Vector α n) :
    Fin.foldl n (fun v i => v.set i.val (f i v[i.val])) v = Vector.ofFn fun i => f i v[i] := by
  refine Vector.ext ?_
  intro j hj
  rw [getElem_foldl_set le_rfl, dif_pos hj, Vector.getElem_ofFn]
  rfl

/-! ## The views -/

theorem matrix_setMatrix (s : Block) (r c r' c' : Fin 4) (b : Byte) :
    matrix (setMatrix s r c b) r' c' = if r = r' ∧ c = c' then b else matrix s r' c' := by
  simp only [matrix, setMatrix, Vector.getElem_set]
  congr 1
  simp only [Fin.ext_iff, eq_iff_iff]
  omega

theorem matrix_ofColArr (o : ByteOrder) (w : Vector Word 4) (r c : Fin 4) :
    matrix (ofColArr o w) r c = (o.bytes (w.get c)).get r := by
  have hcol : Fin.ofNat 4 ((4 * c.val + r.val) / 4) = c := Fin.ext (by simp; omega)
  have hrow : Fin.ofNat 4 (4 * c.val + r.val) = r := Fin.ext (by simp)
  simp only [matrix, ofColArr, Vector.getElem_ofFn, hcol, hrow]

theorem bytes_colArr (o : ByteOrder) (s : Block) (c : Fin 4) :
    o.bytes ((colArr o s).get c) = #v[matrix s 0 c, matrix s 1 c, matrix s 2 c, matrix s 3 c] := by
  rw [colArr, get_ofFn, ByteOrder.bytes_word]

/-- Reading a column back through the bytes. -/
theorem getElem_bytes_colArr (o : ByteOrder) (s : Block) (r c : Fin 4) :
    (o.bytes ((colArr o s).get c)).get r = matrix s r c := by
  rw [bytes_colArr]
  fin_cases r <;> rfl

/-! ## The round functions -/

theorem matrix_subBytes (s : Block) (r c : Fin 4) :
    matrix (subBytes s) r c = sBoxAt (matrix s r c) := by
  simp only [subBytes, Fin.foldl_succ, Fin.foldl_zero, matrix_setMatrix]
  fin_cases r <;> fin_cases c <;> simp

theorem matrix_shiftRows (s : Block) (r c : Fin 4) :
    matrix (shiftRows s) r c = matrix s r (c + r) := by
  fin_cases r <;> fin_cases c <;> simp [shiftRows, Fin.foldl_succ, matrix_setMatrix]

theorem matrix_mixColumns (o : ByteOrder) (s : Block) (r c : Fin 4) :
    matrix (ofColArr o (mixColumns o (colArr o s))) r c
      = (mixColumn #v[matrix s 0 c, matrix s 1 c, matrix s 2 c, matrix s 3 c]).get r := by
  have hloop : mixColumns o (colArr o s)
      = Vector.ofFn fun i => o.word (mixColumn (o.bytes (colArr o s)[i])) :=
    foldl_set_eq_ofFn (fun _ w => o.word (mixColumn (o.bytes w))) (colArr o s)
  rw [matrix_ofColArr, hloop, ← bytes_colArr o, get_ofFn, ByteOrder.bytes_word]
  rfl

theorem matrix_addRoundKey (o : ByteOrder) (ks : KeySchedule) (k : Fin 15) (s : Block)
    (r c : Fin 4) :
    matrix (addRoundKey o ks k s) r c
      = matrix s r c ^^^ (o.bytes ((roundKey ks k).get c)).get r := by
  have hloop : keyAddition (colArr o s) (roundKey ks k)
      = Vector.ofFn fun i => (colArr o s)[i] ^^^ (roundKey ks k)[i] :=
    foldl_set_eq_ofFn (fun i w => w ^^^ (roundKey ks k)[i]) (colArr o s)
  rw [addRoundKey, matrix_ofColArr, hloop, ← getElem_bytes_colArr o s r c]
  simp [ByteOrder.bytes_xor, get_eq]

end AeadPerf.Aes
