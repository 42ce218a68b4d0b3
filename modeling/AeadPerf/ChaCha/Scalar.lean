/-
# `ChaCha.Scalar` — the scalar code computes RFC 8439

Three steps, from the inside out.

* **Core.**  Under `mat`, the sixteen words of the working state are the matrix of
  the standard, word `4 * r + c` at row `r` of column `c`; `columnPass` and
  `diagonalPass` are its two rounds (`mat_columnPass`, `mat_diagonalPass`).
* **Block.**  `chacha20_expansion` loads a state and serialises the sum; its sixteen
  input bytes are the counter and the nonce (`chacha20Expansion_eq`).
* **Message.**  The block loop is `encryptBlocks`; what it keeps of the counter is
  serialised in `iv`, and stays so (`storeCount_initIv`), whatever the expansion is.
-/
import AeadPerf.ChaCha.Core
import AeadPerf.ChaCha.Rfc8439
import Mathlib.Tactic.FinCases
import Mathlib.Tactic.SplitIfs
import Mathlib.Data.Fintype.Basic

namespace AeadPerf.ChaCha

open Words Checked KeyStream
open Rfc8439 (State)

/-! ## Loads and stores -/

theorem setWidth_shiftRight (w : Word) (j : Nat) : (w >>> (8 * j)).setWidth 8 = byteAt w j := by
  refine BitVec.eq_of_getLsbD_eq ?_
  intro i hi
  simp [byteAt, hi]

/-- A store writes the four bytes of the word, the least significant first. -/
theorem getElem_storeWord32Le {n : Nat} (b : Vector Byte n) (off : Nat) (h : off + 3 < n) (w : Word)
    (j : Nat) (hj : j < n) :
    (storeWord32Le b off h w)[j] = if off ≤ j ∧ j < off + 4 then byteAt w (j - off) else b[j] := by
  have h₀ : w.setWidth 8 = byteAt w 0 := by rw [← setWidth_shiftRight]; rfl
  have h₁ : (w >>> 8).setWidth 8 = byteAt w 1 := setWidth_shiftRight w 1
  have h₂ : (w >>> 16).setWidth 8 = byteAt w 2 := setWidth_shiftRight w 2
  have h₃ : (w >>> 24).setWidth 8 = byteAt w 3 := setWidth_shiftRight w 3
  simp only [storeWord32Le, storeBytes, h₀, h₁, h₂, h₃, Vector.getElem_set]
  by_cases hin : off ≤ j ∧ j < off + 4
  · rw [if_pos hin]
    rcases (by omega : j = off ∨ j = off + 1 ∨ j = off + 2 ∨ j = off + 3) with rfl | rfl | rfl | rfl <;>
      simp
  · rw [if_neg hin, if_neg (by omega), if_neg (by omega), if_neg (by omega), if_neg (by omega)]

/-! ## The core -/

theorem rotl32_eq (w : Word) {s : Nat} (h₁ : 0 < s) (h₂ : s < 32) : rotl32 w s = w.rotateLeft s := by
  rw [rotl32, if_neg (by omega), BitVec.rotateLeft_def, Nat.mod_eq_of_lt h₂,
    show ((32 : Int) - (s : Int)).toNat = 32 - s by omega]
  rfl

/-- The quarter round of the code, at four different indices. -/
theorem getElem_chachaQuarterRound (x : Vector Word 16) {a b c d : Fin 16} (hab : a ≠ b) (hac : a ≠ c)
    (had : a ≠ d) (hbc : b ≠ c) (hbd : b ≠ d) (hcd : c ≠ d) (j : Nat) (hj : j < 16) :
    (chachaQuarterRound x a b c d)[j]
      = if b.val = j then Rfc8439.quarterRound x[a] x[b] x[c] x[d] 1
        else if c.val = j then Rfc8439.quarterRound x[a] x[b] x[c] x[d] 2
        else if d.val = j then Rfc8439.quarterRound x[a] x[b] x[c] x[d] 3
        else if a.val = j then Rfc8439.quarterRound x[a] x[b] x[c] x[d] 0
        else x[j] := by
  have h16 : ∀ w, rotl32 w 16 = w.rotateLeft 16 := fun w => rotl32_eq w (s := 16) (by decide) (by decide)
  have h12 : ∀ w, rotl32 w 12 = w.rotateLeft 12 := fun w => rotl32_eq w (s := 12) (by decide) (by decide)
  have h8 : ∀ w, rotl32 w 8 = w.rotateLeft 8 := fun w => rotl32_eq w (s := 8) (by decide) (by decide)
  have h7 : ∀ w, rotl32 w 7 = w.rotateLeft 7 := fun w => rotl32_eq w (s := 7) (by decide) (by decide)
  have hab' := Fin.val_ne_of_ne hab
  have hac' := Fin.val_ne_of_ne hac
  have had' := Fin.val_ne_of_ne had
  have hbc' := Fin.val_ne_of_ne hbc
  have hbd' := Fin.val_ne_of_ne hbd
  have hcd' := Fin.val_ne_of_ne hcd
  simp [chachaQuarterRound, Rfc8439.quarterRound, Vector.getElem_set, h16, h12, h8, h7, hab', hac',
    had', hbc', hbd', hcd', hab'.symm, hac'.symm, had'.symm, hbc'.symm, hbd'.symm, hcd'.symm]
  -- the last store at an index is the one that is read
  by_cases hb : b.val = j
  · simp only [hb, if_true]
  · by_cases hc : c.val = j
    · simp only [hb, hc, if_true, if_false]
    · by_cases hd : d.val = j
      · simp only [hb, hc, hd, if_true, if_false]
      · simp only [hb, hc, hd, if_false]
        by_cases ha : a.val = j
        · simp only [ha, if_true]
        · simp only [ha, if_false]

/-- The working state as a matrix. -/
def mat (z : Vector Word 16) : State := fun r c => z[4 * r.val + c.val]

theorem mat_injective : Function.Injective mat := by
  intro z z' h
  refine Vector.ext ?_
  intro j hj
  have hrc := congrFun (congrFun h ⟨j / 4, by omega⟩) ⟨j % 4, by omega⟩
  simpa only [mat, Nat.div_add_mod] using hrc

theorem mat_columnPass (z : Vector Word 16) : mat (columnPass z) = Rfc8439.columnRound (mat z) := by
  funext r c
  simp only [mat, columnPass, Rfc8439.columnRound]
  fin_cases r <;> fin_cases c <;> simp [getElem_chachaQuarterRound]

theorem mat_diagonalPass (z : Vector Word 16) :
    mat (diagonalPass z) = Rfc8439.diagonalRound (mat z) := by
  funext r c
  simp only [mat, diagonalPass, Rfc8439.diagonalRound]
  fin_cases r <;> fin_cases c <;>
    simp only [Fin.isValue, Fin.reduceFinMk, Fin.zero_eta, Fin.mk_one, Fin.reduceSub, Fin.reduceAdd] <;>
    simp [getElem_chachaQuarterRound]

theorem mat_rounds (z : Vector Word 16) : mat (rounds z) = Rfc8439.innerBlock^[10] (mat z) := by
  have hloop : ∀ m : Nat, mat (Fin.foldl m (fun z _ => diagonalPass (columnPass z)) z)
      = Rfc8439.innerBlock^[m] (mat z) := by
    intro m
    induction m with
    | zero => rfl
    | succ m ih =>
        rw [Fin.foldl_succ_last, mat_diagonalPass, mat_columnPass, ih, Function.iterate_succ_apply']
        rfl
  exact hloop 10

/-! ## The block -/

/-- The invariant of the last loop of `chacha20_hash`: what is still to be added to,
and what has been stored. -/
def HashInv (x z : Vector Word 16) (m : Nat) (zy : Vector Word 16 × Vector Byte 64) : Prop :=
  (∀ (j : Nat) (hj : j < 16), m ≤ j → zy.1[j] = z[j])
    ∧ ∀ (j : Nat) (hj : j < 64), j < 4 * m → zy.2[j] = byteAt (z[j / 4] + x[j / 4]) (j % 4)

theorem hashPass_inv (x z : Vector Word 16) (i : Fin 16) (zy : Vector Word 16 × Vector Byte 64)
    (h : HashInv x z i zy) : HashInv x z (i.val + 1) (hashPass x zy i) := by
  obtain ⟨hz, hy⟩ := h
  constructor
  · intro j hj hij
    rw [hashPass, Vector.getElem_set_ne _ _ (by omega), hz j hj (by omega)]
  · intro j hj hlt
    have hzi := hz i.val i.isLt le_rfl
    rw [hashPass, getElem_storeWord32Le]
    by_cases hin : i.val * 4 ≤ j ∧ j < i.val * 4 + 4
    · have hdiv : j / 4 = i.val := by omega
      have hmod : j - i.val * 4 = j % 4 := by omega
      simp only [hin, hdiv, hmod, and_self, if_true, Fin.getElem_fin, Vector.getElem_set_self, hzi]
    · rw [if_neg hin, hy j hj (by omega)]

/-- The output of `chacha20_hash`: the sum of the two states, little-endian. -/
theorem getElem_chacha20Hash (x : Vector Word 16) (y : Vector Byte 64) (j : Nat) (hj : j < 64) :
    (chacha20Hash x y)[j] = byteAt ((rounds x)[j / 4] + x[j / 4]) (j % 4) := by
  have hloop : HashInv x (rounds x) 16 (Fin.foldl 16 (hashPass x) (rounds x, y)) :=
    foldl_inv (HashInv x (rounds x)) ⟨fun _ _ _ => rfl, fun _ _ h => absurd h (by omega)⟩
      (fun i zy h => hashPass_inv x (rounds x) i zy h)
  exact hloop.2 j hj hj

/-- `chacha20_hash` on a state that is the matrix `s`. -/
theorem chacha20Hash_eq {x : Vector Word 16} {s : State} (h : mat x = s) (y : Vector Byte 64) :
    chacha20Hash x y = Rfc8439.serialize fun r c => (Rfc8439.innerBlock^[10] s) r c + s r c := by
  subst h
  refine Vector.ext ?_
  intro j hj
  have hindex : 4 * (j / 16) + j / 4 % 4 = j / 4 := by omega
  rw [getElem_chacha20Hash, ← mat_rounds]
  simp only [Rfc8439.serialize, Vector.getElem_ofFn, mat, hindex]

/-- The nonce in the sixteen input bytes. -/
def inputNonce (input : Vector Byte 16) : Vector Byte 12 := Vector.ofFn fun i => input[i.val + 4]

theorem mat_expansionState (key : Vector Byte 32) (input : Vector Byte 16) :
    mat (expansionState key input)
      = Rfc8439.initState key (loadCount input) (inputNonce input) := by
  have hnonce : ∀ (i : Nat) (h : 4 * i + 3 < 12),
      loadWord32Le input (4 * i + 4) (by omega) = Rfc8439.leWord (inputNonce input) i h := by
    intro i h
    rw [loadWord32Le_eq, Rfc8439.leWord]
    simp only [inputNonce, Vector.getElem_ofFn, Nat.add_right_comm]
  funext r c
  fin_cases r
  · fin_cases c <;> rfl
  · fin_cases c <;> exact loadWord32Le_eq key _ _
  · fin_cases c <;> exact loadWord32Le_eq key _ _
  · fin_cases c
    · rfl
    · exact hnonce 0 (by decide)
    · exact hnonce 1 (by decide)
    · exact hnonce 2 (by decide)

/-- **One block**: the expansion is the block function of the standard. -/
theorem chacha20Expansion_eq (key : Vector Byte 32) (input : Vector Byte 16) :
    chacha20Expansion key input
      = Rfc8439.block key (loadCount input) (inputNonce input) :=
  chacha20Hash_eq (mat_expansionState key input) _

/-- The first row of the keystream in `test_chacha20.c`. -/
example :
    (chacha20Expansion (Vector.ofFn fun i => BitVec.ofNat 8 i)
      (initIv #v[0, 0, 0, 0, 0, 0, 0, 0x4a, 0, 0, 0, 0] 1)).toArray.extract 0 16
    = #[0x22, 0x4f, 0x51, 0xf3, 0x40, 0x1b, 0xd9, 0xe1, 0x2f, 0xde, 0x27, 0x6f, 0xb8, 0x63, 0x1d, 0xed] := by
  decide +kernel

/-! ## The counter in `iv` -/

/-- The sixteen bytes: the counter, little-endian, then the nonce. -/
theorem getElem_initIv (n : Vector Byte 12) (c : Word) (j : Nat) (hj : j < 16) :
    (initIv n c)[j] = if j < 4 then byteAt c j else n[j - 4] := by
  have hcopy : ∀ (j : Nat) (hj : j < 16), j < 4 + 12 →
      (initIv n c)[j] = if j < 4 then byteAt c j else n[j - 4] := by
    refine foldl_inv (fun m (iv : Vector Byte 16) => ∀ (j : Nat) (hj : j < 16), j < 4 + m →
      iv[j] = if j < 4 then byteAt c j else n[j - 4]) ?_ ?_
    · intro j hj hlt
      rw [storeCount, getElem_storeWord32Le, if_pos (by omega), if_pos (by omega), Nat.sub_zero]
    · intro i iv hiv j hj hlt
      rw [Vector.getElem_set]
      by_cases hij : 4 + i.val = j
      · subst hij
        rw [if_pos rfl, if_neg (by omega)]
        simp
      · rw [if_neg hij, hiv j hj (by omega)]
  exact hcopy j hj hj

/-- Storing a counter over the counter. -/
theorem storeCount_initIv (n : Vector Byte 12) (c c' : Word) :
    storeCount (initIv n c) c' = initIv n c' := by
  refine Vector.ext ?_
  intro j hj
  rw [storeCount, getElem_storeWord32Le, getElem_initIv, getElem_initIv]
  by_cases hlt : j < 4
  · rw [if_pos ⟨Nat.zero_le j, by omega⟩, if_pos hlt, Nat.sub_zero]
  · rw [if_neg (by omega), if_neg hlt, if_neg hlt]

theorem loadCount_initIv (n : Vector Byte 12) (c : Word) : loadCount (initIv n c) = c := by
  rw [loadCount, loadWord32Le_eq]
  simp only [getElem_initIv]
  exact ofLE_byteAt c

theorem inputNonce_initIv (n : Vector Byte 12) (c : Word) : inputNonce (initIv n c) = n := by
  refine Vector.ext ?_
  intro j hj
  simp [inputNonce, getElem_initIv]

/-! ## The message -/

section Encryption64

variable (expansion : Vector Byte 32 → Vector Byte 16 → Vector Byte 64) (k : Vector Byte 32)
  (n : Vector Byte 12)

/-- The generator of the block loop. -/
def ivGen : BlockGen IvState 64 where
  block s := expansion k s.iv
  next s := { count := s.count + 1, iv := storeCount s.iv (s.count + 1) }

theorem ivGen_realizes :
    Realizes (ivKeyStream expansion k) ivAdvance (ivGen expansion k) id (fun _ => True) where
  gen_ok _ := rfl
  adv_ok _ := rfl
  next_good _ := trivial

theorem ivGen_next (c : Word) :
    (ivGen expansion k).next ⟨c, initIv n c⟩ = ⟨c + 1, initIv n (c + 1)⟩ := by
  simp only [ivGen, storeCount_initIv]

/-- After `i` blocks `count` and `iv` hold the counter advanced by `i`. -/
theorem iterate_ivGen (c : Word) (i : Nat) :
    (ivGen expansion k).next^[i] ⟨c, initIv n c⟩
      = ⟨c + BitVec.ofNat 32 i, initIv n (c + BitVec.ofNat 32 i)⟩ := by
  induction i with
  | zero =>
      have hzero : c + BitVec.ofNat 32 0 = c := BitVec.add_zero c
      rw [hzero]
      rfl
  | succ i ih =>
      have hsucc : c + BitVec.ofNat 32 (i + 1) = c + BitVec.ofNat 32 i + 1 := by
        rw [BitVec.ofNat_add, ← BitVec.add_assoc]
        rfl
      rw [Function.iterate_succ_apply', ih, hsucc, ivGen_next]

/-- Byte `i` of the keystream of an expansion. -/
def blockStream (c : Word) (i : Nat) : Byte :=
  (expansion k (initIv n (c + BitVec.ofNat 32 (i / 64)))).get ⟨i % 64, Nat.mod_lt i (by decide)⟩

/-- **The block loop**, for any expansion. -/
theorem encryption64_eq (c : Word) (m : Message) :
    encryption64 expansion m.inp (Sink.fresh m.out) k n c m.length =
      .ok ((Sink.fresh m.out).xored m.inp (blockStream expansion k n c) 0 m.len) := by
  have hstream : (ivGen expansion k).stream ⟨c, initIv n c⟩ = blockStream expansion k n c := by
    funext i
    rw [BlockGen.stream, iterate_ivGen, blockStream]
    rfl
  have hsize : m.length.val.toNat ≤ (Sink.fresh m.out).bytes.size := m.fitsOut
  have hloop := encryptBlocks_eq (ivGen_realizes expansion k) (xorAt_xorsInto m.inp) m.nonneg
    (s := ⟨c, initIv n c⟩) trivial m.fitsInp hsize
  rw [hstream] at hloop
  simp only [encryption64, hloop, ok_bind, pure_eq_ok, Message.len]

/-- The same loop on any length. -/
theorem encryption64_writesOnce (c : Word) {inp out : Array Byte} {inlen : CInt}
    (hin : inlen.val.toNat ≤ inp.size) (hout : inlen.val.toNat ≤ out.size) :
    WritesOnce inlen (encryption64 expansion inp (Sink.fresh out) k n c inlen) := by
  obtain ⟨r, hloop, hwritten⟩ := encryptBlocks_written (ivGen_realizes expansion k)
    (xorAt_xorsInto inp) inlen (s := ⟨c, initIv n c⟩) trivial hin hout
  refine ⟨r.1, ?_, hwritten⟩
  simp only [encryption64, hloop, ok_bind, pure_eq_ok]

end Encryption64

/-- **The scalar cipher is RFC 8439 encryption**: for every key, nonce, initial
counter and message. -/
theorem chacha20Encryption_rfc8439 (k : Vector Byte 32) (n : Vector Byte 12) (c : Word) (m : Message) :
    ∃ out, chacha20Encryption m.inp (Sink.fresh m.out) k n c m.length = .ok out
      ∧ Encrypted (Rfc8439.keyStream k c n) m out.bytes := by
  have hstream : blockStream chacha20Expansion k n c = Rfc8439.keyStream k c n := by
    funext i
    rw [blockStream, chacha20Expansion_eq, loadCount_initIv, inputNonce_initIv]
    rfl
  refine ⟨_, encryption64_eq chacha20Expansion k n c m, ?_⟩
  rw [hstream]
  exact encrypted_xored _ m

end AeadPerf.ChaCha
