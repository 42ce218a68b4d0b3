/-
# `ChaCha.AvxStream` — the keystream of the AVX code

`chacha20_expansion_256` makes two blocks, of the counter it finds in its input and of the next
one, and then adds one to the first byte of its input.  The next call therefore starts from the
counter that has already served for the second block, unless the addition wraps around in the
byte.  Block `b` of a message is made from the counter

    c / 256 · 256 + (c + b / 2) mod 256 + b mod 2

(`avxCounter`), so that of the standard's keystream not even 257 blocks are used, and those of
a long message many times.  Where they are, two parts of the ciphertext give away the XOR of
two parts of the plaintext (`chacha20Encryption256_leaks`).  A call uses no block twice exactly
if it begins at most two, or at most four and the counter ends in 255
(`chacha20Encryption256_noReuse_iff`).
-/
import AeadPerf.ChaCha.Session

namespace AeadPerf.ChaCha

open Words Checked KeyStream

/-! ## The counters -/

/-- The low byte of the counter of block `b`, and the carry out of it. -/
def avxLow (c : Word) (b : Nat) : Nat := (c.toNat + b / 2) % 256 + b % 2

/-- The counter of block `b`. -/
def avxCounter (c : Word) (b : Nat) : Word := BitVec.ofNat 32 (c.toNat / 256 * 256 + avxLow c b)

theorem avxCounter_eq_iff (c : Word) (b b' : Nat) :
    avxCounter c b = avxCounter c b' ↔ avxLow c b = avxLow c b' := by
  have hc := c.isLt
  rw [avxCounter, avxCounter, ← BitVec.toNat_inj, BitVec.toNat_ofNat, BitVec.toNat_ofNat]
  simp only [avxLow]
  omega

theorem toNat_byteAt (w : Word) (j : Nat) : (byteAt w j).toNat = w.toNat / 2 ^ (8 * j) % 256 := by
  rw [byteAt, BitVec.extractLsb'_toNat, Nat.shiftRight_eq_div_pow]

theorem toNat_avxCounter (c : Word) (d : Nat) :
    (avxCounter c (2 * d)).toNat = c.toNat / 256 * 256 + (c.toNat + d) % 256 := by
  have hc := c.isLt
  rw [avxCounter, BitVec.toNat_ofNat]
  simp only [avxLow]
  omega

theorem getElem_bumpByte (input : Vector Byte 16) (j : Nat) (hj : j < 16) :
    (bumpByte input)[j] = if 0 = j then input[0] + 1 else input[j] :=
  Vector.getElem_set (by decide) hj

/-- `input[0] += 1`, on a counter in front of a nonce. -/
theorem bumpByte_initIv (n : Vector Byte 12) (c : Word) (d : Nat) :
    bumpByte (initIv n (avxCounter c (2 * d))) = initIv n (avxCounter c (2 * (d + 1))) := by
  have hd := toNat_avxCounter c d
  have hd' := toNat_avxCounter c (d + 1)
  refine Vector.ext ?_
  intro j hj
  rw [getElem_bumpByte, getElem_initIv, getElem_initIv, getElem_initIv, if_pos (show 0 < 4 by decide)]
  rcases (by omega : j = 0 ∨ j = 1 ∨ j = 2 ∨ j = 3 ∨ 4 ≤ j) with rfl | rfl | rfl | rfl | hge
  · refine BitVec.eq_of_toNat_eq ?_
    simp [toNat_byteAt, hd, hd']
    omega
  · refine BitVec.eq_of_toNat_eq ?_
    simp [toNat_byteAt, hd, hd']
    omega
  · refine BitVec.eq_of_toNat_eq ?_
    simp [toNat_byteAt, hd, hd']
    omega
  · refine BitVec.eq_of_toNat_eq ?_
    simp [toNat_byteAt, hd, hd']
    omega
  · rw [if_neg (by omega), if_neg (by omega), if_neg (by omega)]

theorem iterate_bumpByte (n : Vector Byte 12) (c : Word) (d : Nat) :
    bumpByte^[d] (initIv n c) = initIv n (avxCounter c (2 * d)) := by
  induction d with
  | zero =>
      have hc := c.isLt
      have hzero : avxCounter c (2 * 0) = c := by
        refine BitVec.eq_of_toNat_eq ?_
        rw [toNat_avxCounter]
        omega
      rw [hzero, Function.iterate_zero_apply]
  | succ d ih => rw [Function.iterate_succ_apply', ih, bumpByte_initIv]

/-! ## The keystream -/

/-- The counters of the two blocks of a double block. -/
theorem avxCounter_succ (c : Word) (d : Nat) :
    avxCounter c (2 * d) + 1 = avxCounter c (2 * d + 1) := by
  refine BitVec.eq_of_toNat_eq ?_
  simp only [avxCounter, avxLow, BitVec.toNat_add, BitVec.toNat_ofNat]
  simp
  omega

/-- **The keystream of the AVX code**: byte `i` is from block `i / 64`, which is the standard's
block of the counter `avxCounter c (i / 64)`. -/
theorem avxStream_eq (k : Vector Byte 32) (n : Vector Byte 12) (c : Word) (i : Nat) :
    avxStream k n c i = (Rfc8439.block k (avxCounter c (i / 64)) n).get (Fin.ofNat 64 i) := by
  have hsplit : i / 128 * 128 + i % 128 = i := Nat.div_add_mod' i 128
  have hblock := (avxGen k).stream_block (initIv n c) (i / 128) (i % 128) (Nat.mod_lt i (by decide))
  have hnext : (avxGen k).next = bumpByte := rfl
  rw [hsplit, avxGen_block, hnext, iterate_bumpByte, nextInput_initIv, avxCounter_succ,
    chacha20Expansion_eq, chacha20Expansion_eq, loadCount_initIv, loadCount_initIv, inputNonce_initIv,
    inputNonce_initIv] at hblock
  rw [avxStream, hblock]
  by_cases hlt : i % 128 < 64
  · have hindex : i / 64 = 2 * (i / 128) := by omega
    have hpos : (Fin.ofNat 64 i).val = i % 128 := by
      simp only [Fin.val_ofNat]
      omega
    rw [dif_pos hlt, hindex, get_eq]
    simp only [hpos]
  · have hindex : i / 64 = 2 * (i / 128) + 1 := by omega
    have hpos : (Fin.ofNat 64 i).val = i % 128 - 64 := by
      simp only [Fin.val_ofNat]
      omega
    rw [dif_neg hlt, hindex, get_eq]
    simp only [hpos]

/-- **What the AVX code gives away**: for every message, where the counters of two of its
blocks agree, their ciphertexts differ as their plaintexts do.  So it is for the second block
of a double block and the first of the next, unless the counter's low byte wraps around
between them, and for blocks that are 512 apart. -/
theorem chacha20Encryption256_leaks (k : Vector Byte 32) (n : Vector Byte 12) (c : Word) (m : Message) :
    ∃ out, chacha20Encryption256 m.inp (Sink.fresh m.out) k n c m.length = .ok out
      ∧ (∀ b b' j, j < 64 → 64 * b + j < m.len → 64 * b' + j < m.len → avxLow c b = avxLow c b' →
          out.bytes.getD (64 * b + j) 0 ^^^ out.bytes.getD (64 * b' + j) 0
            = m.inp.getD (64 * b + j) 0 ^^^ m.inp.getD (64 * b' + j) 0)
      ∧ (∀ d, (c.toNat + d) % 256 ≠ 255 → avxLow c (2 * d + 1) = avxLow c (2 * (d + 1)))
      ∧ ∀ b, avxLow c b = avxLow c (b + 512) := by
  refine ⟨_, chacha20Encryption256_eq k n c m, ?_, ?_, ?_⟩
  · intro b b' j hj hb hb' hlow
    have henc := encrypted_xored (avxStream k n c) m
    have hblock : ∀ b, (64 * b + j) / 64 = b := by
      intro b
      omega
    have hpos : Fin.ofNat 64 (64 * b + j) = Fin.ofNat 64 (64 * b' + j) := by
      refine Fin.ext ?_
      simp only [Fin.val_ofNat]
      omega
    have hstream : avxStream k n c (64 * b + j) = avxStream k n c (64 * b' + j) := by
      rw [avxStream_eq, avxStream_eq, hblock, hblock, (avxCounter_eq_iff c b b').mpr hlow, hpos]
    rw [Array.getD_eq_getD_getElem?, Array.getD_eq_getD_getElem?, henc.inside _ hb, henc.inside _ hb',
      hstream, Option.getD_some, Option.getD_some]
    -- the keystream byte cancels
    rw [BitVec.xor_assoc, BitVec.xor_comm (avxStream k n c _), BitVec.xor_assoc, BitVec.xor_self,
      BitVec.xor_zero]
  · intro d hd
    simp only [avxLow]
    omega
  · intro b
    simp only [avxLow]
    omega

/-! ## Blocks that come twice -/

section Record

variable (k : Vector Byte 32) (n : Vector Byte 12) (c : Word)

/-- `chacha20_encryption_256`, with a record of the inputs of `chacha20_expansion_256`. -/
def recorded256 (inp : Array Byte) (out : Sink) (inlen : CInt) : Run (Sink × List (Vector Byte 16)) := do
  let (out, _, used) ← encryptBlocks (recordGen id fun iv => .ok (chacha20Expansion256 k iv))
    (recordAdv fun iv => .ok iv) (xorAt inp) inlen out (initIv n c, [])
  pure (out, used)

theorem recorded256_fst (inp : Array Byte) (out : Sink) (inlen : CInt) :
    (recorded256 k n c inp out inlen).map Prod.fst = chacha20Encryption256 inp out k n c inlen := by
  have hrecord := encryptBlocks_record (fun iv => .ok (chacha20Expansion256 k iv)) (fun iv => .ok iv)
    (xorAt inp) id inlen out (initIv n c) []
  refine bind_map (Prod.map id Prod.fst) hrecord ?_
  rintro ⟨out', s, used⟩
  rfl

/-- The inputs of the standard's block function that the bytes of `m` are encrypted with: each
input of the expansion is one, and its successor another. -/
def avxInputs (used : List (Vector Byte 16)) (m : Message) : List (Vector Byte 16) :=
  (used.flatMap fun iv => [iv, nextInput iv]).take (blocksBegun m)

theorem flatMap_inputs (d : Nat) :
    ((List.range d).map fun j => initIv n (avxCounter c (2 * j))).flatMap (fun iv => [iv, nextInput iv])
      = (List.range (2 * d)).map fun b => initIv n (avxCounter c b) := by
  induction d with
  | zero => rfl
  | succ d ih =>
      rw [List.range_succ, List.map_append, List.flatMap_append, ih, Nat.mul_succ, List.range_succ,
        List.range_succ]
      simp [nextInput_initIv, ← avxCounter_succ]

theorem recorded256_eq (m : Message) :
    ∃ out used, recorded256 k n c m.inp (Sink.fresh m.out) m.length = .ok (out, used)
      ∧ avxInputs used m = (List.range (blocksBegun m)).map fun b => initIv n (avxCounter c b) := by
  have hsize : m.length.val.toNat ≤ (Sink.fresh m.out).bytes.size := m.fitsOut
  obtain ⟨s, hrun⟩ := encryptBlocks_recorded id (avxGen_realizes k) (xorAt_xorsInto m.inp) m.nonneg
    (s := initIv n c) trivial m.fitsInp hsize []
  have hnext : (avxGen k).next = bumpByte := rfl
  simp only [hnext, iterate_bumpByte, id, List.nil_append] at hrun
  refine ⟨_, _, by rw [recorded256, hrun]; rfl, ?_⟩
  have hblocks : min (blocksBegun m) (2 * ((m.length.val.toNat + (128 - 1)) / 128)) = blocksBegun m := by
    rw [blocksBegun, Message.len]
    omega
  rw [avxInputs, flatMap_inputs, ← List.map_take, List.take_range, hblocks]

/-- Among the first blocks none has the counter of another exactly if they are two, or four
with a carry between them. -/
theorem nodup_avxCounter_iff (total : Nat) :
    ((List.range total).map fun b => initIv n (avxCounter c b)).Nodup
      ↔ total ≤ 2 ∨ (c.toNat % 256 = 255 ∧ total ≤ 4) := by
  have hinj : ∀ b b', initIv n (avxCounter c b) = initIv n (avxCounter c b') ↔ avxLow c b = avxLow c b' := by
    intro b b'
    rw [(initIv_injective n).eq_iff, avxCounter_eq_iff]
  rw [List.nodup_map_iff_inj_on List.nodup_range]
  constructor
  · intro h
    have htwice : ∀ b b', b < b' → avxLow c b = avxLow c b' → total ≤ b' := by
      intro b b' hlt hlow
      by_contra hlong
      have heq := h b (List.mem_range.mpr (by omega)) b' (List.mem_range.mpr (by omega))
        ((hinj b b').mpr hlow)
      omega
    by_cases hcarry : c.toNat % 256 = 255
    · refine Or.inr ⟨hcarry, htwice 3 4 (by decide) ?_⟩
      simp only [avxLow]
      omega
    · refine Or.inl (htwice 1 2 (by decide) ?_)
      simp only [avxLow]
      omega
  · intro hle b hb b' hb' heq
    have hlow := (hinj b b').mp heq
    have hlt := List.mem_range.mp hb
    have hlt' := List.mem_range.mp hb'
    simp only [avxLow] at hlow
    rcases hle with hle | ⟨hcarry, hle⟩
    · omega
    · omega

/-- **When a call uses no block twice**: exactly if it begins two blocks at most, or four and
the counter ends in 255.  The call that records the inputs is, but for the record, that of the code. -/
theorem chacha20Encryption256_noReuse_iff (m : Message) :
    (∀ inp out inlen, (recorded256 k n c inp out inlen).map Prod.fst
        = chacha20Encryption256 inp out k n c inlen)
      ∧ ((∃ out used, recorded256 k n c m.inp (Sink.fresh m.out) m.length = .ok (out, used)
          ∧ (avxInputs used m).Nodup)
        ↔ m.len ≤ 128 ∨ (c.toNat % 256 = 255 ∧ m.len ≤ 256)) := by
  refine ⟨recorded256_fst k n c, ?_⟩
  have hblocks : (m.len ≤ 128 ∨ (c.toNat % 256 = 255 ∧ m.len ≤ 256))
      ↔ (blocksBegun m ≤ 2 ∨ (c.toNat % 256 = 255 ∧ blocksBegun m ≤ 4)) := by
    rw [blocksBegun]
    omega
  obtain ⟨out, used, hrun, hinputs⟩ := recorded256_eq k n c m
  rw [hblocks, ← nodup_avxCounter_iff n c, ← hinputs]
  constructor
  · rintro ⟨out', used', hrun', hnodup⟩
    cases hrun.symm.trans hrun'
    exact hnodup
  · intro hnodup
    exact ⟨out, used, hrun, hnodup⟩

end Record

end AeadPerf.ChaCha
