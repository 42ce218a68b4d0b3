/-
# `ChaCha.Session` — several calls under one key and nonce

The functions of `chacha20.c` and `chacha20_sse.c` get the counter by value, so a caller that
has more to encrypt under the same key and nonce advances it for the next call, by the blocks
that the last one has begun (`nextCounter`).  Two things follow of that.

* A message may be cut at block boundaries and encrypted piece by piece, with the result of
  one call (`encryption_pieces`).  The code of `chacha20_avx.c` may be used for the pieces
  too, where none is longer than its double block.
* The sixteen bytes that a block is generated from do not come twice, over all calls, if and
  only if no more than 2^32 blocks are begun (`session_noReuse_iff`).
-/
import AeadPerf.Lib.Pieces
import AeadPerf.ChaCha.Avx

namespace AeadPerf.ChaCha

open Words Checked KeyStream

/-- The blocks that a call begins. -/
def blocksBegun (m : Message) : Nat := (m.len + 63) / 64

/-- The counter for the call after the one on `m`. -/
def nextCounter (c : Word) (m : Message) : Word := c + BitVec.ofNat 32 (blocksBegun m)

/-! ## Pieces -/

/-- After whole blocks the keystream goes on. -/
theorem keyStream_nextCounter (k : Vector Byte 32) (n : Vector Byte 12) (c : Word) {m : Message}
    (hwhole : m.len % 64 = 0) (i : Nat) :
    Rfc8439.keyStream k (nextCounter c m) n i = Rfc8439.keyStream k c n (m.len + i) := by
  obtain ⟨q, hq⟩ := Nat.dvd_of_mod_eq_zero hwhole
  have hblocks : blocksBegun m = q := by
    rw [blocksBegun]
    omega
  have hdiv : (m.len + i) / 64 = q + i / 64 := by omega
  have hpos : Fin.ofNat 64 (m.len + i) = Fin.ofNat 64 i := by
    refine Fin.ext ?_
    simp only [Fin.val_ofNat]
    omega
  rw [Rfc8439.keyStream, Rfc8439.keyStream, nextCounter, hblocks, hdiv, hpos, BitVec.ofNat_add,
    BitVec.add_assoc]

theorem blockStream_eq (k : Vector Byte 32) (n : Vector Byte 12) (c : Word) :
    blockStream chacha20Expansion k n c = Rfc8439.keyStream k c n := by
  funext i
  rw [blockStream, chacha20Expansion_eq, loadCount_initIv, inputNonce_initIv]
  rfl

section Calls

variable (k : Vector Byte 32) (n : Vector Byte 12)

/-- A call of `chacha20_encryption`, … -/
def scalarCall (c : Word) (m : Message) : Run Sink :=
  chacha20Encryption m.inp (Sink.fresh m.out) k n c m.length

/-- … of `chacha20_encryption_128`, … -/
def sseCall (c : Word) (m : Message) : Run Sink :=
  chacha20Encryption128 m.inp (Sink.fresh m.out) k n c m.length

/-- … and of `chacha20_encryption_256`. -/
def avxCall (c : Word) (m : Message) : Run Sink :=
  chacha20Encryption256 m.inp (Sink.fresh m.out) k n c m.length

theorem scalarCall_encrypts (c : Word) (m : Message) :
    ∃ out, scalarCall k n c m = .ok out ∧ Encrypted (Rfc8439.keyStream k c n) m out.bytes := by
  refine ⟨_, encryption64_eq chacha20Expansion k n c m, ?_⟩
  rw [blockStream_eq]
  exact encrypted_xored _ m

theorem sseCall_encrypts (c : Word) (m : Message) :
    ∃ out, sseCall k n c m = .ok out ∧ Encrypted (Rfc8439.keyStream k c n) m out.bytes := by
  rw [sseCall, chacha20Encryption128, chacha20Expansion128_eq]
  exact scalarCall_encrypts k n c m

/-- The AVX code is right on one double block. -/
theorem avxCall_encrypts (c : Word) {m : Message} (hshort : m.len ≤ 128) :
    ∃ out, avxCall k n c m = .ok out ∧ Encrypted (Rfc8439.keyStream k c n) m out.bytes := by
  refine ⟨_, chacha20Encryption256_eq k n c m, ?_⟩
  have henc := encrypted_xored (avxStream k n c) m
  refine ⟨henc.size, ?_, henc.outside⟩
  intro i hi
  rw [henc.inside i hi, avxStream_of_lt k n c i (by omega), blockStream_eq]

variable {k n}

/-- Pieces that are encrypted with the keystream, wherever they start. -/
theorem pieces_keyStream {call : Word → Message → Run Sink} {ms : List Message}
    (hcall : ∀ c, ∀ m ∈ ms, ∃ out, call c m = .ok out
      ∧ Encrypted (Rfc8439.keyStream k c n) m out.bytes)
    (hwhole : ∀ m ∈ ms.dropLast, m.len % 64 = 0) {c : Word} {m : Message} (htext : m.text = textOf ms)
    {out : Sink} (hout : scalarCall k n c m = .ok out) :
    pieces call nextCounter ms c = .ok (out.bytes.extract 0 m.len) := by
  have hpieces := pieces_eq (K := fun c => Rfc8439.keyStream k c n) hcall
    (fun c m' hm' i => keyStream_nextCounter k n c (hwhole m' hm') i) c
  obtain ⟨out', hout', henc⟩ := scalarCall_encrypts k n c m
  obtain rfl : out' = out := Except.ok.inj (hout'.symm.trans hout)
  rw [hpieces, henc.extract_eq, htext]

/-- **A message in pieces**: all but the last of whole blocks.  The scalar and the SSE code
write what one call of the scalar code would; the AVX code too, if no piece is longer than
two blocks. -/
theorem encryption_pieces (k : Vector Byte 32) (n : Vector Byte 12) (c : Word) (ms : List Message)
    (m : Message) (htext : m.text = textOf ms) (hwhole : ∀ p ∈ ms.dropLast, p.len % 64 = 0) :
    ∃ out, scalarCall k n c m = .ok out
      ∧ pieces (scalarCall k n) nextCounter ms c = .ok (out.bytes.extract 0 m.len)
      ∧ pieces (sseCall k n) nextCounter ms c = .ok (out.bytes.extract 0 m.len)
      ∧ ((∀ p ∈ ms, p.len ≤ 128) →
          pieces (avxCall k n) nextCounter ms c = .ok (out.bytes.extract 0 m.len)) := by
  obtain ⟨out, hout, -⟩ := scalarCall_encrypts k n c m
  refine ⟨out, hout, ?_, ?_, ?_⟩
  · exact pieces_keyStream (fun c m' _ => scalarCall_encrypts k n c m') hwhole htext hout
  · exact pieces_keyStream (fun c m' _ => sseCall_encrypts k n c m') hwhole htext hout
  · intro hshort
    exact pieces_keyStream (fun c m' hm' => avxCall_encrypts k n c (hshort m' hm')) hwhole htext hout

/-- 129 bytes as a block, a block and a byte. -/
theorem encryption_pieces_three :
    let byte (l : CInt) (h : 0 ≤ l.val) := Message.zeros l h
    let ms := [byte ⟨64, by decide⟩ (by decide), byte ⟨64, by decide⟩ (by decide),
      byte ⟨1, by decide⟩ (by decide)]
    let m := byte ⟨129, by decide⟩ (by decide)
    ∃ out, scalarCall zeroKey zeroNonce 0 m = .ok out
      ∧ pieces (avxCall zeroKey zeroNonce) nextCounter ms 0 = .ok (out.bytes.extract 0 m.len) := by
  intro byte ms m
  obtain ⟨out, hout, -, -, havx⟩ :=
    encryption_pieces zeroKey zeroNonce 0 ms m (by decide +kernel) (by decide)
  exact ⟨out, hout, havx (by decide)⟩

end Calls

/-! ## Blocks do not come twice -/

section Record

variable (expansion : Vector Byte 32 → Vector Byte 16 → Vector Byte 64) (k : Vector Byte 32)
  (n : Vector Byte 12)

/-- `encryption64`, with a record of the sixteen bytes that `expansion` gets. -/
def recorded64 (inp : Array Byte) (out : Sink) (c : Word) (inlen : CInt) (used : List (Vector Byte 16)) :
    Run (Sink × List (Vector Byte 16)) := do
  let (out, _, used) ← encryptBlocks (recordGen IvState.iv (ivKeyStream expansion k))
    (recordAdv ivAdvance) (xorAt inp) inlen out (⟨c, initIv n c⟩, used)
  pure (out, used)

/-- Without the record it is the code. -/
theorem recorded64_fst (inp : Array Byte) (out : Sink) (c : Word) (inlen : CInt)
    (used : List (Vector Byte 16)) :
    (recorded64 expansion k n inp out c inlen used).map Prod.fst
      = encryption64 expansion inp out k n c inlen := by
  have hrecord := encryptBlocks_record (ivKeyStream expansion k) ivAdvance (xorAt inp) IvState.iv inlen
    out ⟨c, initIv n c⟩ used
  refine bind_map (Prod.map id Prod.fst) hrecord ?_
  rintro ⟨out', s, used'⟩
  rfl

theorem recorded64_eq (c : Word) (m : Message) (used : List (Vector Byte 16)) :
    ∃ out, recorded64 expansion k n m.inp (Sink.fresh m.out) c m.length used
      = .ok (out, used ++ (List.range (blocksBegun m)).map fun j => initIv n (c + BitVec.ofNat 32 j)) := by
  have hsize : m.length.val.toNat ≤ (Sink.fresh m.out).bytes.size := m.fitsOut
  obtain ⟨s, hrun⟩ := encryptBlocks_recorded IvState.iv (ivGen_realizes expansion k)
    (xorAt_xorsInto m.inp) m.nonneg (s := ⟨c, initIv n c⟩) trivial m.fitsInp hsize used
  simp only [iterate_ivGen] at hrun
  exact ⟨_, by rw [recorded64, hrun]; rfl⟩

/-- The inputs of `expansion` over several calls. -/
def sessionInputs : List Message → Word → List (Vector Byte 16) → Run (List (Vector Byte 16))
  | [], _, used => pure used
  | m :: ms, c, used => do
      let (_, used) ← recorded64 expansion k n m.inp (Sink.fresh m.out) c m.length used
      sessionInputs ms (nextCounter c m) used

/-- The blocks begun by several calls. -/
def totalBlocks (ms : List Message) : Nat := (ms.map blocksBegun).sum

/-- They are the blocks of the nonce, from the first counter on. -/
theorem sessionInputs_eq (ms : List Message) (c : Word) (used : List (Vector Byte 16)) :
    sessionInputs expansion k n ms c used
      = .ok (used ++ (List.range (totalBlocks ms)).map fun j => initIv n (c + BitVec.ofNat 32 j)) := by
  induction ms generalizing c used with
  | nil => simp [sessionInputs, totalBlocks]
  | cons m ms ih =>
      obtain ⟨out, hcall⟩ := recorded64_eq expansion k n c m used
      have htotal : totalBlocks (m :: ms) = blocksBegun m + totalBlocks ms := rfl
      have hlater : ((List.range (totalBlocks ms)).map fun j => initIv n (nextCounter c m + BitVec.ofNat 32 j))
          = (List.range (totalBlocks ms)).map fun j =>
              initIv n (c + BitVec.ofNat 32 (blocksBegun m + j)) := by
        refine List.map_congr_left ?_
        intro j _
        rw [nextCounter, BitVec.ofNat_add, BitVec.add_assoc]
      rw [sessionInputs, hcall, ok_bind]
      dsimp only
      rw [ih, hlater, htotal, List.range_add, List.map_append, List.append_assoc, List.map_map]
      rfl

/-- The sixteen bytes tell the counters apart. -/
theorem initIv_injective : Function.Injective (initIv n) := by
  intro c c' h
  rw [← loadCount_initIv n c, h, loadCount_initIv]

/-- Counters that are less than 2^32 apart are told apart. -/
theorem nodup_inputs_iff (c : Word) (total : Nat) :
    ((List.range total).map fun j => initIv n (c + BitVec.ofNat 32 j)).Nodup ↔ total ≤ 2 ^ 32 := by
  have hinj : ∀ i j, initIv n (c + BitVec.ofNat 32 i) = initIv n (c + BitVec.ofNat 32 j)
      ↔ i % 2 ^ 32 = j % 2 ^ 32 := by
    intro i j
    rw [(initIv_injective n).eq_iff, BitVec.add_right_inj, ← BitVec.toNat_inj, BitVec.toNat_ofNat,
      BitVec.toNat_ofNat]
  rw [List.nodup_map_iff_inj_on List.nodup_range]
  constructor
  · intro h
    by_contra hlong
    have hzero := h 0 (List.mem_range.mpr (by omega)) (2 ^ 32) (List.mem_range.mpr (by omega))
      ((hinj 0 (2 ^ 32)).mpr (by decide))
    cases hzero
  · intro hle i hi j hj heq
    have hmod := (hinj i j).mp heq
    have hi' := List.mem_range.mp hi
    have hj' := List.mem_range.mp hj
    omega

/-- **No block twice**: over any calls under one key and nonce, with the counter advanced
from call to call, the inputs of the expansion are pairwise distinct if and only if the calls
begin at most 2^32 blocks together.  The calls that record the inputs are, but for the record, those
of the code. -/
theorem session_noReuse_iff (ms : List Message) (c : Word) :
    (∀ inp out c inlen used, (recorded64 expansion k n inp out c inlen used).map Prod.fst
        = encryption64 expansion inp out k n c inlen)
      ∧ ((∃ used, sessionInputs expansion k n ms c [] = .ok used ∧ used.Nodup)
        ↔ totalBlocks ms ≤ 2 ^ 32) := by
  refine ⟨recorded64_fst expansion k n, ?_⟩
  rw [sessionInputs_eq, List.nil_append, ← nodup_inputs_iff n c]
  constructor
  · rintro ⟨used, hused, hnodup⟩
    cases hused
    exact hnodup
  · intro hnodup
    exact ⟨_, rfl, hnodup⟩

end Record

end AeadPerf.ChaCha
