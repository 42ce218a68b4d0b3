/-
# `Aes.CtrLeaks` — what the counter mode of the code gives away

The increments change byte 16 of the buffer first, which is not in the counter block.  Write `T`
for the number in bytes 1 to 16.  Block `b` of a message is encrypted with the counter block of

    (T + b) mod 2^128 / 256

and so are, as a rule, the 256 blocks around it.  The cipher is a permutation, so two blocks of a
ciphertext differ as their plaintexts do for the pairs where these numbers agree, and for no
other (`aesCtrEncryption_leaks_iff`); and a message of `n` bytes has no more than
`n / 4096 + 2` different keystream blocks.
-/
import AeadPerf.Lib.Pieces
import AeadPerf.Aes.CtrReuse

namespace AeadPerf.Aes

open Words Checked KeyStream

/-- The number in the counter block of block `b`, but for its first byte. -/
def ctrNumber (counter : Array Byte) (b : Nat) : Nat := (window counter 1 16 + b) % 2 ^ 128 / 256

theorem handedNum_eq (A T k : Nat) : handedNum A T k = A * 2 ^ 120 + (T + k) % 2 ^ 128 / 256 := by
  have hsplit : A * 2 ^ 128 = A * 2 ^ 120 * 256 := by
    rw [Nat.mul_assoc]
    rfl
  rw [handedNum, hsplit, Nat.add_comm, Nat.add_mul_div_right _ _ (by decide), Nat.add_comm]

theorem front_bump_eq_iff {counter : Array Byte} (h : 17 ≤ counter.size) (b b' : Nat) :
    front (bump^[b] counter) = front (bump^[b'] counter) ↔ ctrNumber counter b = ctrNumber counter b' := by
  rw [← blockNum_injective.eq_iff, blockNum_front_bump h, blockNum_front_bump h, handedNum_eq, handedNum_eq,
    Nat.add_left_cancel_iff, ctrNumber, ctrNumber]

/-- Two keystream blocks are equal exactly where the counter blocks are. -/
theorem ctrGen_block_eq_iff (o : ByteOrder) (keySchedule : KeySchedule) {counter : Array Byte}
    (h : 17 ≤ counter.size) (b b' : Nat) :
    (ctrGen o keySchedule).block ((ctrGen o keySchedule).next^[b] (.fresh counter))
        = (ctrGen o keySchedule).block ((ctrGen o keySchedule).next^[b'] (.fresh counter))
      ↔ ctrNumber counter b = ctrNumber counter b' := by
  rw [ctrGen_iterate, ctrGen_iterate, ← front_bump_eq_iff h]
  exact (aesEncryption_bijective o keySchedule).injective.eq_iff

/-- Of the numbers of `total` blocks in a row few are different. -/
theorem card_ctrNumber_le (counter : Array Byte) (total : Nat) :
    ((Finset.range total).image (ctrNumber counter)).card ≤ (total - 1) / 256 + 2 := by
  have hsubset : (Finset.range total).image (ctrNumber counter)
      ⊆ (Finset.Icc (window counter 1 16 / 256) ((window counter 1 16 + (total - 1)) / 256)).image
          (· % 2 ^ 120) := by
    intro v hv
    obtain ⟨b, hb, rfl⟩ := Finset.mem_image.mp hv
    rw [Finset.mem_range] at hb
    refine Finset.mem_image.mpr ⟨(window counter 1 16 + b) / 256, Finset.mem_Icc.mpr ?_, ?_⟩
    · exact ⟨Nat.div_le_div_right (Nat.le_add_right _ _), Nat.div_le_div_right (by omega)⟩
    · rw [ctrNumber]
      omega
  refine (Finset.card_le_card hsubset).trans (Finset.card_image_le.trans ?_)
  rw [Nat.card_Icc]
  omega

/-- And so of the counter blocks. -/
theorem card_front_le {counter : Array Byte} (h : 17 ≤ counter.size) (total : Nat) :
    ((Finset.range total).image fun j => front (bump^[j] counter)).card ≤ (total - 1) / 256 + 2 := by
  have hnum : ((Finset.range total).image fun j => front (bump^[j] counter)).image blockNum
      = ((Finset.range total).image (ctrNumber counter)).image (counter[0].toNat * 2 ^ 120 + ·) := by
    rw [Finset.image_image, Finset.image_image]
    refine Finset.image_congr ?_
    intro j _
    exact (blockNum_front_bump h j).trans (handedNum_eq _ _ j)
  rw [← Finset.card_image_of_injective _ blockNum_injective, hnum]
  exact Finset.card_image_le.trans (card_ctrNumber_le counter total)

/-- **What counter mode gives away**: for every key schedule, buffer and message, the ciphertexts
of two whole blocks differ as their plaintexts do exactly where their counter numbers agree.  So
it is for a block and the next one unless byte 16 of the buffer wraps around between them, and
the call hands the cipher `len / 4096 + 2` different blocks at most. -/
theorem aesCtrEncryption_leaks_iff (o : ByteOrder) (keySchedule : KeySchedule) {counter : Array Byte}
    (h : 17 ≤ counter.size) (m : Message) :
    ∃ out s, ctrEncrypt o keySchedule (.fresh counter) m = .ok (out, s)
      ∧ (∀ b b', 16 * b + 16 ≤ m.len → 16 * b' + 16 ≤ m.len →
          ((∀ j < 16, out.bytes.getD (16 * b + j) 0 ^^^ out.bytes.getD (16 * b' + j) 0
              = m.inp.getD (16 * b + j) 0 ^^^ m.inp.getD (16 * b' + j) 0)
            ↔ ctrNumber counter b = ctrNumber counter b'))
      ∧ (∀ b, (window counter 1 16 + b) % 256 ≠ 255 → ctrNumber counter b = ctrNumber counter (b + 1))
      ∧ s.handed.toFinset.card ≤ m.len / 4096 + 2 := by
  refine ⟨_, _, ctrEncrypt_eq o keySchedule (.inl h), ?_, ?_, ?_⟩
  · intro b b' hb hb'
    have henc := encrypted_xored ((ctrGen o keySchedule).stream (.fresh counter)) m
    rw [Nat.mul_comm 16 b] at hb ⊢
    rw [Nat.mul_comm 16 b'] at hb' ⊢
    rw [henc.blocks_iff hb hb', ctrGen_block_eq_iff o keySchedule h]
  · intro b hb
    rw [ctrNumber, ctrNumber]
    omega
  · have hhanded : (finalState (ctrGen o keySchedule) CtrState.used (.fresh counter) m.len).handed.toFinset
        = (Finset.range ((m.len + 15) / 16)).image fun j => front (bump^[j] counter) := by
      ext block
      simp [ctrGen_finalState, CtrState.fresh]
    have hcard := card_front_le h ((m.len + 15) / 16)
    rw [hhanded]
    omega

/-- Two blocks of zeros, with a counter of zeros. -/
theorem aesCtrEncryption_leaks_two_blocks :
    let m := Message.zeros ⟨32, by decide⟩ (by decide)
    ∃ out s, ctrEncrypt .little (Vector.replicate 60 0) (.fresh (Array.replicate 17 0)) m = .ok (out, s)
      ∧ (∀ j < 16, out.bytes.getD (16 * 0 + j) 0 ^^^ out.bytes.getD (16 * 1 + j) 0
          = m.inp.getD (16 * 0 + j) 0 ^^^ m.inp.getD (16 * 1 + j) 0)
      ∧ s.handed.toFinset.card ≤ 32 / 4096 + 2 := by
  intro m
  obtain ⟨out, s, hrun, hblocks, -, hcard⟩ :=
    @aesCtrEncryption_leaks_iff .little (Vector.replicate 60 0) (Array.replicate 17 0) (by decide) m
  exact ⟨out, s, hrun, (hblocks 0 1 (by decide) (by decide)).mpr (by decide), hcard⟩

end AeadPerf.Aes
