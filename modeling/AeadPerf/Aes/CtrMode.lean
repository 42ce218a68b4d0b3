/-
# `Aes.CtrMode` — the counter against SP 800-38A

Counter mode encrypts block `k` with the counter block `ctr₀ + k` modulo 2^128.
The code reads its counter block in bytes 0 to 15 of the buffer and increments
the number in bytes 1 to 16.  Write `A` for byte 0 and `T` for the number in
bytes 1 to 16; the block handed to AES after `k` increments is, as a number,

    handedNum A T k  =  (A · 2^128 + (T + k) mod 2^128) / 256

(`blockNum_front_bump`).  It moves once in 256 increments, so that

    k = 0     always the right block
    k = 1     right iff T ends in 0xff and is not all ones
    k = 2     wrong if k = 1 was right

and of any three successive blocks two are equal.

`aesCtrEncryption_counterMode_iff` says for which inputs that does not show in the
output of a call.  It is about all key schedules at once where a wrong counter
block would only show in part of a keystream block: a schedule that tells the two
blocks apart there exists, by `exists_schedule_ne`, but not every one does.
-/
import AeadPerf.Aes.CtrStream
import AeadPerf.Aes.Diffusion

namespace AeadPerf.Aes

open Words Checked KeyStream

/-! ## Blocks as numbers -/

theorem block_values : 256 ^ 16 = 2 ^ 128 := rfl

/-- A block as a big-endian number. -/
def blockNum (b : Block) : Nat := beVal (fun j => b.toArray.getD j 0) 16

/-- The block of a number modulo 2^128. -/
def numBlock (v : Nat) : Block := Vector.ofFn fun i => beByte v 16 i.val

theorem blockNum_numBlock (v : Nat) : blockNum (numBlock v) = v % 2 ^ 128 := by
  have hbytes : blockNum (numBlock v) = beVal (beByte v 16) 16 :=
    beVal_congr fun j hj => by simp [numBlock, hj]
  rw [hbytes, beVal_beByte, block_values]

theorem blockNum_injective : Function.Injective blockNum := by
  intro b b' h
  refine Vector.ext ?_
  intro j hj
  have hbyte := beVal_inj h j hj
  simpa [hj] using hbyte

theorem blockNum_lt (b : Block) : blockNum b < 2 ^ 128 := beVal_lt _ 16

/-- The block the code reads, as a number. -/
theorem blockNum_front (counter : Array Byte) : blockNum (front counter) = window counter 0 16 :=
  beVal_congr fun j hj => by simp [front, hj]

/-- Counter block `k` of counter mode. -/
def ctrBlock (ctr₀ : Block) (k : Nat) : Block := numBlock (blockNum ctr₀ + k)

/-! ## The blocks of the code -/

/-- The block after `k` increments of the number `T` in bytes 1 to 16, byte 0 being `A`. -/
def handedNum (A T k : Nat) : Nat := (A * 2 ^ 128 + (T + k) % 2 ^ 128) / 256

theorem blockNum_front_bump {counter : Array Byte} (h : 17 ≤ counter.size) (k : Nat) :
    blockNum (front (bump^[k] counter))
      = handedNum counter[0].toNat (window counter 1 16) k := by
  have hsize : 17 ≤ (bump^[k] counter).size := by
    rw [iterate_bump h, size_setWindow]
    exact h
  have hfirst : (bump^[k] counter)[0] = counter[0] := by
    have hget := getElem?_setWindow counter 1 16 (window counter 1 16 + k) 0
    rw [← iterate_bump h, Array.getElem?_eq_getElem (by omega), Array.getElem?_eq_getElem (by omega)]
      at hget
    simpa using hget
  have hnum : window (bump^[k] counter) 1 16 = (window counter 1 16 + k) % 2 ^ 128 := by
    rw [iterate_bump h, window_setWindow _ _ _ h, block_values]
  have hleft := window_succ_left (bump^[k] counter) 0 16 (by omega)
  have hright := window_succ (bump^[k] counter) 0 16 (by omega)
  have hbyte := (bump^[k] counter)[0 + 16].isLt
  rw [hfirst, hnum] at hleft
  rw [blockNum_front, handedNum]
  omega

section Handed

variable {A T : Nat} (hA : A < 256) (hT : T < 2 ^ 128)

include hT in
theorem handedNum_zero : handedNum A T 0 = (A * 2 ^ 128 + T) / 256 := by
  rw [handedNum, Nat.add_zero, Nat.mod_eq_of_lt hT]

include hA hT in
/-- After one increment the block is the right one. -/
theorem handedNum_one_iff :
    handedNum A T 1 = (handedNum A T 0 + 1) % 2 ^ 128 ↔ T % 256 = 255 ∧ T + 1 < 2 ^ 128 := by
  rw [handedNum_zero hT, handedNum]
  omega

include hA hT in
/-- After two increments it is not, if it was after one. -/
theorem handedNum_two_ne (h : handedNum A T 1 = (handedNum A T 0 + 1) % 2 ^ 128) :
    handedNum A T 2 ≠ (handedNum A T 0 + 2) % 2 ^ 128 := by
  rw [handedNum_one_iff hA hT] at h
  rw [handedNum_zero hT, handedNum]
  omega

include hT in
/-- One increment changes the block. -/
theorem handedNum_one_ne_iff : handedNum A T 0 ≠ handedNum A T 1 ↔ T % 256 = 255 := by
  rw [handedNum_zero hT, handedNum]
  omega

/-- Two increments in a row do not both change it. -/
theorem handedNum_two_eq (h : T % 256 = 255) : handedNum A T 2 = handedNum A T 1 := by
  rw [handedNum, handedNum]
  omega

end Handed

/-- The block of the code after `k` increments is counter block `k`. -/
def Agrees (counter : Array Byte) (k : Nat) : Prop :=
  front (bump^[k] counter) = ctrBlock (front counter) k

section Agrees

variable {counter : Array Byte}

theorem agrees_zero (counter : Array Byte) : Agrees counter 0 := by
  apply blockNum_injective
  rw [ctrBlock, blockNum_numBlock, Nat.add_zero, Nat.mod_eq_of_lt (blockNum_lt _)]
  rfl

theorem agrees_iff (h : 17 ≤ counter.size) (k : Nat) :
    Agrees counter k ↔ handedNum counter[0].toNat (window counter 1 16) k
      = (handedNum counter[0].toNat (window counter 1 16) 0 + k) % 2 ^ 128 := by
  have hzero := blockNum_front_bump h 0
  rw [Function.iterate_zero, id_eq] at hzero
  rw [Agrees, ← blockNum_injective.eq_iff, ctrBlock, blockNum_numBlock, blockNum_front_bump h, hzero]

theorem agrees_one_iff (h : 17 ≤ counter.size) :
    Agrees counter 1 ↔ window counter 1 16 % 256 = 255 ∧ window counter 1 16 + 1 < 2 ^ 128 := by
  rw [agrees_iff h, handedNum_one_iff counter[0].isLt (window_lt counter 1 16)]

theorem not_agrees_two (h : 17 ≤ counter.size) (h₁ : Agrees counter 1) : ¬ Agrees counter 2 := by
  rw [agrees_iff h] at h₁ ⊢
  exact handedNum_two_ne counter[0].isLt (window_lt counter 1 16) h₁

end Agrees

/-! ## One call -/

/-- Byte `i` of the counter mode keystream. -/
def ctrStream (o : ByteOrder) (keySchedule : KeySchedule) (ctr₀ : Block) (i : Nat) : Byte :=
  (aesEncryption o (ctrBlock ctr₀ (i / 16)) keySchedule).get ⟨i % 16, Nat.mod_lt i (by decide)⟩

/-- The call ends and its output is `m` in counter mode from the first 16 bytes of
the buffer. -/
def ComputesCtr (o : ByteOrder) (keySchedule : KeySchedule) (counter : Array Byte) (m : Message) :
    Prop :=
  ∃ out s, ctrEncrypt o keySchedule (.fresh counter) m = .ok (out, s) ∧
    ∀ i < m.len, out.bytes[i]? =
      some (m.inp.getD i 0 ^^^ ctrStream o keySchedule (front counter) i)

/-- Where a call of `n` bytes is right: it increments nothing, or it uses at most two
counter blocks and the first increment is one that happens to come out right. -/
def CtrCorrectAt (counter : Array Byte) (n : Nat) : Prop :=
  n < 16 ∨ 17 ≤ counter.size ∧
    (n = 16 ∨ n ≤ 32 ∧ window counter 1 16 % 256 = 255 ∧ window counter 1 16 + 1 < 2 ^ 128)

section Call

variable (o : ByteOrder) (keySchedule : KeySchedule) {counter : Array Byte}

theorem ctrGen_stream (i : Nat) :
    (ctrGen o keySchedule).stream (.fresh counter) i
      = (aesEncryption o (front (bump^[i / 16] counter)) keySchedule).get
          ⟨i % 16, Nat.mod_lt i (by decide)⟩ := by
  rw [BlockGen.stream, ctrGen_iterate]
  rfl

/-- A call is right where its keystream is. -/
theorem computesCtr_iff (m : Message) (hroom : Room counter m.length) :
    ComputesCtr o keySchedule counter m ↔
      ∀ i < m.len, (ctrGen o keySchedule).stream (.fresh counter) i
        = ctrStream o keySchedule (front counter) i := by
  obtain ⟨out, s, hrun, henc⟩ := ctrEncrypt_encrypted o keySchedule (s := .fresh counter) hroom
  constructor
  · rintro ⟨out', s', hrun', hout⟩ i hi
    rw [hrun, Except.ok.injEq, Prod.mk.injEq] at hrun'
    have hbyte := hout i hi
    rw [← hrun'.1, henc.inside i hi, Option.some.injEq] at hbyte
    exact (BitVec.xor_right_inj _).mp hbyte
  · intro h
    exact ⟨out, s, hrun, fun i hi => by rw [henc.inside i hi, h i hi]⟩

/-- Right counter blocks make a right call. -/
theorem computesCtr_of_agrees (m : Message) (hroom : Room counter m.length)
    (h : ∀ k, 16 * k < m.len → Agrees counter k) : ComputesCtr o keySchedule counter m := by
  refine (computesCtr_iff o keySchedule m hroom).mpr ?_
  intro i hi
  rw [ctrGen_stream, h (i / 16) (by omega), ctrStream]

/-- A right call shows that the counter block of each of its whole blocks is right. -/
theorem agrees_of_whole {m : Message} (hroom : Room counter m.length)
    (h : ComputesCtr o keySchedule counter m) {k : Nat} (hk : 16 * (k + 1) ≤ m.len) :
    Agrees counter k := by
  have hstream := (computesCtr_iff o keySchedule m hroom).mp h
  apply (aesEncryption_bijective o keySchedule).injective
  refine Vector.ext ?_
  intro j hj
  have hbyte := hstream (16 * k + j) (by omega)
  rw [ctrGen_stream, ctrStream] at hbyte
  simp only [show (16 * k + j) / 16 = k by omega, show (16 * k + j) % 16 = j by omega] at hbyte
  exact hbyte

/-- Calls that are right under every key schedule show it for every block they begin. -/
theorem agrees_of_forall {m : Message} (hroom : Room counter m.length)
    (h : ∀ keySchedule, ComputesCtr o keySchedule counter m) {k : Nat} (hk : 16 * k < m.len) :
    Agrees counter k := by
  by_contra hne
  obtain ⟨ks, hks⟩ := exists_schedule_ne o hne
  have hbyte := (computesCtr_iff o ks m hroom).mp (h ks) (16 * k) hk
  rw [ctrGen_stream, ctrStream] at hbyte
  simp only [show 16 * k / 16 = k by omega, show 16 * k % 16 = 0 by omega] at hbyte
  exact hks hbyte

/-- Without room the call faults. -/
theorem room_of_computesCtr {m : Message} (hsize : 16 ≤ counter.size)
    (h : ComputesCtr o keySchedule counter m) : Room counter m.length := by
  by_contra hroom
  simp only [Room, not_or, not_and, Int.not_lt] at hroom
  obtain ⟨out, s, hrun, -⟩ := h
  have hlen : 16 ≤ m.len := by
    have := hroom.2 hsize
    rw [Message.len]
    omega
  rw [ctrEncrypt_outOfRange o keySchedule (show counter.size = 16 by omega) hlen] at hrun
  cases hrun

end Call

theorem room_of_ctrCorrectAt {counter : Array Byte} {m : Message} (hsize : 16 ≤ counter.size)
    (h : CtrCorrectAt counter m.len) : Room counter m.length := by
  rcases h with h | ⟨h17, -⟩
  · refine .inr ⟨hsize, ?_⟩
    have := m.nonneg
    simp only [Message.len] at h
    omega
  · exact .inl h17

/-- Under the condition every counter block of the call is right. -/
theorem CtrCorrectAt.agrees {counter : Array Byte} {n : Nat} (h : CtrCorrectAt counter n) :
    ∀ k, 16 * k < n → Agrees counter k := by
  intro k hk
  rcases h with h | ⟨h17, rfl | ⟨hn, hT⟩⟩
  · rw [show k = 0 by omega]
    exact agrees_zero counter
  · rw [show k = 0 by omega]
    exact agrees_zero counter
  · rcases (by omega : k = 0 ∨ k = 1) with rfl | rfl
    · exact agrees_zero counter
    · exact (agrees_one_iff h17).mpr hT

/-- Right counter blocks 1 and 2, as far as they occur, give the condition. -/
theorem ctrCorrectAt_of_agrees {counter : Array Byte} {m : Message} (hroom : Room counter m.length)
    (h₁ : 16 < m.len → Agrees counter 1) (h₂ : 32 < m.len → Agrees counter 2) :
    CtrCorrectAt counter m.len := by
  rcases hroom with h17 | ⟨-, hlt⟩
  · rcases (by omega : m.len < 16 ∨ m.len = 16 ∨ 16 < m.len ∧ m.len ≤ 32 ∨ 32 < m.len)
      with h | h | ⟨h, h'⟩ | h
    · exact .inl h
    · exact .inr ⟨h17, .inl h⟩
    · exact .inr ⟨h17, .inr ⟨h', (agrees_one_iff h17).mp (h₁ h)⟩⟩
    · exact absurd (h₂ h) (not_agrees_two h17 (h₁ (by omega)))
  · refine .inl ?_
    rw [Message.len]
    omega

/-- **Where a call computes counter mode.**  For a given buffer and length, calls
under all key schedules are right exactly under `CtrCorrectAt`; and under each key
schedule by itself, if the length is one at which a wrong counter block is used for
a whole block. -/
theorem aesCtrEncryption_counterMode_iff (o : ByteOrder) {counter : Array Byte}
    (hsize : 16 ≤ counter.size) (len : CInt) (hlen : 0 ≤ len.val) :
    ((∀ keySchedule, ∀ m : Message, m.length = len → ComputesCtr o keySchedule counter m)
        ↔ CtrCorrectAt counter len.val.toNat)
      ∧ (16 ∣ len.val ∨ 48 ≤ len.val → ∀ keySchedule, ∀ m : Message, m.length = len →
          (ComputesCtr o keySchedule counter m ↔ CtrCorrectAt counter len.val.toNat)) := by
  have hright : CtrCorrectAt counter len.val.toNat → ∀ keySchedule, ∀ m : Message, m.length = len →
      ComputesCtr o keySchedule counter m := by
    rintro h ks m rfl
    exact computesCtr_of_agrees o ks m (room_of_ctrCorrectAt hsize h) h.agrees
  refine ⟨⟨fun h => ?_, hright⟩, fun hwhole ks m hm => ⟨fun h => ?_, fun h => hright h ks m hm⟩⟩
  · have hm := fun ks => h ks (Message.zeros len hlen) rfl
    have hroom := room_of_computesCtr o (Vector.replicate 60 0) hsize (hm _)
    exact ctrCorrectAt_of_agrees hroom (fun hn => agrees_of_forall o hroom hm (by omega))
      (fun hn => agrees_of_forall o hroom hm (by omega))
  · subst hm
    have hroom := room_of_computesCtr o ks hsize h
    have hlen' : m.len = m.length.val.toNat := rfl
    exact ctrCorrectAt_of_agrees hroom (fun hn => agrees_of_whole o ks hroom h (by omega))
      (fun hn => agrees_of_whole o ks hroom h (by omega))

/-- A buffer whose last byte is full. -/
def carryCounter : Array Byte := #[0, 0, 0, 0, 0, 0, 0, 0, 0, 0, 0, 0, 0, 0, 0, 0, 0xff]

/-- Two blocks from that buffer are counter mode under every key schedule. -/
theorem aesCtrEncryption_counterMode_two_blocks :
    CtrCorrectAt carryCounter 32
      ∧ ∀ keySchedule, ∀ m : Message, m.length = ⟨32, by decide⟩ →
        ComputesCtr .little keySchedule carryCounter m := by
  have hcond : CtrCorrectAt carryCounter 32 :=
    .inr ⟨by decide, .inr ⟨by decide, by decide, by decide⟩⟩
  have hsize : 16 ≤ carryCounter.size := by decide
  have hiff := (aesCtrEncryption_counterMode_iff .little hsize ⟨32, by decide⟩ (by decide)).1
  exact ⟨hcond, hiff.mpr hcond⟩

/-- The initial counter block of the repository's test, followed by one zero byte. -/
def sampleCounter : Array Byte :=
  #[0xf0, 0xf1, 0xf2, 0xf3, 0xf4, 0xf5, 0xf6, 0xf7, 0xf8, 0xf9, 0xfa, 0xfb, 0xfc, 0xfd, 0xfe, 0xff, 0]

/-- Two blocks from that buffer are not counter mode: the second is encrypted with
the first counter block again. -/
theorem not_computesCtr_sampleCounter :
    ¬ ComputesCtr .little (Vector.replicate 60 0) sampleCounter
      (Message.zeros ⟨32, by decide⟩ (by decide)) := by
  intro h
  have hroom : Room sampleCounter ⟨32, by decide⟩ := .inl (by decide)
  have h₁ := agrees_of_whole .little (Vector.replicate 60 0) hroom h (k := 1) (by decide)
  rw [agrees_one_iff (by decide)] at h₁
  exact absurd h₁.1 (by decide)

end AeadPerf.Aes
