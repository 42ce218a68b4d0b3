/-
# `Aes.CtrStream` — counter mode calls as a stream cipher

`aes_ctr_encryption` XORs a keystream that is fixed by the key schedule and the
counter buffer.  Nothing here asks which keystream it is: the formula of
`aesCtrEncryption_eq`, with `BlockGen`'s laws, gives

    one call        in[i] ^ K(i) at i < n, nothing else written
    a prefix        the prefix of the encryption
    a second call   on a restored buffer, the plaintext
    several calls   on one buffer, all but the last of whole blocks: one call

`ctrCall` is a call seen as a function to the ciphertext bytes, and `runCalls` a
sequence of calls that hand one counter buffer on.
-/
import AeadPerf.Aes.Ctr

namespace AeadPerf.Aes

open Words Checked KeyStream

/-! ## Calls -/

/-- A call on a message: output buffer and state. -/
def ctrEncrypt (o : ByteOrder) (keySchedule : KeySchedule) (s : CtrState) (m : Message) :
    Run (Sink × CtrState) :=
  aesCtrEncryption o m.inp (Sink.fresh m.out) keySchedule s m.length

/-- A call on a message: ciphertext and state. -/
def ctrCall (o : ByteOrder) (keySchedule : KeySchedule) (s : CtrState) (m : Message) :
    Run (Array Byte × CtrState) := do
  let (out, s) ← ctrEncrypt o keySchedule s m
  pure (out.bytes.extract 0 m.len, s)

/-- Calls one after the other on one counter buffer, ciphertexts concatenated. -/
def runCalls (o : ByteOrder) (keySchedule : KeySchedule) :
    List Message → CtrState → Run (Array Byte × CtrState)
  | [], s => .ok (#[], s)
  | m :: ms, s => do
      let (c, s) ← ctrCall o keySchedule s m
      let (cs, s) ← runCalls o keySchedule ms s
      pure (c ++ cs, s)

section

variable (o : ByteOrder) (keySchedule : KeySchedule)

theorem ctrEncrypt_eq {s : CtrState} {m : Message} (hroom : Room s.counter m.length) :
    ctrEncrypt o keySchedule s m =
      .ok ((Sink.fresh m.out).xored m.inp ((ctrGen o keySchedule).stream s) 0 m.len,
        finalState (ctrGen o keySchedule) CtrState.used s m.len) :=
  aesCtrEncryption_eq o keySchedule hroom m.nonneg m.fitsInp m.fitsOut

theorem ctrCall_eq {s : CtrState} {m : Message} (hroom : Room s.counter m.length) :
    ctrCall o keySchedule s m =
      .ok ((ctrGen o keySchedule).encrypt s m.text,
        finalState (ctrGen o keySchedule) CtrState.used s m.len) := by
  have hbytes : ((Sink.fresh m.out).xored m.inp ((ctrGen o keySchedule).stream s) 0
      m.len).bytes.extract 0 m.len = (ctrGen o keySchedule).encrypt s m.text :=
    (encrypted_xored _ m).extract_eq
  simp only [ctrCall, ctrEncrypt_eq o keySchedule hroom, ok_bind, pure_eq_ok, hbytes]

/-- A whole block needs more than 16 bytes of buffer. -/
theorem ctrEncrypt_outOfRange {s : CtrState} {m : Message} (hsize : s.counter.size = 16)
    (hlen : 16 ≤ m.len) : ctrEncrypt o keySchedule s m = .error (.outOfRange 16 16) := by
  rw [Message.len] at hlen
  exact aesCtrEncryption_outOfRange o keySchedule hsize (by omega) m.fitsInp m.fitsOut

/-! ## One call -/

theorem ctrEncrypt_encrypted {s : CtrState} {m : Message} (hroom : Room s.counter m.length) :
    ∃ out t, ctrEncrypt o keySchedule s m = .ok (out, t)
      ∧ Encrypted ((ctrGen o keySchedule).stream s) m out.bytes :=
  ⟨_, _, ctrEncrypt_eq o keySchedule hroom, encrypted_xored _ m⟩

/-- The calls from one counter buffer, seen as functions to the output buffer. -/
def ctrOutput (counter : Array Byte) (m : Message) : Run Sink := do
  let (out, _) ← ctrEncrypt o keySchedule (.fresh counter) m
  pure out

/-- **An additive stream cipher**: one keystream serves every message and every
length.  What is decrypted is decrypted from the same counter buffer. -/
theorem aesCtrEncryption_additive {counter : Array Byte} (h : 17 ≤ counter.size) :
    ∃ K : Nat → Byte, Additive (ctrOutput o keySchedule counter) K := by
  refine ⟨(ctrGen o keySchedule).stream (.fresh counter), Additive.of_call ?_⟩
  intro m
  obtain ⟨out, s, hrun, henc⟩ := ctrEncrypt_encrypted o keySchedule (s := .fresh counter) (m := m) (.inl h)
  refine ⟨out, ?_, henc⟩
  rw [ctrOutput, hrun]
  rfl

/-- The smallest buffer that the code does not overrun. -/
theorem aesCtrEncryption_additive_smallest :
    ∃ K : Nat → Byte,
      Additive (ctrOutput .little (Vector.replicate 60 0) (Array.replicate 17 0)) K :=
  aesCtrEncryption_additive .little (Vector.replicate 60 0) (by decide)

/-! ## Several calls -/

/-- A call of whole blocks moves the generator by that many states. -/
theorem ctrCall_aligned {m : Message} (hm : 16 ∣ m.len) {s : CtrState}
    (h : 17 ≤ s.counter.size) :
    ∃ k, m.text.size = k * 16 ∧
      ctrCall o keySchedule s m =
        .ok ((ctrGen o keySchedule).encrypt s m.text, (ctrGen o keySchedule).next^[k] s) := by
  obtain ⟨k, hk⟩ := hm
  refine ⟨k, by rw [m.size_text]; omega, ?_⟩
  rw [ctrCall_eq o keySchedule (.inl h), finalState, if_pos (by omega), show m.len / 16 = k by omega]

/-- Messages of whole blocks and then one of any length. -/
theorem runCalls_aligned (ms : List Message) (hms : ∀ m ∈ ms, 16 ∣ m.len) (last : Message)
    {s : CtrState} (h : 17 ≤ s.counter.size) :
    runCalls o keySchedule (ms ++ [last]) s =
      .ok ((ctrGen o keySchedule).encrypt s (textOf (ms ++ [last])),
        finalState (ctrGen o keySchedule) CtrState.used s (textOf (ms ++ [last])).size) := by
  induction ms generalizing s with
  | nil =>
      rw [List.nil_append, runCalls, ctrCall_eq o keySchedule (.inl h), ok_bind]
      simp [runCalls, textOf]
  | cons m ms ih =>
      obtain ⟨k, hsize, hcall⟩ := ctrCall_aligned o keySchedule (hms m List.mem_cons_self) h
      have hgood := (ctrGen_realizes o keySchedule).iterate_good h k
      have hrest := ih (fun m' hm' => hms m' (List.mem_cons_of_mem m hm')) hgood
      rw [List.cons_append, runCalls, hcall, ok_bind]
      simp only [hrest, ok_bind, textOf_cons, BlockGen.encrypt_append _ _ _ _ hsize, Array.size_append, hsize,
        finalState_add, pure_eq_ok]

/-- Calls on one counter buffer, all but the last of whole blocks, are one call. -/
structure Incremental (counter : Array Byte) : Prop where
  /-- Two calls: the ciphertext of one call and the state it leaves. -/
  two : ∀ m₁ m₂ m : Message, 16 ∣ m₁.len → m.text = m₁.text ++ m₂.text →
    ∃ c₁ c₂ s₁ s₂, ctrCall o keySchedule (.fresh counter) m₁ = .ok (c₁, s₁)
      ∧ ctrCall o keySchedule s₁ m₂ = .ok (c₂, s₂)
      ∧ ctrCall o keySchedule (.fresh counter) m = .ok (c₁ ++ c₂, s₂)
  /-- Any number of calls. -/
  chunks : ∀ (ms : List Message) (last m : Message), (∀ m' ∈ ms, 16 ∣ m'.len) →
    m.text = textOf (ms ++ [last]) →
    ∃ c s, runCalls o keySchedule (ms ++ [last]) (.fresh counter) = .ok (c, s)
      ∧ ctrCall o keySchedule (.fresh counter) m = .ok (c, s)

/-- **Incremental encryption is one-shot encryption.** -/
theorem aesCtrEncryption_incremental {counter : Array Byte} (h : 17 ≤ counter.size) :
    Incremental o keySchedule counter where
  two := by
    intro m₁ m₂ m hm₁ htext
    obtain ⟨k, hsize, hcall⟩ := ctrCall_aligned o keySchedule hm₁ (s := .fresh counter) h
    have hgood := (ctrGen_realizes o keySchedule).iterate_good (s := .fresh counter) h k
    refine ⟨_, _, _, _, hcall, ctrCall_eq o keySchedule (.inl hgood), ?_⟩
    have hlen : m.len = k * 16 + m₂.len := by
      rw [← m.size_text, htext, Array.size_append, hsize, m₂.size_text]
    rw [ctrCall_eq o keySchedule (.inl h), htext, BlockGen.encrypt_append _ _ _ _ hsize,
      finalState_add, hlen]
  chunks := by
    intro ms last m hms htext
    refine ⟨_, _, runCalls_aligned o keySchedule ms hms last h, ?_⟩
    rw [ctrCall_eq o keySchedule (.inl h), ← htext, m.size_text]

theorem aesCtrEncryption_incremental_smallest :
    Incremental .little (Vector.replicate 60 0) (Array.replicate 17 0) :=
  aesCtrEncryption_incremental .little (Vector.replicate 60 0) (by decide)

end

end AeadPerf.Aes
