/-
# `Aes.Ctr` — the counter mode code of `aes_ctr.c`

`increment_count` and `aes_ctr_encryption`, and what they do on a counter buffer
that has room for every index `increment_count` touches.

The counter buffer is an array of any size, the caller's.  `aes_encryption`
reads its first 16 bytes.  `increment_count` works downwards from `counter[16]`
and stops before `counter[0]`, so the number it increments is the one in bytes
1 to 16 (`incrementCount_eq`):

    index       0   1   2  …  15  16  17 …
    block       └────── read ─────┘
    number          └── incremented ─┘

Both are carried separately all the way; nothing in this module says that they
should have been the same.

Beside the buffer a `CtrState` records the counter blocks handed to
`aes_encryption` so far, in order.  The program has no such variable and nothing
reads it back.
-/
import AeadPerf.Aes.Core
import AeadPerf.Lib.KeyStream

namespace AeadPerf.Aes

open Words Checked KeyStream

/-! ## The code -/

/-- The counter buffer and the blocks handed to `aes_encryption` so far. -/
structure CtrState where
  counter : Array Byte
  handed : List Block
  deriving DecidableEq, Repr

/-- A counter buffer before the first call. -/
def CtrState.fresh (counter : Array Byte) : CtrState := ⟨counter, []⟩

/-- The loop of `increment_count` entered with `i`; `--i > 0` fails at `0`. -/
def incrementFrom (counter : Array Byte) : Nat → Run (Array Byte)
  | 0 => .ok counter
  | i + 1 => do
      let c ← load counter ((i + 1 : Nat) : Int)
      let counter ← store counter ((i + 1 : Nat) : Int) (c + 1)
      let c ← load counter ((i + 1 : Nat) : Int)
      if c = 0 then incrementFrom counter i else pure counter

/-- `increment_count`: `i` starts at `BLK_BYTES`. -/
def incrementCount (counter : Array Byte) : Run (Array Byte) := incrementFrom counter 16

/-- `aes_encryption(counter, key_stream, key_schedule)`. -/
def ctrKeyStream (o : ByteOrder) (keySchedule : KeySchedule) (s : CtrState) :
    Run (Block × CtrState) := do
  let block ← copyIn s.counter 16
  pure (aesEncryption o block keySchedule, { s with handed := s.handed ++ [block] })

/-- `increment_count(counter)`. -/
def ctrAdvance (s : CtrState) : Run CtrState := do
  let counter ← incrementCount s.counter
  pure { s with counter := counter }

/-- `aes_ctr_encryption`. -/
def aesCtrEncryption (o : ByteOrder) (plainText : Array Byte) (cipherText : Sink)
    (keySchedule : KeySchedule) (s : CtrState) (ptLength : CInt) : Run (Sink × CtrState) :=
  encryptBlocks (ctrKeyStream o keySchedule) ctrAdvance (xorFrom plainText) ptLength cipherText s

/-! ## The increment -/

/-- The loop adds one to the number in the bytes `1, …, i`. -/
theorem incrementFrom_eq (counter : Array Byte) (i : Nat) (hi : 1 + i ≤ counter.size) :
    incrementFrom counter i = .ok (setWindow counter 1 i (window counter 1 i + 1)) := by
  induction i generalizing counter with
  | zero =>
      have hwrap : (window counter 1 0 + 1) % 256 ^ 0 = window counter 1 0 % 256 ^ 0 := by omega
      rw [incrementFrom, setWindow_congr counter 1 0 hwrap, setWindow_window]
  | succ i ih =>
      have hlt : 1 + i < counter.size := by omega
      have hidx : ((i + 1 : Nat) : Int) = ((1 + i : Nat) : Int) := by omega
      have hbyte := counter[1 + i].isLt
      have hlow : counter[1 + i] + 1 = BitVec.ofNat 8 (window counter 1 (i + 1) + 1) := by
        apply BitVec.eq_of_toNat_eq
        simp only [window_succ counter 1 i hlt, BitVec.toNat_add, BitVec.toNat_ofNat,
          BitVec.ofNat_eq_ofNat]
        omega
      rw [setWindow_succ counter 1 i hlt, ← hlow, incrementFrom, hidx, load_ok hlt,
        ok_bind, store_ok hlt, ok_bind, load_ok (by simpa using hlt), ok_bind, Array.getElem_set_self]
      by_cases hcarry : counter[1 + i] + 1 = 0
      · -- the byte was 255: the loop goes on with the number to its left
        have hmax : counter[1 + i].toNat = 255 := by
          have h0 := congrArg BitVec.toNat hcarry
          simp only [BitVec.toNat_add, BitVec.toNat_ofNat, BitVec.ofNat_eq_ofNat] at h0
          omega
        have hdiv : (window counter 1 (i + 1) + 1) / 256 = window counter 1 i + 1 := by
          rw [window_succ counter 1 i hlt]
          omega
        rw [if_pos hcarry, ih _ (by simp; omega), window_set counter 1 i hlt, hdiv]
      · have hne : counter[1 + i].toNat ≠ 255 := by
          intro h255
          exact hcarry (BitVec.eq_of_toNat_eq (by simp [BitVec.toNat_add, h255]))
        have hdiv : (window counter 1 (i + 1) + 1) / 256 = window counter 1 i := by
          rw [window_succ counter 1 i hlt]
          omega
        rw [if_neg hcarry, hdiv, ← window_set counter 1 i hlt (counter[1 + i] + 1), setWindow_window]
        rfl

/-- The buffer after one call of `increment_count`. -/
def bump (counter : Array Byte) : Array Byte := setWindow counter 1 16 (window counter 1 16 + 1)

/-- **`increment_count` increments the number in bytes 1 to 16**, and touches no
other byte. -/
theorem incrementCount_eq {counter : Array Byte} (h : 17 ≤ counter.size) :
    incrementCount counter = .ok (bump counter) :=
  incrementFrom_eq counter 16 h

@[simp] theorem size_bump (counter : Array Byte) : (bump counter).size = counter.size := by
  simp [bump]

/-- `k` calls add `k`. -/
theorem iterate_bump {counter : Array Byte} (h : 17 ≤ counter.size) (k : Nat) :
    bump^[k] counter = setWindow counter 1 16 (window counter 1 16 + k) :=
  iterate_setWindow_succ counter 1 16 h k

/-! ## The cipher -/

/-- The block that `aes_encryption` reads. -/
def front (counter : Array Byte) : Block := Vector.ofFn fun i => counter.getD i.val 0

theorem copyIn_front {counter : Array Byte} (h : 16 ≤ counter.size) :
    copyIn counter 16 = .ok (front counter) := by
  rw [copyIn_ok h, front]
  congr 2
  funext i
  simp [show i.val < counter.size by omega]

/-- The state once the block for the present counter has been generated. -/
def CtrState.used (s : CtrState) : CtrState := { s with handed := s.handed ++ [front s.counter] }

/-- The generator that the code is: AES on the front of the buffer, then `bump`. -/
def ctrGen (o : ByteOrder) (keySchedule : KeySchedule) : BlockGen CtrState 16 where
  block s := aesEncryption o (front s.counter) keySchedule
  next s := { s.used with counter := bump s.counter }

section Call

variable (o : ByteOrder) (keySchedule : KeySchedule)

theorem ctrKeyStream_eq {s : CtrState} (h : 16 ≤ s.counter.size) :
    ctrKeyStream o keySchedule s = .ok ((ctrGen o keySchedule).block s, s.used) := by
  rw [ctrKeyStream, copyIn_front h]
  rfl

theorem ctrGen_realizes :
    Realizes (ctrKeyStream o keySchedule) ctrAdvance (ctrGen o keySchedule) CtrState.used
      (fun s => 17 ≤ s.counter.size) where
  gen_ok hs := ctrKeyStream_eq o keySchedule (by omega)
  adv_ok {s} hs := by
    rw [ctrAdvance, show s.used.counter = s.counter from rfl, incrementCount_eq hs]
    rfl
  next_good hs := by
    rw [ctrGen, size_bump]
    exact hs

/-- The same of a call that is shorter than a block, whatever the advance. -/
theorem ctrGen_realizes_short :
    Realizes (ctrKeyStream o keySchedule) (fun s => .ok { s with counter := bump s.counter })
      (ctrGen o keySchedule) CtrState.used (fun s => 16 ≤ s.counter.size) where
  gen_ok hs := ctrKeyStream_eq o keySchedule hs
  adv_ok _ := rfl
  next_good hs := by
    rw [ctrGen, size_bump]
    exact hs

/-- The buffer has room for what a call of `len` bytes does to it. -/
def Room (counter : Array Byte) (len : CInt) : Prop :=
  17 ≤ counter.size ∨ 16 ≤ counter.size ∧ len.val < 16

/-- **A call with room in the buffer** ends without a fault: the keystream of
`ctrGen` in the first `len` bytes, one `bump` per whole block. -/
theorem aesCtrEncryption_eq {plainText : Array Byte} {cipherText : Sink} {s : CtrState} {len : CInt}
    (hroom : Room s.counter len) (hlen : 0 ≤ len.val) (hin : len.val.toNat ≤ plainText.size)
    (hout : len.val.toNat ≤ cipherText.bytes.size) :
    aesCtrEncryption o plainText cipherText keySchedule s len =
      .ok (cipherText.xored plainText ((ctrGen o keySchedule).stream s) 0 len.val.toNat,
        finalState (ctrGen o keySchedule) CtrState.used s len.val.toNat) := by
  rcases hroom with h17 | ⟨h16, hlt⟩
  · exact encryptBlocks_eq (ctrGen_realizes o keySchedule) (xorFrom_xorsInto plainText) hlen h17 hin hout
  · -- no block is whole, so the increment is not called
    rw [aesCtrEncryption, encryptBlocks_of_lt _ hlt]
    exact encryptBlocks_eq (ctrGen_realizes_short o keySchedule) (xorFrom_xorsInto plainText) hlen h16
      hin hout

/-- The same call for any `len`, negative ones included: no fault, and every index below
`len` stored to once. -/
theorem aesCtrEncryption_written {plainText cipherText : Array Byte} {s : CtrState} {len : CInt}
    (hroom : Room s.counter len) (hin : len.val.toNat ≤ plainText.size)
    (hout : len.val.toNat ≤ cipherText.size) :
    ∃ r, aesCtrEncryption o plainText (Sink.fresh cipherText) keySchedule s len = .ok r
      ∧ r.1.written = List.range len.val.toNat := by
  rcases hroom with h17 | ⟨h16, hlt⟩
  · exact encryptBlocks_written (ctrGen_realizes o keySchedule) (xorFrom_xorsInto plainText) len h17
      hin hout
  · rw [aesCtrEncryption, encryptBlocks_of_lt _ hlt]
    exact encryptBlocks_written (ctrGen_realizes_short o keySchedule) (xorFrom_xorsInto plainText) len
      h16 hin hout

/-- The state after `k` whole blocks. -/
theorem ctrGen_iterate (s : CtrState) (k : Nat) :
    (ctrGen o keySchedule).next^[k] s
      = ⟨bump^[k] s.counter, s.handed ++ (List.range k).map fun j => front (bump^[j] s.counter)⟩ := by
  induction k with
  | zero => simp
  | succ k ih =>
      rw [Function.iterate_succ_apply', ih, Function.iterate_succ_apply', List.range_succ,
        List.map_append, ← List.append_assoc]
      rfl

/-- The state after a call of `n` bytes: a block handed over for every 16 bytes
begun, an increment for every 16 bytes completed. -/
theorem ctrGen_finalState (s : CtrState) (n : Nat) :
    finalState (ctrGen o keySchedule) CtrState.used s n
      = ⟨bump^[n / 16] s.counter,
          s.handed ++ (List.range ((n + 15) / 16)).map fun j => front (bump^[j] s.counter)⟩ := by
  rw [finalState, ctrGen_iterate]
  by_cases hn : n % 16 = 0
  · rw [if_pos hn, show (n + 15) / 16 = n / 16 by omega]
  · rw [if_neg hn, show (n + 15) / 16 = n / 16 + 1 by omega, List.range_succ, List.map_append,
      ← List.append_assoc]
    rfl

/-- **A buffer of 16 bytes does not do**: the first whole block makes
`increment_count` access `counter[16]`. -/
theorem aesCtrEncryption_outOfRange {plainText : Array Byte} {cipherText : Sink} {s : CtrState}
    {len : CInt} (hsize : s.counter.size = 16) (hlen : 16 ≤ len.val)
    (hin : len.val.toNat ≤ plainText.size) (hout : len.val.toNat ≤ cipherText.bytes.size) :
    aesCtrEncryption o plainText cipherText keySchedule s len = .error (.outOfRange 16 16) := by
  have hincr : ctrAdvance s.used = .error (.outOfRange 16 16) := by
    rw [ctrAdvance, incrementCount, incrementFrom, load, dif_neg (by simp [CtrState.used, hsize])]
    simp [CtrState.used, hsize]
  have hpass : blockPass (ctrKeyStream o keySchedule) ctrAdvance (xorFrom plainText)
      (cipherText, 0, s) = .error (.outOfRange 16 16) := by
    have hxor := xorFrom_xorsInto plainText ((ctrGen o keySchedule).block s)
      ((ctrGen o keySchedule).stream s) 0 16 cipherText le_rfl (by omega) (by omega) (by decide)
      (fun j hj _ => by simpa using (ctrGen o keySchedule).stream_block s 0 j hj)
    have h0 : ((0 : Nat) : Int) = 0 := rfl
    rw [h0] at hxor
    simp only [blockPass, ctrKeyStream_eq o keySchedule (s := s) (by omega), ok_bind, hxor, hincr]
    rfl
  have hwhole : 0 < len.val.tdiv 16 := by
    have := Int.le_tdiv_of_mul_le (a := 1) (c := 16) (by decide) hlen
    omega
  simp only [aesCtrEncryption, encryptBlocks, forLoop_unfold 0]
  rw [if_pos (by exact_mod_cast hwhole), hpass]
  rfl

/-- With a counter array of 16 bytes, and data arrays of the length, the call reaches no
index out of range. -/
def CounterInRange (counter : Block) (ptLength : CInt) : Prop :=
  ∀ plainText cipherText : Array Byte, ptLength.val.toNat ≤ plainText.size →
    ptLength.val.toNat ≤ cipherText.size →
    ∃ r, aesCtrEncryption o plainText (Sink.fresh cipherText) keySchedule (.fresh counter.toArray)
      ptLength = .ok r

/-- **The counter array is left** exactly by the calls with a whole block. -/
theorem counterInRange_iff (counter : Block) (ptLength : CInt) :
    CounterInRange o keySchedule counter ptLength ↔ ptLength.val < 16 := by
  have hsize : (CtrState.fresh counter.toArray).counter.size = 16 := counter.size_toArray
  constructor
  · intro h
    rcases Int.lt_or_le ptLength.val 16 with hlt | hge
    · exact hlt
    · have hzeros : ptLength.val.toNat ≤ (Array.replicate ptLength.val.toNat (0 : Byte)).size := by simp
      obtain ⟨r, hr⟩ := h _ _ hzeros hzeros
      rw [aesCtrEncryption_outOfRange o keySchedule hsize hge hzeros hzeros] at hr
      cases hr
  · intro hlt plainText cipherText hin hout
    obtain ⟨r, hr, -⟩ := aesCtrEncryption_written o keySchedule (.inr ⟨hsize.ge, hlt⟩) hin hout
    exact ⟨r, hr⟩

end Call

/-- One block, with the zero counter. -/
theorem not_counterInRange_block :
    ¬ CounterInRange .little (Vector.replicate 60 0) (Vector.replicate 16 0) ⟨16, by decide⟩ := by
  intro h
  obtain ⟨r, hr⟩ := h (Array.replicate 16 0) (Array.replicate 16 0) (by decide) (by decide)
  rw [aesCtrEncryption_outOfRange .little (Vector.replicate 60 0) rfl (by decide) (by decide)
    (by decide)] at hr
  cases hr

end AeadPerf.Aes
