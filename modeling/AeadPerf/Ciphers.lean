/-
# `Ciphers` — the four encryption functions on any length

`chacha20_encryption`, `chacha20_encryption_128`, `chacha20_encryption_256` and
`aes_ctr_encryption` are four copies of one block loop, which `encryptBlocks` is.  Each
takes an `int` for the length, and nothing stops a caller from passing a negative one.

    length < 0        `/` and `%` truncate towards zero: no block, nothing left over
    length = q·B + r  `q` blocks at `0, B, …`, then `r` bytes at `q·B`

Every array access and every `int` expression of the four is a checked one, so a run that
ends is one without an index out of its array and without an overflow; on arrays of
`length` bytes that leaves the indices `0, …, length - 1`.  The log of the output array
says which of them were stored to.
-/
import AeadPerf.Aes.CtrStream
import AeadPerf.ChaCha.Avx

namespace AeadPerf

open Words Checked KeyStream
open ChaCha Aes

/-- Calls on arrays that have `length` bytes end, and store once to each index below
`length`. -/
structure WithinBounds (inp out : Array Byte) (length : CInt) : Prop where
  scalar : ∀ k n c, WritesOnce length (chacha20Encryption inp (Sink.fresh out) k n c length)
  sse : ∀ k n c, WritesOnce length (chacha20Encryption128 inp (Sink.fresh out) k n c length)
  avx : ∀ k n c, WritesOnce length (chacha20Encryption256 inp (Sink.fresh out) k n c length)
  /-- The buffer of the counter block goes on behind it, or no block is whole. -/
  ctr : ∀ o keySchedule counter, Room counter length →
    WritesOnce length
      ((aesCtrEncryption o inp (Sink.fresh out) keySchedule (.fresh counter) length).map Prod.fst)
  /-- Else the run stops at `counter[16]`, and not at a data array. -/
  ctrStops : ∀ o keySchedule (counter : Block), 16 ≤ length.val →
    aesCtrEncryption o inp (Sink.fresh out) keySchedule (.fresh counter.toArray) length
      = .error (.outOfRange 16 16)

/-- **All four functions keep to their arrays**, for every value of the length. -/
theorem encryption_withinBounds {inp out : Array Byte} {length : CInt}
    (hin : length.val.toNat ≤ inp.size) (hout : length.val.toNat ≤ out.size) :
    WithinBounds inp out length where
  scalar k n c := encryption64_writesOnce chacha20Expansion k n c hin hout
  sse k n c := encryption64_writesOnce chacha20Expansion128 k n c hin hout
  avx k n c := chacha20Encryption256_writesOnce k n c hin hout
  ctr o keySchedule counter hroom := by
    obtain ⟨r, hrun, hwritten⟩ :=
      aesCtrEncryption_written o keySchedule (s := .fresh counter) hroom hin hout
    refine ⟨r.1, ?_, hwritten⟩
    rw [hrun]
    rfl
  ctrStops o keySchedule counter hlen :=
    aesCtrEncryption_outOfRange o keySchedule counter.size_toArray hlen hin hout

/-- Two blocks of 64 bytes and one byte more, on arrays of this size: one byte left over for the AVX
code, which has passed one block of 128. -/
theorem encryption_withinBounds_129 :
    WithinBounds (Array.replicate 129 0) (Array.replicate 129 0) ⟨129, by decide⟩ :=
  encryption_withinBounds (Nat.le_of_eq Array.size_replicate.symm) (Nat.le_of_eq Array.size_replicate.symm)

end AeadPerf
