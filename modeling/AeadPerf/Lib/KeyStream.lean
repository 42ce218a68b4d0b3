/-
# `Lib.KeyStream` — ciphers that XOR a message with a block-generated keystream

## The abstract cipher

A `BlockGen` is a state machine that emits one block of `B` bytes per state.
Its keystream from a state `s` is the concatenation of the blocks of `s`,
`next s`, `next (next s)`, …, so byte `i` is byte `i % B` of the block of
`next^[i / B] s`.  `encrypt` XORs it into a message, and a message cut at a block
boundary may be encrypted in two calls (`encrypt_append`).

## The loop that implements it

`encryptBlocks` is the loop of a C implementation: `len / B` whole blocks, each
one generated, XORed in at an accumulated offset and followed by an advance of
the state, then a block generated for the `len % B` bytes that are left, if any.
It is parametrised by the generator, the advance and the inner XOR loop, which
may all fault.

What is asked of the parameters is bundled in `Realizes` (on the states that
satisfy an invariant, generator and advance do what the `BlockGen` says) and in
what the inner loop does: it takes the output along any line of outputs
(`XorsAlong`), in particular it XORs one block in, at any offset (`XorsInto`).
Then the loop goes along the line to its end (`encryptBlocks_along`), and so
computes the abstract cipher (`encryptBlocks_eq`).  The two xor loops that occur
in practice, one counting message positions and one counting block positions,
are `xorFrom` and `xorAt`.

## What a call does for its caller

`Message` bundles the data arguments of a call with the facts C callers guarantee
(the length is not negative, both data buffers have that many bytes), and
`Encrypted K m` says what a call leaves in the output buffer.  What a user of a
stream cipher relies on follows from that, whatever `K` is:

    Encrypted.involutive     decryption is encryption
    Encrypted.prefix_eq      the encryption of a prefix is a prefix of the encryption

`Additive K` says of a function that every call of it does that for one `K`.

A length that is negative is a message of no bytes (`encryptBlocks_of_neg`), so for
any length at all a call stores `0, …, len - 1`, each once (`WritesOnce`).
-/
import AeadPerf.Lib.Checked
import Mathlib.Logic.Function.Iterate

namespace KeyStream

open Checked

variable {σ : Type} {B : Nat}

/-! ## The abstract cipher -/

/-- The text XOR the keystream. -/
def xorStream (K : Nat → BitVec 8) (text : Array (BitVec 8)) : Array (BitVec 8) :=
  text.mapIdx fun i b => b ^^^ K i

theorem getElem?_xorStream (K : Nat → BitVec 8) (text : Array (BitVec 8)) (i : Nat) :
    (xorStream K text)[i]? = text[i]?.map (· ^^^ K i) := by
  simp [xorStream]

@[simp] theorem size_xorStream (K : Nat → BitVec 8) (text : Array (BitVec 8)) :
    (xorStream K text).size = text.size := by
  simp [xorStream]

/-- Two texts, where the keystream of the second goes on behind the first. -/
theorem xorStream_append {K K' : Nat → BitVec 8} {text text' : Array (BitVec 8)}
    (hnext : ∀ i, K' i = K (text.size + i)) :
    xorStream K (text ++ text') = xorStream K text ++ xorStream K' text' := by
  refine Array.ext_getElem? ?_
  intro i
  rw [getElem?_xorStream, Array.getElem?_append, Array.getElem?_append, size_xorStream]
  split
  · rw [getElem?_xorStream]
  · rename_i hge
    have hi : text.size + (i - text.size) = i := by omega
    rw [getElem?_xorStream, hnext, hi]

/-- A generator of keystream blocks of `B` bytes. -/
structure BlockGen (σ : Type) (B : Nat) where
  block : σ → Vector (BitVec 8) B
  next : σ → σ

namespace BlockGen

variable [NeZero B] (g : BlockGen σ B)

/-- Byte `i` of the keystream from `s`. -/
def stream (s : σ) (i : Nat) : BitVec 8 :=
  (g.block (g.next^[i / B] s)).get ⟨i % B, Nat.mod_lt i (NeZero.pos B)⟩

/-- The keystream after `k` blocks is the keystream from the `k`-th state. -/
theorem stream_shift (s : σ) (k i : Nat) : g.stream (g.next^[k] s) i = g.stream s (k * B + i) := by
  have hdiv : (k * B + i) / B = i / B + k := by
    rw [Nat.add_comm, Nat.add_mul_div_right _ _ (NeZero.pos B)]
  have hmod : (k * B + i) % B = i % B := by
    rw [Nat.add_comm, Nat.add_mul_mod_self_right]
  simp only [stream, hdiv, hmod, Function.iterate_add_apply]

/-- Inside block `k` the keystream is that block. -/
theorem stream_block (s : σ) (k j : Nat) (hj : j < B) :
    g.stream s (k * B + j) = (g.block (g.next^[k] s))[j] := by
  rw [← stream_shift]
  simp only [stream, Nat.div_eq_of_lt hj, Nat.mod_eq_of_lt hj]
  rfl

/-- The message XOR the keystream. -/
def encrypt (s : σ) (m : Array (BitVec 8)) : Array (BitVec 8) := xorStream (g.stream s) m

/-- A message cut at a block boundary is encrypted piece by piece. -/
theorem encrypt_append (s : σ) (m₁ m₂ : Array (BitVec 8)) {k : Nat} (hk : m₁.size = k * B) :
    g.encrypt s (m₁ ++ m₂) = g.encrypt s m₁ ++ g.encrypt (g.next^[k] s) m₂ := by
  refine xorStream_append ?_
  intro i
  rw [stream_shift, hk]

end BlockGen

/-! ## The inner loops -/

/-- `for(j = off; j < off + n; j++) out[j] = inp[j] ^ key_stream[j - off]`. -/
def xorFrom (inp : Array (BitVec 8)) (ks : Vector (BitVec 8) B) (off n : Int) (out : Sink) :
    Run Sink := do
  let hi ← int (off + n)
  forLoop off hi (fun j out => do
    let p ← load inp j
    let k ← int (j - off)
    let b ← load ks.toArray k
    out.store j (p ^^^ b)) out

/-- `for(j = 0; j < n; j++) out[off + j] = inp[off + j] ^ keystream[j]`. -/
def xorAt (inp : Array (BitVec 8)) (ks : Vector (BitVec 8) B) (off n : Int) (out : Sink) :
    Run Sink :=
  forLoop 0 n (fun j out => do
    let i ← int (off + j)
    let p ← load inp i
    let b ← load ks.toArray j
    out.store i (p ^^^ b)) out

/-- An inner loop XORs `n` bytes of a block into the output at `off`. -/
def XorsInto (inp : Array (BitVec 8))
    (xor : Vector (BitVec 8) B → Int → Int → Sink → Run Sink) : Prop :=
  ∀ (ks : Vector (BitVec 8) B) (K : Nat → BitVec 8) (off n : Nat) (out : Sink),
    n ≤ B → off + n ≤ inp.size → off + n ≤ out.bytes.size → ((off + n : Nat) : Int) ≤ intMax →
    (∀ (j : Nat) (hj : j < B), j < n → K (off + j) = ks[j]) →
    xor ks off n out = .ok (out.xored inp K off (off + n))

theorem xorFrom_xorsInto (inp : Array (BitVec 8)) : XorsInto inp (xorFrom (B := B) inp) := by
  intro ks K off n out hn hin hout hmax hK
  rw [xorFrom, ← Int.natCast_add, int_ok_of_nonneg (Int.natCast_nonneg _) hmax, ok_bind]
  refine forLoop_eq (out.xored inp K off) (Nat.le_add_right off n) hmax
    (Sink.xored_self out inp K off).symm ?_
  intro j h₁ h₂
  have hj : (j : Int) - (off : Int) = ((j - off : Nat) : Int) := by omega
  have hks : load ks.toArray ((j - off : Nat) : Int) = .ok (K j) := by
    have hKj := hK (j - off) (by omega) (by omega)
    rw [show off + (j - off) = j by omega] at hKj
    rw [load_ok (by simp; omega), hKj]
    simp
  rw [load_ok (show j < inp.size by omega), ok_bind, hj, int_ok_of_nonneg (by omega) (by omega),
    ok_bind, hks, ok_bind]
  exact Sink.store_xored out inp K h₁ (by omega) (by simp [show j < inp.size by omega])

theorem xorAt_xorsInto (inp : Array (BitVec 8)) : XorsInto inp (xorAt (B := B) inp) := by
  intro ks K off n out hn hin hout hmax hK
  refine forLoop_eq (fun j => out.xored inp K off (off + j)) (Nat.zero_le n) (by omega)
    (Sink.xored_self out inp K off).symm ?_
  intro j _ h₂
  have hks : load ks.toArray (j : Int) = .ok (K (off + j)) := by
    rw [load_ok (by simp; omega), hK j (by omega) h₂]
    simp
  rw [← Int.natCast_add, int_ok_of_nonneg (by omega) (by omega), ok_bind,
    load_ok (show off + j < inp.size by omega), ok_bind, hks, ok_bind]
  exact Sink.store_xored out inp K (Nat.le_add_right off j) (by omega)
    (by simp [show off + j < inp.size by omega])

/-- An inner loop takes the output from `f off` to `f (off + n)`. -/
def XorsAlong (K : Nat → BitVec 8) (f : Nat → Sink) (len : Nat)
    (xor : Vector (BitVec 8) B → Int → Int → Sink → Run Sink) : Prop :=
  ∀ (ks : Vector (BitVec 8) B) (off n : Nat), n ≤ B → off + n ≤ len →
    (∀ (j : Nat) (hj : j < B), j < n → K (off + j) = ks[j]) →
    xor ks off n (f off) = .ok (f (off + n))

/-- Where it XORs a block in, it goes along the outputs with more and more of the keystream. -/
theorem XorsInto.along {inp : Array (BitVec 8)} {xor : Vector (BitVec 8) B → Int → Int → Sink → Run Sink}
    (hx : XorsInto inp xor) (K : Nat → BitVec 8) {out : Sink} {len : Nat} (hmax : (len : Int) ≤ intMax)
    (hin : len ≤ inp.size) (hout : len ≤ out.bytes.size) :
    XorsAlong K (out.xored inp K 0) len xor := by
  intro ks off n hn hlen hK
  have hsize : off + n ≤ (out.xored inp K 0 off).bytes.size := by
    rw [Sink.size_xored]
    omega
  have hxor := hx ks K off n (out.xored inp K 0 off) hn (by omega) hsize (by omega) hK
  rw [hxor, Sink.xored_append _ _ _ (Nat.zero_le off) (Nat.le_add_right off n)]

/-! ## The block loop -/

section Driver

variable (gen : σ → Run (Vector (BitVec 8) B × σ)) (adv : σ → Run σ)
  (xor : Vector (BitVec 8) B → Int → Int → Sink → Run Sink)

/-- The pass of the whole-block loop: output, offset and generator state. -/
def blockPass (st : Sink × Int × σ) : Run (Sink × Int × σ) := do
  let (out, off, s) := st
  let (ks, s) ← gen s
  let out ← xor ks off B out
  let off ← int (off + B)
  let s ← adv s
  pure (out, off, s)

/-- Whole blocks in order, then the bytes that are left. -/
def encryptBlocks (len : CInt) (out : Sink) (s : σ) : Run (Sink × σ) := do
  let whole := len.val.tdiv B
  let left := len.val.tmod B
  let (out, off, s) ← forLoop 0 whole (fun _ st => blockPass gen adv xor st) (out, 0, s)
  if left > 0 then do
    let (ks, s) ← gen s
    let out ← xor ks off left out
    pure (out, s)
  else
    pure (out, s)

/-- On states with the invariant `Good`, the code of a generator does what `g`
says.  `used s` is the state the generation of a block leaves behind, which the
advance then starts from. -/
structure Realizes (g : BlockGen σ B) (used : σ → σ) (Good : σ → Prop) : Prop where
  gen_ok : ∀ {s}, Good s → gen s = .ok (g.block s, used s)
  adv_ok : ∀ {s}, Good s → adv (used s) = .ok (g.next s)
  next_good : ∀ {s}, Good s → Good (g.next s)

/-- The state after a call of `n` bytes: one advance per whole block, and the
state left by the generation of the last block where some bytes were left. -/
def finalState (g : BlockGen σ B) (used : σ → σ) (s : σ) (n : Nat) : σ :=
  if n % B = 0 then g.next^[n / B] s else used (g.next^[n / B] s)

/-- A call of whole blocks composes with the call that follows it. -/
theorem finalState_add [NeZero B] (g : BlockGen σ B) (used : σ → σ) (s : σ) (k n : Nat) :
    finalState g used (g.next^[k] s) n = finalState g used s (k * B + n) := by
  have hdiv : (k * B + n) / B = n / B + k := by
    rw [Nat.add_comm, Nat.add_mul_div_right _ _ (NeZero.pos B)]
  have hmod : (k * B + n) % B = n % B := by
    rw [Nat.add_comm, Nat.add_mul_mod_self_right]
  simp only [finalState, hdiv, hmod, Function.iterate_add_apply]

variable {gen adv xor} {g : BlockGen σ B} {used : σ → σ} {Good : σ → Prop}

theorem Realizes.iterate_good (h : Realizes gen adv g used Good) {s : σ} (hs : Good s) (k : Nat) :
    Good (g.next^[k] s) := by
  induction k with
  | zero => exact hs
  | succ k ih => rw [Function.iterate_succ_apply']; exact h.next_good ih

variable [NeZero B]

/-- One pass, in the middle of a call: the invariant of the whole-block loop. -/
theorem blockPass_along (h : Realizes gen adv g used Good) {f : Nat → Sink} {s : σ} {len k : Nat}
    (hx : XorsAlong (g.stream s) f len xor) (hs : Good s) (hk : (k + 1) * B ≤ len)
    (hmax : (len : Int) ≤ intMax) :
    blockPass gen adv xor (f (k * B), (k * B : Nat), g.next^[k] s)
      = .ok (f ((k + 1) * B), ((k + 1) * B : Nat), g.next^[k + 1] s) := by
  have hgood := h.iterate_good hs k
  have hB : (k + 1) * B = k * B + B := Nat.succ_mul k B
  have hxor := hx (g.block (g.next^[k] s)) (k * B) B le_rfl (by omega)
    (fun j hj _ => g.stream_block s k j hj)
  rw [← hB] at hxor
  have hoff : ((k * B : Nat) : Int) + (B : Int) = (((k + 1) * B : Nat) : Int) := by
    rw [hB, Int.natCast_add]
  have hint : (((k + 1) * B : Nat) : Int) ≤ intMax := by omega
  simp only [blockPass, h.gen_ok hgood, ok_bind, hxor, hoff,
    int_ok_of_nonneg (Int.natCast_nonneg _) hint, h.adv_ok hgood, pure_eq_ok,
    Function.iterate_succ_apply']

/-- The block loop goes along with its inner loop, and leaves the generator in
`finalState`. -/
theorem encryptBlocks_along (h : Realizes gen adv g used Good) {f : Nat → Sink} {s : σ} {len : CInt}
    (hx : XorsAlong (g.stream s) f len.val.toNat xor) (hlen : 0 ≤ len.val) (hs : Good s) :
    encryptBlocks gen adv xor len (f 0) s
      = .ok (f len.val.toNat, finalState g used s len.val.toNat) := by
  obtain ⟨n, hn⟩ := Int.eq_ofNat_of_zero_le hlen
  have hmax : (n : Int) ≤ intMax := hn ▸ len.property.2
  simp only [encryptBlocks, hn, Int.toNat_natCast] at hx ⊢
  have hdiv : (n : Int).tdiv B = ((n / B : Nat) : Int) := rfl
  have hmod : (n : Int).tmod B = ((n % B : Nat) : Int) := rfl
  have hsplit : n / B * B + n % B = n := Nat.div_add_mod' n B
  have hloop : forLoop 0 ((n / B : Nat) : Int) (fun _ st => blockPass gen adv xor st) (f 0, 0, s)
      = .ok (f (n / B * B), ((n / B * B : Nat) : Int), g.next^[n / B] s) := by
    have hcount : ((n / B : Nat) : Int) ≤ intMax := by
      have := Nat.div_le_self n B
      omega
    refine forLoop_eq (f := fun k => (f (k * B), ((k * B : Nat) : Int), g.next^[k] s))
      (Nat.zero_le (n / B)) hcount (by simp) ?_
    intro k _ hk
    have hle : (k + 1) * B ≤ n / B * B := Nat.mul_le_mul_right B hk
    exact blockPass_along h hx hs (by omega) hmax
  simp only [hdiv, hmod, hloop]
  by_cases hleft : n % B = 0
  · have hwhole : n / B * B = n := by omega
    simp [hleft, finalState, hwhole]
  · have hxor := hx (g.block (g.next^[n / B] s)) (n / B * B) (n % B) (Nat.mod_lt n (NeZero.pos B)).le
      (by omega) (fun j hj _ => g.stream_block s (n / B) j hj)
    rw [hsplit] at hxor
    simp only [ok_bind, gt_iff_lt, Int.natCast_pos, Nat.pos_of_ne_zero hleft, if_true,
      h.gen_ok (h.iterate_good hs (n / B)), hxor, pure_eq_ok, finalState, if_neg hleft]

/-- **The block loop computes the abstract cipher**: it ends without a fault,
XORs the keystream into the first `len` bytes, in order, and leaves the
generator in `finalState`. -/
theorem encryptBlocks_eq (h : Realizes gen adv g used Good) {inp : Array (BitVec 8)}
    (hx : XorsInto inp xor) {len : CInt} (hlen : 0 ≤ len.val) {out : Sink} {s : σ} (hs : Good s)
    (hin : len.val.toNat ≤ inp.size) (hout : len.val.toNat ≤ out.bytes.size) :
    encryptBlocks gen adv xor len out s =
      .ok (out.xored inp (g.stream s) 0 len.val.toNat, finalState g used s len.val.toNat) := by
  have hmax : (len.val.toNat : Int) ≤ intMax := by
    have := len.property.2
    omega
  have halong := encryptBlocks_along h (hx.along (g.stream s) hmax hin hout) hlen hs
  rwa [Sink.xored_self] at halong

omit [NeZero B] in
/-- A call that is shorter than a block advances nothing. -/
theorem encryptBlocks_of_lt (adv' : σ → Run σ) {len : CInt} (hlen : len.val < B) (out : Sink) (s : σ) :
    encryptBlocks gen adv xor len out s = encryptBlocks gen adv' xor len out s := by
  have hwhole : len.val.tdiv B ≤ 0 := by
    rcases Int.le_total 0 len.val with h | h
    · exact (Int.tdiv_eq_zero_of_lt h hlen).le
    · have hneg := Int.tdiv_nonneg (a := -len.val) (by omega) (Int.natCast_nonneg B)
      rw [Int.neg_tdiv] at hneg
      omega
  simp only [encryptBlocks, forLoop_done hwhole]

omit [NeZero B] in
/-- A call of negative length does nothing: both `/` and `%` truncate towards zero. -/
theorem encryptBlocks_of_neg {len : CInt} (hlen : len.val < 0) (out : Sink) (s : σ) :
    encryptBlocks gen adv xor len out s = .ok (out, s) := by
  have hneg : 0 ≤ (-len.val).tdiv B := Int.tdiv_nonneg (by omega) (Int.natCast_nonneg B)
  have hmod : 0 ≤ (-len.val).tmod B := Int.tmod_nonneg _ (by omega)
  rw [Int.neg_tdiv] at hneg
  rw [Int.neg_tmod] at hmod
  have hwhole : len.val.tdiv B ≤ 0 := by omega
  have hleft : ¬ len.val.tmod B > 0 := by omega
  simp only [encryptBlocks, forLoop_done hwhole, ok_bind, if_neg hleft, pure_eq_ok]

/-- A call of any length: no fault, and each index below the length is stored to once,
in order. -/
theorem encryptBlocks_written (h : Realizes gen adv g used Good) {inp : Array (BitVec 8)}
    (hx : XorsInto inp xor) (len : CInt) {out : Array (BitVec 8)} {s : σ} (hs : Good s)
    (hin : len.val.toNat ≤ inp.size) (hout : len.val.toNat ≤ out.size) :
    ∃ r, encryptBlocks gen adv xor len (Sink.fresh out) s = .ok r
      ∧ r.1.written = List.range len.val.toNat := by
  rcases Int.lt_or_le len.val 0 with hneg | hlen
  · refine ⟨_, encryptBlocks_of_neg hneg _ _, ?_⟩
    rw [Int.toNat_of_nonpos hneg.le]
    rfl
  · refine ⟨_, encryptBlocks_eq h hx hlen hs hin hout, ?_⟩
    simp only [Sink.xored, Sink.fresh, List.nil_append, Nat.sub_zero, List.range_eq_range']

end Driver

/-! ## Messages

What a caller of such a function passes, and what the function does for it. -/

/-- The data arguments of a call, which fit each other. -/
structure Message where
  inp : Array (BitVec 8)
  out : Array (BitVec 8)
  length : CInt
  nonneg : 0 ≤ length.val
  fitsInp : length.val.toNat ≤ inp.size
  fitsOut : length.val.toNat ≤ out.size

namespace Message

/-- The length, as a number. -/
def len (m : Message) : Nat := m.length.val.toNat

/-- The bytes to encrypt. -/
def text (m : Message) : Array (BitVec 8) := m.inp.extract 0 m.len

@[simp] theorem size_text (m : Message) : m.text.size = m.len := by
  have := m.fitsInp
  simp only [text, Array.size_extract, len]
  omega

/-- The message of `length` zero bytes. -/
def zeros (length : CInt) (h : 0 ≤ length.val) : Message where
  inp := Array.replicate length.val.toNat 0
  out := Array.replicate length.val.toNat 0
  length := length
  nonneg := h
  fitsInp := by simp
  fitsOut := by simp

end Message

/-- The messages, one behind the other. -/
def textOf (ms : List Message) : Array (BitVec 8) := ms.foldr (fun m text => m.text ++ text) #[]

theorem textOf_cons (m : Message) (ms : List Message) : textOf (m :: ms) = m.text ++ textOf ms := rfl

/-- The output buffer `out` holds `m` encrypted with `K`, and what it held before
beyond the message. -/
structure Encrypted (K : Nat → BitVec 8) (m : Message) (out : Array (BitVec 8)) : Prop where
  size : out.size = m.out.size
  inside : ∀ i < m.len, out[i]? = some (m.inp.getD i 0 ^^^ K i)
  outside : ∀ i, m.len ≤ i → out[i]? = m.out[i]?

/-- The loop effect `xored` encrypts. -/
theorem encrypted_xored (K : Nat → BitVec 8) (m : Message) :
    Encrypted K m ((Sink.fresh m.out).xored m.inp K 0 m.len).bytes where
  size := Sink.size_xored _ _ _ _ _
  inside i hi := Sink.getElem?_xored_mem _ _ _ (Nat.zero_le i) hi (hi.trans_le m.fitsOut)
  outside i hi := Sink.getElem?_xored_of_not _ _ _ (by omega)

/-- What a call leaves of its message in the output. -/
theorem Encrypted.extract_eq {K : Nat → BitVec 8} {m : Message} {out : Array (BitVec 8)}
    (h : Encrypted K m out) : out.extract 0 m.len = xorStream K m.text := by
  have hinp : m.len ≤ m.inp.size := m.fitsInp
  have hout : m.len ≤ out.size := h.size ▸ m.fitsOut
  refine Array.ext_getElem? ?_
  intro i
  rw [getElem?_xorStream, Message.text, Array.getElem?_extract, Array.getElem?_extract, Nat.zero_add,
    Nat.sub_zero, Nat.sub_zero, Nat.min_eq_left hinp, Nat.min_eq_left hout]
  by_cases hi : i < m.len
  · have hlt : i < m.inp.size := by omega
    rw [if_pos hi, if_pos hi, h.inside i hi]
    simp [hlt]
  · rw [if_neg hi, if_neg hi]
    rfl

/-- Encryptions of messages that agree on a prefix agree on it. -/
theorem Encrypted.prefix_eq {K : Nat → BitVec 8} {m m' : Message} {out out' : Array (BitVec 8)}
    (h : Encrypted K m out) (h' : Encrypted K m' out') (hlen : m'.len ≤ m.len)
    (htext : ∀ i < m'.len, m'.inp.getD i 0 = m.inp.getD i 0) :
    ∀ i < m'.len, out'[i]? = out[i]? := by
  intro i hi
  rw [h.inside i (by omega), h'.inside i hi, htext i hi]

/-- The encryption of an encryption is the plaintext. -/
theorem Encrypted.involutive {K : Nat → BitVec 8} {m m' : Message} {out out' : Array (BitVec 8)}
    (h : Encrypted K m out) (h' : Encrypted K m' out') (htext : m'.inp = out)
    (hlen : m'.len = m.len) : ∀ i < m.len, out'[i]? = m.inp[i]? := by
  intro i hi
  have hi' : i < m.inp.size := hi.trans_le m.fitsInp
  rw [h'.inside i (by omega), htext, Array.getD_eq_getD_getElem?, h.inside i hi, Option.getD_some,
    BitVec.xor_assoc, BitVec.xor_self, BitVec.xor_zero]
  simp [hi']

/-! ## Functions -/

/-- Every call of `run` is encryption with the one keystream `K`. -/
structure Additive (run : Message → Run Sink) (K : Nat → BitVec 8) : Prop where
  /-- A call writes the message XOR the keystream, and nothing else. -/
  call : ∀ m : Message, ∃ out, run m = .ok out ∧ Encrypted K m out.bytes
  /-- Encrypting a prefix gives the prefix of the encryption. -/
  extract : ∀ (m m' : Message) (out out' : Sink), m'.len ≤ m.len →
    (∀ i < m'.len, m'.inp.getD i 0 = m.inp.getD i 0) → run m = .ok out → run m' = .ok out' →
    ∀ i < m'.len, out'.bytes[i]? = out.bytes[i]?
  /-- The same call on the ciphertext returns the plaintext. -/
  decrypt : ∀ (m m' : Message) (out out' : Sink), run m = .ok out → m'.inp = out.bytes →
    m'.len = m.len → run m' = .ok out' → ∀ i < m.len, out'.bytes[i]? = m.inp[i]?

theorem Additive.of_call {run : Message → Run Sink} {K : Nat → BitVec 8}
    (h : ∀ m : Message, ∃ out, run m = .ok out ∧ Encrypted K m out.bytes) : Additive run K := by
  have hresult : ∀ (m : Message) (out : Sink), run m = .ok out → Encrypted K m out.bytes := by
    intro m out hrun
    obtain ⟨out', hrun', henc⟩ := h m
    obtain rfl : out' = out := Except.ok.inj (hrun'.symm.trans hrun)
    exact henc
  refine ⟨h, ?_, ?_⟩
  · intro m m' out out' hlen htext hrun hrun'
    exact (hresult m out hrun).prefix_eq (hresult m' out' hrun') hlen htext
  · intro m m' out out' hrun htext hlen hrun'
    exact (hresult m out hrun).involutive (hresult m' out' hrun') htext hlen

/-- The run ends, and has stored to each index below `len` once, and to no other. -/
def WritesOnce (len : CInt) (run : Run Sink) : Prop :=
  ∃ out, run = .ok out ∧ out.written = List.range len.val.toNat

end KeyStream
