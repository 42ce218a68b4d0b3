/-
# `Lib.Overlap` — input and output in one memory

A caller of the ciphers of `Lib.KeyStream` may pass pointers into one array: the message is at
`src` and its encryption goes to `dst`, and nothing says that the two do not overlap.  The block
loop is the one of `encryptBlocks`; only the inner loops read and write elsewhere (`xorAtIn`,
`xorFromIn`), and take the memory along `xorBytes`.  Where the output begins behind the beginning
of the input and in it, later passes read bytes that earlier passes wrote:

    dst ≤ src               every byte is read before it is written over
    src + len ≤ dst         no byte is written over
    src < dst < src + len   byte `dst + j` is written at pass `j` and read at pass `j + (dst - src)`

`Overlap` says what that means for a caller: the call leaves the encryption of what was at `src`
in the first two cases, whatever the memory holds, and in the third exactly where the bytes that
are written over are written over with themselves (`Overlap.of_call`).  The length is any `int`;
where it is negative, it stands for no bytes.
-/
import AeadPerf.Lib.KeyStream

namespace KeyStream

open Checked

variable {σ : Type} {B : Nat}

/-! ## The inner loops in one memory -/

section Bytes

variable (K : Nat → BitVec 8) (src dst : Nat) (mem : Sink)

/-- The memory after the first bytes, one after the other. -/
def xorBytes : Nat → Sink
  | 0 => mem
  | i + 1 =>
      let before := xorBytes i
      ⟨before.bytes.setIfInBounds (dst + i) (before.bytes.getD (src + i) 0 ^^^ K i),
        before.written ++ [dst + i]⟩

@[simp] theorem size_xorBytes (i : Nat) : (xorBytes K src dst mem i).bytes.size = mem.bytes.size := by
  induction i with
  | zero => rfl
  | succ i ih => rw [xorBytes, Array.size_setIfInBounds, ih]

/-- What is not written to stays. -/
theorem getElem?_xorBytes_of_not {i a : Nat} (ha : ¬ (dst ≤ a ∧ a < dst + i)) :
    (xorBytes K src dst mem i).bytes[a]? = mem.bytes[a]? := by
  induction i with
  | zero => rfl
  | succ i ih =>
      have hne : dst + i ≠ a := by omega
      rw [xorBytes, Array.getElem?_setIfInBounds_ne hne, ih (by omega)]

/-- A byte is written once, from what its source holds at that time. -/
theorem getElem?_xorBytes {i j : Nat} (hj : j < i) (hdst : dst + j < mem.bytes.size) :
    (xorBytes K src dst mem i).bytes[dst + j]?
      = some ((xorBytes K src dst mem j).bytes.getD (src + j) 0 ^^^ K j) := by
  induction i with
  | zero => omega
  | succ i ih =>
      rcases Nat.lt_succ_iff_lt_or_eq.mp hj with hlt | rfl
      · have hne : dst + i ≠ dst + j := by omega
        rw [xorBytes, Array.getElem?_setIfInBounds_ne hne, ih hlt]
      · rw [xorBytes, Array.getElem?_setIfInBounds_self_of_lt (by rwa [size_xorBytes])]

theorem written_xorBytes (i : Nat) :
    (xorBytes K src dst mem i).written = mem.written ++ List.range' dst i := by
  induction i with
  | zero => simp [xorBytes]
  | succ i ih => rw [xorBytes, ih, List.range'_1_concat, List.append_assoc]

end Bytes

/-! ## What a caller sees -/

/-- The data arguments of a call of that length whose pointers lead into one array. -/
structure Regions (length : CInt) where
  mem : Array (BitVec 8)
  src : Nat
  dst : Nat
  fitsSrc : src + length.val.toNat ≤ mem.size
  fitsDst : dst + length.val.toNat ≤ mem.size

namespace Regions

variable {length : CInt}

/-- The length, as a number. -/
def len (_ : Regions length) : Nat := length.val.toNat

/-- What is at `src`, … -/
def inp (r : Regions length) : Array (BitVec 8) := r.mem.extract r.src (r.src + r.len)

/-- … and what is at `dst`: the arguments of the same call with two arrays. -/
def out (r : Regions length) : Array (BitVec 8) := r.mem.extract r.dst (r.dst + r.len)

theorem getD_inp (r : Regions length) {i : Nat} (hi : i < r.len) :
    r.inp.getD i 0 = r.mem.getD (r.src + i) 0 := by
  have hfits : r.src + r.len ≤ r.mem.size := r.fitsSrc
  have hlt : i < min (r.src + r.len) r.mem.size - r.src := by omega
  rw [Array.getD_eq_getD_getElem?, inp, Array.getElem?_extract, if_pos hlt, ← Array.getD_eq_getD_getElem?]

/-- The output does not begin in the input and behind its beginning. -/
def Apart (src dst len : Nat) : Prop := dst ≤ src ∨ src + len ≤ dst

/-- The memory holds at `dst` what the call with two arrays writes. -/
def Same (r : Regions length) (mem out : Array (BitVec 8)) : Prop :=
  ∀ i < r.len, mem[r.dst + i]? = out[i]?

end Regions

/-- What `runIn`, in one memory, has to do with `run` on two arrays, for calls of that length. -/
structure Overlap (length : CInt) (runIn : Regions length → Run Sink)
    (run : Array (BitVec 8) → Array (BitVec 8) → Run Sink) : Prop where
  /-- Both calls end, and the bytes written are those at `dst`, each once and in order. -/
  ends : ∀ r, ∃ mem out, runIn r = .ok mem ∧ run r.inp r.out = .ok out
    ∧ mem.bytes.size = r.mem.size ∧ mem.written = List.range' r.dst r.len
    ∧ ∀ a, ¬ (r.dst ≤ a ∧ a < r.dst + r.len) → mem.bytes[a]? = r.mem[a]?
  /-- They give the same if and only if the bytes that are written over and read afterwards are
  written over with themselves. -/
  same_iff : ∀ r mem out, runIn r = .ok mem → run r.inp r.out = .ok out →
    (r.Same mem.bytes out.bytes ↔
      r.dst ≤ r.src ∨ ∀ j, j + (r.dst - r.src) < r.len → r.mem[r.dst + j]? = out.bytes[j]?)
  /-- They give the same whatever the memory holds, if and only if the output does not begin in
  the input and behind its beginning. -/
  always_iff : ∀ r : Regions length, (∀ (r' : Regions length) mem out, r'.mem.size = r.mem.size →
      r'.src = r.src → r'.dst = r.dst → runIn r' = .ok mem → run r'.inp r'.out = .ok out →
      r'.Same mem.bytes out.bytes)
    ↔ Regions.Apart r.src r.dst r.len

/-- The call with two arrays leaves the encryption of what was at `src`. -/
def EncryptsTo (K : Nat → BitVec 8) {length : CInt} (r : Regions length) (out : Array (BitVec 8)) : Prop :=
  ∀ i < r.len, out[i]? = some (r.inp.getD i 0 ^^^ K i)

section OfCall

variable {K : Nat → BitVec 8} {length : CInt} {r : Regions length} {out : Array (BitVec 8)}

/-- A byte is right if and only if its source is read as it was. -/
theorem Regions.getElem?_eq_iff (henc : EncryptsTo K r out) {i : Nat} (hi : i < r.len) :
    (xorBytes K r.src r.dst (Sink.fresh r.mem) r.len).bytes[r.dst + i]? = out[i]? ↔
      (xorBytes K r.src r.dst (Sink.fresh r.mem) i).bytes.getD (r.src + i) 0 = r.mem.getD (r.src + i) 0 := by
  have hfits : r.dst + r.len ≤ r.mem.size := r.fitsDst
  have hdst : r.dst + i < (Sink.fresh r.mem).bytes.size := by
    change r.dst + i < r.mem.size
    omega
  rw [getElem?_xorBytes K r.src r.dst _ hi hdst, henc i hi, r.getD_inp hi, Option.some.injEq,
    BitVec.xor_left_inj]

/-- A byte that is not written over before it is read. -/
theorem Regions.getD_unread {i : Nat} (hi : ¬ (r.dst ≤ r.src + i ∧ r.src < r.dst)) :
    (xorBytes K r.src r.dst (Sink.fresh r.mem) i).bytes.getD (r.src + i) 0 = r.mem.getD (r.src + i) 0 := by
  have hunread := getElem?_xorBytes_of_not K r.src r.dst (Sink.fresh r.mem) (i := i) (a := r.src + i)
    (by omega)
  rw [Array.getD_eq_getD_getElem?, hunread, Array.getD_eq_getD_getElem?]
  rfl

/-- A byte that is read after it was written is read as it stays. -/
theorem Regions.getElem?_reread {i j : Nat} (hj : j < i) (hi : i ≤ r.len) :
    (xorBytes K r.src r.dst (Sink.fresh r.mem) i).bytes[r.dst + j]?
      = (xorBytes K r.src r.dst (Sink.fresh r.mem) r.len).bytes[r.dst + j]? := by
  have hfits : r.dst + r.len ≤ r.mem.size := r.fitsDst
  have hdst : r.dst + j < (Sink.fresh r.mem).bytes.size := by
    change r.dst + j < r.mem.size
    omega
  rw [getElem?_xorBytes K r.src r.dst _ hj hdst, getElem?_xorBytes K r.src r.dst _ (by omega) hdst]

theorem Regions.same_iff (henc : EncryptsTo K r out) :
    r.Same (xorBytes K r.src r.dst (Sink.fresh r.mem) r.len).bytes out ↔
      r.dst ≤ r.src ∨ ∀ j, j + (r.dst - r.src) < r.len → r.mem[r.dst + j]? = out[j]? := by
  have hfits : r.dst + r.len ≤ r.mem.size := r.fitsDst
  have hmem : ∀ j < r.len, r.mem[r.dst + j]? = some (r.mem.getD (r.dst + j) 0) := by
    intro j hj
    have hlt : r.dst + j < r.mem.size := by omega
    rw [Array.getD_eq_getD_getElem?, Array.getElem?_eq_getElem hlt, Option.getD_some]
  constructor
  · intro hsame
    rcases Nat.lt_or_ge r.src r.dst with hlt | hge
    · refine Or.inr ?_
      intro j hj
      have hread := (r.getElem?_eq_iff henc hj).mp (hsame _ hj)
      have hsrc : r.src + (j + (r.dst - r.src)) = r.dst + j := by omega
      have hreread := r.getElem?_reread (K := K) (show j < j + (r.dst - r.src) by omega) hj.le
      have hout := henc j (show j < r.len by omega)
      rw [hsrc, Array.getD_eq_getD_getElem?, hreread, hsame j (by omega), hout, Option.getD_some] at hread
      rw [hmem j (by omega), ← hread, hout]
    · exact Or.inl hge
  · intro hover i
    -- by induction: what is read again is the output, and so the input
    induction i using Nat.strongRecOn with
    | ind i ih =>
        intro hi
        refine (r.getElem?_eq_iff henc hi).mpr ?_
        by_cases hread : r.dst ≤ r.src + i ∧ r.src < r.dst
        · obtain ⟨j, hj⟩ : ∃ j, r.src + i = r.dst + j := ⟨r.src + i - r.dst, by omega⟩
          have hover := hover.resolve_left (by omega) j (by omega)
          have hreread := r.getElem?_reread (K := K) (show j < i by omega) hi.le
          rw [hj, Array.getD_eq_getD_getElem?, hreread, ih j (by omega) (by omega), ← hover,
            Array.getD_eq_getD_getElem?]
        · exact r.getD_unread hread

/-- Where the output begins behind the beginning of the input and in it, there is a memory whose
byte there is not the first of the ciphertext. -/
theorem Regions.exists_spoiled (K : Nat → BitVec 8) (r : Regions length) (hlt : r.src < r.dst)
    (hlen : r.dst < r.src + r.len) :
    ∃ r' : Regions length, r'.mem.size = r.mem.size ∧ r'.src = r.src ∧ r'.dst = r.dst
      ∧ r'.mem[r'.dst]? ≠ some (r'.mem.getD r'.src 0 ^^^ K 0) := by
  have hfits : r.dst + r.len ≤ r.mem.size := r.fitsDst
  let mem := (Array.replicate r.mem.size (0 : BitVec 8)).setIfInBounds r.dst (K 0 ^^^ 1)
  have hsize : mem.size = r.mem.size := by simp [mem]
  have hdst : mem[r.dst]? = some (K 0 ^^^ 1) :=
    Array.getElem?_setIfInBounds_self_of_lt (by rw [Array.size_replicate]; omega)
  have hsrc : mem[r.src]? = some 0 := by
    rw [Array.getElem?_setIfInBounds_ne hlt.ne', Array.getElem?_replicate, if_pos (by omega)]
  refine ⟨⟨mem, r.src, r.dst, hsize ▸ r.fitsSrc, hsize ▸ r.fitsDst⟩, hsize, rfl, rfl, ?_⟩
  change mem[r.dst]? ≠ some (mem.getD r.src 0 ^^^ K 0)
  rw [hdst, Array.getD_eq_getD_getElem?, hsrc, Option.getD_some, BitVec.xor_comm 0, Ne, Option.some.injEq,
    BitVec.xor_right_inj]
  decide

/-- **One memory**, for a call whose runs in the memory and on two arrays are known. -/
theorem Overlap.of_call {runIn : Regions length → Run Sink}
    {run : Array (BitVec 8) → Array (BitVec 8) → Run Sink}
    (hin : ∀ r, runIn r = .ok (xorBytes K r.src r.dst (Sink.fresh r.mem) r.len))
    (hrun : ∀ r : Regions length, ∃ out, run r.inp r.out = .ok out ∧ EncryptsTo K r out.bytes) :
    Overlap length runIn run := by
  have hsame : ∀ r mem out, runIn r = .ok mem → run r.inp r.out = .ok out →
      (r.Same mem.bytes out.bytes ↔
        r.dst ≤ r.src ∨ ∀ j, j + (r.dst - r.src) < r.len → r.mem[r.dst + j]? = out.bytes[j]?) := by
    intro r mem out hmem hout
    obtain ⟨out', hout', henc⟩ := hrun r
    obtain rfl : out' = out := Except.ok.inj (hout'.symm.trans hout)
    obtain rfl := Except.ok.inj ((hin r).symm.trans hmem)
    exact r.same_iff henc
  refine ⟨?_, hsame, ?_⟩
  · intro r
    obtain ⟨out, hout, -⟩ := hrun r
    refine ⟨_, out, hin r, hout, size_xorBytes K r.src r.dst _ r.len, ?_, ?_⟩
    · exact written_xorBytes K r.src r.dst _ r.len
    · intro a ha
      exact getElem?_xorBytes_of_not K r.src r.dst _ ha
  · intro r
    constructor
    · intro halways
      by_contra hapart
      rw [Regions.Apart, not_or, Nat.not_le, Nat.not_le] at hapart
      obtain ⟨r', hsize, hsrc, hdst, hspoiled⟩ := r.exists_spoiled K hapart.1 hapart.2
      obtain ⟨out, hout, henc⟩ := hrun r'
      have hlen : r'.len = r.len := rfl
      have hpos : 0 < r'.len := by omega
      have hfirst := ((hsame r' _ out (hin r') hout).mp
        (halways r' _ out hsize hsrc hdst (hin r') hout)).resolve_left (by omega) 0 (by omega)
      rw [Nat.add_zero, henc 0 hpos, r'.getD_inp hpos] at hfirst
      exact hspoiled hfirst
    · intro hapart r' mem out _ hsrc hdst hmem hout
      have hlen : r'.len = r.len := rfl
      refine (hsame r' mem out hmem hout).mpr ?_
      rw [Regions.Apart, ← hsrc, ← hdst, ← hlen] at hapart
      rcases hapart with hle | hge
      · exact Or.inl hle
      · refine Or.inr ?_
        intro j hj
        omega

end OfCall

end KeyStream
