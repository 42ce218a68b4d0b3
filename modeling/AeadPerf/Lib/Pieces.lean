/-
# `Lib.Pieces` — a message in several calls, and what the calls use

Three general facts of the ciphers of `Lib.KeyStream`.

* **Pieces.**  A caller may cut a message and encrypt the pieces one after the other, with
  what each call starts from computed from the call before (`pieces`).  If from there the
  keystream goes on where it stopped, the pieces together are the message encrypted at once
  (`pieces_eq`).
* **Two blocks** of one ciphertext differ as their plaintexts do exactly where they were
  encrypted with equal keystream blocks (`Encrypted.blocks_iff`).
* **Records.**  To say which states a call generated blocks for, one lets the generator record
  them (`recordGen`, `recordAdv`).  A run with a record is the run without one, whatever the
  generator is (`encryptBlocks_record`), and the record of a call of `n` bytes is the first
  `⌈n / B⌉` states (`encryptBlocks_recorded`).
-/
import AeadPerf.Lib.KeyStream

namespace KeyStream

open Checked

/-! ## Pieces -/

section Pieces

variable {σ : Type} (run : σ → Message → Run Sink) (after : σ → Message → σ)

/-- Calls one after the other, and what they leave of their messages. -/
def pieces : List Message → σ → Run (Array (BitVec 8))
  | [], _ => pure #[]
  | m :: ms, s => do
      let out ← run s m
      let rest ← pieces ms (after s m)
      pure (out.bytes.extract 0 m.len ++ rest)

variable {run after} {K : σ → Nat → BitVec 8}

/-- **Pieces**: where the keystream goes on, they are encrypted as the whole would be. -/
theorem pieces_eq {ms : List Message}
    (hrun : ∀ s, ∀ m ∈ ms, ∃ out, run s m = .ok out ∧ Encrypted (K s) m out.bytes)
    (hnext : ∀ s, ∀ m ∈ ms.dropLast, ∀ i, K (after s m) i = K s (m.len + i)) (s : σ) :
    pieces run after ms s = .ok (xorStream (K s) (textOf ms)) := by
  induction ms generalizing s with
  | nil => rfl
  | cons m ms ih =>
      obtain ⟨out, hout, henc⟩ := hrun s m List.mem_cons_self
      have hrun' : ∀ s, ∀ m' ∈ ms, ∃ out, run s m' = .ok out ∧ Encrypted (K s) m' out.bytes :=
        fun s m' hm' => hrun s m' (List.mem_cons_of_mem m hm')
      cases ms with
      | nil => simp [pieces, hout, henc.extract_eq, textOf]
      | cons m' ms =>
          have hrest := ih hrun' (fun s p hp => hnext s p (List.mem_cons_of_mem m hp)) (after s m)
          have hgo : ∀ i, K (after s m) i = K s (m.text.size + i) := by
            intro i
            rw [Message.size_text]
            exact hnext s m List.mem_cons_self i
          rw [pieces, hout, ok_bind, hrest, ok_bind, textOf_cons m, xorStream_append hgo, henc.extract_eq]
          rfl

end Pieces

/-! ## Two blocks -/

theorem xor_eq_xor_iff (a a' k k' : BitVec 8) : a ^^^ k ^^^ (a' ^^^ k') = a ^^^ a' ↔ k = k' := by
  have hswap : a ^^^ k ^^^ (a' ^^^ k') = a ^^^ a' ^^^ (k ^^^ k') := by ac_rfl
  calc a ^^^ k ^^^ (a' ^^^ k') = a ^^^ a'
    _ ↔ a ^^^ a' ^^^ (k ^^^ k') = a ^^^ a' ^^^ 0#8 := by rw [hswap, BitVec.xor_zero]
    _ ↔ k ^^^ k' = 0#8 := BitVec.xor_right_inj _
    _ ↔ k = k' := BitVec.xor_eq_zero_iff

/-- What two blocks of a ciphertext tell about their plaintexts. -/
theorem Encrypted.blocks_iff {σ : Type} {B : Nat} [NeZero B] {g : BlockGen σ B} {s : σ} {m : Message}
    {out : Array (BitVec 8)} (h : Encrypted (g.stream s) m out) {b b' : Nat} (hb : b * B + B ≤ m.len)
    (hb' : b' * B + B ≤ m.len) :
    (∀ j < B, out.getD (b * B + j) 0 ^^^ out.getD (b' * B + j) 0
        = m.inp.getD (b * B + j) 0 ^^^ m.inp.getD (b' * B + j) 0)
      ↔ g.block (g.next^[b] s) = g.block (g.next^[b'] s) := by
  have hbyte : ∀ j (hj : j < B), out.getD (b * B + j) 0 ^^^ out.getD (b' * B + j) 0
        = m.inp.getD (b * B + j) 0 ^^^ m.inp.getD (b' * B + j) 0
      ↔ (g.block (g.next^[b] s))[j] = (g.block (g.next^[b'] s))[j] := by
    intro j hj
    rw [Array.getD_eq_getD_getElem?, Array.getD_eq_getD_getElem?, h.inside _ (by omega),
      h.inside _ (by omega), Option.getD_some, Option.getD_some, xor_eq_xor_iff, g.stream_block s b j hj,
      g.stream_block s b' j hj]
  constructor
  · intro hall
    refine Vector.ext ?_
    intro j hj
    exact (hbyte j hj).mp (hall j hj)
  · intro heq j hj
    exact (hbyte j hj).mpr (heq ▸ rfl)

/-! ## Records -/

section Record

variable {σ τ : Type}

/-- Two runs whose parts correspond. -/
theorem bind_map {α α' β β' : Type} (p : α' → α) {q : β' → β} {x : Run α} {x' : Run α'} {k : α → Run β}
    {k' : α' → Run β'} (hx : x'.map p = x) (hk : ∀ a, (k' a).map q = k (p a)) :
    (x' >>= k').map q = x >>= k := by
  subst hx
  cases x' with
  | error e => rfl
  | ok a => exact hk a

/-- The same part on both sides. -/
theorem bind_map_same {α β β' : Type} {q : β' → β} (x : Run α) {k : α → Run β} {k' : α → Run β'}
    (hk : ∀ a, (k' a).map q = k a) : (x >>= k').map q = x >>= k := by
  cases x with
  | error e => rfl
  | ok a => exact hk a

/-- Loops whose passes correspond. -/
theorem forLoop_map (f : τ → σ) {body : Int → σ → Run σ} {body' : Int → τ → Run τ}
    (hbody : ∀ i t, (body' i t).map f = body i (f t)) (lo hi : Int) (t : τ) :
    (forLoop lo hi body' t).map f = forLoop lo hi body (f t) := by
  have hiterate : ∀ n i t, (iterate body' n i t).map f = iterate body n i (f t) := by
    intro n
    induction n with
    | zero => exact fun i t => rfl
    | succ n ih =>
        intro i t
        refine bind_map f (hbody i t) ?_
        intro t'
        exact bind_map_same (int (i + 1)) fun i' => ih i' t'
  exact hiterate _ lo t

variable {B : Nat} {gen : σ → Run (Vector (BitVec 8) B × σ)} {adv : σ → Run σ}
  {gen' : τ → Run (Vector (BitVec 8) B × τ)} {adv' : τ → Run τ}
  {xor : Vector (BitVec 8) B → Int → Int → Sink → Run Sink}

/-- A map of generator states goes through a pass, … -/
theorem blockPass_map (f : τ → σ) (hgen : ∀ t, (gen' t).map (Prod.map id f) = gen (f t))
    (hadv : ∀ t, (adv' t).map f = adv (f t)) (st : Sink × Int × τ) :
    (blockPass gen' adv' xor st).map (Prod.map id (Prod.map id f))
      = blockPass gen adv xor (Prod.map id (Prod.map id f) st) := by
  obtain ⟨out, off, t⟩ := st
  refine bind_map (Prod.map id f) (hgen t) ?_
  rintro ⟨ks, t'⟩
  refine bind_map_same (xor ks off B out) fun out' => bind_map_same (int (off + B)) fun off' => ?_
  exact bind_map f (hadv t') fun t'' => rfl

/-- … and through a call. -/
theorem encryptBlocks_map (f : τ → σ) (hgen : ∀ t, (gen' t).map (Prod.map id f) = gen (f t))
    (hadv : ∀ t, (adv' t).map f = adv (f t)) (len : CInt) (out : Sink) (t : τ) :
    (encryptBlocks gen' adv' xor len out t).map (Prod.map id f)
      = encryptBlocks gen adv xor len out (f t) := by
  refine bind_map (Prod.map id (Prod.map id f)) (forLoop_map (Prod.map id (Prod.map id f))
    (fun _ => blockPass_map f hgen hadv) 0 (len.val.tdiv B) (out, 0, t)) ?_
  rintro ⟨out', off, t'⟩
  dsimp only [Prod.map, id]
  split
  · refine bind_map (Prod.map id f) (hgen t') ?_
    rintro ⟨ks, t''⟩
    exact bind_map_same (xor ks off (len.val.tmod B) out') fun out'' => rfl
  · rfl

variable {L : Type} (label : σ → L)

/-- The generator, with a record of the states it generates blocks for. -/
def recordGen (gen : σ → Run (Vector (BitVec 8) B × σ)) (s : σ × List L) :
    Run (Vector (BitVec 8) B × (σ × List L)) := do
  let (ks, s') ← gen s.1
  pure (ks, (s', s.2 ++ [label s.1]))

def recordAdv (adv : σ → Run σ) (s : σ × List L) : Run (σ × List L) := do
  let s' ← adv s.1
  pure (s', s.2)

variable (gen adv xor) in
/-- **A record changes nothing.** -/
theorem encryptBlocks_record (len : CInt) (out : Sink) (s : σ) (l : List L) :
    (encryptBlocks (recordGen label gen) (recordAdv adv) xor len out (s, l)).map (Prod.map id Prod.fst)
      = encryptBlocks gen adv xor len out s := by
  refine encryptBlocks_map Prod.fst ?_ ?_ len out (s, l)
  · intro t
    cases hgen : gen t.1 with
    | error e => simp only [recordGen, hgen, error_bind, Except.map]
    | ok r => simp only [recordGen, hgen, ok_bind, pure_eq_ok, Except.map, Prod.map, id]
  · intro t
    cases hadv : adv t.1 with
    | error e => simp only [recordAdv, hadv, error_bind, Except.map]
    | ok s' => simp only [recordAdv, hadv, ok_bind, pure_eq_ok, Except.map]

variable {g : BlockGen σ B} {used : σ → σ} {Good : σ → Prop}

/-- What a generator with a record does. -/
def recordedGen (g : BlockGen σ B) : BlockGen (σ × List L) B where
  block s := g.block s.1
  next s := (g.next s.1, s.2 ++ [label s.1])

theorem record_realizes (h : Realizes gen adv g used Good) :
    Realizes (recordGen label gen) (recordAdv adv) (recordedGen label g)
      (fun s => (used s.1, s.2 ++ [label s.1])) (fun s => Good s.1) where
  gen_ok hs := by simp [recordGen, h.gen_ok hs, recordedGen]
  adv_ok hs := by simp [recordAdv, h.adv_ok hs, recordedGen]
  next_good hs := h.next_good hs

theorem iterate_recordedGen (s : σ) (l : List L) (n : Nat) :
    (recordedGen label g).next^[n] (s, l)
      = (g.next^[n] s, l ++ (List.range n).map fun j => label (g.next^[j] s)) := by
  induction n with
  | zero => simp
  | succ n ih =>
      rw [Function.iterate_succ_apply', ih, Function.iterate_succ_apply', List.range_succ]
      simp [recordedGen]

/-- **What a call uses**: the states of the blocks it begins. -/
theorem encryptBlocks_recorded [NeZero B] (h : Realizes gen adv g used Good) {inp : Array (BitVec 8)}
    (hx : XorsInto inp xor) {len : CInt} (hlen : 0 ≤ len.val) {out : Sink} {s : σ} (hs : Good s)
    (hin : len.val.toNat ≤ inp.size) (hout : len.val.toNat ≤ out.bytes.size) (l : List L) :
    ∃ s', encryptBlocks (recordGen label gen) (recordAdv adv) xor len out (s, l) =
      .ok (out.xored inp (g.stream s) 0 len.val.toNat,
        (s', l ++ (List.range ((len.val.toNat + (B - 1)) / B)).map fun j => label (g.next^[j] s))) := by
  have hrun := encryptBlocks_eq (record_realizes label h) hx hlen (s := (s, l)) hs hin hout
  have hstream : (recordedGen label g).stream (s, l) = g.stream s := by
    funext i
    simp only [BlockGen.stream, iterate_recordedGen]
    rfl
  have hB := NeZero.pos B
  have hsplit := Nat.div_add_mod len.val.toNat B
  have hlt := Nat.mod_lt len.val.toNat hB
  rw [hstream, finalState, iterate_recordedGen] at hrun
  split at hrun
  · rename_i hzero
    have hceil : (len.val.toNat + (B - 1)) / B = len.val.toNat / B := by
      refine Nat.div_eq_of_lt_le ?_ ?_
      · rw [Nat.mul_comm]
        omega
      · rw [Nat.succ_mul, Nat.mul_comm]
        omega
    rw [hceil]
    exact ⟨_, hrun⟩
  · rename_i hrest
    have hceil : (len.val.toNat + (B - 1)) / B = len.val.toNat / B + 1 := by
      refine Nat.div_eq_of_lt_le ?_ ?_
      · rw [Nat.succ_mul, Nat.mul_comm]
        omega
      · rw [Nat.succ_mul, Nat.succ_mul, Nat.mul_comm]
        omega
    rw [hceil, List.range_succ, List.map_append, ← List.append_assoc]
    exact ⟨_, hrun⟩

end Record

end KeyStream
