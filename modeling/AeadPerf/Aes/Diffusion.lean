/-
# `Aes.Diffusion` — some key schedule tells two blocks apart in their first byte

Under one key schedule the ciphertexts of two distinct blocks differ, but they may
well agree in their first bytes.  Under a suitable schedule they do not
(`exists_schedule_ne`), and this is what it takes to find out from the start of
a keystream block which counter block it came from.

A round key moves a state to any place one likes; what it cannot change is the
*difference* of two states.  So, following a pair of states that differ at row
`r` of column `c` through one round (key, S-box, shift, mix):

    key, S-box    the difference there can take at least two values  (`subByte_diff`)
    shift         moves it to column c - r
    mix           every byte of that column depends on it, so one of the two
                  values makes row i differ, whichever row i one asks for  (`exists_key_ne`)

Thirteen rounds: eleven under any keys at all keep the states distinct, the
twelfth makes row `c - r` of column `c - r` differ, and from there the last mix
reaches row 0 of column 0.
-/
import AeadPerf.Aes.Perm

namespace AeadPerf.Fips197

open Words

/-! ## One byte -/

/-- The S-box does not send a difference to one difference only. -/
theorem subByte_diff : ∀ δ : Byte, δ ≠ 0 →
    subByte 1 ^^^ subByte (1 ^^^ δ) ≠ subByte 0 ^^^ subByte δ
      ∨ subByte 2 ^^^ subByte (2 ^^^ δ) ≠ subByte 0 ^^^ subByte δ
      ∨ subByte 4 ^^^ subByte (4 ^^^ δ) ≠ subByte 0 ^^^ subByte δ := by
  simp only [← Aes.sBoxAt_eq]
  decide +kernel

theorem exists_subByte_diff_ne {δ : Byte} (h : δ ≠ 0) :
    ∃ a, subByte a ^^^ subByte (a ^^^ δ) ≠ subByte 0 ^^^ subByte δ := by
  rcases subByte_diff δ h with h | h | h
  · exact ⟨1, h⟩
  · exact ⟨2, h⟩
  · exact ⟨4, h⟩

theorem mixPoly_ne_zero : ∀ i, mixPoly i ≠ 0 := by decide

theorem gfMul_xor (m a b : Byte) : gfMul m (a ^^^ b) = gfMul m a ^^^ gfMul m b := by
  apply BinField.toRing_injective rijndael
  simp only [gfMul, BinField.toRing_mul, BinField.toRing_xor, mul_add]

theorem gfMul_zero (m : Byte) : gfMul m 0#8 = 0#8 := by
  have h := gfMul_xor m 0 0
  rw [BitVec.xor_self, BitVec.xor_self] at h
  exact h

theorem xor_right_comm (x y z : Byte) : x ^^^ y ^^^ z = x ^^^ z ^^^ y := by
  rw [BitVec.xor_assoc, BitVec.xor_comm y z, BitVec.xor_assoc]

theorem xor_of_xor_eq {x y p q : Byte} (h : x ^^^ p = y ^^^ q) : p ^^^ q = x ^^^ y := by
  calc p ^^^ q = x ^^^ (x ^^^ p) ^^^ q := by rw [← BitVec.xor_assoc, BitVec.xor_self, BitVec.zero_xor]
    _ = x ^^^ (y ^^^ q) ^^^ q := by rw [h]
    _ = x ^^^ y := by rw [BitVec.xor_assoc, BitVec.xor_assoc, BitVec.xor_self, BitVec.xor_zero]

/-- Multiplying by a nonzero byte loses nothing. -/
theorem gfMul_injective {m : Byte} (hm : m ≠ 0) : Function.Injective (gfMul m) := by
  intro a b h
  have hunit : BinField.toRing rijndael (gfInv m) * BinField.toRing rijndael m = 1 := by
    rw [mul_comm, ← BinField.toRing_mul, ← BinField.toRing_one rijndael (by decide),
      ← gfMul_gfInv m hm]
    rfl
  have hmul := congrArg (fun x => BinField.toRing rijndael (gfInv m) * BinField.toRing rijndael x) h
  simp only [gfMul, BinField.toRing_mul, ← mul_assoc, hunit, one_mul] at hmul
  exact BinField.toRing_injective rijndael hmul

/-! ## One column -/

/-- The share that entry `r` of a column has in entry `i` of the product. -/
theorem mixColumn_update (u : Fin 4 → Byte) (r i : Fin 4) (b : Byte) :
    mixColumn (Function.update u r b) i
      = mixColumn (Function.update u r 0) i ^^^ gfMul (mixPoly (i - r)) b := by
  simp only [mixColumn_eq]
  fin_cases r <;>
    simp [gfMul_zero, BitVec.xor_comm (gfMul _ b), xor_right_comm _ (gfMul _ b)]

/-! ## One round -/

/-- AddRoundKey with a key given as a state. -/
def addKey (k s : State) : State := fun r c => s r c ^^^ k r c

/-- The rest of a round. -/
def mixRound (s : State) : State := mixColumns (shiftRows (subBytes s))

theorem mixRound_bijective : Function.Bijective mixRound :=
  mixColumns_bijective.comp (shiftRows_bijective.comp subBytes_bijective)

theorem addKey_injective (k : State) : Function.Injective (addKey k) := by
  intro s s' h
  funext r c
  have hrc : s r c ^^^ k r c = s' r c ^^^ k r c := congrFun (congrFun h r) c
  exact (BitVec.xor_left_inj _).mp hrc

/-- Row `i` of column `c - r` after a round, in terms of the byte at row `r` of column `c`. -/
theorem mixRound_apply (s : State) (r c i : Fin 4) :
    mixRound s i (c - r)
      = mixColumn (Function.update (fun j => subByte (s j (c - r + j))) r 0) i
        ^^^ gfMul (mixPoly (i - r)) (subByte (s r c)) := by
  have hcol : (fun j => subByte (s j (c - r + j)))
      = Function.update (fun j => subByte (s j (c - r + j))) r (subByte (s r c)) := by
    funext j
    by_cases hj : j = r
    · subst hj
      rw [Function.update_self, sub_add_cancel]
    · rw [Function.update_of_ne hj]
  rw [← mixColumn_update, ← hcol]
  rfl

/-- **One round spreads a difference to any row one likes.** -/
theorem exists_key_ne {s s' : State} {r c : Fin 4} (h : s r c ≠ s' r c) (i : Fin 4) :
    ∃ k, mixRound (addKey k s) i (c - r) ≠ mixRound (addKey k s') i (c - r) := by
  by_contra hall
  simp only [not_exists, not_not] at hall
  have hδ : s r c ^^^ s' r c ≠ 0 := by
    intro h0
    exact h (BitVec.xor_eq_zero_iff.mp h0)
  -- the key that makes the byte at `(r, c)` equal to `a` and leaves the others alone
  let key (a : Byte) : State := fun r' c' => if r' = r ∧ c' = c then s r c ^^^ a else 0
  let rest (t : State) : Byte :=
    mixColumn (Function.update (fun j => subByte (t j (c - r + j))) r 0) i
  have hrest : ∀ a t, mixRound (addKey (key a) t) i (c - r)
      = rest t ^^^ gfMul (mixPoly (i - r)) (subByte (t r c ^^^ (s r c ^^^ a))) := by
    intro a t
    have hcol : Function.update (fun j => subByte (addKey (key a) t j (c - r + j))) r 0
        = Function.update (fun j => subByte (t j (c - r + j))) r 0 := by
      funext j
      by_cases hj : j = r
      · rw [hj, Function.update_self, Function.update_self]
      · rw [Function.update_of_ne hj, Function.update_of_ne hj]
        simp [addKey, key, hj]
    rw [mixRound_apply, hcol]
    simp [addKey, key, rest]
  have hconst : ∀ a, gfMul (mixPoly (i - r)) (subByte a ^^^ subByte (a ^^^ (s r c ^^^ s' r c)))
      = rest s ^^^ rest s' := by
    intro a
    have ha := hall (key a)
    rw [hrest, hrest, show s r c ^^^ (s r c ^^^ a) = a by rw [← BitVec.xor_assoc]; simp,
      show s' r c ^^^ (s r c ^^^ a) = a ^^^ (s r c ^^^ s' r c) by ac_rfl] at ha
    rw [gfMul_xor]
    exact xor_of_xor_eq ha
  obtain ⟨a, ha⟩ := exists_subByte_diff_ne hδ
  refine ha (gfMul_injective (mixPoly_ne_zero (i - r)) ?_)
  rw [hconst a, ← hconst 0]
  simp

/-! ## All rounds -/

/-- The first `m` rounds under the keys `K 0, …, K (m - 1)`. -/
def rounds (K : Nat → State) : Nat → State → State
  | 0, s => s
  | m + 1, s => mixRound (addKey (K m) (rounds K m s))

/-- Later keys do not matter. -/
theorem rounds_update (K : Nat → State) (m n : Nat) (h : n ≤ m) (k s : State) :
    rounds (Function.update K m k) n s = rounds K n s := by
  induction n with
  | zero => rfl
  | succ n ih => rw [rounds, rounds, ih (by omega), Function.update_of_ne (by omega)]

theorem rounds_injective (K : Nat → State) (m : Nat) : Function.Injective (rounds K m) := by
  induction m with
  | zero => exact Function.injective_id
  | succ m ih => exact mixRound_bijective.injective.comp ((addKey_injective (K m)).comp ih)

/-- One round more, with the key of `exists_key_ne`. -/
theorem exists_rounds_ne {K : Nat → State} {m : Nat} {s s' : State} {r c : Fin 4}
    (h : rounds K m s r c ≠ rounds K m s' r c) (i : Fin 4) :
    ∃ K', rounds K' (m + 1) s i (c - r) ≠ rounds K' (m + 1) s' i (c - r) := by
  obtain ⟨k, hk⟩ := exists_key_ne h i
  refine ⟨Function.update K m k, ?_⟩
  simpa only [rounds, Function.update_self, rounds_update K m m le_rfl] using hk

theorem exists_rounds_thirteen_ne {s s' : State} (h : s ≠ s') :
    ∃ K, rounds K 13 s 0 0 ≠ rounds K 13 s' 0 0 := by
  have h₁₁ : rounds (fun _ _ _ => 0) 11 s ≠ rounds (fun _ _ _ => 0) 11 s' :=
    (rounds_injective _ 11).ne h
  obtain ⟨r, hr⟩ := Function.ne_iff.mp h₁₁
  obtain ⟨c, hrc⟩ := Function.ne_iff.mp hr
  obtain ⟨K₁₂, h₁₂⟩ := exists_rounds_ne hrc (c - r)
  obtain ⟨K₁₃, h₁₃⟩ := exists_rounds_ne h₁₂ 0
  rw [sub_self] at h₁₃
  exact ⟨K₁₃, h₁₃⟩

/-- A schedule of words as a sequence of round keys. -/
def roundKeys (w : Nat → KeyWord) (m : Nat) : State := fun r c => w (4 * m + c.val) r

theorem cipher_eq_rounds (w : Nat → KeyWord) (s : State) :
    cipher w s = addKey (roundKeys w 14)
      (shiftRows (subBytes (addKey (roundKeys w 13) (rounds (roundKeys w) 13 s)))) := by
  have hfold : ∀ m, (List.range' 1 m).foldl (roundStep w) (addRoundKey w 0 s)
      = addKey (roundKeys w m) (rounds (roundKeys w) m s) := by
    intro m
    induction m with
    | zero => rfl
    | succ m ih =>
        rw [List.range'_concat, List.foldl_append, ih, Nat.one_mul, Nat.add_comm 1 m]
        rfl
  simp only [cipher, hfold]
  rfl

/-- Some schedule tells two states apart in their first byte. -/
theorem exists_cipher_ne {s s' : State} (h : s ≠ s') : ∃ w, cipher w s 0 0 ≠ cipher w s' 0 0 := by
  obtain ⟨K, hK⟩ := exists_rounds_thirteen_ne h
  let w (i : Nat) : KeyWord := fun r => K (i / 4) r ⟨i % 4, Nat.mod_lt _ (by decide)⟩
  have hw : roundKeys w = K := by
    funext m r c
    have hdiv : (4 * m + c.val) / 4 = m := by omega
    have hmod : (4 * m + c.val) % 4 = c.val := by omega
    simp only [roundKeys, w, hdiv, hmod, Fin.eta]
  refine ⟨w, ?_⟩
  rw [cipher_eq_rounds, cipher_eq_rounds, hw]
  intro heq
  have hsub := subByte_bijective.injective ((BitVec.xor_left_inj _).mp heq)
  exact hK ((BitVec.xor_left_inj _).mp hsub)

end AeadPerf.Fips197

namespace AeadPerf.Aes

open Words
open Fips197 (KeyWord)

/-- The key schedule with given words. -/
def ofScheduleBytes (o : ByteOrder) (w : Nat → KeyWord) : KeySchedule :=
  Vector.ofFn fun i => o.word #v[w i 0, w i 1, w i 2, w i 3]

theorem scheduleBytes_ofScheduleBytes (o : ByteOrder) (w : Nat → KeyWord) (i : Nat) (hi : i < 60) :
    scheduleBytes o (ofScheduleBytes o w) i = w i := by
  funext j
  simp only [scheduleBytes, ofScheduleBytes]
  fin_cases j <;> simp [get_eq, hi]

/-- **Some key schedule tells two blocks apart in their first byte.** -/
theorem exists_schedule_ne (o : ByteOrder) {b b' : Block} (h : b ≠ b') :
    ∃ ks, (aesEncryption o b ks)[0] ≠ (aesEncryption o b' ks)[0] := by
  obtain ⟨w, hw⟩ := Fips197.exists_cipher_ne (matrix_bijective.injective.ne h)
  have hcipher : ∀ b, matrix (aesEncryption o b (ofScheduleBytes o w)) = Fips197.cipher w (matrix b) := by
    intro b
    rw [matrix_aesEncryption, cipher_congr fun i hi => scheduleBytes_ofScheduleBytes o w i hi]
  rw [← hcipher b, ← hcipher b'] at hw
  exact ⟨ofScheduleBytes o w, hw⟩

end AeadPerf.Aes
