/-
# `ChaCha.Avx` — the AVX code of `chacha20_avx.c`

One 256-bit vector holds the same row of two states, and the eight lanes of a sum are
serialised to two blocks 64 bytes apart.  Each half is a lane view of the double round
(`avx_isLaneView`), so the 128 bytes of an expansion are two scalar expansions, of the
input and of the input with the counter word advanced by one
(`chacha20Expansion256_fst`).

The expansion advances the counter for its caller too, but as the byte `input[0]` and
by one, where a double block takes two counters.  `avxStream` is the keystream that
comes of it.  On the first 128 bytes it is the scalar keystream; after them it is not,
for the zero key, nonce and counter, and the two files agree on a message exactly if it
is no longer than one double block (`chacha20Encryption256_eq_scalar_iff`).
-/
import AeadPerf.ChaCha.Sse

namespace AeadPerf.ChaCha

open Words Checked KeyStream Simd
open Rfc8439 (State)

/-! ## The code -/

/-- `rotl_256_u32`. -/
def rotl256U32 (inp : M256) (shift : Int) : M256 :=
  if shift ≤ 0 then inp
  else mm256OrSi256 (mm256SlliEpi32 inp shift.toNat) (mm256SrliEpi32 inp (32 - shift).toNat)

/-- `_mm_rotl_256`. -/
def mmRotl256 (x : M256) (shift : Nat) : M256 :=
  mm256OrSi256 (mm256SlliSi256 x (shift >>> 3)) (mm256SrliSi256 x ((128 - shift) >>> 3))

/-- `_mm_rotr_256`. -/
def mmRotr256 (x : M256) (shift : Nat) : M256 :=
  mm256OrSi256 (mm256SlliSi256 x ((128 - shift) >>> 3)) (mm256SrliSi256 x (shift >>> 3))

/-- The operations of `chacha20_double_round_256`. -/
def avxOps : VecOps M256 where
  add := mm256AddEpi32
  xor := mm256XorSi256
  rotlU32 := rotl256U32
  rotl := mmRotl256
  rotr := mmRotr256

/-- `chacha20_double_round_256`. -/
def chacha20DoubleRound256 (x : Vector M256 4) : Vector M256 4 := avxOps.doubleRound x

/-- The body of the last loop of `chacha20_hash_256`, on `z` and `y`; `off` is `16 * i`. -/
def hashPass256 (x : Vector M256 4) (zy : Vector M256 4 × Vector Byte 128) (i : Fin 4) :
    Vector M256 4 × Vector Byte 128 :=
  let z := setAt zy.1 i (mm256AddEpi32 (zy.1.get i) (x.get i))
  let y := storeRow zy.2 (16 * i.val) (by omega) (mm256ExtractEpi32 (z.get i))
  (z, storeRow y (16 * i.val + 64) (by omega) (fun l => mm256ExtractEpi32 (z.get i) (4 + l)))

/-- `chacha20_hash_256`. -/
def chacha20Hash256 (x : Vector M256 4) (y : Vector Byte 128) : Vector Byte 128 :=
  let z := Fin.foldl 10 (fun z _ => chacha20DoubleRound256 z) x
  (Fin.foldl 4 (hashPass256 x) (z, y)).2

/-- `state[dst] = _load_word32_le(b + off)` and the three assignments after it. -/
def loadRow {n : Nat} (state : Vector Word 32) (dst : Nat) (hd : dst + 4 ≤ 32) (b : Vector Byte n)
    (off : Nat) (h : off + 15 < n) : Vector Word 32 :=
  let state := state.set dst (loadWord32Le b off (by omega))
  let state := state.set (dst + 1) (loadWord32Le b (off + 4) (by omega))
  let state := state.set (dst + 2) (loadWord32Le b (off + 8) (by omega))
  state.set (dst + 3) (loadWord32Le b (off + 12) (by omega))

/-- `memcpy(state + dst, state + src, 16)`. -/
def copyRow (state : Vector Word 32) (dst src : Nat) (hd : dst + 4 ≤ 32) (hs : src + 4 ≤ 32) :
    Vector Word 32 :=
  let state := state.set dst state[src]
  let state := state.set (dst + 1) state[src + 1]
  let state := state.set (dst + 2) state[src + 2]
  state.set (dst + 3) state[src + 3]

/-- The array `state` of `chacha20_expansion_256`, after `state[28] += 1`. -/
def expansionState256 (key : Vector Byte 32) (input : Vector Byte 16) : Vector Word 32 :=
  let state := Vector.replicate 32 0
  let state := loadRow state 0 (by decide) sigmaConst 0 (by decide)
  let state := copyRow state 4 0 (by decide) (by decide)
  let state := loadRow state 8 (by decide) key 0 (by decide)
  let state := copyRow state 12 8 (by decide) (by decide)
  let state := loadRow state 16 (by decide) key 16 (by decide)
  let state := copyRow state 20 16 (by decide) (by decide)
  let state := loadRow state 24 (by decide) input 0 (by decide)
  let state := copyRow state 28 24 (by decide) (by decide)
  state.set 28 (state[28] + 1)

/-- `state_256`. -/
def stateVectors (state : Vector Word 32) : Vector M256 4 :=
  #v[mm256LoadSi256 state 0 (by decide), mm256LoadSi256 state 8 (by decide),
    mm256LoadSi256 state 16 (by decide), mm256LoadSi256 state 24 (by decide)]

/-- `input[0] += 1`. -/
def bumpByte (input : Vector Byte 16) : Vector Byte 16 := setAt input 0 (input.get 0 + 1)

/-- `chacha20_expansion_256`: the output, and the input after `input[0] += 1`. -/
def chacha20Expansion256 (key : Vector Byte 32) (input : Vector Byte 16) :
    Vector Byte 128 × Vector Byte 16 :=
  let state := expansionState256 key input
  (chacha20Hash256 (stateVectors state) (Vector.replicate 128 0), bumpByte input)

/-- `chacha20_encryption_256`, with `iv` as the state of the block loop. -/
def chacha20Encryption256 (inp : Array Byte) (out : Sink) (k : Vector Byte 32) (n : Vector Byte 12)
    (c : Word) (inlen : CInt) : Run Sink := do
  let (out, _) ← encryptBlocks (fun iv => .ok (chacha20Expansion256 k iv)) (fun iv => .ok iv)
    (xorAt inp) inlen out (initIv n c)
  pure out

/-! ## The operations -/

/-- The halves of a vector. -/
def half : Fin 2 → M256 → M128
  | 0, x => x.lo
  | 1, x => x.hi

/-- The lanes of a half. -/
def halfLanes (h : Fin 2) (x : M256) : Fin 4 → Word := lanes (half h x)

theorem mm256ExtractEpi32_eq (h : Fin 2) (x : M256) (i : Nat) (hi : i < 4) :
    mm256ExtractEpi32 x (4 * h.val + i) = lane (half h x) i := by
  cases h using Fin.cases with
  | zero =>
      rw [mm256ExtractEpi32, if_pos (by simp; omega)]
      simp [half, Nat.mod_eq_of_lt (show i < 8 by omega)]
  | succ h =>
      obtain rfl : h = 0 := Subsingleton.elim h 0
      rw [mm256ExtractEpi32, if_neg (by simp; omega)]
      simp [half, Nat.mod_eq_of_lt (show 4 + i < 8 by omega)]

/-- Every operation works in the two halves apart. -/
theorem half_mm256AddEpi32 (h : Fin 2) (x y : M256) :
    half h (mm256AddEpi32 x y) = mmAddEpi32 (half h x) (half h y) := by
  match h with
  | 0 => rfl
  | 1 => rfl

theorem half_mm256XorSi256 (h : Fin 2) (x y : M256) :
    half h (mm256XorSi256 x y) = mmXorSi128 (half h x) (half h y) := by
  match h with
  | 0 => rfl
  | 1 => rfl

theorem half_mmRotl256 (h : Fin 2) (x : M256) (s : Nat) :
    half h (mmRotl256 x s) = mmRotl128 (half h x) s := by
  match h with
  | 0 => rfl
  | 1 => rfl

theorem half_mmRotr256 (h : Fin 2) (x : M256) (s : Nat) :
    half h (mmRotr256 x s) = mmRotr128 (half h x) s := by
  match h with
  | 0 => rfl
  | 1 => rfl

theorem lane_half_rotl256U32 (h : Fin 2) (x : M256) (s i : Nat) (hi : i < 4) (h₁ : 0 < s) (h₂ : s < 32) :
    lane (half h (rotl256U32 x s)) i = (lane (half h x) i).rotateLeft s := by
  have hright : ((32 : Int) - (s : Int)).toNat = 32 - s := by omega
  have hhalf : half h (rotl256U32 x s)
      = mmOrSi128 (mmSlliEpi32 (half h x) s) (mmSrliEpi32 (half h x) (32 - s)) := by
    rw [rotl256U32, if_neg (by omega), hright]
    match h with
    | 0 => rfl
    | 1 => rfl
  rw [hhalf, lane_mmOrSi128, lane_mmSlliEpi32 _ _ _ h₂ hi, lane_mmSrliEpi32 _ _ _ (by omega) hi,
    BitVec.rotateLeft_def, Nat.mod_eq_of_lt h₂]

theorem avx_isLaneView (h : Fin 2) : IsLaneView avxOps (halfLanes h) where
  add x y i := by
    rw [halfLanes, avxOps, half_mm256AddEpi32]
    exact sse_isLaneView.add _ _ i
  xor x y i := by
    rw [halfLanes, avxOps, half_mm256XorSi256]
    exact sse_isLaneView.xor _ _ i
  rotlU32 x s i h₁ h₂ := lane_half_rotl256U32 h x s i i.isLt h₁ h₂
  rotl x s i hs := by
    rw [halfLanes, avxOps, half_mmRotl256]
    exact sse_isLaneView.rotl _ s i hs
  rotr x s i hs := by
    rw [halfLanes, avxOps, half_mmRotr256]
    exact sse_isLaneView.rotr _ s i hs

/-! ## The two blocks -/

/-- The invariant of the last loop of `chacha20_hash_256`: the rows of `z + x`, those of
the low halves from byte 0 on and those of the high halves from byte 64 on. -/
def HashInv256 (x z : Vector M256 4) (m : Nat) (zy : Vector M256 4 × Vector Byte 128) : Prop :=
  (∀ r : Fin 4, m ≤ r.val → zy.1.get r = z.get r)
    ∧ ∀ h : Fin 2, RowsStored zy.2 (64 * h.val) m fun r c =>
        rows (halfLanes h) z r c + rows (halfLanes h) x r c

/-- A pass stores the two halves of the sum at `i`, 64 bytes apart. -/
theorem hashPass256_snd (x z : Vector M256 4) (i : Fin 4) (zy : Vector M256 4 × Vector Byte 128)
    (hz : zy.1.get i = z.get i) :
    (hashPass256 x zy i).2
      = storeRow (storeRow zy.2 (16 * i.val) (by omega)
          fun l => mm256ExtractEpi32 (mm256AddEpi32 (z.get i) (x.get i)) l)
        (16 * i.val + 64) (by omega)
          fun l => mm256ExtractEpi32 (mm256AddEpi32 (z.get i) (x.get i)) (4 + l) := by
  simp only [hashPass256, get_setAt, if_true, hz]

theorem mm256ExtractEpi32_sum (x z : Vector M256 4) (h : Fin 2) (i c : Fin 4) :
    mm256ExtractEpi32 (mm256AddEpi32 (z.get i) (x.get i)) (4 * h.val + c.val)
      = rows (halfLanes h) z i c + rows (halfLanes h) x i c := by
  rw [mm256ExtractEpi32_eq h _ c.val c.isLt, half_mm256AddEpi32, lane_mmAddEpi32 _ _ _ c.isLt]
  rfl

theorem hashPass256_inv (x z : Vector M256 4) (i : Fin 4) (zy : Vector M256 4 × Vector Byte 128)
    (hinv : HashInv256 x z i zy) : HashInv256 x z (i.val + 1) (hashPass256 x zy i) := by
  obtain ⟨hz, hy⟩ := hinv
  refine ⟨fun r hr => ?_, fun h => ?_⟩
  · rw [hashPass256, get_setAt, if_neg (Fin.ne_of_val_ne (by omega)), hz r (by omega)]
  · -- the stores of the other half leave the rows of this one alone
    rw [hashPass256_snd x z i zy (hz i le_rfl)]
    match h with
    | 0 =>
        refine ((hy 0).storeRow i (by simp) (by omega) fun c => ?_).frame (by omega) _ fun r hr => ?_
        · rw [← mm256ExtractEpi32_sum x z 0 i c, Fin.val_zero, Nat.mul_zero, Nat.zero_add]
        · rw [Fin.val_zero]
          omega
    | 1 =>
        refine ((hy 1).frame (by omega) _ fun r hr => ?_).storeRow i (by simp; omega) (by omega) fun c => ?_
        · rw [Fin.val_one]
          omega
        · rw [← mm256ExtractEpi32_sum x z 1 i c, Fin.val_one, Nat.mul_one]

/-- `chacha20_hash_256` on rows whose halves are the matrices `s` and `s'`. -/
theorem chacha20Hash256_eq {x : Vector M256 4} {s s' : State} (h : rows (halfLanes 0) x = s)
    (h' : rows (halfLanes 1) x = s') (y : Vector Byte 128) :
    chacha20Hash256 x y
      = (Rfc8439.serialize fun r c => (Rfc8439.innerBlock^[10] s) r c + s r c)
        ++ Rfc8439.serialize fun r c => (Rfc8439.innerBlock^[10] s') r c + s' r c := by
  subst h h'
  have hloop : HashInv256 x (avxOps.rounds x) 4 (Fin.foldl 4 (hashPass256 x) (avxOps.rounds x, y)) :=
    foldl_inv (HashInv256 x (avxOps.rounds x))
      ⟨fun _ _ => rfl, fun _ _ _ _ h => absurd h (Nat.not_lt_zero _)⟩
      (fun i zy h => hashPass256_inv x (avxOps.rounds x) i zy h)
  refine Vector.ext ?_
  intro j hj
  rw [Vector.getElem_append, ← rows_rounds (avx_isLaneView 0), ← rows_rounds (avx_isLaneView 1)]
  by_cases hlt : j < 64
  · rw [dif_pos hlt]
    have hlow := (hloop.2 0).getElem_eq hlt (by simp; omega)
    simp only [Fin.val_zero, Nat.mul_zero, Nat.zero_add] at hlow
    exact hlow
  · rw [dif_neg hlt]
    have hhigh := (hloop.2 1).getElem_eq (show j - 64 < 64 by omega) (by simp; omega)
    simp only [Fin.val_one, Nat.mul_one, show 64 + (j - 64) = j by omega] at hhigh
    exact hhigh

/-- The input with its counter word advanced by one. -/
def nextInput (input : Vector Byte 16) : Vector Byte 16 :=
  storeCount input (loadCount input + 1)

/-- Four words of the state array. -/
def rowAt (state : Vector Word 32) (d : Nat) (h : d + 4 ≤ 32) : Fin 4 → Word :=
  fun c => state[d + c.val]

/-- The four words that a row is loaded from. -/
def wordsAt {n : Nat} (b : Vector Byte n) (off : Nat) (h : off + 15 < n) : Fin 4 → Word :=
  fun c => loadWord32Le b (off + 4 * c.val) (by omega)

section Rows

variable {n : Nat} (state : Vector Word 32) (b : Vector Byte n) {d dst : Nat}

theorem rowAt_loadRow (hd : dst + 4 ≤ 32) (off : Nat) (h : off + 15 < n) :
    rowAt (loadRow state dst hd b off h) dst hd = wordsAt b off h := by
  funext c
  fin_cases c <;> simp [rowAt, loadRow, wordsAt]

theorem rowAt_loadRow_of_ne (hd : d + 4 ≤ 32) (hdst : dst + 4 ≤ 32) (off : Nat) (h : off + 15 < n)
    (hne : d + 4 ≤ dst ∨ dst + 4 ≤ d) :
    rowAt (loadRow state dst hdst b off h) d hd = rowAt state d hd := by
  funext c
  simp only [rowAt, loadRow, Vector.getElem_set]
  rw [if_neg (by omega), if_neg (by omega), if_neg (by omega), if_neg (by omega)]

theorem rowAt_copyRow (hd : dst + 4 ≤ 32) (src : Nat) (hs : src + 4 ≤ 32) (hne : src + 4 ≤ dst) :
    rowAt (copyRow state dst src hd hs) dst hd = rowAt state src hs := by
  funext c
  fin_cases c <;> simp [rowAt, copyRow, Vector.getElem_set] <;> grind

theorem rowAt_copyRow_of_ne (hd : d + 4 ≤ 32) (hdst : dst + 4 ≤ 32) (src : Nat) (hs : src + 4 ≤ 32)
    (hne : d + 4 ≤ dst ∨ dst + 4 ≤ d) :
    rowAt (copyRow state dst src hdst hs) d hd = rowAt state d hd := by
  funext c
  simp only [rowAt, copyRow, Vector.getElem_set]
  rw [if_neg (by omega), if_neg (by omega), if_neg (by omega), if_neg (by omega)]

theorem rowAt_set (v : Word) (hd : d + 4 ≤ 32) :
    rowAt (state.set d v) d hd = Function.update (rowAt state d hd) 0 v := by
  funext c
  fin_cases c <;> simp [rowAt]

theorem rowAt_set_of_lt {i : Nat} (hi : i < 32) (v : Word) (hd : d + 4 ≤ 32) (hlt : d + 4 ≤ i) :
    rowAt (state.set i v) d hd = rowAt state d hd := by
  funext c
  simp only [rowAt, Vector.getElem_set]
  rw [if_neg (by omega)]

end Rows

theorem halfLanes_load_zero (state : Vector Word 32) (off : Nat) (h : off + 7 < 32) :
    halfLanes 0 (mm256LoadSi256 state off h) = rowAt state off (by omega) :=
  funext fun c => lane_mmLddquSi128 c state off (by omega) c.isLt

theorem halfLanes_load_one (state : Vector Word 32) (off : Nat) (h : off + 7 < 32) :
    halfLanes 1 (mm256LoadSi256 state off h) = rowAt state (off + 4) (by omega) :=
  funext fun c => lane_mmLddquSi128 c state (off + 4) (by omega) c.isLt

/-- The eight rows of the state array. -/
theorem rowAt_expansionState256 (key : Vector Byte 32) (input : Vector Byte 16) :
    let state := expansionState256 key input
    rowAt state 0 (by decide) = wordsAt sigmaConst 0 (by decide)
      ∧ rowAt state 4 (by decide) = wordsAt sigmaConst 0 (by decide)
      ∧ rowAt state 8 (by decide) = wordsAt key 0 (by decide)
      ∧ rowAt state 12 (by decide) = wordsAt key 0 (by decide)
      ∧ rowAt state 16 (by decide) = wordsAt key 16 (by decide)
      ∧ rowAt state 20 (by decide) = wordsAt key 16 (by decide)
      ∧ rowAt state 24 (by decide) = wordsAt input 0 (by decide)
      ∧ rowAt state 28 (by decide)
          = Function.update (wordsAt input 0 (by decide)) 0 (loadCount input + 1) := by
  intro state
  refine ⟨?_, ?_, ?_, ?_, ?_, ?_, ?_, ?_⟩
  case refine_8 =>
    have hlast : ∀ s : Vector Word 32, rowAt s 28 (by decide) = wordsAt input 0 (by decide) →
        rowAt (s.set 28 (s[28] + 1)) 28 (by decide)
          = Function.update (wordsAt input 0 (by decide)) 0 (loadCount input + 1) := by
      intro s hs
      have hfirst : s[28] = loadCount input := congrFun hs 0
      rw [rowAt_set, hs, hfirst]
    exact hlast _ (by
      simp (disch := decide) only [rowAt_copyRow, rowAt_loadRow])
  all_goals
    simp (disch := decide) only [state, expansionState256, rowAt_set_of_lt, rowAt_copyRow,
      rowAt_copyRow_of_ne, rowAt_loadRow, rowAt_loadRow_of_ne]

theorem mat_expansionState_rows (key : Vector Byte 32) (input : Vector Byte 16) :
    mat (expansionState key input) = ![wordsAt sigmaConst 0 (by decide), wordsAt key 0 (by decide),
      wordsAt key 16 (by decide), wordsAt input 0 (by decide)] := by
  funext r c
  fin_cases r <;> fin_cases c <;> rfl

/-- The first word of the next input is advanced, the others stay. -/
theorem wordsAt_nextInput (input : Vector Byte 16) :
    wordsAt (nextInput input) 0 (by decide)
      = Function.update (wordsAt input 0 (by decide)) 0 (loadCount input + 1) := by
  have hfirst : loadCount (nextInput input) = loadCount input + 1 := by
    rw [loadCount, loadWord32Le_eq]
    simp only [nextInput, storeCount, getElem_storeWord32Le]
    exact ofLE_byteAt _
  have hrest : ∀ (off : Nat) (h : off + 3 < 16), 4 ≤ off →
      loadWord32Le (nextInput input) off h = loadWord32Le input off h := by
    intro off h hle
    rw [loadWord32Le_eq, loadWord32Le_eq]
    simp only [nextInput, storeCount, getElem_storeWord32Le]
    rw [if_neg (by omega), if_neg (by omega), if_neg (by omega), if_neg (by omega)]
  funext c
  fin_cases c
  · exact hfirst
  · exact hrest 4 (by decide) (by decide)
  · exact hrest 8 (by decide) (by decide)
  · exact hrest 12 (by decide) (by decide)

/-- The low halves of the four vectors are the state of the input … -/
theorem rows_low (key : Vector Byte 32) (input : Vector Byte 16) :
    rows (halfLanes 0) (stateVectors (expansionState256 key input)) = mat (expansionState key input) := by
  obtain ⟨h₀, -, h₈, -, h₁₆, -, h₂₄, -⟩ := rowAt_expansionState256 key input
  rw [mat_expansionState_rows]
  funext r
  fin_cases r
  · exact (halfLanes_load_zero _ 0 (by decide)).trans h₀
  · exact (halfLanes_load_zero _ 8 (by decide)).trans h₈
  · exact (halfLanes_load_zero _ 16 (by decide)).trans h₁₆
  · exact (halfLanes_load_zero _ 24 (by decide)).trans h₂₄

/-- … and the high halves that of the next input. -/
theorem rows_high (key : Vector Byte 32) (input : Vector Byte 16) :
    rows (halfLanes 1) (stateVectors (expansionState256 key input))
      = mat (expansionState key (nextInput input)) := by
  obtain ⟨-, h₄, -, h₁₂, -, h₂₀, -, h₂₈⟩ := rowAt_expansionState256 key input
  rw [mat_expansionState_rows, wordsAt_nextInput]
  funext r
  fin_cases r
  · exact (halfLanes_load_one _ 0 (by decide)).trans h₄
  · exact (halfLanes_load_one _ 8 (by decide)).trans h₁₂
  · exact (halfLanes_load_one _ 16 (by decide)).trans h₂₀
  · exact (halfLanes_load_one _ 24 (by decide)).trans h₂₈

/-- **One double block**: two scalar blocks, the second with the counter word advanced. -/
theorem chacha20Expansion256_fst (key : Vector Byte 32) (input : Vector Byte 16) :
    (chacha20Expansion256 key input).1
      = chacha20Expansion key input ++ chacha20Expansion key (nextInput input) := by
  rw [chacha20Expansion256, chacha20Hash256_eq (rows_low key input) (rows_high key input),
    chacha20Expansion, chacha20Expansion, chacha20Hash_eq rfl, chacha20Hash_eq rfl]

/-- The next input differs in the counter word only. -/
theorem nextInput_spec (input : Vector Byte 16) :
    loadCount (nextInput input) = loadCount input + 1
      ∧ ∀ (j : Nat) (hj : j < 16), 4 ≤ j → (nextInput input)[j] = input[j] := by
  constructor
  · exact congrFun (wordsAt_nextInput input) 0
  · intro j hj hle
    rw [nextInput, storeCount, getElem_storeWord32Le, if_neg (by omega)]

/-- **A double block is two scalar blocks**, of the input and of the input with its
counter word advanced, modulo 2^32, and its nonce as it was. -/
theorem chacha20Expansion256_eq_scalar (key : Vector Byte 32) (input : Vector Byte 16) :
    ∃ next : Vector Byte 16, loadCount next = loadCount input + 1
      ∧ (∀ (j : Nat) (hj : j < 16), 4 ≤ j → next[j] = input[j])
      ∧ (chacha20Expansion256 key input).1
          = chacha20Expansion key input ++ chacha20Expansion key next := by
  obtain ⟨hcount, hnonce⟩ := nextInput_spec input
  exact ⟨nextInput input, hcount, hnonce, chacha20Expansion256_fst key input⟩

/-! ## The message -/

/-- The generator of the block loop: two blocks, and one more in byte 0. -/
def avxGen (k : Vector Byte 32) : BlockGen (Vector Byte 16) 128 where
  block iv := chacha20Expansion k iv ++ chacha20Expansion k (nextInput iv)
  next := bumpByte

theorem avxGen_block (k : Vector Byte 32) (iv : Vector Byte 16) (i : Nat) (hi : i < 128) :
    ((avxGen k).block iv)[i] = if h : i < 64 then (chacha20Expansion k iv)[i]
      else (chacha20Expansion k (nextInput iv))[i - 64] :=
  Vector.getElem_append hi

theorem avxGen_realizes (k : Vector Byte 32) :
    Realizes (fun iv => .ok (chacha20Expansion256 k iv)) (fun iv => .ok iv) (avxGen k) bumpByte
      (fun _ => True) where
  gen_ok {iv} _ := by
    have hpair : chacha20Expansion256 k iv = ((chacha20Expansion256 k iv).1, bumpByte iv) := rfl
    rw [hpair, chacha20Expansion256_fst]
    rfl
  adv_ok _ := rfl
  next_good _ := trivial

/-- Byte `i` of the keystream of the AVX code. -/
def avxStream (k : Vector Byte 32) (n : Vector Byte 12) (c : Word) : Nat → Byte :=
  (avxGen k).stream (initIv n c)

/-- A call XORs `avxStream` into the message. -/
theorem chacha20Encryption256_eq (k : Vector Byte 32) (n : Vector Byte 12) (c : Word) (m : Message) :
    chacha20Encryption256 m.inp (Sink.fresh m.out) k n c m.length =
      .ok ((Sink.fresh m.out).xored m.inp (avxStream k n c) 0 m.len) := by
  have hsize : m.length.val.toNat ≤ (Sink.fresh m.out).bytes.size := m.fitsOut
  have hloop := encryptBlocks_eq (avxGen_realizes k) (xorAt_xorsInto m.inp) m.nonneg
    (s := initIv n c) trivial m.fitsInp hsize
  simp only [chacha20Encryption256, hloop, ok_bind, pure_eq_ok, Message.len, avxStream]

/-- **The AVX cipher is an additive stream cipher**, if not the scalar one: one keystream
serves every message and every length. -/
theorem chacha20Encryption256_additive (k : Vector Byte 32) (n : Vector Byte 12) (c : Word) :
    ∃ K : Nat → Byte,
      Additive (fun m => chacha20Encryption256 m.inp (Sink.fresh m.out) k n c m.length) K := by
  refine ⟨avxStream k n c, Additive.of_call ?_⟩
  intro m
  exact ⟨_, chacha20Encryption256_eq k n c m, encrypted_xored _ m⟩

theorem chacha20Encryption256_writesOnce (k : Vector Byte 32) (n : Vector Byte 12) (c : Word)
    {inp out : Array Byte} {inlen : CInt} (hin : inlen.val.toNat ≤ inp.size)
    (hout : inlen.val.toNat ≤ out.size) :
    WritesOnce inlen (chacha20Encryption256 inp (Sink.fresh out) k n c inlen) := by
  obtain ⟨r, hloop, hwritten⟩ := encryptBlocks_written (avxGen_realizes k) (xorAt_xorsInto inp) inlen
    (s := initIv n c) trivial hin hout
  refine ⟨r.1, ?_, hwritten⟩
  simp only [chacha20Encryption256, hloop, ok_bind, pure_eq_ok]

/-! ## The AVX keystream and the scalar one -/

theorem nextInput_initIv (n : Vector Byte 12) (c : Word) : nextInput (initIv n c) = initIv n (c + 1) := by
  rw [nextInput, loadCount_initIv, storeCount_initIv]

/-- The first double block is the first two scalar blocks. -/
theorem avxStream_of_lt (k : Vector Byte 32) (n : Vector Byte 12) (c : Word) (i : Nat) (hi : i < 128) :
    avxStream k n c i = blockStream chacha20Expansion k n c i := by
  have hblock := (avxGen k).stream_block (initIv n c) 0 i hi
  rw [Nat.zero_mul, Nat.zero_add] at hblock
  rw [avxStream, hblock, avxGen_block, Function.iterate_zero_apply, nextInput_initIv]
  by_cases hlt : i < 64
  · have hcounter : c + BitVec.ofNat 32 0 = c := BitVec.add_zero c
    rw [dif_pos hlt, blockStream]
    simp only [Nat.div_eq_of_lt hlt, Nat.mod_eq_of_lt hlt, hcounter]
    rfl
  · have hdiv : i / 64 = 1 := by omega
    have hmod : i % 64 = i - 64 := by omega
    rw [dif_neg hlt, blockStream]
    simp only [hdiv, hmod]
    rfl

/-- The two files write the same bytes. -/
def SameOutput (k : Vector Byte 32) (n : Vector Byte 12) (c : Word) (m : Message) : Prop :=
  ∃ out out', chacha20Encryption256 m.inp (Sink.fresh m.out) k n c m.length = .ok out
    ∧ chacha20Encryption m.inp (Sink.fresh m.out) k n c m.length = .ok out'
    ∧ ∀ i < m.len, out.bytes[i]? = out'.bytes[i]?

theorem sameOutput_iff (k : Vector Byte 32) (n : Vector Byte 12) (c : Word) (m : Message) :
    SameOutput k n c m
      ↔ ∀ i < m.len, avxStream k n c i = blockStream chacha20Expansion k n c i := by
  have havx := chacha20Encryption256_eq k n c m
  have hscalar := encryption64_eq chacha20Expansion k n c m
  have hinside := (encrypted_xored (avxStream k n c) m).inside
  have hinside' := (encrypted_xored (blockStream chacha20Expansion k n c) m).inside
  constructor
  · rintro ⟨out, out', hout, hout', hsame⟩ i hi
    obtain rfl : _ = out := Except.ok.inj (havx.symm.trans hout)
    obtain rfl : _ = out' := Except.ok.inj (hscalar.symm.trans hout')
    have hbyte := hsame i hi
    rw [hinside i hi, hinside' i hi, Option.some_inj] at hbyte
    exact (BitVec.xor_right_inj _).mp hbyte
  · intro h
    refine ⟨_, _, havx, hscalar, fun i hi => ?_⟩
    rw [hinside i hi, hinside' i hi, h i hi]

def zeroKey : Vector Byte 32 := Vector.replicate 32 0

def zeroNonce : Vector Byte 12 := Vector.replicate 12 0

/-- The second double block starts from counter 1, where the scalar code is at 2. -/
theorem avxStream_zero_ne :
    avxStream zeroKey zeroNonce 0 128 ≠ blockStream chacha20Expansion zeroKey zeroNonce 0 128 := by
  have hone : bumpByte (initIv zeroNonce 0) = initIv zeroNonce 1 := by decide
  have hblock : avxStream zeroKey zeroNonce 0 128
      = (chacha20Expansion zeroKey (initIv zeroNonce 1))[0] := by
    rw [← hone]
    exact Vector.getElem_append_left (by decide)
  have htwo : blockStream chacha20Expansion zeroKey zeroNonce 0 128
      = (chacha20Expansion zeroKey (initIv zeroNonce 2))[0] := rfl
  rw [hblock, htwo]
  decide +kernel

/-- **The AVX cipher is the scalar cipher on one double block, and on no more.** -/
theorem chacha20Encryption256_eq_scalar_iff (m : Message) :
    (∀ k n c, SameOutput k n c m) ↔ m.len ≤ 128 := by
  constructor
  · intro h
    by_contra hlong
    exact avxStream_zero_ne ((sameOutput_iff _ _ _ m).mp (h zeroKey zeroNonce 0) 128 (by omega))
  · intro hshort k n c
    exact (sameOutput_iff k n c m).mpr fun i hi => avxStream_of_lt k n c i (by omega)

/-- 129 zero bytes under the zero key, nonce and counter. -/
theorem not_sameOutput_zeros :
    ¬ SameOutput zeroKey zeroNonce 0 (Message.zeros ⟨129, by decide⟩ (by decide)) := by
  intro h
  exact avxStream_zero_ne ((sameOutput_iff _ _ _ _).mp h 128 (by decide))

end AeadPerf.ChaCha
