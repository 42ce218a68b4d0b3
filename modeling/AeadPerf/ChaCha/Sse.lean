/-
# `ChaCha.Sse` — the SSE code of `chacha20_sse.c`

One 128-bit vector holds a row.  The rotation of words takes its shift counts from
vector registers, the rotation of rows is two or-ed byte shifts; both are what
`IsLaneView` asks for (`sse_isLaneView`), so the rounds are those of the standard by
`rows_rounds`, the serialised lanes its block, and the expansion is the scalar one
(`chacha20Expansion128_eq`).  The encryption function is the scalar text around it.
-/
import AeadPerf.ChaCha.Rows
import AeadPerf.Lib.Simd

namespace AeadPerf.ChaCha

open Words Checked KeyStream Simd
open Rfc8439 (State)

/-! ## The code -/

/-- `rotl_128_u32`. -/
def rotl128U32 (inp : M128) (shift : Int) : M128 :=
  if shift ≤ 0 then inp
  else
    let sl := mmSetEpi32 0 0 0 (BitVec.ofInt 32 shift)
    let sr := mmSetEpi32 0 0 0 (BitVec.ofInt 32 (32 - shift))
    mmOrSi128 (mmSllEpi32 inp sl) (mmSrlEpi32 inp sr)

/-- `_mm_rotl_128`. -/
def mmRotl128 (x : M128) (shift : Nat) : M128 :=
  mmOrSi128 (mmSlliSi128 x (shift >>> 3)) (mmSrliSi128 x ((128 - shift) >>> 3))

/-- `_mm_rotr_128`. -/
def mmRotr128 (x : M128) (shift : Nat) : M128 :=
  mmOrSi128 (mmSlliSi128 x ((128 - shift) >>> 3)) (mmSrliSi128 x (shift >>> 3))

/-- The operations of `chacha20_double_round_128`. -/
def sseOps : VecOps M128 where
  add := mmAddEpi32
  xor := mmXorSi128
  rotlU32 := rotl128U32
  rotl := mmRotl128
  rotr := mmRotr128

/-- `chacha20_double_round_128`. -/
def chacha20DoubleRound128 (x : Vector M128 4) : Vector M128 4 := sseOps.doubleRound x

/-- The body of the last loop of `chacha20_hash_128`, on `z` and `y`; `off` is `16 * i`. -/
def hashPass128 (x : Vector M128 4) (zy : Vector M128 4 × Vector Byte 64) (i : Fin 4) :
    Vector M128 4 × Vector Byte 64 :=
  let z := setAt zy.1 i (mmAddEpi32 (zy.1.get i) (x.get i))
  (z, storeRow zy.2 (16 * i.val) (by omega) (mmExtractEpi32 (z.get i)))

/-- `chacha20_hash_128`. -/
def chacha20Hash128 (x : Vector M128 4) (y : Vector Byte 64) : Vector Byte 64 :=
  let z := Fin.foldl 10 (fun z _ => chacha20DoubleRound128 z) x
  (Fin.foldl 4 (hashPass128 x) (z, y)).2

/-- `chacha20_expansion` of `chacha20_sse.c`; its `state` array is set up as in `chacha20.c`. -/
def chacha20Expansion128 (key : Vector Byte 32) (input : Vector Byte 16) : Vector Byte 64 :=
  let state := expansionState key input
  chacha20Hash128 #v[mmLddquSi128 state 0 (by decide), mmLddquSi128 state 4 (by decide),
    mmLddquSi128 state 8 (by decide), mmLddquSi128 state 12 (by decide)] (Vector.replicate 64 0)

/-- `chacha20_encryption_128`. -/
def chacha20Encryption128 (inp : Array Byte) (out : Sink) (k : Vector Byte 32) (n : Vector Byte 12)
    (c : Word) (inlen : CInt) : Run Sink :=
  encryption64 chacha20Expansion128 inp out k n c inlen

/-! ## The operations -/

/-- The lanes of a vector. -/
def lanes (x : M128) : Fin 4 → Word := fun i => lane x i

theorem lane_rotl128U32 (x : M128) (s : Nat) (i : Nat) (hi : i < 4) (h₁ : 0 < s) (h₂ : s < 32) :
    lane (rotl128U32 x s) i = (lane x i).rotateLeft s := by
  have hl : (BitVec.ofInt 32 s).toNat = s := by
    simp
    omega
  have hr : (BitVec.ofInt 32 (32 - s)).toNat = 32 - s := by
    rw [show (32 : Int) - (s : Int) = ((32 - s : Nat) : Int) by omega]
    simp
    omega
  rw [rotl128U32, if_neg (by omega), lane_mmOrSi128, lane_mmSllEpi32 _ _ _ (by omega) hi,
    lane_mmSrlEpi32 _ _ _ (by omega) hi, hl, hr, BitVec.rotateLeft_def, Nat.mod_eq_of_lt h₂]

/-- Rotating left by `s` words is rotating right by `4 - s`. -/
theorem lane_mmRotl128 (x : M128) (s i : Nat) (hs₀ : 0 < s) (hs : s < 4) (hi : i < 4) :
    lane (mmRotl128 x (32 * s)) i = lane x ((4 - s + i) % 4) := by
  have hup : (32 * s) >>> 3 = 4 * (4 - (4 - s)) := by
    rw [Nat.shiftRight_eq_div_pow]
    omega
  have hdown : (128 - 32 * s) >>> 3 = 4 * (4 - s) := by
    rw [Nat.shiftRight_eq_div_pow]
    omega
  rw [mmRotl128, hup, hdown, rotateWords x i (4 - s) (by omega) (by omega) hi, Nat.add_comm]

theorem lane_mmRotr128 (x : M128) (s i : Nat) (hs₀ : 0 < s) (hs : s < 4) (hi : i < 4) :
    lane (mmRotr128 x (32 * s)) i = lane x ((i + s) % 4) := by
  have hup : (128 - 32 * s) >>> 3 = 4 * (4 - s) := by
    rw [Nat.shiftRight_eq_div_pow]
    omega
  have hdown : (32 * s) >>> 3 = 4 * s := by
    rw [Nat.shiftRight_eq_div_pow]
    omega
  rw [mmRotr128, hup, hdown, rotateWords x i s hs₀ hs hi]

theorem sse_isLaneView : IsLaneView sseOps lanes where
  add x y i := lane_mmAddEpi32 x y i i.isLt
  xor x y i := lane_mmXorSi128 x y i
  rotlU32 x s i h₁ h₂ := lane_rotl128U32 x s i i.isLt h₁ h₂
  rotl x s i hs := by
    have hi : (i - s).val = (4 - s.val + i.val) % 4 := Fin.val_sub i s
    rw [lanes, lanes, hi]
    exact lane_mmRotl128 x s i (Fin.pos_iff_ne_zero.mpr hs) s.isLt i.isLt
  rotr x s i hs := by
    have hi : (i + s).val = (i.val + s.val) % 4 := Fin.val_add i s
    rw [lanes, lanes, hi]
    exact lane_mmRotr128 x s i (Fin.pos_iff_ne_zero.mpr hs) s.isLt i.isLt

/-! ## The block -/

/-- The invariant of the last loop of `chacha20_hash_128`. -/
def HashInv128 (x z : Vector M128 4) (m : Nat) (zy : Vector M128 4 × Vector Byte 64) : Prop :=
  (∀ r : Fin 4, m ≤ r.val → zy.1.get r = z.get r)
    ∧ RowsStored zy.2 0 m fun r c => rows lanes z r c + rows lanes x r c

theorem hashPass128_inv (x z : Vector M128 4) (i : Fin 4) (zy : Vector M128 4 × Vector Byte 64)
    (h : HashInv128 x z i zy) : HashInv128 x z (i.val + 1) (hashPass128 x zy i) := by
  obtain ⟨hz, hy⟩ := h
  refine ⟨fun r hr => ?_, hy.storeRow i (Nat.zero_add _).symm (by omega) fun c => ?_⟩
  · rw [hashPass128, get_setAt, if_neg (Fin.ne_of_val_ne (by omega)), hz r (by omega)]
  · rw [get_setAt, if_pos rfl, hz i le_rfl, mmExtractEpi32, Nat.mod_eq_of_lt c.isLt,
      lane_mmAddEpi32 _ _ _ c.isLt]
    rfl

/-- `chacha20_hash_128` on rows that are the matrix `s`. -/
theorem chacha20Hash128_eq {x : Vector M128 4} {s : State} (h : rows lanes x = s) (y : Vector Byte 64) :
    chacha20Hash128 x y = Rfc8439.serialize fun r c => (Rfc8439.innerBlock^[10] s) r c + s r c := by
  subst h
  have hloop : HashInv128 x (sseOps.rounds x) 4 (Fin.foldl 4 (hashPass128 x) (sseOps.rounds x, y)) :=
    foldl_inv (HashInv128 x (sseOps.rounds x)) ⟨fun _ _ => rfl, fun _ _ _ h => absurd h (Nat.not_lt_zero _)⟩
      (fun i zy h => hashPass128_inv x (sseOps.rounds x) i zy h)
  refine Vector.ext ?_
  intro j hj
  have hbyte := hloop.2.getElem_eq hj (by omega)
  rw [rows_rounds sse_isLaneView] at hbyte
  simp only [Nat.zero_add] at hbyte
  exact hbyte

/-- The rows loaded from the state array are the scalar code's matrix. -/
theorem rows_mmLddquSi128 (state : Vector Word 16) :
    rows lanes #v[mmLddquSi128 state 0 (by decide), mmLddquSi128 state 4 (by decide),
      mmLddquSi128 state 8 (by decide), mmLddquSi128 state 12 (by decide)] = mat state := by
  funext r c
  fin_cases r
  · exact lane_mmLddquSi128 c state 0 (by decide) c.isLt
  · exact lane_mmLddquSi128 c state 4 (by decide) c.isLt
  · exact lane_mmLddquSi128 c state 8 (by decide) c.isLt
  · exact lane_mmLddquSi128 c state 12 (by decide) c.isLt

/-- **One block**: the vector expansion is the scalar one. -/
theorem chacha20Expansion128_eq : chacha20Expansion128 = chacha20Expansion := by
  funext key input
  rw [chacha20Expansion128, chacha20Expansion, chacha20Hash128_eq (rows_mmLddquSi128 _),
    chacha20Hash_eq rfl]

/-! ## The message -/

/-- **The SSE cipher is the scalar cipher**: for every key, nonce, counter and message
both end, with the same output. -/
theorem chacha20Encryption128_eq_scalar (k : Vector Byte 32) (n : Vector Byte 12) (c : Word)
    (m : Message) :
    ∃ out, chacha20Encryption128 m.inp (Sink.fresh m.out) k n c m.length = .ok out
      ∧ chacha20Encryption m.inp (Sink.fresh m.out) k n c m.length = .ok out := by
  have hscalar := encryption64_eq chacha20Expansion k n c m
  refine ⟨_, ?_, hscalar⟩
  rw [chacha20Encryption128, chacha20Expansion128_eq]
  exact hscalar

end AeadPerf.ChaCha
