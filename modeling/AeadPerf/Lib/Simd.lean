/-
# `Lib.Simd` — 128- and 256-bit vectors of 32-bit lanes

The vector instructions of SSE2/SSE3 and AVX2 that work on 32-bit lanes, under the
names of the compiler intrinsics, with their documented meaning.

A 128-bit vector is a bit vector; lane `i` is its bits `32 * i` to `32 * i + 31`.

    _mm_add_epi32                      lane by lane, modulo 2^32
    _mm_xor_si128, _mm_or_si128        bitwise
    _mm_sll_epi32, _mm_srl_epi32       lane by lane, by the low 64 bits of a vector
    _mm_slli_si128, _mm_srli_si128     the whole vector, by bytes
    _mm_extract_epi32                  one lane

A 256-bit vector is a pair of 128-bit ones, and every 256-bit instruction here does
to both halves what the 128-bit one does; byte shifts do not cross the halves.

For each instruction there is a lemma about lane `i` of its result, and nothing else
is needed of it: `rotateWords` says what the two or-ed byte shifts of a rotation by
whole words do.
-/
import AeadPerf.Lib.Words
import Mathlib.Data.Fin.VecNotation

namespace Simd

open Words

/-! ## 128 bits -/

abbrev M128 := BitVec 128

/-- Lane `i`; zero from lane 4 on. -/
def lane (x : M128) (i : Nat) : Word := x.extractLsb' (32 * i) 32

/-- The vector with given lanes. -/
def ofLanes (f : Nat → Word) : M128 := f 3 ++ f 2 ++ f 1 ++ f 0

def mmAddEpi32 (x y : M128) : M128 := ofLanes fun i => lane x i + lane y i

def mmXorSi128 (x y : M128) : M128 := x ^^^ y

def mmOrSi128 (x y : M128) : M128 := x ||| y

/-- Left by `imm` bytes. -/
def mmSlliSi128 (x : M128) (imm : Nat) : M128 := if imm > 15 then 0 else x <<< (8 * imm)

/-- Right by `imm` bytes. -/
def mmSrliSi128 (x : M128) (imm : Nat) : M128 := if imm > 15 then 0 else x >>> (8 * imm)

def mmSetEpi32 (e₃ e₂ e₁ e₀ : Word) : M128 := e₃ ++ e₂ ++ e₁ ++ e₀

/-- Every lane left by the number in the low 64 bits of `count`. -/
def mmSllEpi32 (x count : M128) : M128 :=
  let n := (count.extractLsb' 0 64).toNat
  if n > 31 then 0 else ofLanes fun i => lane x i <<< n

/-- Every lane right by the number in the low 64 bits of `count`. -/
def mmSrlEpi32 (x count : M128) : M128 :=
  let n := (count.extractLsb' 0 64).toNat
  if n > 31 then 0 else ofLanes fun i => lane x i >>> n

def mmSlliEpi32 (x : M128) (imm : Nat) : M128 :=
  if imm > 31 then 0 else ofLanes fun i => lane x i <<< imm

def mmSrliEpi32 (x : M128) (imm : Nat) : M128 :=
  if imm > 31 then 0 else ofLanes fun i => lane x i >>> imm

def mmExtractEpi32 (x : M128) (imm : Nat) : Word := lane x (imm % 4)

/-- The vector at four words of memory from index `off` on. -/
def mmLddquSi128 {n : Nat} (mem : Vector Word n) (off : Nat) (h : off + 4 ≤ n) : M128 :=
  mem[off + 3] ++ mem[off + 2] ++ mem[off + 1] ++ mem[off]

section Lanes

variable (x y : M128) (i : Nat)

theorem lane_append (e₃ e₂ e₁ e₀ : Word) :
    lane (e₃ ++ e₂ ++ e₁ ++ e₀) 0 = e₀ ∧ lane (e₃ ++ e₂ ++ e₁ ++ e₀) 1 = e₁
      ∧ lane (e₃ ++ e₂ ++ e₁ ++ e₀) 2 = e₂ ∧ lane (e₃ ++ e₂ ++ e₁ ++ e₀) 3 = e₃ := by
  refine ⟨?_, ?_, ?_, ?_⟩
  · exact BitVec.extractLsb'_append_eq_right
  · exact (BitVec.extractLsb'_append_eq_of_le (by decide)).trans BitVec.extractLsb'_append_eq_right
  · exact (BitVec.extractLsb'_append_eq_of_le (by decide)).trans
      ((BitVec.extractLsb'_append_eq_of_le (by decide)).trans BitVec.extractLsb'_append_eq_right)
  · exact (BitVec.extractLsb'_append_eq_of_le (by decide)).trans
      ((BitVec.extractLsb'_append_eq_of_le (by decide)).trans BitVec.extractLsb'_append_eq_left)

theorem lane_ofLanes (f : Nat → Word) (hi : i < 4) : lane (ofLanes f) i = f i := by
  obtain ⟨h₀, h₁, h₂, h₃⟩ := lane_append (f 3) (f 2) (f 1) (f 0)
  interval_cases i
  · exact h₀
  · exact h₁
  · exact h₂
  · exact h₃

theorem lane_mmLddquSi128 {n : Nat} (mem : Vector Word n) (off : Nat) (h : off + 4 ≤ n) (hi : i < 4) :
    lane (mmLddquSi128 mem off h) i = mem[off + i] := by
  obtain ⟨h₀, h₁, h₂, h₃⟩ := lane_append mem[off + 3] mem[off + 2] mem[off + 1] mem[off]
  interval_cases i
  · exact h₀
  · exact h₁
  · exact h₂
  · exact h₃

theorem lane_mmAddEpi32 (hi : i < 4) : lane (mmAddEpi32 x y) i = lane x i + lane y i :=
  lane_ofLanes i _ hi

theorem lane_mmXorSi128 : lane (mmXorSi128 x y) i = lane x i ^^^ lane y i := BitVec.extractLsb'_xor

theorem lane_mmOrSi128 : lane (mmOrSi128 x y) i = lane x i ||| lane y i := BitVec.extractLsb'_or

/-- A byte shift by whole words moves lanes up … -/
theorem lane_mmSlliSi128 (s : Nat) (hi : i < 4) (hs : s < 4) :
    lane (mmSlliSi128 x (4 * s)) i = if i < s then 0#32 else lane x (i - s) := by
  rw [mmSlliSi128, if_neg (by omega)]
  refine BitVec.eq_of_getLsbD_eq ?_
  intro b hb
  by_cases hlt : i < s
  · simp [lane, hlt, hb, show 32 * i + b < 8 * (4 * s) by omega]
  · simp only [lane, hlt, hb, if_false, BitVec.getLsbD_extractLsb', BitVec.getLsbD_shiftLeft,
      show 32 * i + b < 128 by omega, show ¬ 32 * i + b < 8 * (4 * s) by omega,
      show 32 * i + b - 8 * (4 * s) = 32 * (i - s) + b by omega, decide_true, decide_false,
      Bool.not_false, Bool.true_and]

/-- … or down. -/
theorem lane_mmSrliSi128 (s : Nat) (hs : s < 4) :
    lane (mmSrliSi128 x (4 * s)) i = lane x (i + s) := by
  rw [mmSrliSi128, if_neg (by omega)]
  refine BitVec.eq_of_getLsbD_eq ?_
  intro b hb
  simp [lane, hb, show 8 * (4 * s) + (32 * i + b) = 32 * (i + s) + b by omega]

theorem lane_of_ge (hi : 4 ≤ i) : lane x i = 0#32 := by
  refine BitVec.eq_of_getLsbD_eq ?_
  intro b hb
  simp [lane, BitVec.getLsbD_of_ge x (32 * i + b) (by omega)]

/-- The rotation right by `s` words, as two byte shifts. -/
theorem rotateWords (s : Nat) (hs₀ : 0 < s) (hs : s < 4) (hi : i < 4) :
    lane (mmOrSi128 (mmSlliSi128 x (4 * (4 - s))) (mmSrliSi128 x (4 * s))) i = lane x ((i + s) % 4) := by
  rw [lane_mmOrSi128, lane_mmSlliSi128 x i (4 - s) hi (by omega), lane_mmSrliSi128 x i s hs]
  by_cases hlt : i + s < 4
  · rw [if_pos (by omega), Nat.mod_eq_of_lt hlt, BitVec.zero_or]
  · rw [if_neg (by omega), lane_of_ge x (i + s) (by omega), BitVec.or_zero,
      show (i + s) % 4 = i - (4 - s) by omega]

theorem toNat_count (n : Word) : ((mmSetEpi32 0 0 0 n).extractLsb' 0 64).toNat = n.toNat := by
  have hn := n.isLt
  simp only [mmSetEpi32, BitVec.extractLsb'_toNat, BitVec.toNat_append]
  simp
  omega

theorem lane_mmSllEpi32 (n : Word) (hn : n.toNat < 32) (hi : i < 4) :
    lane (mmSllEpi32 x (mmSetEpi32 0 0 0 n)) i = lane x i <<< n.toNat := by
  rw [mmSllEpi32, toNat_count, if_neg (by omega), lane_ofLanes i _ hi]

theorem lane_mmSrlEpi32 (n : Word) (hn : n.toNat < 32) (hi : i < 4) :
    lane (mmSrlEpi32 x (mmSetEpi32 0 0 0 n)) i = lane x i >>> n.toNat := by
  rw [mmSrlEpi32, toNat_count, if_neg (by omega), lane_ofLanes i _ hi]

theorem lane_mmSlliEpi32 (n : Nat) (hn : n < 32) (hi : i < 4) :
    lane (mmSlliEpi32 x n) i = lane x i <<< n := by
  rw [mmSlliEpi32, if_neg (by omega), lane_ofLanes i _ hi]

theorem lane_mmSrliEpi32 (n : Nat) (hn : n < 32) (hi : i < 4) :
    lane (mmSrliEpi32 x n) i = lane x i >>> n := by
  rw [mmSrliEpi32, if_neg (by omega), lane_ofLanes i _ hi]

end Lanes

/-! ## 256 bits -/

/-- Two 128-bit halves. -/
structure M256 where
  lo : M128
  hi : M128
  deriving DecidableEq, Repr

def mm256AddEpi32 (x y : M256) : M256 := ⟨mmAddEpi32 x.lo y.lo, mmAddEpi32 x.hi y.hi⟩

def mm256XorSi256 (x y : M256) : M256 := ⟨mmXorSi128 x.lo y.lo, mmXorSi128 x.hi y.hi⟩

def mm256OrSi256 (x y : M256) : M256 := ⟨mmOrSi128 x.lo y.lo, mmOrSi128 x.hi y.hi⟩

def mm256SlliSi256 (x : M256) (imm : Nat) : M256 := ⟨mmSlliSi128 x.lo imm, mmSlliSi128 x.hi imm⟩

def mm256SrliSi256 (x : M256) (imm : Nat) : M256 := ⟨mmSrliSi128 x.lo imm, mmSrliSi128 x.hi imm⟩

def mm256SlliEpi32 (x : M256) (imm : Nat) : M256 := ⟨mmSlliEpi32 x.lo imm, mmSlliEpi32 x.hi imm⟩

def mm256SrliEpi32 (x : M256) (imm : Nat) : M256 := ⟨mmSrliEpi32 x.lo imm, mmSrliEpi32 x.hi imm⟩

/-- Lanes 0 to 3 are the low half's, 4 to 7 the high half's. -/
def mm256ExtractEpi32 (x : M256) (imm : Nat) : Word :=
  if imm % 8 < 4 then lane x.lo (imm % 8) else lane x.hi (imm % 8 - 4)

/-- The vector at eight words of memory from index `off` on. -/
def mm256LoadSi256 {n : Nat} (mem : Vector Word n) (off : Nat) (h : off + 7 < n) : M256 :=
  ⟨mmLddquSi128 mem off (by omega), mmLddquSi128 mem (off + 4) (by omega)⟩

end Simd
