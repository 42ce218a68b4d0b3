/-
# `ChaCha.Rows` — the vectorised double round

`chacha20_sse.c` and `chacha20_avx.c` hold one text in two vector types: a state is an
array of four vectors, one for each row of the matrix, a pass over it is four quarter
rounds at once, one in each lane, and between two passes row `r` is rotated by `r`
words, so that the diagonals stand in columns.  `VecOps.doubleRound` is that text,
with the operations of the vector type as parameters.

What the operations must do is said of one lane (`IsLaneView`).  A vector type may be
viewed in more than one way, the 256-bit vectors as the rows of either of two states,
and `rows_doubleRound` holds for each: under the view the double round is the
standard's.
-/
import AeadPerf.ChaCha.Scalar

namespace AeadPerf.ChaCha

open Words
open Rfc8439 (State)

/-! ## The text -/

/-- The vector operations that a double round uses. -/
structure VecOps (V : Type) where
  /-- `_mm_add_epi32`, `_mm256_add_epi32` -/
  add : V → V → V
  /-- `_mm_xor_si128`, `_mm256_xor_si256` -/
  xor : V → V → V
  /-- `rotl_128_u32`, `rotl_256_u32` -/
  rotlU32 : V → Int → V
  /-- `_mm_rotl_128`, `_mm_rotl_256` -/
  rotl : V → Nat → V
  /-- `_mm_rotr_128`, `_mm_rotr_256` -/
  rotr : V → Nat → V

namespace VecOps

variable {V : Type} (ops : VecOps V)

/-- The `v0 += v1; v3 ^= v0; …` of one round, which stands twice in a double round. -/
def round (x : Vector V 4) : Vector V 4 :=
  let x := setAt x 0 (ops.add (x.get 0) (x.get 1))
  let x := setAt x 3 (ops.xor (x.get 3) (x.get 0))
  let x := setAt x 3 (ops.rotlU32 (x.get 3) 16)
  let x := setAt x 2 (ops.add (x.get 2) (x.get 3))
  let x := setAt x 1 (ops.xor (x.get 1) (x.get 2))
  let x := setAt x 1 (ops.rotlU32 (x.get 1) 12)
  let x := setAt x 0 (ops.add (x.get 0) (x.get 1))
  let x := setAt x 3 (ops.xor (x.get 3) (x.get 0))
  let x := setAt x 3 (ops.rotlU32 (x.get 3) 8)
  let x := setAt x 2 (ops.add (x.get 2) (x.get 3))
  let x := setAt x 1 (ops.xor (x.get 1) (x.get 2))
  setAt x 1 (ops.rotlU32 (x.get 1) 7)

/-- The three rotations after a round, `rot` to the right or to the left. -/
def rotateRows (rot : V → Nat → V) (x : Vector V 4) : Vector V 4 :=
  let x := setAt x 1 (rot (x.get 1) 32)
  let x := setAt x 2 (rot (x.get 2) 64)
  setAt x 3 (rot (x.get 3) 96)

/-- `chacha20_double_round_128`, `chacha20_double_round_256`. -/
def doubleRound (x : Vector V 4) : Vector V 4 :=
  let x := ops.round x
  let x := rotateRows ops.rotr x
  let x := ops.round x
  rotateRows ops.rotl x

/-- The ten passes of the round loop. -/
def rounds (x : Vector V 4) : Vector V 4 := Fin.foldl 10 (fun z _ => ops.doubleRound z) x

end VecOps

/-! ## The meaning -/

variable {V : Type}

/-- Under `view` the operations work lane by lane, and rotate the four lanes. -/
structure IsLaneView (ops : VecOps V) (view : V → Fin 4 → Word) : Prop where
  add : ∀ x y i, view (ops.add x y) i = view x i + view y i
  xor : ∀ x y i, view (ops.xor x y) i = view x i ^^^ view y i
  rotlU32 : ∀ x (s : Nat) i, 0 < s → s < 32 → view (ops.rotlU32 x s) i = (view x i).rotateLeft s
  rotl : ∀ x (s : Fin 4) i, s ≠ 0 → view (ops.rotl x (32 * s)) i = view x (i - s)
  rotr : ∀ x (s : Fin 4) i, s ≠ 0 → view (ops.rotr x (32 * s)) i = view x (i + s)

/-- Four vectors as the rows of a matrix. -/
def rows (view : V → Fin 4 → Word) (x : Vector V 4) : State := fun r => view (x.get r)

variable {ops : VecOps V} {view : V → Fin 4 → Word}

theorem rows_round (h : IsLaneView ops view) (x : Vector V 4) :
    rows view (ops.round x) = Rfc8439.columnRound (rows view x) := by
  have h16 : ∀ x i, view (ops.rotlU32 x 16) i = (view x i).rotateLeft 16 :=
    fun x i => h.rotlU32 x 16 i (by decide) (by decide)
  have h12 : ∀ x i, view (ops.rotlU32 x 12) i = (view x i).rotateLeft 12 :=
    fun x i => h.rotlU32 x 12 i (by decide) (by decide)
  have h8 : ∀ x i, view (ops.rotlU32 x 8) i = (view x i).rotateLeft 8 :=
    fun x i => h.rotlU32 x 8 i (by decide) (by decide)
  have h7 : ∀ x i, view (ops.rotlU32 x 7) i = (view x i).rotateLeft 7 :=
    fun x i => h.rotlU32 x 7 i (by decide) (by decide)
  funext r c
  fin_cases r <;>
    simp [rows, VecOps.round, get_setAt, Rfc8439.columnRound, Rfc8439.quarterRound, h.add, h.xor,
      h16, h12, h8, h7]

/-- Row `r` rotated right by `r` words: the diagonals become columns. -/
def skew (s : State) : State := fun r c => s r (c + r)

/-- Row `r` rotated left by `r` words. -/
def unskew (s : State) : State := fun r c => s r (c - r)

theorem unskew_columnRound_skew (s : State) :
    unskew (Rfc8439.columnRound (skew s)) = Rfc8439.diagonalRound s := by
  funext r c
  simp only [unskew, Rfc8439.columnRound, skew, Rfc8439.diagonalRound, add_zero]

theorem rows_rotr (h : IsLaneView ops view) (x : Vector V 4) :
    rows view (VecOps.rotateRows ops.rotr x) = skew (rows view x) := by
  funext r c
  fin_cases r
  · simp [rows, VecOps.rotateRows, get_setAt, skew]
  · simpa [rows, VecOps.rotateRows, get_setAt, skew] using h.rotr (x.get 1) 1 c (by decide)
  · simpa [rows, VecOps.rotateRows, get_setAt, skew] using h.rotr (x.get 2) 2 c (by decide)
  · simpa [rows, VecOps.rotateRows, get_setAt, skew] using h.rotr (x.get 3) 3 c (by decide)

theorem rows_rotl (h : IsLaneView ops view) (x : Vector V 4) :
    rows view (VecOps.rotateRows ops.rotl x) = unskew (rows view x) := by
  funext r c
  fin_cases r
  · simp [rows, VecOps.rotateRows, get_setAt, unskew]
  · simpa [rows, VecOps.rotateRows, get_setAt, unskew] using h.rotl (x.get 1) 1 c (by decide)
  · simpa [rows, VecOps.rotateRows, get_setAt, unskew] using h.rotl (x.get 2) 2 c (by decide)
  · simpa [rows, VecOps.rotateRows, get_setAt, unskew] using h.rotl (x.get 3) 3 c (by decide)

/-- **The double round** on vectors is the double round of the standard. -/
theorem rows_doubleRound (h : IsLaneView ops view) (x : Vector V 4) :
    rows view (ops.doubleRound x) = Rfc8439.innerBlock (rows view x) := by
  rw [VecOps.doubleRound, rows_rotl h, rows_round h, rows_rotr h, rows_round h,
    unskew_columnRound_skew, Rfc8439.innerBlock]

theorem rows_rounds (h : IsLaneView ops view) (x : Vector V 4) :
    rows view (ops.rounds x) = Rfc8439.innerBlock^[10] (rows view x) := by
  have hloop : ∀ m : Nat, rows view (Fin.foldl m (fun z _ => ops.doubleRound z) x)
      = Rfc8439.innerBlock^[m] (rows view x) := by
    intro m
    induction m with
    | zero => rfl
    | succ m ih =>
        rw [Fin.foldl_succ_last, rows_doubleRound h, ih, Function.iterate_succ_apply']
  exact hloop 10

/-! ## Serialising a row

The vector files store what `_mm_extract_epi32` returns, an `int`. -/

/-- `_store_word32_le(b + off, w)` for an `int` `w`: `>>` repeats the sign bit. -/
def storeInt32Le {n : Nat} (b : Vector Byte n) (off : Nat) (h : off + 3 < n) (w : Word) :
    Vector Byte n :=
  storeBytes b off h w (w.sshiftRight 8) (w.sshiftRight 16) (w.sshiftRight 24)

/-- The four stores of a row, at `off`, `off + 4`, `off + 8` and `off + 12`. -/
def storeRow {n : Nat} (b : Vector Byte n) (off : Nat) (h : off + 15 < n) (w : Nat → Word) :
    Vector Byte n :=
  let b := storeInt32Le b off (by omega) (w 0)
  let b := storeInt32Le b (off + 4) (by omega) (w 1)
  let b := storeInt32Le b (off + 8) (by omega) (w 2)
  storeInt32Le b (off + 12) (by omega) (w 3)

/-- The copies of the sign bit lie above the byte that is stored. -/
theorem setWidth_sshiftRight (w : Word) (s : Nat) (hs : s + 8 ≤ 32) :
    (w.sshiftRight s).setWidth 8 = (w >>> s).setWidth 8 := by
  refine BitVec.eq_of_getLsbD_eq ?_
  intro i hi
  simp only [BitVec.getLsbD_setWidth, BitVec.getLsbD_sshiftRight, BitVec.getLsbD_ushiftRight, hi,
    show s + i < 32 by omega, show ¬ 32 ≤ i by omega, if_true, decide_true, decide_false,
    Bool.not_false, Bool.true_and]

theorem storeInt32Le_eq {n : Nat} (b : Vector Byte n) (off : Nat) (h : off + 3 < n) (w : Word) :
    storeInt32Le b off h w = storeWord32Le b off h w := by
  simp only [storeInt32Le, storeWord32Le, storeBytes, setWidth_sshiftRight w 8 (by decide),
    setWidth_sshiftRight w 16 (by decide), setWidth_sshiftRight w 24 (by decide)]

theorem getElem_storeRow {n : Nat} (b : Vector Byte n) (off : Nat) (h : off + 15 < n) (w : Nat → Word)
    (j : Nat) (hj : j < n) :
    (storeRow b off h w)[j] =
      if off ≤ j ∧ j < off + 16 then byteAt (w ((j - off) / 4)) ((j - off) % 4) else b[j] := by
  simp only [storeRow, storeInt32Le_eq, getElem_storeWord32Le]
  by_cases hin : off ≤ j ∧ j < off + 16
  · rw [if_pos hin]
    rcases (by omega : (j - off) / 4 = 0 ∨ (j - off) / 4 = 1 ∨ (j - off) / 4 = 2 ∨ (j - off) / 4 = 3)
      with hq | hq | hq | hq
    · rw [if_neg (by omega), if_neg (by omega), if_neg (by omega), if_pos (by omega), hq,
        show j - off = (j - off) % 4 by omega, Nat.mod_mod]
    · rw [if_neg (by omega), if_neg (by omega), if_pos (by omega), hq,
        show j - (off + 4) = (j - off) % 4 by omega]
    · rw [if_neg (by omega), if_pos (by omega), hq, show j - (off + 8) = (j - off) % 4 by omega]
    · rw [if_pos (by omega), hq, show j - (off + 12) = (j - off) % 4 by omega]
  · rw [if_neg hin, if_neg (by omega), if_neg (by omega), if_neg (by omega), if_neg (by omega)]

/-- The rows `r < m` of a matrix, serialised from byte `base` on. -/
def RowsStored {n : Nat} (y : Vector Byte n) (base m : Nat) (s : State) : Prop :=
  ∀ (r c j : Fin 4), r.val < m →
    y[base + 16 * r.val + 4 * c.val + j.val]? = some (byteAt (s r c) j.val)

namespace RowsStored

variable {n base m : Nat} {y : Vector Byte n} {s : State}

/-- Storing the next row. -/
theorem storeRow (r : Fin 4) (h : RowsStored y base r.val s) {off : Nat} (hoff : off = base + 16 * r.val)
    (hn : off + 15 < n) {w : Nat → Word} (hw : ∀ c : Fin 4, w c.val = s r c) :
    RowsStored (storeRow y off hn w) base (r.val + 1) s := by
  subst hoff
  intro r' c j hr'
  by_cases hlt : r'.val < r.val
  · have hbyte := h r' c j hlt
    rw [Vector.getElem?_eq_getElem (by omega)] at hbyte ⊢
    rw [getElem_storeRow, if_neg (by omega)]
    exact hbyte
  · obtain rfl : r' = r := Fin.ext (by omega)
    rw [Vector.getElem?_eq_getElem (by omega), getElem_storeRow, if_pos (by omega),
      show base + 16 * r'.val + 4 * c.val + j.val - (base + 16 * r'.val) = 4 * c.val + j.val by omega,
      show (4 * c.val + j.val) / 4 = c.val by omega, show (4 * c.val + j.val) % 4 = j.val by omega, hw]

/-- A row stored elsewhere. -/
theorem frame (h : RowsStored y base m s) {off : Nat} (hn : off + 15 < n) (w : Nat → Word)
    (hoff : ∀ r < m, off + 15 < base + 16 * r ∨ base + 16 * r + 15 < off) :
    RowsStored (ChaCha.storeRow y off hn w) base m s := by
  intro r c j hr
  have hbyte := h r c j hr
  have hout := hoff r.val hr
  obtain ⟨hlt, -⟩ := Vector.getElem?_eq_some_iff.mp hbyte
  rw [Vector.getElem?_eq_getElem hlt] at hbyte ⊢
  rw [getElem_storeRow, if_neg (by omega)]
  exact hbyte

/-- All four rows are the serialised matrix. -/
theorem getElem_eq (h : RowsStored y base 4 s) {i : Nat} (hi : i < 64) (hn : base + i < n) :
    y[base + i] = (Rfc8439.serialize s)[i] := by
  have hbyte := h ⟨i / 16, by omega⟩ ⟨i / 4 % 4, by omega⟩ ⟨i % 4, by omega⟩ (by simp; omega)
  have hindex : base + 16 * (i / 16) + 4 * (i / 4 % 4) + i % 4 = base + i := by omega
  simp only [hindex, Vector.getElem?_eq_getElem hn, Option.some_inj] at hbyte
  simp only [Rfc8439.serialize, Vector.getElem_ofFn, hbyte]

end RowsStored

end AeadPerf.ChaCha
