/-
# `Lib.Words` — bytes, 32-bit words and big-endian numbers

Three views of memory that C programs mix freely.

* A 32-bit word as four bytes by *significance*: `byteAt w 0` is the least
  significant byte, `ofLE` puts a word together from its bytes.  The
  shift-and-or expressions of C loads are `ofLE` of the bytes in one order or the
  other (`or_shift_le`, `or_shift_be`).
* A 32-bit word as four bytes by *address*: this depends on the byte order of
  the host, `ByteOrder`.  `o.bytes w` is what `(uint8_t *) &w` points at, and
  `o.word` reads it back.  XOR of words is XOR of their memory bytes in either
  order (`ByteOrder.bytes_xor`).
* A run of bytes as one number, most significant byte first: `beVal f n` is the
  value of `f 0, …, f (n - 1)`.  It determines the bytes (`beVal_inj`), and
  `beByte` reads a byte of a number.  `window` and `setWindow` read and write
  such a number in the middle of an array.
-/
import Mathlib.Data.Fin.VecNotation
import Mathlib.Tactic.Ring
import Mathlib.Tactic.IntervalCases
import Mathlib.Logic.Function.Iterate

namespace Words

abbrev Byte := BitVec 8

abbrev Word := BitVec 32

/-! ## Entries of arrays -/

/-- Constants index arrays of four and of sixteen. -/
instance neZeroFour : NeZero 4 := ⟨by decide⟩

instance neZeroSixteen : NeZero 16 := ⟨by decide⟩

@[simp] theorem val_three : (3 : Fin 4).val = 3 := rfl

section Entries

variable {α : Type} {n : Nat}

theorem get_eq (v : Vector α n) (i : Fin n) : v.get i = getElem v i.val i.isLt := rfl

theorem get_ofFn (f : Fin n → α) (i : Fin n) : (Vector.ofFn f).get i = f i := by
  rw [get_eq, Vector.getElem_ofFn]

theorem get_four (x y z w : α) : ∀ i : Fin 4, #v[x, y, z, w].get i = ![x, y, z, w] i
  | 0 => rfl
  | 1 => rfl
  | 2 => rfl
  | 3 => rfl

/-- The array with `a` at an index that carries its bound. -/
def setAt (v : Vector α n) (i : Fin n) (a : α) : Vector α n := v.set i.val a i.isLt

theorem get_setAt (v : Vector α n) (i j : Fin n) (a : α) :
    (setAt v i a).get j = if i = j then a else v.get j := by
  simp only [setAt, get_eq, Vector.getElem_set, Fin.ext_iff]

end Entries

/-! ## Words by significance -/

/-- Byte `j` of a word, byte 0 the least significant. -/
def byteAt (w : Word) (j : Nat) : Byte := w.extractLsb' (8 * j) 8

/-- The word with the given bytes, least significant first. -/
def ofLE (b₀ b₁ b₂ b₃ : Byte) : Word := b₃ ++ b₂ ++ b₁ ++ b₀

section

variable (b₀ b₁ b₂ b₃ : Byte)

@[simp] theorem byteAt_ofLE_zero : byteAt (ofLE b₀ b₁ b₂ b₃) 0 = b₀ :=
  BitVec.extractLsb'_append_eq_right

@[simp] theorem byteAt_ofLE_one : byteAt (ofLE b₀ b₁ b₂ b₃) 1 = b₁ :=
  (BitVec.extractLsb'_append_eq_of_le (by decide)).trans BitVec.extractLsb'_append_eq_right

@[simp] theorem byteAt_ofLE_two : byteAt (ofLE b₀ b₁ b₂ b₃) 2 = b₂ :=
  (BitVec.extractLsb'_append_eq_of_le (by decide)).trans
    ((BitVec.extractLsb'_append_eq_of_le (by decide)).trans BitVec.extractLsb'_append_eq_right)

@[simp] theorem byteAt_ofLE_three : byteAt (ofLE b₀ b₁ b₂ b₃) 3 = b₃ :=
  (BitVec.extractLsb'_append_eq_of_le (by decide)).trans
    ((BitVec.extractLsb'_append_eq_of_le (by decide)).trans BitVec.extractLsb'_append_eq_left)

/-- `(b[0] << 24) | (b[1] << 16) | (b[2] << 8) | b[3]`. -/
theorem or_shift_be :
    b₀.setWidth 32 <<< 24 ||| b₁.setWidth 32 <<< 16 ||| b₂.setWidth 32 <<< 8 ||| b₃.setWidth 32
      = ofLE b₃ b₂ b₁ b₀ :=
  (BitVec.setWidth_append_append_append_eq_shiftLeft_setWidth_or.symm.trans
    (BitVec.setWidth_eq (ofLE b₃ b₂ b₁ b₀)) :)

/-- `b[0] | (b[1] << 8) | (b[2] << 16) | (b[3] << 24)`. -/
theorem or_shift_le :
    b₀.setWidth 32 ||| b₁.setWidth 32 <<< 8 ||| b₂.setWidth 32 <<< 16 ||| b₃.setWidth 32 <<< 24
      = ofLE b₀ b₁ b₂ b₃ := by
  rw [← or_shift_be, BitVec.or_comm _ (b₃.setWidth 32 <<< 24), BitVec.or_comm _ (b₂.setWidth 32 <<< 16),
    BitVec.or_comm (b₀.setWidth 32), BitVec.or_assoc, BitVec.or_assoc]

end

theorem ofLE_byteAt (w : Word) :
    ofLE (byteAt w 0) (byteAt w 1) (byteAt w 2) (byteAt w 3) = w := by
  rw [← or_shift_le]
  refine BitVec.eq_of_getLsbD_eq ?_
  intro i hi
  rcases (by omega : i < 8 ∨ (8 ≤ i ∧ i < 16) ∨ (16 ≤ i ∧ i < 24) ∨ 24 ≤ i) with h | h | h | h
  · simp [byteAt, hi, h, show i < 16 by omega, show i < 24 by omega]
  · simp [byteAt, hi, show ¬ i < 8 by omega, show i < 16 by omega, show i < 24 by omega,
      show i - 8 < 8 by omega, show 8 + (i - 8) = i by omega]
  · simp [byteAt, hi, show ¬ i < 8 by omega, show ¬ i < 16 by omega, show i < 24 by omega,
      show ¬ i - 8 < 8 by omega, show i - 16 < 8 by omega, show 16 + (i - 16) = i by omega]
  · simp [byteAt, hi, show ¬ i < 8 by omega, show ¬ i < 16 by omega, show ¬ i < 24 by omega,
      show ¬ i - 8 < 8 by omega, show ¬ i - 16 < 8 by omega, show i - 24 < 8 by omega,
      show 24 + (i - 24) = i by omega]

theorem byteAt_xor (v w : Word) (j : Nat) : byteAt (v ^^^ w) j = byteAt v j ^^^ byteAt w j :=
  BitVec.extractLsb'_xor

/-- Words are determined by their bytes. -/
theorem word_ext {v w : Word} (h : ∀ j < 4, byteAt v j = byteAt w j) : v = w := by
  rw [← ofLE_byteAt v, ← ofLE_byteAt w, h 0 (by decide), h 1 (by decide), h 2 (by decide),
    h 3 (by decide)]

/-! ## Rotations -/

theorem rotateRight_rotateLeft (w : Word) {s : Nat} (hs : s < 32) :
    (w.rotateLeft s).rotateRight s = w := by
  refine BitVec.eq_of_getLsbD_eq ?_
  intro i hi
  rw [BitVec.getLsbD_rotateRight, Nat.mod_eq_of_lt hs]
  rcases Nat.lt_or_ge i (32 - s) with hlt | hge
  · simp [BitVec.getLsbD_rotateLeft, Nat.mod_eq_of_lt hs, hlt, show s + i < 32 by omega,
      BitVec.getLsbD_eq_getElem hi]
  · simp [BitVec.getLsbD_rotateLeft, Nat.mod_eq_of_lt hs, Nat.not_lt.mpr hge, hi,
      show i - (32 - s) < s by omega, show 32 - s + (i - (32 - s)) = i by omega]

theorem rotateLeft_rotateRight (w : Word) {s : Nat} (hs : s < 32) :
    (w.rotateRight s).rotateLeft s = w := by
  refine BitVec.eq_of_getLsbD_eq ?_
  intro i hi
  rw [BitVec.getLsbD_rotateLeft, Nat.mod_eq_of_lt hs]
  rcases Nat.lt_or_ge i s with hlt | hge
  · simp [BitVec.getLsbD_rotateRight, Nat.mod_eq_of_lt hs, hlt, show ¬ 32 - s + i < 32 - s by omega,
      show 32 - s + i < 32 by omega, BitVec.getLsbD_eq_getElem hi]
  · simp [BitVec.getLsbD_rotateRight, Nat.mod_eq_of_lt hs, Nat.not_lt.mpr hge, hi,
      show i - s < 32 - s by omega, show s + (i - s) = i by omega]

/-! ## Words by address -/

/-- The byte order of the host. -/
inductive ByteOrder where
  | little
  | big
  deriving DecidableEq, Repr

namespace ByteOrder

/-- The bytes of a word in memory. -/
def bytes : ByteOrder → Word → Vector Byte 4
  | .little, w => #v[byteAt w 0, byteAt w 1, byteAt w 2, byteAt w 3]
  | .big, w => #v[byteAt w 3, byteAt w 2, byteAt w 1, byteAt w 0]

/-- The word that four bytes of memory hold. -/
def word : ByteOrder → Vector Byte 4 → Word
  | .little, v => ofLE (v.get 0) (v.get 1) (v.get 2) (v.get 3)
  | .big, v => ofLE (v.get 3) (v.get 2) (v.get 1) (v.get 0)

@[simp] theorem word_bytes (o : ByteOrder) (w : Word) : o.word (o.bytes w) = w := by
  cases o with
  | little => exact ofLE_byteAt w
  | big => exact ofLE_byteAt w

@[simp] theorem bytes_word (o : ByteOrder) (v : Vector Byte 4) : o.bytes (o.word v) = v := by
  refine Vector.ext ?_
  intro j hj
  cases o <;> interval_cases j <;> simp [bytes, word, get_eq]

theorem bytes_xor (o : ByteOrder) (v w : Word) (j : Nat) (hj : j < 4) :
    (o.bytes (v ^^^ w))[j] = (o.bytes v)[j] ^^^ (o.bytes w)[j] := by
  cases o <;> interval_cases j <;> simp [bytes, byteAt_xor]

end ByteOrder

/-! ## Big-endian numbers -/

/-- The number with bytes `f 0, …, f (n - 1)`, most significant first. -/
def beVal (f : Nat → Byte) : Nat → Nat
  | 0 => 0
  | n + 1 => 256 * beVal f n + (f n).toNat

theorem beVal_lt (f : Nat → Byte) (n : Nat) : beVal f n < 256 ^ n := by
  induction n with
  | zero => exact Nat.one_pos
  | succ n ih =>
      have hb := (f n).isLt
      rw [beVal, Nat.pow_succ]
      omega

theorem beVal_congr {f g : Nat → Byte} {n : Nat} (h : ∀ j < n, f j = g j) :
    beVal f n = beVal g n := by
  induction n with
  | zero => rfl
  | succ n ih =>
      rw [beVal, beVal, ih fun j hj => h j (by omega), h n (Nat.lt_succ_self n)]

/-- The first byte is the most significant one. -/
theorem beVal_succ_left (f : Nat → Byte) (n : Nat) :
    beVal f (n + 1) = (f 0).toNat * 256 ^ n + beVal (fun j => f (j + 1)) n := by
  induction n with
  | zero => simp [beVal]
  | succ n ih =>
      rw [beVal, ih, beVal, Nat.pow_succ]
      ring

/-- The value determines the bytes. -/
theorem beVal_inj {f g : Nat → Byte} {n : Nat} (h : beVal f n = beVal g n) :
    ∀ j < n, f j = g j := by
  induction n with
  | zero => intro j hj; omega
  | succ n ih =>
      have hf := (f n).isLt
      have hg := (g n).isLt
      simp only [beVal] at h
      intro j hj
      rcases Nat.lt_succ_iff_lt_or_eq.mp hj with hj | rfl
      · exact ih (by omega) j hj
      · exact BitVec.eq_of_toNat_eq (by omega)

/-- Byte `j` of the `n`-byte big-endian encoding of `v`. -/
def beByte (v n j : Nat) : Byte := BitVec.ofNat 8 (v / 256 ^ (n - 1 - j))

theorem beByte_last (v n : Nat) : beByte v (n + 1) n = BitVec.ofNat 8 v := by
  simp [beByte]

theorem beByte_init (v : Nat) {n j : Nat} (hj : j < n) :
    beByte v (n + 1) j = beByte (v / 256) n j := by
  rw [beByte, beByte, Nat.div_div_eq_div_mul, ← Nat.pow_succ',
    show (n - 1 - j).succ = n + 1 - 1 - j by omega]

/-- Encoding loses what lies above `256 ^ n` and nothing else. -/
theorem beVal_beByte (v n : Nat) : beVal (beByte v n) n = v % 256 ^ n := by
  induction n generalizing v with
  | zero => simp [beVal, Nat.mod_one]
  | succ n ih =>
      have hinit : beVal (beByte v (n + 1)) n = beVal (beByte (v / 256) n) n :=
        beVal_congr fun j hj => beByte_init v hj
      rw [beVal, hinit, ih, beByte_last, BitVec.toNat_ofNat]
      rw [show 256 ^ (n + 1) = 256 * 256 ^ n from Nat.pow_succ', Nat.mod_mul]
      omega

/-- Numbers that agree modulo `256 ^ n` have the same encoding. -/
theorem beByte_congr {v w n : Nat} (h : v % 256 ^ n = w % 256 ^ n) :
    ∀ j < n, beByte v n j = beByte w n j :=
  beVal_inj (by rw [beVal_beByte, beVal_beByte, h])

theorem beByte_beVal (f : Nat → Byte) (n : Nat) : ∀ j < n, beByte (beVal f n) n j = f j :=
  beVal_inj (by rw [beVal_beByte, Nat.mod_eq_of_lt (beVal_lt f n)])

/-! ## Numbers inside arrays -/

/-- The number in the bytes `lo, …, lo + n - 1` of an array. -/
def window (a : Array Byte) (lo n : Nat) : Nat := beVal (fun j => a.getD (lo + j) 0) n

/-- The array with `v`, modulo `256 ^ n`, in the bytes `lo, …, lo + n - 1`. -/
def setWindow (a : Array Byte) (lo n v : Nat) : Array Byte :=
  a.mapIdx fun i b => if lo ≤ i ∧ i < lo + n then beByte v n (i - lo) else b

section Window

variable (a : Array Byte) (lo n : Nat)

@[simp] theorem size_setWindow (v : Nat) : (setWindow a lo n v).size = a.size := by
  simp [setWindow]

theorem getElem?_setWindow (v i : Nat) :
    (setWindow a lo n v)[i]? =
      a[i]?.map fun b => if lo ≤ i ∧ i < lo + n then beByte v n (i - lo) else b := by
  simp [setWindow]

theorem window_lt : window a lo n < 256 ^ n := beVal_lt _ n

theorem window_setWindow (h : lo + n ≤ a.size) (v : Nat) :
    window (setWindow a lo n v) lo n = v % 256 ^ n := by
  rw [← beVal_beByte, window]
  refine beVal_congr ?_
  intro j hj
  rw [Array.getD_eq_getD_getElem?, getElem?_setWindow, Array.getElem?_eq_getElem (by omega)]
  simp [hj]

/-- Writing the number that is there changes nothing. -/
theorem setWindow_window : setWindow a lo n (window a lo n) = a := by
  refine Array.ext_getElem? ?_
  intro i
  rw [getElem?_setWindow]
  by_cases hi : i < a.size
  · rw [Array.getElem?_eq_getElem hi, Option.map_some]
    split
    · rename_i hin
      rw [window, beByte_beVal _ _ _ (by omega), show lo + (i - lo) = i by omega]
      simp [hi]
    · rfl
  · simp [Array.getElem?_eq_none (Nat.le_of_not_lt hi)]

theorem setWindow_setWindow (v v' : Nat) :
    setWindow (setWindow a lo n v) lo n v' = setWindow a lo n v' := by
  refine Array.ext_getElem? ?_
  intro i
  rw [getElem?_setWindow, getElem?_setWindow, getElem?_setWindow, Option.map_map]
  refine congrArg (fun f => Option.map f a[i]?) (funext fun b => ?_)
  simp only [Function.comp_apply]
  split <;> rfl

theorem setWindow_congr {v v' : Nat} (h : v % 256 ^ n = v' % 256 ^ n) :
    setWindow a lo n v = setWindow a lo n v' := by
  refine Array.ext_getElem? ?_
  intro i
  rw [getElem?_setWindow, getElem?_setWindow]
  refine congrArg (fun f => Option.map f a[i]?) (funext fun b => ?_)
  split
  · exact beByte_congr h _ (by omega)
  · rfl

/-- Writing a number from its last byte on. -/
theorem setWindow_succ (h : lo + n < a.size) (v : Nat) :
    setWindow a lo (n + 1) v = setWindow (a.set (lo + n) (BitVec.ofNat 8 v)) lo n (v / 256) := by
  refine Array.ext_getElem? ?_
  intro i
  rw [getElem?_setWindow, getElem?_setWindow, Array.getElem?_set]
  rcases Nat.lt_trichotomy i (lo + n) with hi | rfl | hi
  · rw [if_neg (by omega)]
    refine congrArg (fun f => Option.map f a[i]?) (funext fun b => ?_)
    by_cases hlo : lo ≤ i
    · rw [if_pos ⟨hlo, by omega⟩, if_pos ⟨hlo, hi⟩, beByte_init v (by omega)]
    · rw [if_neg (by omega), if_neg (by omega)]
  · rw [if_pos rfl, Array.getElem?_eq_getElem h, Option.map_some, Option.map_some,
      if_pos ⟨Nat.le_add_right lo n, by omega⟩, if_neg (by omega), Nat.add_sub_cancel_left, beByte_last]
  · rw [if_neg (by omega)]
    refine congrArg (fun f => Option.map f a[i]?) (funext fun b => ?_)
    rw [if_neg (by omega), if_neg (by omega)]

/-- A number in an array, its last byte apart. -/
theorem window_succ (h : lo + n < a.size) :
    window a lo (n + 1) = 256 * window a lo n + a[lo + n].toNat := by
  rw [window, beVal, window]
  simp [h]

/-- A number in an array, its first byte apart. -/
theorem window_succ_left (h : lo < a.size) :
    window a lo (n + 1) = a[lo].toNat * 256 ^ n + window a (lo + 1) n := by
  have hrest : beVal (fun j => a.getD (lo + (j + 1)) 0) n = window a (lo + 1) n :=
    beVal_congr fun j _ => by rw [Nat.add_assoc lo 1, Nat.add_comm 1 j]
  rw [window, beVal_succ_left, hrest]
  simp [h]

theorem window_set (h : lo + n < a.size) (b : Byte) :
    window (a.set (lo + n) b) lo n = window a lo n := by
  refine beVal_congr ?_
  intro j hj
  rw [Array.getD_eq_getD_getElem?, Array.getD_eq_getD_getElem?, Array.getElem?_set,
    if_neg (by omega)]

/-- Adding one `k` times. -/
theorem iterate_setWindow_succ (h : lo + n ≤ a.size) (k : Nat) :
    (fun a => setWindow a lo n (window a lo n + 1))^[k] a
      = setWindow a lo n (window a lo n + k) := by
  induction k with
  | zero => exact (setWindow_window a lo n).symm
  | succ k ih =>
      rw [Function.iterate_succ_apply', ih, window_setWindow a lo n h, setWindow_setWindow]
      refine setWindow_congr a lo n ?_
      rw [Nat.mod_add_mod]
      rfl

end Window

end Words
