/-
# `Tests.Hex` — bytes written in hexadecimal

The tests keep their vectors as strings, which `hex_to_bytes` of `tests/common.h` reads, and print
bytes with `%02x`.

    hex_to_bytes    two characters a byte, `ahex2int`; nothing is checked
    %02x            two characters a byte, lower case

What is printed reads back, and what is read and was written in hexadecimal digits of either case
prints back in lower case (`hexToBytes_roundTrip`).  A string of odd length is read up to and with
the null character that ends it, as a digit of value `-48`.
-/
import AeadPerf.Lib.Checked
import AeadPerf.Lib.Words

namespace AeadPerf.Tests

open Words Checked

/-! ## The code -/

/-- `(a <= '9') ? a - '0' : (a & 0x7) + 9`, where `char` is signed. -/
def hexValue (a : Byte) : Byte := if a.sle 0x39 then a - 0x30 else (a &&& 0x7) + 9

/-- `ahex2int`; a shift of a negative `char` is what gcc makes of it, `-1 << 4` is `-16`. -/
def ahex2int (a b : Byte) : Byte := (hexValue a <<< 4) + hexValue b

/-- The loop of `hex_to_bytes`. -/
def hexLoop (hex : Array Byte) (strLen i j : Nat) (bytes : Array Byte) : Run (Array Byte) :=
  if j < strLen then do
    let a ← load hex j
    let b ← load hex (j + 1 : Nat)
    let bytes ← store bytes i (ahex2int a b)
    hexLoop hex strLen (i + 1) (j + 2) bytes
  else pure bytes
termination_by strLen - j

/-- `hex_to_bytes`. -/
def hexToBytes (hex bytes : Array Byte) (strLen : Nat) : Run (Array Byte) := hexLoop hex strLen 0 0 bytes

/-- A digit of `%x`. -/
def hexDigit (v : Byte) : Byte := if v < 10 then 0x30 + v else 0x57 + v

/-- `%02x` of a byte. -/
def hex02 (b : Byte) : List Byte := [hexDigit (b >>> 4), hexDigit (b &&& 0xf)]

/-- `%02x` of one byte after the other. -/
def hexText (bs : List Byte) : List Byte := bs.flatMap hex02

/-! ## Characters -/

/-- `0` to `9`, `a` to `f` and `A` to `F`. -/
def IsHex (c : Byte) : Prop := (0x30 ≤ c ∧ c ≤ 0x39) ∨ (0x61 ≤ c ∧ c ≤ 0x66) ∨ (0x41 ≤ c ∧ c ≤ 0x46)

instance (c : Byte) : Decidable (IsHex c) := inferInstanceAs (Decidable (_ ∨ _))

/-- `tolower`. -/
def lower (c : Byte) : Byte := if 0x41 ≤ c ∧ c ≤ 0x5a then c + 0x20 else c

theorem ahex2int_hex02 : ∀ b : Byte, ahex2int (hexDigit (b >>> 4)) (hexDigit (b &&& 0xf)) = b := by
  decide +kernel

theorem hexValue_lt : ∀ c : Byte, IsHex c → hexValue c < 16 := by decide +kernel

theorem hexDigit_hexValue : ∀ c : Byte, IsHex c → hexDigit (hexValue c) = lower c := by decide +kernel

/-- The two digits of a number below 256. -/
theorem shiftRight_and {x y : Byte} (hx : x < 16) (hy : y < 16) :
    ((x <<< 4) + y) >>> 4 = x ∧ ((x <<< 4) + y) &&& 0xf = y := by
  have hx' : x.toNat < 16 := hx
  have hy' : y.toNat < 16 := hy
  have hmask : (0xf : Byte).toNat = 2 ^ 4 - 1 := rfl
  constructor
  · refine BitVec.eq_of_toNat_eq ?_
    rw [BitVec.toNat_ushiftRight, BitVec.toNat_add, BitVec.toNat_shiftLeft, Nat.shiftLeft_eq,
      Nat.shiftRight_eq_div_pow]
    omega
  · refine BitVec.eq_of_toNat_eq ?_
    rw [BitVec.toNat_and, hmask, Nat.and_two_pow_sub_one_eq_mod, BitVec.toNat_add, BitVec.toNat_shiftLeft,
      Nat.shiftLeft_eq]
    omega

theorem hex02_ahex2int {a b : Byte} (ha : IsHex a) (hb : IsHex b) :
    hex02 (ahex2int a b) = [lower a, lower b] := by
  obtain ⟨hhigh, hlow⟩ := shiftRight_and (hexValue_lt a ha) (hexValue_lt b hb)
  rw [hex02, ahex2int, hhigh, hlow, hexDigit_hexValue a ha, hexDigit_hexValue b hb]

/-! ## Strings -/

/-- The bytes that a string stands for; behind it is a null character. -/
def readPairs : List Byte → List Byte
  | [] => []
  | [a] => [ahex2int a 0]
  | a :: b :: rest => ahex2int a b :: readPairs rest

theorem length_readPairs (text : List Byte) : (readPairs text).length = (text.length + 1) / 2 := by
  induction text using readPairs.induct with
  | case1 => rfl
  | case2 a => simp [readPairs]
  | case3 a b rest ih =>
      rw [readPairs, List.length_cons, ih, List.length_cons, List.length_cons]
      omega

theorem length_hexText (bs : List Byte) : (hexText bs).length = 2 * bs.length := by
  induction bs with
  | nil => rfl
  | cons b bs ih =>
      have hcons : (hexText (b :: bs)).length = 2 + (hexText bs).length := List.length_append
      rw [hcons, ih, List.length_cons]
      omega

theorem readPairs_hexText (bs : List Byte) : readPairs (hexText bs) = bs := by
  induction bs with
  | nil => rfl
  | cons b bs ih =>
      calc readPairs (hexText (b :: bs))
          = ahex2int (hexDigit (b >>> 4)) (hexDigit (b &&& 0xf)) :: readPairs (hexText bs) := rfl
        _ = b :: bs := by rw [ahex2int_hex02, ih]

theorem hexText_readPairs {text : List Byte} (hhex : ∀ c ∈ text, IsHex c) (heven : 2 ∣ text.length) :
    hexText (readPairs text) = text.map lower := by
  induction text using readPairs.induct with
  | case1 => rfl
  | case2 a =>
      rw [List.length_singleton] at heven
      exact absurd heven (by decide)
  | case3 a b rest ih =>
      have hrest := ih (fun c hc => hhex c (List.mem_cons_of_mem a (List.mem_cons_of_mem b hc)))
        ((Nat.dvd_add_left (dvd_refl 2)).mp heven)
      have hpair := hex02_ahex2int (hhex a List.mem_cons_self) (hhex b (List.mem_cons_of_mem a List.mem_cons_self))
      calc hexText (readPairs (a :: b :: rest))
          = hex02 (ahex2int a b) ++ hexText (readPairs rest) := rfl
        _ = (a :: b :: rest).map lower := by
          rw [hpair, hrest]
          rfl

/-! ## The loop -/

theorem load_append (init rest : List Byte) (c : Byte) :
    load (init ++ c :: rest).toArray init.length = .ok c := by
  rw [load_ok (by simp)]
  simp

theorem store_append (init rest : List Byte) (c v : Byte) :
    store (init ++ c :: rest).toArray init.length v = .ok (init ++ v :: rest).toArray := by
  rw [store_ok (by simp)]
  simp

/-- One pass: two characters read, one byte written. -/
theorem hexLoop_pass (read rest done old : List Byte) (a b c : Byte) {strLen : Nat} (hlt : read.length < strLen) :
    hexLoop (read ++ a :: b :: rest).toArray strLen done.length read.length (done ++ c :: old).toArray
      = hexLoop (read ++ a :: b :: rest).toArray strLen (done.length + 1) (read.length + 2)
          (done ++ ahex2int a b :: old).toArray := by
  have hsecond : load (read ++ a :: b :: rest).toArray (read.length + 1 : Nat) = .ok b := by
    have hload := load_append (read ++ [a]) rest b
    simpa using hload
  rw [hexLoop, if_pos hlt, load_append, ok_bind, hsecond, ok_bind, store_append, ok_bind]

theorem hexLoop_end (hex bytes : Array Byte) {strLen i j : Nat} (hge : strLen ≤ j) :
    hexLoop hex strLen i j bytes = .ok bytes := by
  rw [hexLoop, if_neg (Nat.not_lt.mpr hge), pure_eq_ok]

/-- The loop, after it has read `read` and written `done`. -/
theorem hexLoop_eq (read text tail done old : List Byte) (hroom : (text.length + 1) / 2 ≤ old.length) :
    hexLoop (read ++ text ++ 0 :: tail).toArray (read.length + text.length) done.length read.length
        (done ++ old).toArray
      = .ok (done ++ readPairs text ++ old.drop ((text.length + 1) / 2)).toArray := by
  induction text using readPairs.induct generalizing read done old with
  | case1 =>
      rw [hexLoop_end _ _ (by simp)]
      simp [readPairs]
  | case2 a =>
      cases old with
      | nil => simp at hroom
      | cons c old =>
          have hpass := hexLoop_pass read tail done old a 0 c (show read.length < read.length + 1 by omega)
          have hend := hexLoop_end (read ++ a :: 0 :: tail).toArray (done ++ ahex2int a 0 :: old).toArray
            (i := done.length + 1) (show read.length + 1 ≤ read.length + 2 by omega)
          simpa [readPairs] using hpass.trans hend
  | case3 a b text ih =>
      cases old with
      | nil =>
          rw [List.length_nil, List.length_cons] at hroom
          omega
      | cons c old =>
          have hcount : ((a :: b :: text).length + 1) / 2 = (text.length + 1) / 2 + 1 := by
            rw [List.length_cons, List.length_cons]
            omega
          rw [hcount, List.length_cons] at hroom
          have hpass := hexLoop_pass read (text ++ 0 :: tail) done old a b c
            (show read.length < read.length + (a :: b :: text).length by simp)
          have hrest := ih (read ++ [a, b]) (done ++ [ahex2int a b]) old (by omega)
          have hhex : read ++ [a, b] ++ text ++ 0 :: tail = read ++ a :: b :: (text ++ 0 :: tail) := by simp
          have hlen : (read ++ [a, b]).length + text.length = read.length + (a :: b :: text).length := by
            simp only [List.length_append, List.length_cons, List.length_nil]
            omega
          have hread : (read ++ [a, b]).length = read.length + 2 := by simp
          have hdone : (done ++ [ahex2int a b]).length = done.length + 1 := by simp
          have hwritten : ∀ t : List Byte, done ++ [ahex2int a b] ++ t = done ++ ahex2int a b :: t := by simp
          rw [hhex, hlen, hread, hdone, hwritten, hwritten] at hrest
          rw [List.append_assoc read, List.cons_append, List.cons_append, hpass, hrest, hcount, readPairs,
            List.drop_succ_cons]

/-- **`hex_to_bytes`** on any string: the bytes that it stands for, and behind them what was there. -/
theorem hexToBytes_eq (text tail old : List Byte) (hroom : (text.length + 1) / 2 ≤ old.length) :
    hexToBytes (text ++ 0 :: tail).toArray old.toArray text.length
      = .ok (readPairs text ++ old.drop ((text.length + 1) / 2)).toArray := by
  have hloop := hexLoop_eq [] text tail [] old hroom
  simpa [hexToBytes] using hloop

/-- **Printed and read**: what `%02x` prints of some bytes, `hex_to_bytes` reads as these bytes; what
it reads from digits of either case, `%02x` prints as these digits in lower case; and a string of
any length and any characters is read without a fault, with one byte for two characters begun. -/
theorem hexToBytes_roundTrip :
    (∀ bs tail old : List Byte, bs.length ≤ old.length →
        hexToBytes (hexText bs ++ 0 :: tail).toArray old.toArray (hexText bs).length
          = .ok (bs ++ old.drop bs.length).toArray)
      ∧ (∀ text tail old : List Byte, (∀ c ∈ text, IsHex c) → 2 ∣ text.length →
          (text.length + 1) / 2 ≤ old.length →
          ∃ bs, hexToBytes (text ++ 0 :: tail).toArray old.toArray text.length
              = .ok (bs ++ old.drop bs.length).toArray ∧ hexText bs = text.map lower)
      ∧ (∀ text tail old : List Byte, (text.length + 1) / 2 ≤ old.length →
          ∃ bs, hexToBytes (text ++ 0 :: tail).toArray old.toArray text.length
              = .ok (bs ++ old.drop bs.length).toArray ∧ bs.length = (text.length + 1) / 2) := by
  refine ⟨?_, ?_, ?_⟩
  · intro bs tail old hroom
    have hcount : ((hexText bs).length + 1) / 2 = bs.length := by
      rw [length_hexText]
      omega
    have hread := hexToBytes_eq (hexText bs) tail old (hcount.trans_le hroom)
    rwa [readPairs_hexText, hcount] at hread
  · intro text tail old hhex heven hroom
    have hread := hexToBytes_eq text tail old hroom
    rw [← length_readPairs] at hread
    exact ⟨readPairs text, hread, hexText_readPairs hhex heven⟩
  · intro text tail old hroom
    have hread := hexToBytes_eq text tail old hroom
    rw [← length_readPairs] at hread
    exact ⟨readPairs text, hread, length_readPairs text⟩

end AeadPerf.Tests
