/-
# `Aes.KeyRecovery` — the key schedule can be run backwards

Word `i + 8` of the key schedule is word `i` XOR a function of word `i + 7`, which is the
situation of `Lib.Register`.  So any eight words in a row, such as two round keys of which one
follows the other, can be anything, and come from one key and no other
(`aesKeyExpansion_eightWords_bijective`): the last two round keys tell the secret key, and no pair of
round keys is impossible.
-/
import AeadPerf.Lib.Register
import AeadPerf.Aes.Refine

namespace AeadPerf.Aes

open Words Register
open Fips197 (KeyWord)

/-! ## The standard's schedule -/

/-- What is XORed into word `i` to give word `i + 8`, from word `i + 7`. -/
def mixedIn (i : Nat) (temp : KeyWord) : KeyWord :=
  if (i + 8) % 8 = 0 then fun j => Fips197.subWord (Fips197.rotWord temp) j ^^^ Fips197.rcon ((i + 8) / 8) j
  else if (i + 8) % 8 = 4 then Fips197.subWord temp
  else temp

theorem keyWord_add (key : Vector Byte 32) (i : Nat) :
    Fips197.keyWord key (i + 8) = fun j => Fips197.keyWord key i j ^^^ mixedIn i (Fips197.keyWord key (i + 7)) j := by
  rw [Fips197.keyWord.eq_1 key (i + 8), dif_neg (by omega)]
  rfl

theorem xorWord_bijective (b : KeyWord) : Function.Bijective fun (a : KeyWord) j => a j ^^^ b j := by
  refine Function.Involutive.bijective ?_
  intro a
  refine funext fun j => ?_
  have htwice : a j ^^^ b j ^^^ b j = a j := by
    rw [BitVec.xor_assoc, BitVec.xor_self, BitVec.xor_zero]
  exact htwice

/-- The first eight words are the key. -/
theorem firstWords_bijective :
    Function.Bijective fun key => contents (n := 6) (Fips197.keyWord key) 0 := by
  have hword : ∀ (key : Vector Byte 32) (j : Fin 8) (r : Fin 4),
      contents (n := 6) (Fips197.keyWord key) 0 j r = key[4 * j.val + r.val] := by
    intro key j r
    rw [contents, Nat.zero_add, Fips197.keyWord, dif_pos j.isLt]
  constructor
  · intro key key' heq
    refine Vector.ext ?_
    intro i hi
    have hbyte := congrFun (congrFun heq ⟨i / 4, by omega⟩) ⟨i % 4, by omega⟩
    dsimp only at hbyte
    rw [hword, hword] at hbyte
    simpa only [Nat.div_add_mod] using hbyte
  · intro s
    refine ⟨Vector.ofFn fun i => s ⟨i.val / 4, by omega⟩ ⟨i.val % 4, by omega⟩, ?_⟩
    refine funext fun j => funext fun r => (hword _ j r).trans ?_
    have hcol : (⟨(4 * j.val + r.val) / 4, by omega⟩ : Fin 8) = j := Fin.ext (by simp only; omega)
    have hrow : (⟨(4 * j.val + r.val) % 4, by omega⟩ : Fin 4) = r := Fin.ext (by simp only; omega)
    rw [Vector.getElem_ofFn, hcol, hrow]

/-! ## The code's -/

/-- The memory of a word. -/
def wordBytes (o : ByteOrder) (w : Word) : KeyWord := (o.bytes w).get

theorem wordBytes_bijective (o : ByteOrder) : Function.Bijective (wordBytes o) := by
  refine Function.bijective_iff_has_inverse.mpr ⟨fun v => o.word (Vector.ofFn v), ?_, ?_⟩
  · intro w
    have hbytes : Vector.ofFn (wordBytes o w) = o.bytes w := by
      refine Vector.ext ?_
      intro i hi
      rw [Vector.getElem_ofFn]
      rfl
    exact (congrArg o.word hbytes).trans (ByteOrder.word_bytes o w)
  · intro v
    rw [wordBytes, ByteOrder.bytes_word]
    exact funext fun j => get_ofFn v j

/-- The words of the code are in memory those of the standard. -/
theorem wordBytes_aesKeyExpansion (o : ByteOrder) (secretKey : Vector Byte 32) (keySchedule : KeySchedule)
    {i : Nat} (hi : i < 60) :
    wordBytes o (aesKeyExpansion o secretKey keySchedule)[i] = Fips197.keyWord secretKey i := by
  have hword : (aesKeyExpansion o secretKey keySchedule).toArray.getD i 0
      = (aesKeyExpansion o secretKey keySchedule)[i] := by
    simp [hi]
  rw [← scheduleBytes_aesKeyExpansion o secretKey keySchedule i hi, wordBytes, ← hword]
  rfl

/-- **The key schedule can be run backwards**: for every byte order and every place in the
schedule, each eight words come as the eight words from there on of exactly one key. -/
theorem aesKeyExpansion_eightWords_bijective (o : ByteOrder) (keySchedule : KeySchedule) (i : Fin 53) :
    Function.Bijective fun (secretKey : Vector Byte 32) (j : Fin 8) =>
      (aesKeyExpansion o secretKey keySchedule)[i.val + j.val] := by
  have hstandard : Function.Bijective fun key => contents (n := 6) (Fips197.keyWord key) i.val :=
    contents_bijective (f := fun i a b j => a j ^^^ mixedIn i b j) (fun i b => xorWord_bijective (mixedIn i b))
      (fun key i _ => keyWord_add key i) firstWords_bijective (Nat.le_of_lt_succ i.isLt)
  have hmemory : (fun key => contents (n := 6) (Fips197.keyWord key) i.val)
      = (fun (ws : Fin 8 → Word) j => wordBytes o (ws j)) ∘ fun secretKey j =>
          (aesKeyExpansion o secretKey keySchedule)[i.val + j.val] :=
    funext fun key => funext fun j => (wordBytes_aesKeyExpansion o key keySchedule (by omega)).symm
  rw [hmemory] at hstandard
  exact (Function.Bijective.of_comp_iff' (Function.Bijective.piMap fun _ => wordBytes_bijective o) _).mp hstandard

end AeadPerf.Aes
