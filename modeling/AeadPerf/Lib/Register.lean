/-
# `Lib.Register` — sequences that can be run backwards

A register of `n + 2` places drops its first entry and takes in one computed from that and from
its last.  Over time it holds all entries of a sequence with

    w (i + n + 2)  =  f i (w i) (w (i + n + 1))

Where `f i · b` is a bijection, so is a step of the register (`shift_bijective`): the entry that
was dropped can be had from the one taken in and the one before it.  If at first the register can
hold anything, and tells what the sequence was made from, it does so at every time
(`contents_bijective`).
-/
import Mathlib.Data.Fin.Tuple.Basic
import Mathlib.Logic.Function.Basic

namespace Register

variable {κ W : Type} {n : Nat}

/-- The next contents. -/
def shift (f : W → W → W) (s : Fin (n + 2) → W) : Fin (n + 2) → W :=
  @Fin.snoc (n + 1) (fun _ => W) (Fin.tail s) (f (s 0) (s (Fin.last (n + 1))))

theorem shift_last (f : W → W → W) (s : Fin (n + 2) → W) :
    shift f s (Fin.last (n + 1)) = f (s 0) (s (Fin.last (n + 1))) :=
  Fin.snoc_last ..

theorem init_shift (f : W → W → W) (s : Fin (n + 2) → W) : Fin.init (shift f s) = Fin.tail s :=
  Fin.init_snoc ..

theorem tail_last (s : Fin (n + 2) → W) : Fin.tail s (Fin.last n) = s (Fin.last (n + 1)) := by
  rw [Fin.tail, Fin.succ_last]

theorem shift_bijective {f : W → W → W} (hf : ∀ b, Function.Bijective fun a => f a b) :
    Function.Bijective (shift (n := n) f) := by
  constructor
  · intro s s' heq
    have htail : Fin.tail s = Fin.tail s' := by rw [← init_shift f s, heq, init_shift]
    have hlast : s (Fin.last (n + 1)) = s' (Fin.last (n + 1)) := by
      rw [← tail_last s, htail, tail_last]
    have hnew : f (s 0) (s (Fin.last (n + 1))) = f (s' 0) (s (Fin.last (n + 1))) := by
      rw [← shift_last f s, heq, shift_last, hlast]
    have hfirst : s 0 = s' 0 := (hf _).injective hnew
    rw [← Fin.cons_self_tail s, hfirst, htail, Fin.cons_self_tail]
  · intro t
    obtain ⟨a, ha⟩ : ∃ a, f a (Fin.init t (Fin.last n)) = t (Fin.last (n + 1)) :=
      (hf (Fin.init t (Fin.last n))).surjective (t (Fin.last (n + 1)))
    refine ⟨@Fin.cons (n + 1) (fun _ => W) a (Fin.init t), ?_⟩
    have hlast : @Fin.cons (n + 1) (fun _ => W) a (Fin.init t) (Fin.last (n + 1)) = Fin.init t (Fin.last n) := by
      rw [← Fin.succ_last, Fin.cons_succ]
    rw [shift, Fin.tail_cons, Fin.cons_zero, hlast, ha, Fin.snoc_init_self]

/-- What the register holds at time `i`. -/
def contents (w : Nat → W) (i : Nat) (j : Fin (n + 2)) : W := w (i + j.val)

theorem contents_succ {w : Nat → W} {f : W → W → W} {i : Nat}
    (hnext : w (i + n + 2) = f (w i) (w (i + n + 1))) :
    contents (n := n) w (i + 1) = shift f (contents w i) := by
  refine funext fun j => ?_
  cases j using Fin.lastCases with
  | last =>
      have hindex : i + 1 + (n + 1) = i + n + 2 := by omega
      rw [shift_last, contents, Fin.val_last, hindex]
      exact hnext
  | cast j =>
      have hcast : shift f (contents w i) j.castSucc = Fin.init (shift f (contents w i)) j := rfl
      have hindex : i + 1 + j.val = i + (j.val + 1) := by omega
      rw [hcast, init_shift]
      exact congrArg w hindex

/-- **The register**: where it is at first as good as the key `k`, it always is. -/
theorem contents_bijective {w : κ → Nat → W} {f : Nat → W → W → W} {last : Nat}
    (hf : ∀ i b, Function.Bijective fun a => f i a b)
    (hnext : ∀ k i, i < last → w k (i + n + 2) = f i (w k i) (w k (i + n + 1)))
    (hfirst : Function.Bijective fun k => contents (n := n) (w k) 0) {i : Nat} (hi : i ≤ last) :
    Function.Bijective fun k => contents (n := n) (w k) i := by
  induction i with
  | zero => exact hfirst
  | succ i ih =>
      have hshift : (fun k => contents (n := n) (w k) (i + 1)) = shift (f i) ∘ fun k => contents (w k) i :=
        funext fun k => contents_succ (hnext k i hi)
      rw [hshift]
      exact (shift_bijective (hf i)).comp (ih (Nat.le_of_succ_le hi))

end Register
