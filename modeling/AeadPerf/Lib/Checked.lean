/-
# `Lib.Checked` — C loops over checked arrays and a checked `int`

A run of a C function over arrays and `int` variables either ends or stops at
one of two faults: an index outside its array, or an `int` expression whose
value no `int` holds.  `Run` is that outcome, and every array access and every
`int` expression of a model goes through a check that can produce the fault:

    load a i        a[i]                 outOfRange unless 0 ≤ i < size
    store a i v     a[i] = v             outOfRange unless 0 ≤ i < size
    int z           the value z          overflow unless INT_MIN ≤ z ≤ INT_MAX
    forLoop lo hi   for(i = lo; i < hi; i++)     i++ is checked too
    doLoop i hi     do … while(++i < hi)         ++i is checked too

Output arrays are `Sink`s: the bytes, and beside them the list of the indices
stored to so far, in order.  The list is never read back, it only records.

## The rules

A loop is used through `forLoop_inv`: an invariant that holds at `lo` and that
one pass of the body carries from `i` to `i + 1` holds at `hi`, and the loop
does not stop at a fault.  The invariant may be an equation, which then says
what the loop computes.

`Sink.xored` is the effect every encryption loop has on its output: positions
`lo ≤ i < hi` receive the input XOR a keystream byte, the rest is unchanged and
the log grows by `lo, …, hi - 1`.  Adjacent ranges compose
(`Sink.xored_append`), so loops that partition a message need no other fact
about arrays.
-/
import Mathlib.Data.List.Range
import Mathlib.Tactic.Ring

namespace Checked

variable {α σ : Type}

/-! ## Faults and checked `int` -/

/-- Why a run stops before its end. -/
inductive Fault where
  | outOfRange (index : Int) (size : Nat)
  | overflow (value : Int)
  deriving DecidableEq, Repr

/-- The outcome of a run. -/
abbrev Run := Except Fault

@[simp] theorem ok_bind {α β : Type} (a : α) (f : α → Run β) :
    ((.ok a : Run α) >>= f) = f a := rfl

@[simp] theorem error_bind {α β : Type} (e : Fault) (f : α → Run β) :
    ((.error e : Run α) >>= f) = .error e := rfl

@[simp] theorem pure_eq_ok (a : α) : (pure a : Run α) = .ok a := rfl

def intMin : Int := -2147483648

def intMax : Int := 2147483647

/-- A value of C's `int`; the bounds travel with it. -/
abbrev CInt := {z : Int // intMin ≤ z ∧ z ≤ intMax}

/-- The value `z` of an `int` expression. -/
def int (z : Int) : Run Int :=
  if intMin ≤ z ∧ z ≤ intMax then .ok z else .error (.overflow z)

theorem int_ok {z : Int} (h₁ : intMin ≤ z) (h₂ : z ≤ intMax) : int z = .ok z :=
  if_pos ⟨h₁, h₂⟩

theorem int_ok_of_nonneg {z : Int} (h₁ : 0 ≤ z) (h₂ : z ≤ intMax) : int z = .ok z :=
  int_ok (by simp only [intMin]; omega) h₂

/-! ## Arrays -/

/-- `a[i]`. -/
def load (a : Array α) (i : Int) : Run α :=
  if h : 0 ≤ i ∧ i.toNat < a.size then .ok a[i.toNat] else .error (.outOfRange i a.size)

/-- `a[i] = v`. -/
def store (a : Array α) (i : Int) (v : α) : Run (Array α) :=
  if h : 0 ≤ i ∧ i.toNat < a.size then .ok (a.set i.toNat v) else .error (.outOfRange i a.size)

theorem load_ok {a : Array α} {i : Nat} (h : i < a.size) : load a i = .ok a[i] := by
  simp [load, h]

theorem store_ok {a : Array α} {i : Nat} (h : i < a.size) (v : α) :
    store a i v = .ok (a.set i v) := by
  simp [store, h]

/-- The first `n` elements of `a`, as `memcpy` reads them. -/
def copyIn (a : Array α) (n : Nat) : Run (Vector α n) :=
  if h : n ≤ a.size then .ok (Vector.ofFn fun i => a[i]) else .error (.outOfRange a.size a.size)

theorem copyIn_ok {a : Array α} {n : Nat} (h : n ≤ a.size) :
    copyIn a n = .ok (Vector.ofFn fun i => a[i]) :=
  dif_pos h

/-! ## The `for` loop -/

/-- `n` passes of a loop body, the loop variable starting at `i`. -/
def iterate (body : Int → σ → Run σ) : Nat → Int → σ → Run σ
  | 0, _, s => .ok s
  | n + 1, i, s => do
      let s ← body i s
      let i ← int (i + 1)
      iterate body n i s

/-- `for(int i = lo; i < hi; i++) body`. -/
def forLoop (lo hi : Int) (body : Int → σ → Run σ) (s : σ) : Run σ :=
  iterate body (hi - lo).toNat lo s

/-- The loop test decides between leaving and one pass followed by the loop
from the next value. -/
theorem forLoop_unfold (lo hi : Int) (body : Int → σ → Run σ) (s : σ) :
    forLoop lo hi body s =
      if lo < hi then do
        let s ← body lo s
        let i ← int (lo + 1)
        forLoop i hi body s
      else .ok s := by
  by_cases h : lo < hi
  · obtain ⟨n, hn⟩ : ∃ n : Nat, (hi - lo).toNat = n + 1 := ⟨(hi - lo).toNat - 1, by omega⟩
    simp only [forLoop, hn, iterate, if_pos h]
    cases body lo s with
    | error e => rfl
    | ok s' =>
        simp only [ok_bind, int]
        split
        · have : (hi - (lo + 1)).toNat = n := by omega
          simp [this]
        · rfl
  · have : (hi - lo).toNat = 0 := by omega
    simp [forLoop, this, iterate, h]

theorem forLoop_done {lo hi : Int} (h : hi ≤ lo) (body : Int → σ → Run σ) (s : σ) :
    forLoop lo hi body s = .ok s := by
  rw [forLoop_unfold, if_neg (by omega)]

/-- The invariant rule, on the number of passes left. -/
theorem iterate_inv {body : Int → σ → Run σ} (Inv : Nat → σ → Prop) (n i : Nat) (s : σ)
    (hmax : ((i + n : Nat) : Int) ≤ intMax)
    (hstep : ∀ j t, i ≤ j → j < i + n → Inv j t → ∃ t', body j t = .ok t' ∧ Inv (j + 1) t')
    (h₀ : Inv i s) : ∃ s', iterate body n i s = .ok s' ∧ Inv (i + n) s' := by
  induction n generalizing i s with
  | zero => exact ⟨s, rfl, h₀⟩
  | succ n ih =>
      obtain ⟨t, ht, hinv⟩ := hstep i s le_rfl (by omega) h₀
      obtain ⟨s', hs', hinv'⟩ := ih (i + 1) t (by omega)
        (fun j u h₁ h₂ => hstep j u (by omega) (by omega)) hinv
      have hnext : int ((i : Int) + 1) = .ok ((i + 1 : Nat) : Int) :=
        int_ok_of_nonneg (by omega) (by omega)
      refine ⟨s', ?_, by rwa [show i + (n + 1) = i + 1 + n by omega]⟩
      simp only [iterate, ht, ok_bind, hnext, hs']

/-- **The invariant rule.**  What holds at `lo` and is carried by every pass
holds at `hi`, and the loop ends without a fault. -/
theorem forLoop_inv {lo hi : Nat} {body : Int → σ → Run σ} (Inv : Nat → σ → Prop) {s : σ}
    (hle : lo ≤ hi) (hmax : (hi : Int) ≤ intMax) (h₀ : Inv lo s)
    (hstep : ∀ j t, lo ≤ j → j < hi → Inv j t → ∃ t', body j t = .ok t' ∧ Inv (j + 1) t') :
    ∃ s', forLoop lo hi body s = .ok s' ∧ Inv hi s' := by
  have hn : ((hi : Int) - (lo : Int)).toNat = hi - lo := by omega
  obtain ⟨s', hs', hinv⟩ := iterate_inv Inv (hi - lo) lo s (by omega)
    (fun j t h₁ h₂ => hstep j t h₁ (by omega)) h₀
  exact ⟨s', by rw [forLoop, hn, hs'], by rwa [show lo + (hi - lo) = hi by omega] at hinv⟩

/-- The rule for an invariant that is an equation: the state at `j` is `f j`. -/
theorem forLoop_eq {lo hi : Nat} {body : Int → σ → Run σ} {s : σ} (f : Nat → σ)
    (hle : lo ≤ hi) (hmax : (hi : Int) ≤ intMax) (h₀ : s = f lo)
    (hstep : ∀ j : Nat, lo ≤ j → j < hi → body j (f j) = .ok (f (j + 1))) :
    forLoop lo hi body s = .ok (f hi) := by
  obtain ⟨s', hs', rfl⟩ := forLoop_inv (fun j t => t = f j) hle hmax h₀
    (fun j t h₁ h₂ ht => ⟨_, ht ▸ hstep j h₁ h₂, rfl⟩)
  exact hs'

/-- The invariant rule for a loop whose bound is a constant, as a fold over `Fin n`. -/
theorem foldl_inv {n : Nat} {body : σ → Fin n → σ} (Inv : Nat → σ → Prop) {s : σ} (h₀ : Inv 0 s)
    (hstep : ∀ (i : Fin n) (t : σ), Inv i.val t → Inv (i.val + 1) (body t i)) :
    Inv n (Fin.foldl n body s) := by
  induction n with
  | zero => rwa [Fin.foldl_zero]
  | succ n ih =>
      rw [Fin.foldl_succ_last]
      exact hstep (Fin.last n) _ (ih fun i t ht => hstep i.castSucc t ht)

/-! ## The `do` loop -/

/-- `do body while(++i < hi);`: the first pass is made without a test, the others are those
of a `for` loop from `i + 1` on. -/
def doLoop (i hi : Int) (body : σ → Run σ) (s : σ) : Run σ := do
  let s ← body s
  let i ← int (i + 1)
  forLoop i hi (fun _ => body) s

/-- One pass, then the test decides between the loop from the next value and leaving. -/
theorem doLoop_unfold (i hi : Int) (body : σ → Run σ) (s : σ) :
    doLoop i hi body s = (do
      let s ← body s
      let i ← int (i + 1)
      if i < hi then doLoop i hi body s else .ok s) := by
  refine bind_congr fun t => bind_congr fun j => ?_
  exact forLoop_unfold j hi (fun _ => body) t

/-- The rule for an invariant that is an equation.  A pass is made even if `hi ≤ i`. -/
theorem doLoop_eq {i hi : Nat} {body : σ → Run σ} {s : σ} (f : Nat → σ) (hnext : ((i + 1 : Nat) : Int) ≤ intMax)
    (hmax : (hi : Int) ≤ intMax) (h₀ : s = f i) (hstep : ∀ j, i ≤ j → body (f j) = .ok (f (j + 1))) :
    doLoop i hi body s = .ok (f (max (i + 1) hi)) := by
  -- by induction on the passes that are left
  induction hn : hi - i generalizing i s with
  | zero =>
      have hdone : ¬ ((i + 1 : Nat) : Int) < hi := by omega
      have hint : int ((i : Int) + 1) = .ok ((i + 1 : Nat) : Int) := int_ok_of_nonneg (by omega) hnext
      rw [doLoop_unfold, h₀, hstep i le_rfl, ok_bind, hint, ok_bind, if_neg hdone,
        Nat.max_eq_left (by omega)]
  | succ n ih =>
      have hint : int ((i : Int) + 1) = .ok ((i + 1 : Nat) : Int) := int_ok_of_nonneg (by omega) hnext
      rw [doLoop_unfold, h₀, hstep i le_rfl, ok_bind, hint, ok_bind]
      rcases Nat.lt_or_ge (i + 1) hi with hlt | hge
      · have hrest := ih (i := i + 1) (s := f (i + 1)) (by omega) rfl (fun j hj => hstep j (by omega))
          (by omega)
        rw [if_pos (Int.ofNat_lt.mpr hlt), hrest, Nat.max_eq_right hlt, Nat.max_eq_right hlt.le]
      · rw [if_neg (by omega), Nat.max_eq_left hge]

/-! ## Output arrays -/

/-- An output array of bytes and the indices stored to, in order. -/
structure Sink where
  bytes : Array (BitVec 8)
  written : List Nat
  deriving Repr, DecidableEq

/-- An output array nothing has been stored to. -/
def Sink.fresh (bytes : Array (BitVec 8)) : Sink := ⟨bytes, []⟩

/-- `out[i] = v`. -/
def Sink.store (out : Sink) (i : Int) (v : BitVec 8) : Run Sink := do
  let bytes ← Checked.store out.bytes i v
  pure ⟨bytes, out.written ++ [i.toNat]⟩

/-- Positions `lo ≤ i < hi` receive `inp[i] ^ K i`; the rest is unchanged. -/
def Sink.xored (out : Sink) (inp : Array (BitVec 8)) (K : Nat → BitVec 8) (lo hi : Nat) : Sink where
  bytes := out.bytes.mapIdx fun i b => if lo ≤ i ∧ i < hi then inp.getD i 0 ^^^ K i else b
  written := out.written ++ List.range' lo (hi - lo)

section Xored

variable (out : Sink) (inp : Array (BitVec 8)) (K : Nat → BitVec 8)

@[simp] theorem Sink.size_xored (lo hi : Nat) :
    (out.xored inp K lo hi).bytes.size = out.bytes.size := by
  simp [Sink.xored]

theorem Sink.getElem?_xored (lo hi i : Nat) :
    (out.xored inp K lo hi).bytes[i]? =
      out.bytes[i]?.map fun b => if lo ≤ i ∧ i < hi then inp.getD i 0 ^^^ K i else b := by
  simp [Sink.xored]

/-- Positions in the range hold the input XOR the keystream. -/
theorem Sink.getElem?_xored_mem {lo hi i : Nat} (h₁ : lo ≤ i) (h₂ : i < hi)
    (h : i < out.bytes.size) :
    (out.xored inp K lo hi).bytes[i]? = some (inp.getD i 0 ^^^ K i) := by
  rw [Sink.getElem?_xored, Array.getElem?_eq_getElem h, Option.map_some, if_pos ⟨h₁, h₂⟩]

/-- Positions outside the range are left alone. -/
theorem Sink.getElem?_xored_of_not {lo hi i : Nat} (h : ¬ (lo ≤ i ∧ i < hi)) :
    (out.xored inp K lo hi).bytes[i]? = out.bytes[i]? := by
  simp [Sink.getElem?_xored, h]

theorem Sink.xored_self (lo : Nat) : out.xored inp K lo lo = out := by
  obtain ⟨bytes, written⟩ := out
  simp only [Sink.xored, show ∀ i, ¬ (lo ≤ i ∧ i < lo) by omega, if_false, Nat.sub_self,
    List.range'_zero, List.append_nil, Sink.mk.injEq, and_true]
  exact Array.ext_getElem? fun i => by simp

/-- Adjacent ranges compose. -/
theorem Sink.xored_append {lo mid hi : Nat} (h₁ : lo ≤ mid) (h₂ : mid ≤ hi) :
    (out.xored inp K lo mid).xored inp K mid hi = out.xored inp K lo hi := by
  simp only [Sink.xored, Sink.mk.injEq]
  constructor
  · rw [Array.mapIdx_mapIdx, Array.mapIdx_eq_mapIdx_iff]
    intro i _
    simp only [Function.comp_apply]
    by_cases hm : i < mid <;> by_cases hl : lo ≤ i <;> by_cases hh : i < hi <;>
      simp [hm, hl, hh] <;> omega
  · have hsplit := List.range'_append_1 (s := lo) (m := mid - lo) (n := hi - mid)
    rw [show lo + (mid - lo) = mid by omega, show mid - lo + (hi - mid) = hi - lo by omega] at hsplit
    rw [List.append_assoc, hsplit]

/-- Storing the byte of one position extends the range by it. -/
theorem Sink.store_xored {lo j : Nat} (h : lo ≤ j) (hj : j < out.bytes.size) {v : BitVec 8}
    (hv : v = inp.getD j 0 ^^^ K j) :
    (out.xored inp K lo j).store j v = .ok (out.xored inp K lo (j + 1)) := by
  rw [← Sink.xored_append out inp K h (show j ≤ j + 1 by omega)]
  simp only [Sink.store, store_ok (a := (out.xored inp K lo j).bytes) (by simpa using hj) v,
    ok_bind, pure_eq_ok, Int.toNat_natCast]
  congr 1
  have hrest : List.range' j (j + 1 - j) = [j] := by simp
  rw [Sink.mk.injEq, show ((out.xored inp K lo j).xored inp K j (j + 1)).written
    = (out.xored inp K lo j).written ++ List.range' j (j + 1 - j) from rfl, hrest]
  refine ⟨Array.ext_getElem? fun i => ?_, rfl⟩
  rw [Array.getElem?_set]
  by_cases hi : i = j
  · subst hi
    rw [Sink.getElem?_xored_mem _ inp K le_rfl (Nat.lt_succ_self i) (by simpa using hj)]
    simp [hv]
  · rw [if_neg (Ne.symm hi)]
    exact (Sink.getElem?_xored_of_not _ inp K (by omega)).symm

end Xored

end Checked
