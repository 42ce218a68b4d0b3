/-
# `Bench.Timer` — what `measure_time` divides by

`measure_time` of `bench_timer.h` makes `ignore_iter` calls to warm up, reads the clock,
makes the calls to be timed, and reads the clock again.  Both loops count with the same `i`,
which is not set back between them:

    for(i = 0; i < ignore_iter; i++) function(args);
    start = get_start_time();
    do function(args); while(++i < iterations);
    end = get_end_time();
    return (end - start) / iterations;

So `max 1 (iterations - ignore_iter)` calls are timed (`timedCalls`), whereas the divisor is
`iterations`.  The result is the cost of one call, for every function and every clock,
exactly if there is no warm-up or only one iteration (`measureTime_reports_iff`).

The function and the clocks may read and change anything (the `world`), the time included.
The trace is never read, it only records the calls and the two readings.
-/
import AeadPerf.Lib.Checked

namespace AeadPerf.Bench

open Checked

/-! ## The code -/

/-- A call of `function`, or a clock reading. -/
inductive Event where
  | call
  | started (start : BitVec 64)
  | ended (stop : BitVec 64)
  deriving DecidableEq, Repr

/-- What the callbacks work on, and what has been called so far. -/
structure Machine (W : Type) where
  world : W
  trace : List Event
  deriving Repr

section Code

variable {W A : Type}

/-- `function(args);` -/
def Machine.call (function : A → W → W) (args : A) (m : Machine W) : Machine W where
  world := function args m.world
  trace := m.trace ++ [.call]

/-- `start = get_start_time();` or `end = get_end_time();`. -/
def Machine.read (getTime : W → BitVec 64 × W) (event : BitVec 64 → Event) (m : Machine W) :
    BitVec 64 × Machine W :=
  ((getTime m.world).1, ⟨(getTime m.world).2, m.trace ++ [event (getTime m.world).1]⟩)

/-- `measure_time`.  There is no result where C divides by zero. -/
def measureTime (iterations ignoreIter : Int) (function : A → W → W) (args : A)
    (getStartTime getEndTime : W → BitVec 64 × W) (m : Machine W) :
    Run (Option (BitVec 64) × Machine W) := do
  let (i, m) ← forLoop 0 ignoreIter (fun _ (i, m) => do
    let m := m.call function args
    let i ← int (i + 1)
    pure (i, m)) (0, m)
  let (start, m) := m.read getStartTime .started
  let m ← doLoop i iterations (fun m => pure (m.call function args)) m
  let (stop, m) := m.read getEndTime .ended
  -- `iterations` is converted to `uint64_t`
  pure (if iterations = 0 then none else some ((stop - start) / BitVec.ofInt 64 iterations), m)

/-- In a run on `w`, `ignoreIter` calls are made before the first reading, and the result is
the time between the readings divided by the number of calls between them. -/
def ReportsCost (iterations ignoreIter : CInt) (function : A → W → W) (args : A)
    (getStartTime getEndTime : W → BitVec 64 × W) (w : W) : Prop :=
  ∃ cost start stop timed w',
    measureTime iterations.val ignoreIter.val function args getStartTime getEndTime ⟨w, []⟩
        = .ok (some cost, ⟨w', List.replicate ignoreIter.val.toNat .call
            ++ .started start :: (List.replicate timed .call ++ [.ended stop])⟩)
      ∧ cost.toNat = (stop - start).toNat / timed

end Code

/-- What `measure_time` should do, whatever is measured, with whatever clocks. -/
def Reports (iterations ignoreIter : CInt) : Prop :=
  ∀ (W A : Type) (function : A → W → W) (args : A) (getStartTime getEndTime : W → BitVec 64 × W) (w : W),
    ReportsCost iterations ignoreIter function args getStartTime getEndTime w

/-! ## What a run does -/

/-- The number of calls in the second loop. -/
def timedCalls (n k : Nat) : Nat := max 1 (n - k)

section Run

variable {W A : Type} (function : A → W → W) (args : A) (getStartTime getEndTime : W → BitVec 64 × W)
variable (n k : Nat) (m : Machine W)

theorem Machine.trace_iterate_call :
    ((Machine.call function args)^[n] m).trace = m.trace ++ List.replicate n .call := by
  induction n generalizing m with
  | zero => exact (List.append_nil _).symm
  | succ n ih => rw [Function.iterate_succ_apply, ih, call, List.append_assoc]; rfl

/-- The first reading, after `k` calls. -/
def startReading : BitVec 64 × Machine W :=
  ((Machine.call function args)^[k] m).read getStartTime .started

/-- The second reading, after the calls that are timed. -/
def endReading : BitVec 64 × Machine W :=
  ((Machine.call function args)^[timedCalls n k] (startReading function args getStartTime k m).2).read
    getEndTime .ended

theorem trace_endReading :
    (endReading function args getStartTime getEndTime n k m).2.trace
      = m.trace ++ (List.replicate k .call
        ++ .started (startReading function args getStartTime k m).1
          :: (List.replicate (timedCalls n k) .call
            ++ [.ended (endReading function args getStartTime getEndTime n k m).1])) := by
  simp [endReading, startReading, Machine.read, Machine.trace_iterate_call]

variable {n k}

/-- The warm-up leaves `i` at `ignore_iter`. -/
theorem warmUp_eq (hk : (k : Int) < intMax) :
    forLoop 0 k (fun _ (i, m) => do
      let m := m.call function args
      let i ← int (i + 1)
      pure (i, m)) ((0 : Int), m) = .ok ((k : Int), (Machine.call function args)^[k] m) := by
  refine forLoop_eq (fun j => ((j : Int), (Machine.call function args)^[j] m)) (Nat.zero_le k) hk.le rfl ?_
  intro j _ hj
  have hnext : int ((j : Int) + 1) = .ok ((j + 1 : Nat) : Int) := int_ok_of_nonneg (by omega) (by omega)
  simp only [hnext, ok_bind, pure_eq_ok, Function.iterate_succ_apply']

/-- The second loop goes on from there. -/
theorem timed_eq (hn : (n : Int) ≤ intMax) (hk : (k : Int) < intMax) :
    doLoop k n (fun m => pure (m.call function args)) m
      = .ok ((Machine.call function args)^[timedCalls n k] m) := by
  have hcalls : timedCalls n k = max (k + 1) n - k := by
    simp only [timedCalls]
    omega
  rw [hcalls]
  refine doLoop_eq (fun j => (Machine.call function args)^[j - k] m) (by omega) hn ?_ ?_
  · rw [Nat.sub_self]
    rfl
  · intro j hj
    have hsub : j + 1 - k = (j - k) + 1 := by omega
    rw [hsub, Function.iterate_succ_apply']
    rfl

/-- The result of a run. -/
theorem measureTime_eq (hn₁ : 1 ≤ n) (hn : (n : Int) ≤ intMax) (hk : (k : Int) < intMax) :
    measureTime n k function args getStartTime getEndTime m
      = .ok (some (((endReading function args getStartTime getEndTime n k m).1
            - (startReading function args getStartTime k m).1) / BitVec.ofNat 64 n),
          (endReading function args getStartTime getEndTime n k m).2) := by
  have hdiv : ¬ (n : Int) = 0 := by omega
  rw [measureTime, warmUp_eq function args m hk, ok_bind]
  dsimp only
  rw [timed_eq function args _ hn hk, ok_bind, if_neg hdiv, BitVec.ofInt_natCast]
  rfl

end Run

/-! ## When the result is the cost of a call -/

/-- How many calls there are between the readings, and what is read, is in the trace. -/
theorem trace_inj {k t t' : Nat} {a a' b b' : BitVec 64}
    (h : List.replicate k Event.call ++ .started a :: (List.replicate t .call ++ [.ended b])
      = List.replicate k Event.call ++ .started a' :: (List.replicate t' .call ++ [.ended b'])) :
    a = a' ∧ t = t' ∧ b = b' := by
  obtain ⟨ha, hrest⟩ := List.cons.inj (List.append_cancel_left h)
  obtain ⟨ht, hb⟩ := List.append_inj' hrest rfl
  have hlength := congrArg List.length ht
  rw [List.length_replicate, List.length_replicate] at hlength
  exact ⟨Event.started.inj ha, hlength, Event.ended.inj (List.singleton_inj.mp hb)⟩

/-- On one run, it is a question of the divisors only. -/
theorem reportsCost_iff {W A : Type} {function : A → W → W} {args : A}
    {getStartTime getEndTime : W → BitVec 64 × W} {w : W} {iterations ignoreIter : CInt} {n k : Nat}
    (hit : iterations.val = n) (hig : ignoreIter.val = k) (hn : 1 ≤ n) (hk : (k : Int) < intMax) :
    ReportsCost iterations ignoreIter function args getStartTime getEndTime w
      ↔ let elapsed := (endReading function args getStartTime getEndTime n k ⟨w, []⟩).1
            - (startReading function args getStartTime k ⟨w, []⟩).1
        elapsed.toNat / n = elapsed.toNat / timedCalls n k := by
  have hmax : (n : Int) ≤ intMax := hit ▸ iterations.property.2
  have hlt : n < 2 ^ 64 := by simp only [intMax] at hmax; omega
  have hnat : (BitVec.ofNat 64 n).toNat = n := Nat.mod_eq_of_lt hlt
  have hrun := measureTime_eq function args getStartTime getEndTime ⟨w, []⟩ hn hmax hk
  have htrace := trace_endReading function args getStartTime getEndTime n k ⟨w, []⟩
  rw [List.nil_append] at htrace
  have hwarm : ((k : Nat) : Int).toNat = k := Int.toNat_natCast k
  rw [ReportsCost, hit, hig, hrun, hwarm]
  constructor
  · rintro ⟨cost, start, stop, timed, w', hrun', hcost⟩
    obtain ⟨hcost', hend⟩ := Prod.mk.inj (Except.ok.inj hrun')
    have htrace' := htrace.symm.trans (congrArg Machine.trace hend)
    obtain ⟨rfl, rfl, rfl⟩ := trace_inj htrace'
    rw [← Option.some.inj hcost', BitVec.toNat_udiv, hnat] at hcost
    exact hcost
  · intro hcost
    refine ⟨_, _, _, timedCalls n k, (endReading function args getStartTime getEndTime n k ⟨w, []⟩).2.world,
      congrArg (fun tr => Except.ok (some _, Machine.mk _ tr)) htrace, ?_⟩
    rw [BitVec.toNat_udiv, hnat]
    exact hcost

/-- A clock that stands still but for `elapsed` between the readings shows the divisors. -/
theorem div_eq_of_reports {iterations ignoreIter : CInt} {n k : Nat} (h : Reports iterations ignoreIter)
    (hit : iterations.val = n) (hig : ignoreIter.val = k) (hn : 1 ≤ n) (hk : (k : Int) < intMax)
    {elapsed : Nat} (helapsed : elapsed < 2 ^ 64) : elapsed / n = elapsed / timedCalls n k := by
  have hcost := (reportsCost_iff hit hig hn hk).mp
    (h Unit Unit (fun _ w => w) () (fun w => (0, w)) (fun w => (BitVec.ofNat 64 elapsed, w)) ())
  have hnat : (BitVec.ofNat 64 elapsed - 0#64).toNat = elapsed := by
    rw [BitVec.sub_zero]
    exact Nat.mod_eq_of_lt helapsed
  exact hnat ▸ hcost

/-- The second loop makes `n` passes exactly if it starts at 0, or if it makes one anyway. -/
theorem timedCalls_eq_iff {n k : Nat} (hn : 1 ≤ n) : timedCalls n k = n ↔ k = 0 ∨ n = 1 := by
  simp only [timedCalls]
  omega

/-- **What `measure_time` returns** is the cost of one call exactly if nothing is ignored or
there is one iteration. -/
theorem measureTime_reports_iff {iterations ignoreIter : CInt} (hit : 1 ≤ iterations.val)
    (hig : 0 ≤ ignoreIter.val) (hmax : ignoreIter.val < intMax) :
    Reports iterations ignoreIter ↔ ignoreIter.val = 0 ∨ iterations.val = 1 := by
  obtain ⟨n, hn⟩ : ∃ n : Nat, iterations.val = n := ⟨iterations.val.toNat, by omega⟩
  obtain ⟨k, hk⟩ : ∃ k : Nat, ignoreIter.val = k := ⟨ignoreIter.val.toNat, by omega⟩
  have hn₁ : 1 ≤ n := by omega
  have hkmax : (k : Int) < intMax := hk ▸ hmax
  have hnmax : (n : Int) ≤ intMax := hn ▸ iterations.property.2
  have hcond : ignoreIter.val = 0 ∨ iterations.val = 1 ↔ timedCalls n k = n := by
    rw [timedCalls_eq_iff hn₁]
    omega
  rw [hcond]
  constructor
  · intro h
    -- divided by the two divisors, their product gives one and the other
    have hpos : 0 < timedCalls n k := Nat.lt_of_lt_of_le Nat.one_pos (Nat.le_max_left _ _)
    have hle : timedCalls n k ≤ n := by simp only [timedCalls]; omega
    have hlt : n * timedCalls n k < 2 ^ 64 := by
      have hn32 : n < 2 ^ 32 := by simp only [intMax] at hnmax; omega
      calc n * timedCalls n k < 2 ^ 32 * 2 ^ 32 := Nat.mul_lt_mul'' hn32 (hle.trans_lt hn32)
        _ = 2 ^ 64 := by decide
    have hdiv := div_eq_of_reports h hn hk hn₁ hkmax hlt
    rwa [Nat.mul_div_cancel_left _ hn₁, Nat.mul_div_cancel _ hpos] at hdiv
  · intro heq W A function args getStartTime getEndTime w
    refine (reportsCost_iff hn hk hn₁ hkmax).mpr ?_
    rw [heq]

/-- As the program calls it. -/
theorem measureTime_reports_hundred : Reports ⟨100, by decide⟩ ⟨0, by decide⟩ :=
  (measureTime_reports_iff (by decide) (by decide) (by decide)).mpr (Or.inl rfl)

/-- After 64 calls to warm up, 36 are timed and the time is divided by 100. -/
theorem not_measureTime_reports : ¬ Reports ⟨100, by decide⟩ ⟨64, by decide⟩ := by
  intro h
  have hdiv : 3600 / 100 = 3600 / timedCalls 100 64 :=
    div_eq_of_reports h rfl rfl (by decide) (by decide) (by decide)
  revert hdiv
  decide

end AeadPerf.Bench
