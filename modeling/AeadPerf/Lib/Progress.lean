/-
# `Lib.Progress` — the threads get on, and come to an end

What `Lib.Monitor` says of the threads around one mutex is about safety.  Here is the rest:

    StepBy     a step, with the thread that makes it and how it goes on
    Ready      the thread can make a step
    Run        a run, with the list of what happened

If the steps on the shared state are always possible, then whoever has the lock is ready,
and while nobody has it everybody who is awake is.  So threads that are stuck are asleep
(`asleep_of_stuck`).

A `Budget` bounds the work.  Each point has a rank, which goes down at every step of the
code; what wakes a thread pays for all it may wake, and where a call begins its rank is
given.  In every run the work done is at most what was given for the calls and for the
wakeups without a signal (`Budget.work_le`).
-/
import Mathlib.Algebra.BigOperators.Group.Finset.Piecewise
import AeadPerf.Lib.Monitor

namespace Monitor

variable {S P T : Type} {code : P → Op S P}

theorem wake_or (W : T → Bool) (mode : T → Mode P) (t : T) :
    wake W mode t = mode t ∨ wake W mode t = (mode t).wake := by
  cases hW : W t with
  | false => exact Or.inl (if_neg (by simp [hW]))
  | true => exact Or.inr (if_pos hW)

section Steps

variable [DecidableEq T]

/-! ## Who makes a step -/

/-- One step of the thread `t`, which then is in the mode. -/
inductive StepBy (code : P → Op S P) (t : T) : Mode P → State S P T → State S P T → Prop where
  | lock {st : State S P T} {p next : P} (hp : st.mode t = .running p)
      (hcode : code p = .lock next) (hfree : st.owner = none) :
      StepBy code t (.running next) st { st.move t (.running next) with owner := some t }
  | unlock {st : State S P T} {p next : P} (hp : st.mode t = .running p)
      (hcode : code p = .unlock next) (howner : st.owner = some t) :
      StepBy code t (.running next) st { st.move t (.running next) with owner := none }
  | wait {st : State S P T} {p next : P} (hp : st.mode t = .running p)
      (hcode : code p = .wait next) (howner : st.owner = some t) :
      StepBy code t (.asleep next) st { st.move t (.asleep next) with owner := none }
  | relock {st : State S P T} {p : P} (hp : st.mode t = .woken p) (hfree : st.owner = none) :
      StepBy code t (.running p) st { st.move t (.running p) with owner := some t }
  | signal {st : State S P T} {p next : P} (hp : st.mode t = .running p)
      (hcode : code p = .signal next) (W : T → Bool)
      (hsome : (∃ u p, st.mode u = .asleep p) → ∃ u p, W u = true ∧ st.mode u = .asleep p) :
      StepBy code t (.running next) st ({ st with mode := wake W st.mode }.move t (.running next))
  | act {st : State S P T} {p p' : P} {R : S → P → S → Prop} {s' : S}
      (hp : st.mode t = .running p) (hcode : code p = .act R) (hstep : R st.shared p' s') :
      StepBy code t (.running p') st { st.move t (.running p') with shared := s' }

/-- A step is a step of a thread, or a wakeup without a signal. -/
theorem step_iff {st st' : State S P T} :
    Step code st st' ↔
      (∃ t m, StepBy code t m st st') ∨ ∃ W, st' = { st with mode := wake W st.mode } := by
  constructor
  · intro hstep
    cases hstep with
    | lock hp hcode hfree => exact Or.inl ⟨_, _, .lock hp hcode hfree⟩
    | unlock hp hcode howner => exact Or.inl ⟨_, _, .unlock hp hcode howner⟩
    | wait hp hcode howner => exact Or.inl ⟨_, _, .wait hp hcode howner⟩
    | relock hp hfree => exact Or.inl ⟨_, _, .relock hp hfree⟩
    | signal hp hcode W hsome => exact Or.inl ⟨_, _, .signal hp hcode W hsome⟩
    | spurious W => exact Or.inr ⟨W, rfl⟩
    | act hp hcode hR => exact Or.inl ⟨_, _, .act hp hcode hR⟩
  · rintro (⟨t, m, hstep⟩ | ⟨W, rfl⟩)
    · cases hstep with
      | lock hp hcode hfree => exact .lock hp hcode hfree
      | unlock hp hcode howner => exact .unlock hp hcode howner
      | wait hp hcode howner => exact .wait hp hcode howner
      | relock hp hfree => exact .relock hp hfree
      | signal hp hcode W hsome => exact .signal hp hcode W hsome
      | act hp hcode hR => exact .act hp hcode hR
    · exact .spurious W

theorem StepBy.step {t : T} {m : Mode P} {st st' : State S P T} (hstep : StepBy code t m st st') :
    Step code st st' :=
  step_iff.mpr (Or.inl ⟨t, m, hstep⟩)

theorem StepBy.mode_self {t : T} {m : Mode P} {st st' : State S P T} (hstep : StepBy code t m st st') :
    st'.mode t = m := by
  cases hstep <;> exact Function.update_self _ _ _

/-- The others stay where they are, or wake. -/
theorem StepBy.mode_other {t u : T} {m : Mode P} {st st' : State S P T} (hstep : StepBy code t m st st')
    (hu : u ≠ t) : st'.mode u = st.mode u ∨ st'.mode u = (st.mode u).wake := by
  cases hstep with
  | signal _ _ W _ =>
      rw [State.move_mode, Function.update_of_ne hu]
      exact wake_or W st.mode u
  | _ => exact Or.inl (Function.update_of_ne hu _ _)

/-- The thread can make a step. -/
def Ready (code : P → Op S P) (st : State S P T) (t : T) : Prop :=
  ∃ m st', StepBy code t m st st'

/-! ## Stuck threads -/

namespace Outline

variable {o : Outline code} {st : State S P T}

/-- The steps on the shared state are always possible. -/
def Lively (o : Outline code) : Prop :=
  ∀ {p R s}, code p = .act R → o.inv s → o.pre p s → ∃ p' s', R s p' s'

/-- Who has the lock is ready, … -/
theorem Sound.ready_of_owner (hs : o.Sound st) (hlively : o.Lively) {t : T}
    (howner : st.owner = some t) : Ready code st t := by
  obtain ⟨p, hp, hholds⟩ := (hs.owner t).mp howner
  cases hcode : code p with
  | lock next => exact absurd hholds (o.lock hcode).1
  | unlock next => exact ⟨_, _, .unlock hp hcode howner⟩
  | wait next => exact ⟨_, _, .wait hp hcode howner⟩
  | signal next =>
      refine ⟨_, _, .signal hp hcode (fun _ => true) ?_⟩
      rintro ⟨u, r, hu⟩
      exact ⟨u, r, rfl, hu⟩
  | act R =>
      obtain ⟨p', s', hR⟩ := hlively hcode hs.inv (hs.pre t p hp)
      exact ⟨_, _, .act hp hcode hR⟩

/-- … and while nobody has it, who is awake. -/
theorem Sound.ready_of_free (hs : o.Sound st) (hlively : o.Lively) (hfree : st.owner = none) {t : T}
    (hawake : ∀ p, st.mode t ≠ .asleep p) : Ready code st t := by
  cases hm : st.mode t with
  | asleep p => exact absurd hm (hawake p)
  | woken p => exact ⟨_, _, .relock hm hfree⟩
  | running p =>
      have hnot : ¬ o.holds p := hs.not_holds hfree hm
      cases hcode : code p with
      | lock next => exact ⟨_, _, .lock hm hcode hfree⟩
      | unlock next => exact absurd (o.unlock hcode).1 hnot
      | wait next => exact absurd (o.wait hcode).1 hnot
      | signal next =>
          refine ⟨_, _, .signal hm hcode (fun _ => true) ?_⟩
          rintro ⟨u, r, hu⟩
          exact ⟨u, r, rfl, hu⟩
      | act R =>
          obtain ⟨p', s', hR⟩ := hlively hcode hs.inv (hs.pre t p hm)
          exact ⟨_, _, .act hm hcode hR⟩

/-- **Threads that are stuck are asleep**, and nobody has the lock, if the owner would be
among them. -/
theorem Sound.asleep_of_stuck (hs : o.Sound st) (hlively : o.Lively) {U : T → Prop}
    (howner : ∀ t, st.owner = some t → U t) (hstuck : ∀ t, U t → ¬ Ready code st t) :
    st.owner = none ∧ ∀ t, U t → ∃ p, st.mode t = .asleep p := by
  have hfree : st.owner = none := by
    cases ho : st.owner with
    | none => rfl
    | some t => exact absurd (hs.ready_of_owner hlively ho) (hstuck t (howner t ho))
  refine ⟨hfree, ?_⟩
  intro t ht
  by_contra hawake
  exact hstuck t ht (hs.ready_of_free hlively hfree (not_exists.mp hawake))

end Outline

/-! ## Runs, and what happened in them -/

/-- A thread went from one mode to another, or some woke without a signal. -/
inductive Turn (P : Type) where
  | step (before after : Mode P)
  | wakeup
  deriving DecidableEq, Repr

/-- A run from the state, and what happened, in order. -/
inductive Run (code : P → Op S P) (st : State S P T) : List (Turn P) → State S P T → Prop where
  | refl : Run code st [] st
  | step {es : List (Turn P)} {st' st'' : State S P T} {t : T} {m : Mode P}
      (hrun : Run code st es st') (hstep : StepBy code t m st' st'') :
      Run code st (es ++ [.step (st'.mode t) m]) st''
  | wakeup {es : List (Turn P)} {st' : State S P T} (hrun : Run code st es st') (W : T → Bool) :
      Run code st (es ++ [.wakeup]) { st' with mode := wake W st'.mode }

theorem Run.reachable {st st' : State S P T} {es : List (Turn P)} (hrun : Run code st es st') :
    Reachable code st st' := by
  induction hrun with
  | refl => exact .refl
  | step _ hstep ih => exact ih.tail hstep.step
  | wakeup _ W ih => exact ih.tail (.spurious W)

/-- Every run is one of these. -/
theorem exists_run {st st' : State S P T} (hr : Reachable code st st') :
    ∃ es, Run code st es st' := by
  induction hr with
  | refl => exact ⟨[], .refl⟩
  | tail _ hstep ih =>
      obtain ⟨es, hrun⟩ := ih
      rcases step_iff.mp hstep with ⟨t, m, hstep⟩ | ⟨W, rfl⟩
      · exact ⟨_, hrun.step hstep⟩
      · exact ⟨_, hrun.wakeup W⟩

end Steps

section Events

variable (idle : P → Bool)

/-- A step of a thread that is not idle. -/
def Turn.isWork : Turn P → Bool
  | .step (.running p) _ => !idle p
  | .step _ _ => true
  | .wakeup => false

/-- A call begins: an idle thread goes on to where it is not idle. -/
def Turn.isCall : Turn P → Bool
  | .step (.running p) (.running p') => idle p && !idle p'
  | _ => false

def Turn.isWakeup : Turn P → Bool
  | .wakeup => true
  | _ => false

variable {idle : P → Bool}

theorem Turn.isCall_of_isWork {e : Turn P} (he : e.isWork idle = true) :
    e.isCall idle = false := by
  cases e with
  | wakeup => rfl
  | step m m' =>
      cases m with
      | running p =>
          have hp : idle p = false := by simpa [isWork] using he
          cases m' with
          | running p' => simp [isCall, hp]
          | _ => rfl
      | _ => rfl

theorem Turn.isWakeup_of_isWork {e : Turn P} (he : e.isWork idle = true) :
    e.isWakeup = false := by
  cases e with
  | wakeup => cases he
  | step => rfl

theorem Turn.isWork_of_busy {m m' : Mode P} (hm : ∀ p, m = .running p → idle p = false) :
    (Turn.step m m').isWork idle = true := by
  cases m with
  | running p => simp [isWork, hm p rfl]
  | _ => rfl

end Events

/-! ## A bound on the work -/

/-- What the code has to do yet, in steps, where at most `N` threads sleep. -/
structure Budget (o : Outline code) (N : Nat) where
  idle : P → Bool
  /-- How many steps a thread at a point has before it, and what it may cause others. -/
  rank : P → Nat
  /-- What a woken thread has before it. -/
  woken : Nat
  /-- What a call has before it. -/
  call : Nat
  lock : ∀ {p next}, code p = .lock next → rank next < rank p
  unlock : ∀ {p next}, code p = .unlock next → rank next < rank p
  wait : ∀ {p next}, code p = .wait next → 0 < rank p ∧ rank next < woken
  signal : ∀ {p next}, code p = .signal next → rank next + N * woken < rank p
  work : ∀ {p R s p' s'}, code p = .act R → o.inv s → o.pre p s → R s p' s' → idle p = false →
    rank p' < rank p
  begin : ∀ {p R s p' s'}, code p = .act R → o.inv s → o.pre p s → R s p' s' → idle p = true →
    rank p' ≤ rank p + if idle p' then 0 else call

namespace Budget

variable {o : Outline code} {N : Nat} (b : Budget o N)

/-- A woken thread takes the lock first. -/
def effort : Mode P → Nat
  | .running p => b.rank p
  | .woken p => b.rank p + 1
  | .asleep _ => 0

variable [Fintype T]

/-- What the threads have before them. -/
def left (st : State S P T) : Nat := ∑ t, b.effort (st.mode t)

variable {b} {st st' : State S P T}

/-- What waking some of the threads adds. -/
theorem sum_wake_le (hs : o.Sound st) (hN : Fintype.card T ≤ N) (W : T → Bool) :
    ∑ t, b.effort (wake W st.mode t) ≤ ∑ t, b.effort (st.mode t) + N * b.woken := by
  have hone : ∀ t, b.effort (wake W st.mode t) ≤ b.effort (st.mode t) + b.woken := by
    intro t
    cases hm : st.mode t with
    | running p => simp [wake, hm, Mode.wake]
    | woken p => simp [wake, hm, Mode.wake]
    | asleep p =>
        obtain ⟨r, hcode⟩ := hs.waiting t p (Or.inl hm)
        have hwoken := (b.wait hcode).2
        cases hW : W t with
        | false => simp [wake, hm, hW]
        | true =>
            simp only [wake, hm, hW, Mode.wake, effort, if_true]
            omega
  calc ∑ t, b.effort (wake W st.mode t)
      ≤ ∑ t, (b.effort (st.mode t) + b.woken) := Finset.sum_le_sum fun t _ => hone t
    _ = ∑ t, b.effort (st.mode t) + Fintype.card T * b.woken := by
      rw [Finset.sum_add_distrib, Finset.sum_const_nat fun _ _ => rfl, Finset.card_univ]
    _ ≤ ∑ t, b.effort (st.mode t) + N * b.woken :=
      Nat.add_le_add_left (Nat.mul_le_mul_right _ hN) _

variable [DecidableEq T]

theorem sum_update (mode : T → Mode P) (t : T) (m : Mode P) :
    ∑ u, b.effort (Function.update mode t m u) + b.effort (mode t)
      = ∑ u, b.effort (mode u) + b.effort m := by
  have hupdate : (fun u => b.effort (Function.update mode t m u))
      = Function.update (fun u => b.effort (mode u)) t (b.effort m) := by
    funext u
    exact Function.apply_update (fun _ => b.effort) mode t m u
  have hrest := Finset.add_sum_erase Finset.univ (fun u => b.effort (mode u)) (Finset.mem_univ t)
  rw [hupdate, Finset.sum_update_of_mem (Finset.mem_univ t), ← Finset.erase_eq, ← hrest]
  omega

/-- What a step of a thread takes off what is left. -/
theorem left_update {t : T} {m : Mode P} (hm : b.effort m < b.effort (st.mode t)) :
    ∑ u, b.effort (Function.update st.mode t m u) + 1 ≤ b.left st := by
  have hupdate := sum_update (b := b) st.mode t m
  rw [left]
  omega

/-- What one step of a thread does to what is left. -/
theorem left_step (hs : o.Sound st) (hN : Fintype.card T ≤ N) {t : T} {m : Mode P}
    (hstep : StepBy code t m st st') :
    b.left st' + (if (Turn.step (st.mode t) m).isWork b.idle then 1 else 0)
      ≤ b.left st + if (Turn.step (st.mode t) m).isCall b.idle then b.call else 0 := by
  -- a step of the code, as against the beginning of a call
  have hless : b.left st' + 1 ≤ b.left st → b.left st' + (if (Turn.step (st.mode t) m).isWork b.idle
      then 1 else 0) ≤ b.left st + if (Turn.step (st.mode t) m).isCall b.idle then b.call else 0 := by
    intro h
    split <;> omega
  cases hstep with
  | lock hp hcode hfree =>
      refine hless (left_update ?_)
      rw [hp]
      exact b.lock hcode
  | unlock hp hcode howner =>
      refine hless (left_update ?_)
      rw [hp]
      exact b.unlock hcode
  | wait hp hcode howner =>
      refine hless (left_update ?_)
      rw [hp]
      exact (b.wait hcode).1
  | relock hp hfree =>
      refine hless (left_update ?_)
      rw [hp]
      exact Nat.lt_succ_self _
  | @signal _ p next hp hcode W _ =>
      refine hless ?_
      have hrank := b.signal hcode
      have hwake := sum_wake_le (b := b) hs hN W
      have hsignal := sum_update (b := b) (wake W st.mode) t (.running next)
      rw [wake_running.mpr hp] at hsignal
      simp only [left, State.move_mode, effort] at hsignal hwake ⊢
      omega
  | @act _ p p' R s' hp hcode hR =>
      cases hidle : b.idle p with
      | false =>
          refine hless (left_update ?_)
          rw [hp]
          exact b.work hcode hs.inv (hs.pre t p hp) hR hidle
      | true =>
          have hrank := b.begin hcode hs.inv (hs.pre t p hp) hR hidle
          have hupdate := sum_update (b := b) st.mode t (.running p')
          simp only [left, State.move_mode, hp, effort, Turn.isWork, Turn.isCall, hidle,
            Bool.not_true, Bool.false_eq_true, if_false, Bool.true_and] at hupdate ⊢
          cases hidle' : b.idle p' with
          | false =>
              rw [hidle', if_neg Bool.false_ne_true] at hrank
              simp only [Bool.not_false, if_true]
              omega
          | true =>
              rw [hidle', if_pos rfl] at hrank
              simp only [Bool.not_true, Bool.false_eq_true, if_false]
              omega

/-- **The work of a run** is at most what was left at its beginning, and what is given for
each call and each wakeup. -/
theorem work_le (hs : o.Sound st) (hN : Fintype.card T ≤ N) {es : List (Turn P)}
    (hrun : Run code st es st') :
    es.countP (Turn.isWork b.idle) + b.left st'
      ≤ b.left st + b.call * es.countP (Turn.isCall b.idle)
        + N * b.woken * es.countP Turn.isWakeup := by
  induction hrun with
  | refl => simp
  | step hrun hstep ih =>
      have hone := left_step (b := b) (Outline.sound_of_reachable hs hrun.reachable) hN hstep
      simp only [List.countP_append, List.countP_singleton, Turn.isWakeup, Bool.false_eq_true,
        if_false, Nat.add_zero, Nat.mul_add, mul_ite, Nat.mul_one, Nat.mul_zero]
      omega
  | wakeup hrun W ih =>
      have hwake := sum_wake_le (b := b) (Outline.sound_of_reachable hs hrun.reachable) hN W
      simp only [List.countP_append, List.countP_singleton, Turn.isWork, Turn.isCall,
        Turn.isWakeup, Bool.false_eq_true, if_false, if_true, Nat.add_zero, Nat.mul_add, left] at hwake ih ⊢
      omega

/-- A run in which no call begins and nobody wakes without a signal is not longer than what
was left at its beginning. -/
theorem length_le (hs : o.Sound st) (hN : Fintype.card T ≤ N) {es : List (Turn P)}
    (hrun : Run code st es st') (hwork : ∀ e ∈ es, e.isWork b.idle = true) :
    es.length + b.left st' ≤ b.left st := by
  have hle := work_le (b := b) hs hN hrun
  have hcalls : es.countP (Turn.isCall b.idle) = 0 := by
    refine List.countP_eq_zero.mpr ?_
    intro e he
    simp [Turn.isCall_of_isWork (hwork e he)]
  have hwakeups : es.countP Turn.isWakeup = 0 := by
    refine List.countP_eq_zero.mpr ?_
    intro e he
    simp [Turn.isWakeup_of_isWork (hwork e he)]
  rw [List.countP_eq_length.mpr hwork, hcalls, hwakeups] at hle
  simpa using hle

/-- **From every state such a run ends**: with everybody idle or stuck. -/
theorem exists_stuck (hs : o.Sound st) (hN : Fintype.card T ≤ N) :
    ∃ es st', Run code st es st' ∧ (∀ e ∈ es, e.isWork b.idle = true)
      ∧ ∀ t, (∀ p, st'.mode t = .running p → b.idle p = false) → ¬ Ready code st' t := by
  by_contra hnone
  push Not at hnone
  -- otherwise such runs get as long as one likes
  have hlong : ∀ k, ∃ es st', Run code st es st' ∧ (∀ e ∈ es, e.isWork b.idle = true)
      ∧ es.length = k := by
    intro k
    induction k with
    | zero => exact ⟨[], st, .refl, by simp, rfl⟩
    | succ k ih =>
        obtain ⟨es, st', hrun, hwork, rfl⟩ := ih
        obtain ⟨t, hbusy, m, st'', hstep⟩ := hnone es st' hrun hwork
        refine ⟨_, st'', hrun.step hstep, ?_, by simp⟩
        intro e he
        rcases List.mem_append.mp he with he | he
        · exact hwork e he
        · cases List.mem_singleton.mp he
          exact Turn.isWork_of_busy hbusy
  obtain ⟨es, st', hrun, hwork, hlength⟩ := hlong (b.left st + 1)
  have hle := length_le hs hN hrun hwork
  omega

end Budget

end Monitor
