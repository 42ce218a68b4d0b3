/-
# `Lib.Monitor` — threads around one mutex and one condition variable

Any number of threads run the same code.  A point of the code stands for what a thread
does next there:

    lock      waits until nobody has the mutex, and takes it
    unlock    gives it back
    wait      gives it back and falls asleep, in one step; once woken, takes it again
    signal    wakes some of the sleepers, one at least if there is any
    act       everything else: a step on the shared state, which also says where to go on

A sleeper may wake without a signal.  A run is any interleaving of such steps (`Step`).

## The rules

An `Outline` is a proof outline of the code: what is true of the shared state at every
moment (`inv`), and what is true besides while a thread is at a point (`pre`).  Its
conditions are about one operation at a time.  What a thread relies on is either about
itself, or it has the lock, and then only steps made without the lock can interfere.
Every state of a run is as the outline says (`Outline.sound_of_reachable`).

`Accounts` is for a condition variable on which threads wait for work: of the `load` of
work, each thread on its way to some answers for its `worth`.  If a thread sleeps only
where there is no load, and a signal costs at most what one woken thread is worth, then
while anyone is asleep the load is covered (`Accounts.covered_of_reachable`): no wakeup is
lost.
-/
import Mathlib.Algebra.BigOperators.Group.Finset.Basic
import Mathlib.Algebra.Order.BigOperators.Group.Finset
import Mathlib.Logic.Function.Basic
import Mathlib.Logic.Relation

namespace Monitor

/-! ## Threads -/

/-- What a thread does at a point of its code; `S` is the shared state. -/
inductive Op (S P : Type) where
  | lock (next : P)
  | unlock (next : P)
  | wait (next : P)
  | signal (next : P)
  | act (step : S → P → S → Prop)

/-- A thread runs, or it is asleep, or it is woken and has to take the lock again; then it
goes on at the point. -/
inductive Mode (P : Type) where
  | running (p : P)
  | asleep (p : P)
  | woken (p : P)
  deriving DecidableEq, Repr

structure State (S P T : Type) where
  shared : S
  owner : Option T
  mode : T → Mode P

variable {S P T : Type}

def Mode.wake : Mode P → Mode P
  | .asleep p => .woken p
  | m => m

/-- The threads of `W` wake, if they are asleep. -/
def wake (W : T → Bool) (mode : T → Mode P) : T → Mode P := fun t =>
  if W t then (mode t).wake else mode t

section Steps

variable [DecidableEq T]

/-- The thread `t` goes on as `m`. -/
def State.move (st : State S P T) (t : T) (m : Mode P) : State S P T :=
  { st with mode := Function.update st.mode t m }

/-- One step of one thread, or a wakeup. -/
inductive Step (code : P → Op S P) : State S P T → State S P T → Prop where
  | lock {st : State S P T} {t : T} {p next : P} (hp : st.mode t = .running p)
      (hcode : code p = .lock next) (hfree : st.owner = none) :
      Step code st { st.move t (.running next) with owner := some t }
  | unlock {st : State S P T} {t : T} {p next : P} (hp : st.mode t = .running p)
      (hcode : code p = .unlock next) (howner : st.owner = some t) :
      Step code st { st.move t (.running next) with owner := none }
  | wait {st : State S P T} {t : T} {p next : P} (hp : st.mode t = .running p)
      (hcode : code p = .wait next) (howner : st.owner = some t) :
      Step code st { st.move t (.asleep next) with owner := none }
  | relock {st : State S P T} {t : T} {p : P} (hp : st.mode t = .woken p) (hfree : st.owner = none) :
      Step code st { st.move t (.running p) with owner := some t }
  | signal {st : State S P T} {t : T} {p next : P} (hp : st.mode t = .running p)
      (hcode : code p = .signal next) (W : T → Bool)
      (hsome : (∃ u p, st.mode u = .asleep p) → ∃ u p, W u = true ∧ st.mode u = .asleep p) :
      Step code st ({ st with mode := wake W st.mode }.move t (.running next))
  | spurious {st : State S P T} (W : T → Bool) : Step code st { st with mode := wake W st.mode }
  | act {st : State S P T} {t : T} {p p' : P} {R : S → P → S → Prop} {s' : S}
      (hp : st.mode t = .running p) (hcode : code p = .act R) (hstep : R st.shared p' s') :
      Step code st { st.move t (.running p') with shared := s' }

/-- The states of the runs from `st`. -/
abbrev Reachable (code : P → Op S P) : State S P T → State S P T → Prop :=
  Relation.ReflTransGen (Step code)

@[simp] theorem State.move_shared (st : State S P T) (t : T) (m : Mode P) :
    (st.move t m).shared = st.shared := rfl

@[simp] theorem State.move_owner (st : State S P T) (t : T) (m : Mode P) :
    (st.move t m).owner = st.owner := rfl

@[simp] theorem State.move_mode (st : State S P T) (t : T) (m : Mode P) :
    (st.move t m).mode = Function.update st.mode t m := rfl

end Steps

theorem wake_running {W : T → Bool} {mode : T → Mode P} {t : T} {p : P} :
    wake W mode t = .running p ↔ mode t = .running p := by
  cases hm : mode t with
  | running p' => simp [wake, hm, Mode.wake]
  | asleep p' => cases hW : W t <;> simp [wake, hm, hW, Mode.wake]
  | woken p' => simp [wake, hm, Mode.wake]

/-- A thread that is not running after a wakeup was not before, and is at the same point. -/
theorem wake_waiting {W : T → Bool} {mode : T → Mode P} {t : T} {p : P}
    (h : wake W mode t = .asleep p ∨ wake W mode t = .woken p) :
    mode t = .asleep p ∨ mode t = .woken p := by
  cases hm : mode t with
  | running p' => simp [wake, hm, Mode.wake] at h
  | asleep p' => cases hW : W t <;> simp_all [wake, Mode.wake]
  | woken p' => simpa [wake, hm, Mode.wake] using h

theorem asleep_of_wake {W : T → Bool} {mode : T → Mode P} {t : T} {p : P}
    (h : wake W mode t = .asleep p) : mode t = .asleep p := by
  cases hm : mode t with
  | running p' => simp [wake, hm, Mode.wake] at h
  | asleep p' => cases hW : W t <;> simp_all [wake, Mode.wake]
  | woken p' => simp [wake, hm, Mode.wake] at h

/-- Who is asleep after a step of `t`, which goes on running, was asleep before. -/
theorem asleep_of_update [DecidableEq T] {mode : T → Mode P} {t u : T} {p r : P}
    (h : Function.update mode t (.running p) u = .asleep r) : mode u = .asleep r := by
  have hu : u ≠ t := by
    rintro rfl
    rw [Function.update_self] at h
    cases h
  rwa [Function.update_of_ne hu] at h

/-! ## Proof outlines -/

/-- A proof outline of the code. -/
structure Outline (code : P → Op S P) where
  /-- Where a thread has the lock. -/
  holds : P → Prop
  /-- What is true of the shared state at every moment. -/
  inv : S → Prop
  /-- What is true besides while a thread is at a point. -/
  pre : P → S → Prop
  lock : ∀ {p next}, code p = .lock next →
    ¬ holds p ∧ holds next ∧ ∀ s, inv s → pre p s → pre next s
  unlock : ∀ {p next}, code p = .unlock next →
    holds p ∧ ¬ holds next ∧ ∀ s, inv s → pre p s → pre next s
  wait : ∀ {p next}, code p = .wait next → holds p ∧ holds next ∧ ∀ s, inv s → pre next s
  signal : ∀ {p next}, code p = .signal next →
    (holds next ↔ holds p) ∧ ∀ s, inv s → pre p s → pre next s
  act : ∀ {p R s p' s'}, code p = .act R → inv s → pre p s → R s p' s' →
    (holds p' ↔ holds p) ∧ inv s' ∧ pre p' s'
  /-- What a thread relies on without the lock is about itself. -/
  stable : ∀ {p s} s', ¬ holds p → pre p s → pre p s'
  /-- What it relies on with the lock stays when another acts without it. -/
  noInterference : ∀ {p R s p' s'}, code p = .act R → ¬ holds p → inv s → pre p s → R s p' s' →
    ∀ {r}, holds r → pre r s → pre r s'

namespace Outline

variable {code : P → Op S P} (o : Outline code)

/-- The state is as the outline says. -/
structure Sound (st : State S P T) : Prop where
  inv : o.inv st.shared
  owner : ∀ t, st.owner = some t ↔ ∃ p, st.mode t = .running p ∧ o.holds p
  pre : ∀ t p, st.mode t = .running p → o.pre p st.shared
  waiting : ∀ t p, st.mode t = .asleep p ∨ st.mode t = .woken p → ∃ r, code r = .wait p

variable {o} {st st' : State S P T}

theorem Sound.wake (hs : o.Sound st) (W : T → Bool) :
    o.Sound { st with mode := Monitor.wake W st.mode } where
  inv := hs.inv
  owner t := by simp only [wake_running, hs.owner t]
  pre t p hp := hs.pre t p (wake_running.mp hp)
  waiting t p hp := hs.waiting t p (wake_waiting hp)

/-- Who runs at a point with the lock is the owner. -/
theorem Sound.owner_iff (hs : o.Sound st) {t : T} {p : P} (hp : st.mode t = .running p) :
    st.owner = some t ↔ o.holds p := by
  rw [hs.owner t]
  constructor
  · rintro ⟨r, hr, hholds⟩
    cases hp.symm.trans hr
    exact hholds
  · intro hholds
    exact ⟨p, hp, hholds⟩

/-- Two threads never have the lock at once. -/
theorem Sound.holds_unique (hs : o.Sound st) {t u : T} {p r : P} (hp : st.mode t = .running p)
    (hr : st.mode u = .running r) (hholds : o.holds p) (hholds' : o.holds r) : t = u := by
  have ht : st.owner = some t := (hs.owner_iff hp).mpr hholds
  have hu : st.owner = some u := (hs.owner_iff hr).mpr hholds'
  exact Option.some.inj (ht.symm.trans hu)

/-- Without an owner, nobody is at a point with the lock. -/
theorem Sound.not_holds (hs : o.Sound st) (hfree : st.owner = none) {t : T} {p : P}
    (hp : st.mode t = .running p) : ¬ o.holds p := by
  intro hholds
  cases hfree.symm.trans ((hs.owner_iff hp).mpr hholds)

section Steps

variable [DecidableEq T]

/-- A step of `t`: what has to be true of it, and of the others with the lock. -/
theorem Sound.move (hs : o.Sound st) {t : T} {m : Mode P} {s' : S} {owner' : Option T}
    (hinv : o.inv s')
    (hothers : ∀ u ≠ t, owner' = some u ↔ st.owner = some u)
    (hself : owner' = some t ↔ ∃ p, m = .running p ∧ o.holds p)
    (hpre : ∀ p, m = .running p → o.pre p s')
    (hwaiting : ∀ p, m = .asleep p ∨ m = .woken p → ∃ r, code r = .wait p)
    (hframe : ∀ u ≠ t, st.owner = some u → ∀ p, o.holds p → o.pre p st.shared → o.pre p s') :
    o.Sound { shared := s', owner := owner', mode := Function.update st.mode t m } where
  inv := hinv
  owner u := by
    by_cases hu : u = t
    · subst hu
      simpa using hself
    · simpa [hu] using (hothers u hu).trans (hs.owner u)
  pre u p hp := by
    by_cases hu : u = t
    · subst hu
      exact hpre p (by simpa using hp)
    · have hp' : st.mode u = .running p := by simpa [hu] using hp
      by_cases hholds : o.holds p
      · exact hframe u hu ((hs.owner u).mpr ⟨p, hp', hholds⟩) p hholds (hs.pre u p hp')
      · exact o.stable s' hholds (hs.pre u p hp')
  waiting u p hp := by
    by_cases hu : u = t
    · subst hu
      exact hwaiting p (by simpa using hp)
    · exact hs.waiting u p (by simpa [hu] using hp)

/-- A step after which `t` runs on. -/
theorem Sound.run (hs : o.Sound st) {t : T} {next : P} {s' : S} {owner' : Option T}
    (hinv : o.inv s') (hpre : o.pre next s')
    (hothers : ∀ u ≠ t, owner' = some u ↔ st.owner = some u)
    (hself : owner' = some t ↔ o.holds next)
    (hframe : ∀ u ≠ t, st.owner = some u → ∀ p, o.holds p → o.pre p st.shared → o.pre p s') :
    o.Sound { shared := s', owner := owner', mode := Function.update st.mode t (.running next) } := by
  refine hs.move hinv hothers ?_ ?_ ?_ hframe
  · simpa using hself
  · intro p hp
    cases hp
    exact hpre
  · intro p hp
    rcases hp with hp | hp <;> cases hp

/-- A thread takes the lock. -/
theorem Sound.acquire (hs : o.Sound st) (hfree : st.owner = none) {t : T} {next : P}
    (hholds : o.holds next) (hpre : o.pre next st.shared) :
    o.Sound { st.move t (.running next) with owner := some t } := by
  refine hs.run hs.inv hpre ?_ ?_ ?_
  · intro u hu
    simp [hfree, hu.symm]
  · simpa using hholds
  · intro u _ hu
    cases hfree.symm.trans hu

/-- The owner `t` gives the lock back, and runs on or falls asleep. -/
theorem Sound.release (hs : o.Sound st) {t : T} (howner : st.owner = some t) {m : Mode P}
    (hholds : ∀ p, m = .running p → ¬ o.holds p) (hpre : ∀ p, m = .running p → o.pre p st.shared)
    (hwaiting : ∀ p, m = .asleep p ∨ m = .woken p → ∃ r, code r = .wait p) :
    o.Sound { st.move t m with owner := none } := by
  refine hs.move hs.inv ?_ ?_ hpre hwaiting ?_
  · intro u hu
    simp [howner, hu.symm]
  · constructor
    · intro h
      cases h
    · rintro ⟨p, hp, hp'⟩
      exact absurd hp' (hholds p hp)
  · intro u hu hu'
    exact absurd (Option.some.inj (hu'.symm.trans howner)) hu

/-- What one step preserves. -/
theorem Sound.step (hs : o.Sound st) (hstep : Step code st st') : o.Sound st' := by
  cases hstep with
  | @lock t p next hp hcode hfree =>
      obtain ⟨-, hholds, hpre⟩ := o.lock hcode
      exact hs.acquire hfree hholds (hpre _ hs.inv (hs.pre t p hp))
  | @relock t p hp hfree =>
      obtain ⟨r, hcode⟩ := hs.waiting t p (Or.inr hp)
      obtain ⟨-, hholds, hpre⟩ := o.wait hcode
      exact hs.acquire hfree hholds (hpre _ hs.inv)
  | @unlock t p next hp hcode howner =>
      obtain ⟨-, hholds, hpre⟩ := o.unlock hcode
      refine hs.release howner ?_ ?_ ?_
      · intro r hr
        cases hr
        exact hholds
      · intro r hr
        cases hr
        exact hpre _ hs.inv (hs.pre t p hp)
      · intro r hr
        rcases hr with hr | hr <;> cases hr
  | @wait t p next hp hcode howner =>
      refine hs.release howner ?_ ?_ ?_
      · intro r hr
        cases hr
      · intro r hr
        cases hr
      · intro r hr
        rcases hr with hr | hr <;> cases hr
        exact ⟨p, hcode⟩
  | @signal t p next hp hcode W _ =>
      obtain ⟨hholds, hpre⟩ := o.signal hcode
      exact (hs.wake W).run hs.inv (hpre _ hs.inv (hs.pre t p hp)) (fun u _ => Iff.rfl)
        ((hs.owner_iff hp).trans hholds.symm) (fun u _ _ r _ hr => hr)
  | spurious W => exact hs.wake W
  | @act t p p' R s' hp hcode hR =>
      obtain ⟨hholds, hinv, hpre⟩ := o.act hcode hs.inv (hs.pre t p hp) hR
      refine hs.run hinv hpre (fun u _ => Iff.rfl) ((hs.owner_iff hp).trans hholds.symm) ?_
      intro u hu howner r hr hpre'
      refine o.noInterference hcode ?_ hs.inv (hs.pre t p hp) hR hr hpre'
      intro hheld
      have ht : st.owner = some t := (hs.owner_iff hp).mpr hheld
      exact hu (Option.some.inj (howner.symm.trans ht))

/-- **Every state of a run is as the outline says.** -/
theorem sound_of_reachable (hs : o.Sound st) (hr : Reachable code st st') : o.Sound st' := by
  induction hr with
  | refl => exact hs
  | tail _ hstep ih => exact ih.step hstep

end Steps

end Outline

/-! ## Waiting for work -/

/-- What a thread is worth: nothing while it is asleep. -/
def Mode.worth (worth : P → Nat) : Mode P → Nat
  | .running p | .woken p => worth p
  | .asleep _ => 0

theorem worth_le_wake (worth : P → Nat) (W : T → Bool) (mode : T → Mode P) (t : T) :
    (mode t).worth worth ≤ (wake W mode t).worth worth := by
  cases hm : mode t with
  | running p => simp [wake, hm, Mode.wake]
  | asleep p => exact Nat.zero_le _
  | woken p => simp [wake, hm, Mode.wake]

section Total

variable [Fintype T]

/-- What the threads are worth together. -/
def total (worth : P → Nat) (mode : T → Mode P) : Nat := ∑ t, (mode t).worth worth

theorem total_update [DecidableEq T] (worth : P → Nat) (mode : T → Mode P) (t : T) (m : Mode P) :
    total worth (Function.update mode t m) + (mode t).worth worth
      = total worth mode + m.worth worth := by
  unfold total
  rw [← Finset.add_sum_erase _ _ (Finset.mem_univ t), ← Finset.add_sum_erase _ _ (Finset.mem_univ t),
    Function.update_self]
  have hrest : ∑ u ∈ Finset.univ.erase t, (Function.update mode t m u).worth worth
      = ∑ u ∈ Finset.univ.erase t, (mode u).worth worth := by
    refine Finset.sum_congr rfl ?_
    intro u hu
    rw [Function.update_of_ne (Finset.ne_of_mem_erase hu)]
  rw [hrest]
  omega

theorem total_le_wake (worth : P → Nat) (W : T → Bool) (mode : T → Mode P) :
    total worth mode ≤ total worth (wake W mode) :=
  Finset.sum_le_sum fun t _ => worth_le_wake worth W mode t

/-- Where a thread does wake, the total grows by what it is worth. -/
theorem total_lt_wake {worth : P → Nat} {W : T → Bool} {mode : T → Mode P} {t : T} {p : P}
    (hW : W t = true) (ht : mode t = .asleep p) (hworth : 1 ≤ worth p) :
    total worth mode < total worth (wake W mode) := by
  refine Finset.sum_lt_sum (fun u _ => worth_le_wake worth W mode u) ⟨t, Finset.mem_univ t, ?_⟩
  have hbefore : (mode t).worth worth = 0 := by rw [ht, Mode.worth]
  have hafter : (wake W mode t).worth worth = worth p := by simp [wake, hW, ht, Mode.wake, Mode.worth]
  omega

end Total

/-- Who answers for how much of the load. -/
structure Accounts {code : P → Op S P} (o : Outline code) where
  /-- How much work there is. -/
  load : S → Nat
  /-- For how much of it a thread at a point answers. -/
  worth : P → Nat
  lock : ∀ {p next}, code p = .lock next → worth p ≤ worth next
  unlock : ∀ {p next}, code p = .unlock next → worth p ≤ worth next
  /-- A thread sleeps where there is no work, and is worth something when it wakes. -/
  wait : ∀ {p next}, code p = .wait next → 1 ≤ worth next ∧ ∀ s, o.inv s → o.pre p s → load s = 0
  signal : ∀ {p next}, code p = .signal next → worth p ≤ worth next + 1
  act : ∀ {p R s p' s'}, code p = .act R → o.inv s → o.pre p s → R s p' s' →
    load s' + worth p ≤ load s + worth p'

namespace Accounts

variable {code : P → Op S P} {o : Outline code} (a : Accounts o) [Fintype T]

/-- While a thread is asleep, the others answer for all the work. -/
def Covered (st : State S P T) : Prop :=
  (∃ t p, st.mode t = .asleep p) → a.load st.shared ≤ total a.worth st.mode

variable {a} {st st' : State S P T}

theorem Covered.wake (hc : a.Covered st) (W : T → Bool) :
    a.Covered { st with mode := Monitor.wake W st.mode } := by
  rintro ⟨t, p, hp⟩
  exact (hc ⟨t, p, asleep_of_wake hp⟩).trans (total_le_wake _ _ _)

variable [DecidableEq T]

/-- A step of a thread that goes on running, and is worth as much as before, or more by what
the load has grown. -/
theorem Covered.move (hc : a.Covered st) {t : T} {next : P} {s' : S} {owner' : Option T}
    (hle : a.load s' + (st.mode t).worth a.worth ≤ a.load st.shared + a.worth next) :
    a.Covered { shared := s', owner := owner', mode := Function.update st.mode t (.running next) } := by
  rintro ⟨u, p, hp⟩
  have hbefore := hc ⟨u, p, asleep_of_update hp⟩
  have htotal := total_update a.worth st.mode t (.running next)
  simp only [Mode.worth] at htotal hle ⊢
  omega

/-- What one step preserves. -/
theorem Covered.step (hs : o.Sound st) (hc : a.Covered st) (hstep : Step code st st') :
    a.Covered st' := by
  cases hstep with
  | lock hp hcode hfree =>
      refine hc.move (Nat.add_le_add_left ?_ _)
      rw [hp]
      exact a.lock hcode
  | unlock hp hcode howner =>
      refine hc.move (Nat.add_le_add_left ?_ _)
      rw [hp]
      exact a.unlock hcode
  | @wait t p next hp hcode howner =>
      intro _
      have hload : a.load st.shared = 0 := (a.wait hcode).2 _ hs.inv (hs.pre t p hp)
      exact hload.le.trans (Nat.zero_le _)
  | relock hp hfree =>
      refine hc.move (Nat.add_le_add_left ?_ _)
      rw [hp]
      exact le_rfl
  | @signal t p next hp hcode W hsome =>
      rintro ⟨u, r, hr⟩
      have hasleep : st.mode u = .asleep r := asleep_of_wake (asleep_of_update hr)
      have hbefore := hc ⟨u, r, hasleep⟩
      -- the signal costs `t` one at most, and whom it wakes is worth that
      obtain ⟨v, r', hW, hv⟩ := hsome ⟨u, r, hasleep⟩
      obtain ⟨p', hwait⟩ := hs.waiting v r' (Or.inl hv)
      have hgain := total_lt_wake hW hv (a.wait hwait).1
      have hcost := a.signal hcode
      have htotal := total_update a.worth (Monitor.wake W st.mode) t (.running next)
      rw [wake_running.mpr hp] at htotal
      simp only [Mode.worth, State.move_shared, State.move_mode] at htotal ⊢
      omega
  | spurious W => exact hc.wake W
  | @act t p p' R s' hp hcode hR =>
      refine hc.move ?_
      rw [hp]
      exact a.act hcode hs.inv (hs.pre t p hp) hR

/-- **No wakeup is lost**, in any run. -/
theorem covered_of_reachable (hs : o.Sound st) (hc : a.Covered st) (hr : Reachable code st st') :
    a.Covered st' := by
  induction hr with
  | refl => exact hc
  | tail hr hstep ih => exact ih.step (Outline.sound_of_reachable hs hr) hstep

end Accounts

end Monitor
