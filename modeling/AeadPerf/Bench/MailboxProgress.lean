/-
# `Bench.MailboxProgress` — the calls on a mailbox return

A thread inside `send_msg` or `recv_msg` is stuck when it can make no step.  That happens to
one that has to wait for the lock, and to a receiver asleep in `pthread_cond_wait`.  When
all threads inside are stuck the lock is free, they are receivers, and the queue is empty:
there is no deadlock (`mailbox_noDeadlock`).

It does come to that, or to all calls having returned, whatever the order of the steps.  The
steps a thread has before it are

    recv_msg     5 from the call on, 4 at the test, 1 at the wait, 0 asleep
    send_msg     6 from the call on, and before the signal 5 for each thread that it may wake

which is a `Budget` of `Lib.Progress`: a call that begins, and a wakeup without a signal,
add to what is to be done, and every other step takes off it (`mailbox_callsEnd`).
-/
import AeadPerf.Lib.Progress
import AeadPerf.Bench.MailboxWake

namespace AeadPerf.Bench

open Words HeapProg Monitor

/-! ## No deadlock -/

section Code

variable {n : Nat} {q : Addr}

theorem exists_calls {α : Type} (x : Prog Content α) (next : α → Point)
    (record : α → Mailbox → Mailbox) (m : Mailbox) : ∃ p' m', calls x next record m p' m' := by
  cases hx : x m.heap with
  | ok r => exact ⟨next r.1, record r.1 { m with heap := r.2 }, by rw [calls, hx]; exact ⟨rfl, rfl⟩⟩
  | error e => exact ⟨.stopped e, m, by rw [calls, hx]; exact ⟨rfl, rfl⟩⟩

/-- A thread that is not at the lock or asleep can go on. -/
theorem outline_lively : (outline n q).Lively := by
  intro p R m hcode _ hpre
  cases p with
  | out =>
      cases hcode
      exact ⟨.recvLock, m, Begins.recv⟩
  | sendEnqueue msg =>
      cases hcode
      obtain ⟨p', m', hcall⟩ :=
        exists_calls (enqueue (true, true) (some q) msg) .sendTest (recordSent n msg) m
      exact ⟨p', m', _, hcall⟩
  | sendTest status =>
      cases hcode
      exact ⟨_, m, rfl, rfl⟩
  | sendReturn status =>
      cases hcode
      exact ⟨_, m, rfl, rfl⟩
  | recvTest =>
      cases hcode
      exact exists_calls _ _ _ m
  | recvDequeue =>
      cases hcode
      exact exists_calls _ _ _ m
  | recvReturn msg =>
      cases hcode
      exact ⟨_, m, rfl, rfl⟩
  | stopped e => exact hpre.elim
  | _ => cases hcode

/-- Between two calls. -/
def Point.isOut : Point → Bool
  | .out => true
  | _ => false

theorem isOut_eq_true {p : Point} (hp : p.isOut = true) : p = .out := by
  cases p with
  | out => rfl
  | _ => cases hp

end Code

section Stuck

variable {T : Type} {n : Nat} {q : Addr} {st₀ st : State Mailbox Point T}

/-- The thread has returned from its calls, or it is a receiver asleep. -/
def rests (m : Mode Point) : Prop := m = .running .out ∨ m = .asleep .recvTest

/-- All threads rest, the lock is free, and if a receiver is asleep the queue is empty and
everything sent has been received. -/
structure Quiet (q : Addr) (st : State Mailbox Point T) : Prop where
  owner : st.owner = none
  rests : ∀ t, Bench.rests (st.mode t)
  delivered : (∃ t, isAsleep (st.mode t) = true) →
    Represents st.shared.heap q [] ∧ st.shared.received = st.shared.sent.map some

theorem awaits_of_rests {m : Mode Point} (hm : rests m) : awaits m = false := by
  rcases hm with rfl | rfl
  · rfl
  · rfl

theorem not_ready_asleep [DecidableEq T] {t : T} {p : Point} (hp : st.mode t = .asleep p) :
    ¬ Ready (code n q) st t := by
  rintro ⟨m, st', hstep⟩
  cases hstep with
  | relock hp' _ => cases hp.symm.trans hp'
  | lock hp' _ _ => cases hp.symm.trans hp'
  | unlock hp' _ _ => cases hp.symm.trans hp'
  | wait hp' _ _ => cases hp.symm.trans hp'
  | signal hp' _ _ _ => cases hp.symm.trans hp'
  | act hp' _ _ => cases hp.symm.trans hp'

variable [Fintype T]

theorem Start.covered (hstart : Start n q st₀) : (accounts n q).Covered st₀ := by
  rintro ⟨t, p, hp⟩
  cases (hstart.mode t).symm.trans hp

/-- While all threads rest and one is asleep, the queue is empty. -/
theorem delivered_of_rests (hs : (outline n q).Sound st) (hc : (accounts n q).Covered st)
    (hfree : st.owner = none) (hrests : ∀ t, rests (st.mode t))
    (hasleep : ∃ t, isAsleep (st.mode t) = true) :
    Represents st.shared.heap q [] ∧ st.shared.received = st.shared.sent.map some := by
  obtain ⟨items, hd⟩ := hs.inv
  obtain ⟨t, ht⟩ := hasleep
  have hload : queueSize st.shared.heap q ≤ total Point.worth st.mode := hc (exists_asleep ht)
  have htotal : total Point.worth st.mode = 0 := by
    refine Finset.sum_eq_zero ?_
    intro u _
    rw [worth_eq_awaits hs hfree, awaits_of_rests (hrests u)]
    rfl
  have hitems : items = [] := by
    rw [htotal, hd.holds.queueSize] at hload
    exact List.length_eq_zero_iff.mp (Nat.le_zero.mp hload)
  subst hitems
  have hsent := hd.sent
  rw [List.map_nil, List.append_nil] at hsent
  exact ⟨hd.holds.represents, hsent.symm⟩

variable [DecidableEq T]

theorem quiet_of_stuck (hs : (outline n q).Sound st) (hc : (accounts n q).Covered st)
    (hstuck : ∀ t, st.mode t ≠ .running .out → ¬ Ready (code n q) st t) : Quiet q st := by
  have hinside : ∀ t, st.owner = some t → st.mode t ≠ .running .out := by
    intro t ht hout
    exact (hs.owner_iff hout).mp ht
  obtain ⟨hfree, hasleep⟩ := hs.asleep_of_stuck outline_lively hinside hstuck
  have hrests : ∀ t, rests (st.mode t) := by
    intro t
    by_cases hout : st.mode t = .running .out
    · exact Or.inl hout
    · obtain ⟨p, hp⟩ := hasleep t hout
      obtain ⟨r, hcode⟩ := hs.waiting t p (Or.inl hp)
      obtain ⟨-, rfl⟩ := code_wait hcode
      exact Or.inr hp
  exact ⟨hfree, hrests, delivered_of_rests hs hc hfree hrests⟩

/-- **No deadlock**: in every state of every run, if no thread inside a call can make a
step, then each of them is a receiver asleep on the empty mailbox. -/
theorem mailbox_noDeadlock (hstart : Start n q st₀) (hr : Reachable (code n q) st₀ st)
    (hstuck : ∀ t, st.mode t ≠ .running .out → ¬ Ready (code n q) st t) : Quiet q st :=
  quiet_of_stuck (sound_of_start hstart hr)
    (Accounts.covered_of_reachable hstart.sound hstart.covered hr) hstuck

end Stuck

/-- A receiver is asleep on the mailbox, and the other thread is outside. -/
theorem mailbox_noDeadlock_one : ∃ st : State Mailbox Point Bool,
    Reachable (code 1 0) (newMailbox Bool 1) st ∧ isAsleep (st.mode true) = true ∧ Quiet 0 st := by
  obtain ⟨st, hr, hasleep, hout⟩ : ∃ st, Reachable (code 1 0) (newMailbox Bool 1) st
      ∧ st.mode true = .asleep .recvTest ∧ st.mode false = .running .out := by
    refine ⟨?st, ?run, ?asleep, ?out⟩
    case run =>
      refine .head (Step.act (t := true) rfl rfl Begins.recv) ?_
      refine .head (Step.lock (t := true) rfl rfl rfl) ?_
      refine .head (Step.act (t := true) rfl rfl ⟨rfl, rfl⟩) ?_
      refine .head (Step.wait (t := true) rfl rfl rfl) ?_
      exact .refl
    case asleep => rfl
    case out => rfl
  refine ⟨st, hr, ?_, mailbox_noDeadlock (newMailbox_start Bool 1) hr ?_⟩
  · rw [hasleep]
    rfl
  · intro t ht
    cases t with
    | true => exact not_ready_asleep hasleep
    | false => exact absurd hout ht

/-! ## All calls end -/

section Budget

variable {n N : Nat} {q : Addr}

/-- The steps a thread has before it, where a signal may wake `N`. -/
def Point.rank (N : Nat) : Point → Nat
  | .out | .stopped _ => 0
  | .sendReturn _ | .recvReturn _ | .recvWait => 1
  | .sendUnlock _ | .recvUnlock _ => 2
  | .recvDequeue => 3
  | .recvTest => 4
  | .recvLock => 5
  | .sendSignal _ => 5 * N + 3
  | .sendTest _ => 5 * N + 4
  | .sendEnqueue _ => 5 * N + 5
  | .sendLock _ => 5 * N + 6

theorem rank_of_calls {α : Type} {x : Prog Content α} {next : α → Point}
    {record : α → Mailbox → Mailbox} {m m' : Mailbox} {p' : Point} {k : Nat}
    (hk : 0 < k) (hnext : ∀ r, (next r).rank N < k) (hcall : calls x next record m p' m') :
    p'.rank N < k := by
  rw [calls] at hcall
  split at hcall
  · rw [hcall.1]
    exact hnext _
  · rw [hcall.1]
    exact hk

/-- A step inside a call takes one off. -/
theorem rank_of_act {p p' : Point} {R : Mailbox → Point → Mailbox → Prop} {m m' : Mailbox}
    (hcode : code n q p = .act R) (hp : p.isOut = false) (hR : R m p' m') : p'.rank N < p.rank N := by
  cases p with
  | out => cases hp
  | sendEnqueue msg =>
      cases hcode
      obtain ⟨ok, hcall⟩ := hR
      exact rank_of_calls (Nat.succ_pos _) (fun r => Nat.lt_succ_self _) hcall
  | sendTest status =>
      cases hcode
      obtain ⟨rfl, rfl⟩ := hR
      split
      · exact Nat.lt_succ_self _
      · simp only [Point.rank]
        omega
  | sendReturn status =>
      cases hcode
      obtain ⟨rfl, rfl⟩ := hR
      exact Nat.zero_lt_one
  | recvTest =>
      cases hcode
      refine rank_of_calls (Nat.succ_pos _) ?_ hR
      intro b
      cases b with
      | true => exact Nat.lt_of_sub_eq_succ rfl
      | false => exact Nat.lt_succ_self _
  | recvDequeue =>
      cases hcode
      exact rank_of_calls (Nat.succ_pos _) (fun r => Nat.lt_succ_self _) hR
  | recvReturn msg =>
      cases hcode
      obtain ⟨rfl, rfl⟩ := hR
      exact Nat.zero_lt_one
  | stopped e =>
      cases hcode
      exact hR.elim
  | _ => cases hcode

def budget (n : Nat) (q : Addr) (N : Nat) : Budget (outline n q) N where
  idle := Point.isOut
  rank := Point.rank N
  woken := 5
  call := 5 * N + 6
  lock hcode := by
    rcases code_lock hcode with ⟨msg, rfl, rfl⟩ | ⟨rfl, rfl⟩
    · exact Nat.lt_succ_self _
    · exact Nat.lt_succ_self _
  unlock hcode := by
    rcases code_unlock hcode with ⟨status, rfl, rfl⟩ | ⟨msg, rfl, rfl⟩
    · exact Nat.lt_succ_self _
    · exact Nat.lt_succ_self _
  wait hcode := by
    obtain ⟨rfl, rfl⟩ := code_wait hcode
    exact ⟨Nat.zero_lt_one, Nat.lt_succ_self _⟩
  signal hcode := by
    obtain ⟨status, rfl, rfl⟩ := code_signal hcode
    simp only [Point.rank]
    omega
  work hcode _ _ hR hidle := rank_of_act hcode hidle hR
  begin hcode _ _ hR hidle := by
    cases isOut_eq_true hidle
    cases hcode
    cases hR with
    | send msg _ => exact Nat.le_add_left _ _
    | recv => simp [Point.rank, Point.isOut]
    | elsewhere => exact Nat.zero_le _

end Budget

section Ends

variable {T : Type} [Fintype T] {n : Nat} {q : Addr} {st₀ st : State Mailbox Point T}

theorem left_start (hstart : Start n q st₀) (N : Nat) : (budget n q N).left st₀ = 0 := by
  refine Finset.sum_eq_zero ?_
  intro t _
  rw [hstart.mode t]
  rfl

theorem rank_le (N : Nat) (p : Point) : p.rank N ≤ 5 * N + 6 := by
  cases p <;> simp only [Point.rank] <;> omega

theorem left_le (hs : (outline n q).Sound st) (N : Nat) :
    (budget n q N).left st ≤ Fintype.card T * (5 * N + 6) := by
  have hone : ∀ t, (budget n q N).effort (st.mode t) ≤ 5 * N + 6 := by
    intro t
    cases hm : st.mode t with
    | asleep p => exact Nat.zero_le _
    | running p => exact rank_le N p
    | woken p =>
        obtain ⟨r, hcode⟩ := hs.waiting t p (Or.inr hm)
        obtain ⟨-, rfl⟩ := code_wait hcode
        simp only [Budget.effort, budget, Point.rank]
        omega
  calc (budget n q N).left st
      ≤ ∑ _t : T, (5 * N + 6) := Finset.sum_le_sum fun t _ => hone t
    _ = Fintype.card T * (5 * N + 6) := by
      rw [Finset.sum_const_nat fun _ _ => rfl, Finset.card_univ]

variable [DecidableEq T] {es : List (Turn Point)}

/-- **All calls end**: in every run the threads inside make at most `5N + 6` steps for each
call begun, and `5N` for each wakeup without a signal, where `N` is how many threads there
are.  If from then on no call begins and nobody wakes without a signal, then within
`N (5N + 6)` steps, in whatever order they are made, all calls have returned but those of
receivers asleep on the empty mailbox. -/
theorem mailbox_callsEnd (hstart : Start n q st₀) (hrun : Run (code n q) st₀ es st) :
    es.countP (Turn.isWork Point.isOut)
        ≤ (5 * Fintype.card T + 6) * es.countP (Turn.isCall Point.isOut)
          + 5 * Fintype.card T * es.countP Turn.isWakeup
      ∧ (∀ es' st', Run (code n q) st es' st' → (∀ e ∈ es', e.isWork Point.isOut = true) →
          es'.length ≤ Fintype.card T * (5 * Fintype.card T + 6))
      ∧ ∃ es' st', Run (code n q) st es' st' ∧ (∀ e ∈ es', e.isWork Point.isOut = true)
          ∧ Quiet q st' := by
  have hr := hrun.reachable
  have hs := sound_of_start hstart hr
  refine ⟨?bound, ?longest, ?ends⟩
  case bound =>
    have hle := Budget.work_le (b := budget n q (Fintype.card T)) hstart.sound le_rfl hrun
    rw [left_start hstart, Nat.zero_add] at hle
    calc es.countP (Turn.isWork Point.isOut)
        ≤ _ := (Nat.le_add_right _ _).trans hle
      _ = _ := by simp only [budget, Nat.mul_comm (Fintype.card T) 5]
  case longest =>
    intro es' st' hrun' hwork
    have hle := Budget.length_le (b := budget n q (Fintype.card T)) hs le_rfl hrun' hwork
    exact ((Nat.le_add_right _ _).trans hle).trans (left_le hs _)
  case ends =>
    obtain ⟨es', st', hrun', hwork, hstuck⟩ :=
      Budget.exists_stuck (b := budget n q (Fintype.card T)) hs le_rfl
    have hr' := hr.trans hrun'.reachable
    refine ⟨es', st', hrun', hwork, quiet_of_stuck (sound_of_start hstart hr')
      (Accounts.covered_of_reachable hstart.sound hstart.covered hr') ?_⟩
    intro t ht
    refine hstuck t ?_
    intro p hp
    cases hout : Point.isOut p with
    | false => exact hout
    | true =>
        cases isOut_eq_true hout
        exact absurd hp ht

end Ends

/-- The same receiver: it has called `recv_msg`, and there will be no message. -/
theorem mailbox_callsEnd_one : ∃ es es' : List (Turn Point), ∃ st st' : State Mailbox Point Bool,
    es.countP (Turn.isCall Point.isOut) = 1 ∧ Run (code 1 0) (newMailbox Bool 1) es st
      ∧ Run (code 1 0) st es' st' ∧ es'.length ≤ 32 ∧ Quiet 0 st' := by
  obtain ⟨es, st, hcalls, hrun⟩ : ∃ es, ∃ st : State Mailbox Point Bool,
      es.countP (Turn.isCall Point.isOut) = 1 ∧ Run (code 1 0) (newMailbox Bool 1) es st :=
    ⟨_, _, rfl, Run.refl.step (StepBy.act (t := true) rfl rfl Begins.recv)⟩
  obtain ⟨-, hlongest, es', st', hrun', hwork, hquiet⟩ :=
    mailbox_callsEnd (newMailbox_start Bool 1) hrun
  exact ⟨es, es', st, st', hcalls, hrun, hrun', hlongest es' st' hrun' hwork, hquiet⟩

end AeadPerf.Bench
