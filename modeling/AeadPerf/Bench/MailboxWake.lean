/-
# `Bench.MailboxWake` — no wakeup is lost

The work of a mailbox is the messages in its queue.  Who answers for one of them:

    a receiver     from its call on until it has taken a message, unless it is asleep
    a sender       whose enqueue succeeded, until it has signalled

A receiver falls asleep only where the queue is empty, and the signal of a sender wakes a
receiver if one is asleep, so `Accounts` of `Lib.Monitor` applies.  While the lock is free
no sender is between the two calls, and the receivers that are awake are enough for the
queue (`mailbox_noLostWakeup`).
-/
import Mathlib.Algebra.BigOperators.Group.Finset.Piecewise
import AeadPerf.Bench.Mailbox

namespace AeadPerf.Bench

open Words HeapProg Monitor

/-! ## Who answers for a message -/

/-- A receiver at this point has not taken a message yet. -/
def Point.untaken : Point → Bool
  | .recvLock | .recvTest | .recvWait | .recvDequeue => true
  | _ => false

/-- A sender at this point has to signal. -/
def Point.unsignalled : Point → Bool
  | .sendTest status => status == 0
  | .sendSignal _ => true
  | _ => false

def Point.worth (p : Point) : Nat := if p.untaken || p.unsignalled then 1 else 0

/-- The `q_size` of the queue at `q`. -/
def queueSize (h : Heap Content) (q : Addr) : Nat :=
  match h.get q with
  | some (.live (.queue s)) => s.qSize
  | _ => 0

theorem Holds.queueSize {h : Heap Content} {q : Addr} {n : Nat} {items : List Item}
    (hh : Holds h q n items) : queueSize h q = items.length := by
  have hget : h.get q = some (.live (.queue _)) := hh.queue
  simp only [Bench.queueSize, hget]

theorem Represents.queueSize {h : Heap Content} {q : Addr} {queued : List (Array Byte)}
    (hr : Represents h q queued) : queueSize h q = queued.length := by
  obtain ⟨s, items, hs, rfl⟩ := hr
  have hget : h.get q = some (.live (.queue s)) := hs.live
  simp only [Bench.queueSize, hget, hs.size, List.length_map]

/-- A step takes on what it adds to the queue, and takes off the queue what it drops. -/
theorem Effect.worth {n : Nat} {q : Addr} {m m' : Mailbox} {items : List Item} {p p' : Point}
    (he : Effect n q m items p p' m') (hh : Holds m.heap q n items) :
    queueSize m'.heap q + p.worth ≤ queueSize m.heap q + p'.worth := by
  rw [hh.queueSize]
  cases he with
  | between hp _ _ hkeep _ _ =>
      rw [(hkeep items hh).queueSize]
      cases p with
      | out => exact Nat.le_add_right _ _
      | sendReturn => exact Nat.le_add_right _ _
      | recvReturn => exact Nat.le_add_right _ _
      | _ => exact hp.elim
  | enqueued _ hh' =>
      rw [hh'.queueSize, List.length_append]
      exact Nat.le_refl _
  | notEnqueued hh' =>
      rw [hh'.queueSize]
      exact Nat.le_refl _
  | succeeded =>
      rw [hh.queueSize]
      exact Nat.le_refl _
  | failed hstatus =>
      rw [hh.queueSize]
      simp [Point.worth, Point.untaken, Point.unsignalled, hstatus]
  | foundEmpty _ =>
      rw [hh.queueSize]
      exact Nat.le_refl _
  | foundSome _ =>
      rw [hh.queueSize]
      exact Nat.le_refl _
  | dequeued hitems hh' =>
      rw [hh'.queueSize, hitems]
      exact Nat.le_refl _

def accounts (n : Nat) (q : Addr) : Accounts (outline n q) where
  load m := queueSize m.heap q
  worth := Point.worth
  lock hcode := by
    rcases code_lock hcode with ⟨msg, rfl, rfl⟩ | ⟨rfl, rfl⟩
    · exact Nat.le_refl _
    · exact Nat.le_refl _
  unlock hcode := by
    rcases code_unlock hcode with ⟨status, rfl, rfl⟩ | ⟨msg, rfl, rfl⟩
    · exact Nat.le_refl _
    · exact Nat.le_refl _
  wait hcode := by
    obtain ⟨rfl, rfl⟩ := code_wait hcode
    exact ⟨Nat.le_refl 1, fun _ _ hh => Holds.queueSize hh⟩
  signal hcode := by
    obtain ⟨status, rfl, rfl⟩ := code_signal hcode
    exact Nat.le_refl 1
  act hcode hinv hpre hR := by
    obtain ⟨items, hd⟩ := hinv
    exact (effect_of_act hcode hd.holds hpre hR).worth hd.holds

/-! ## No lost wakeup -/

/-- The thread is a receiver that is awake and has not taken a message yet. -/
def awaits : Mode Point → Bool
  | .running p | .woken p => p.untaken
  | .asleep _ => false

/-- The thread is asleep, and nobody has woken it. -/
def isAsleep : Mode Point → Bool
  | .asleep _ => true
  | _ => false

/-- Where a thread is, or will be when it has the lock again. -/
def point : Mode Point → Point
  | .running p | .asleep p | .woken p => p

def Point.inSend : Point → Bool
  | .sendLock _ | .sendEnqueue _ | .sendTest _ | .sendSignal _ | .sendUnlock _ | .sendReturn _ => true
  | _ => false

def Point.inRecv : Point → Bool
  | .recvLock | .recvTest | .recvWait | .recvDequeue | .recvUnlock _ | .recvReturn _ => true
  | _ => false

section Runs

variable {T : Type} {n : Nat} {q : Addr} {st₀ st : State Mailbox Point T}

theorem exists_asleep {mode : T → Mode Point} {t : T} (ht : isAsleep (mode t) = true) :
    ∃ t p, mode t = .asleep p := by
  cases hm : mode t with
  | asleep p => exact ⟨t, p, hm⟩
  | running p =>
      rw [hm] at ht
      cases ht
  | woken p =>
      rw [hm] at ht
      cases ht

/-- While the lock is free, who answers for a message is a receiver. -/
theorem worth_eq_awaits (hs : (outline n q).Sound st) (hfree : st.owner = none) (t : T) :
    (st.mode t).worth Point.worth = if awaits (st.mode t) then 1 else 0 := by
  cases hm : st.mode t with
  | asleep p => rfl
  | woken p =>
      obtain ⟨r, hcode⟩ := hs.waiting t p (Or.inr hm)
      obtain ⟨-, rfl⟩ := code_wait hcode
      rfl
  | running p =>
      have hp : ¬ p.Locked := hs.not_holds hfree hm
      cases p with
      | sendTest status => exact absurd trivial hp
      | sendSignal status => exact absurd trivial hp
      | _ => rfl

theorem inRecv_of_awaits {m : Mode Point} (hm : awaits m = true) :
    (point m).inRecv = true ∧ isAsleep m = false := by
  have huntaken : ∀ p : Point, p.untaken = true → p.inRecv = true := by
    intro p hp
    cases p with
    | recvLock | recvTest | recvWait | recvDequeue => rfl
    | _ => cases hp
  cases m with
  | running p => exact ⟨huntaken p hm, rfl⟩
  | woken p => exact ⟨huntaken p hm, rfl⟩
  | asleep p => cases hm

/-- With all receivers asleep and no sender, nobody has the lock. -/
theorem owner_eq_none (hs : (outline n q).Sound st)
    (hasleep : ∀ t, (point (st.mode t)).inRecv = true → isAsleep (st.mode t) = true)
    (hnosend : ∀ t, (point (st.mode t)).inSend = false) : st.owner = none := by
  cases howner : st.owner with
  | none => rfl
  | some t =>
      obtain ⟨p, hp, hlocked⟩ := (hs.owner t).mp howner
      have hsend := hnosend t
      have hrecv := hasleep t
      rw [hp] at hsend hrecv
      cases p with
      | sendEnqueue | sendTest | sendSignal | sendUnlock => cases hsend
      | recvTest | recvWait | recvDequeue | recvUnlock => cases hrecv rfl
      | _ => exact hlocked.elim

variable [Fintype T] [DecidableEq T]

/-- **No lost wakeup**: while a receiver is asleep and the lock is free, there are no more
messages queued than receivers awake that have taken none.  So it does not happen that a
message is queued, the calls of `recv_msg` are all asleep and there is no call of
`send_msg`. -/
theorem mailbox_noLostWakeup (hstart : Start n q st₀) (hr : Reachable (code n q) st₀ st) :
    ∃ queued, Represents st.shared.heap q queued
      ∧ ((∃ t, isAsleep (st.mode t) = true) → st.owner = none →
          queued.length ≤ (Finset.univ.filter fun t => awaits (st.mode t) = true).card)
      ∧ ¬ (queued ≠ [] ∧ (∃ t, (point (st.mode t)).inRecv = true)
          ∧ (∀ t, (point (st.mode t)).inRecv = true → isAsleep (st.mode t) = true)
          ∧ ∀ t, (point (st.mode t)).inSend = false) := by
  have hs := sound_of_start hstart hr
  have hcovered₀ : (accounts n q).Covered st₀ := by
    rintro ⟨t, p, hp⟩
    cases (hstart.mode t).symm.trans hp
  have hcovered := Accounts.covered_of_reachable hstart.sound hcovered₀ hr
  obtain ⟨items, hd⟩ := hs.inv
  have hqueued := hd.holds.represents
  have hbound : (∃ t, isAsleep (st.mode t) = true) → st.owner = none →
      (items.map Item.bytes).length ≤ (Finset.univ.filter fun t => awaits (st.mode t) = true).card := by
    rintro ⟨t, ht⟩ hfree
    rw [← hqueued.queueSize, Finset.card_filter]
    refine (hcovered (exists_asleep ht)).trans (Finset.sum_le_sum ?_)
    intro u _
    exact (worth_eq_awaits hs hfree u).le
  refine ⟨_, hqueued, hbound, ?_⟩
  rintro ⟨hsome, ⟨t, ht⟩, hasleep, hnosend⟩
  have hfree : st.owner = none := owner_eq_none hs hasleep hnosend
  have hnone : (Finset.univ.filter fun t => awaits (st.mode t) = true) = ∅ := by
    refine Finset.filter_eq_empty_iff.mpr ?_
    intro u _ hu
    obtain ⟨hrecv, hawake⟩ := inRecv_of_awaits hu
    cases hawake.symm.trans (hasleep u hrecv)
  have hlength := hbound ⟨t, hasleep t ht⟩ hfree
  rw [hnone, Finset.card_empty] at hlength
  exact hsome (List.length_eq_zero_iff.mp (Nat.le_zero.mp hlength))

end Runs

/-- Two receivers fall asleep, and a message is sent: one of them is woken, and answers for it. -/
theorem mailbox_noLostWakeup_three : ∃ st : State Mailbox Point (Fin 3),
    Reachable (code 1 0) (newMailbox (Fin 3) 1) st
      ∧ isAsleep (st.mode 1) = true ∧ st.owner = none
      ∧ ∃ queued, Represents st.shared.heap 0 queued ∧ queued.length = 1
        ∧ queued.length ≤ (Finset.univ.filter fun t => awaits (st.mode t) = true).card := by
  obtain ⟨st, hr, hasleep, hfree, hsize⟩ : ∃ st, Reachable (code 1 0) (newMailbox (Fin 3) 1) st
      ∧ isAsleep (st.mode 1) = true ∧ st.owner = none ∧ queueSize st.shared.heap 0 = 1 := by
    refine ⟨?st, ?run, ?asleep, ?free, ?size⟩
    case run =>
      refine .head (Step.act (t := 0) rfl rfl Begins.recv) ?_
      refine .head (Step.lock (t := 0) rfl rfl rfl) ?_
      refine .head (Step.act (t := 0) rfl rfl ⟨rfl, rfl⟩) ?_
      refine .head (Step.wait (t := 0) rfl rfl rfl) ?_
      refine .head (Step.act (t := 1) rfl rfl Begins.recv) ?_
      refine .head (Step.lock (t := 1) rfl rfl rfl) ?_
      refine .head (Step.act (t := 1) rfl rfl ⟨rfl, rfl⟩) ?_
      refine .head (Step.wait (t := 1) rfl rfl rfl) ?_
      refine .head (Step.act (t := 2) rfl rfl (Begins.send #[7] (Nat.le_refl 1))) ?_
      refine .head (Step.lock (t := 2) rfl rfl rfl) ?_
      refine .head (Step.act (t := 2) rfl rfl ⟨(true, true), rfl, rfl⟩) ?_
      refine .head (Step.act (t := 2) rfl rfl ⟨rfl, rfl⟩) ?_
      have hsignal : code 1 0 (.sendSignal 0) = .signal (.sendUnlock 0) := rfl
      refine .head (Step.signal (t := 2) rfl hsignal (fun u => u == 0) ?_) ?_
      · intro _
        exact ⟨0, _, rfl, rfl⟩
      refine .head (Step.unlock (t := 2) rfl rfl rfl) ?_
      exact .refl
    case asleep => rfl
    case free => rfl
    case size => rfl
  obtain ⟨queued, hqueued, hbound, -⟩ := mailbox_noLostWakeup (newMailbox_start (Fin 3) 1) hr
  have hlength : queued.length = 1 := hqueued.queueSize.symm.trans hsize
  exact ⟨st, hr, hasleep, hfree, queued, hqueued, hlength, hbound ⟨1, hasleep⟩ hfree⟩

end AeadPerf.Bench
