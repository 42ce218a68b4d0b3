/-
# `Bench.MailboxDelivers` — what is sent arrives

`send_msg` returns what `enqueue` returned to it, and `recv_msg` what `dequeue` returned.  A run is
recorded twice:

    history    the calls and the returns, with what is returned, as they happen
    log        the operations on the queue under the lock, with what came of them, as they are made

What the calls of a thread have returned, and what the one that it is in will return, is what came of
its operations (`Answered`).  And the messages of the operations of `send_msg` that came to 0 are those
of the operations of `recv_msg`, and then those that are queued, in the order of the log
(`mailbox_delivers`).

As in `Bench.MailboxLinear`, nobody writes to a buffer before `recv_msg` has returned it.
-/
import AeadPerf.Bench.MailboxLinear

namespace AeadPerf.Bench

open Words HeapProg Monitor Linear

variable {T : Type} {n : Nat} {q : Addr}

/-! ## The records of a run -/

section Records

variable [DecidableEq T]

/-- A run with its history and its log; what happens elsewhere keeps the buffers not yet returned. -/
inductive LoggedRun (n : Nat) (q : Addr) (st₀ : State Mailbox Point T) :
    List (T × Action ChannelOp ChannelRes) → List (T × ChannelOp × ChannelRes) →
    State Mailbox Point T → Prop where
  | refl : LoggedRun n q st₀ [] [] st₀
  | step {history : List (T × Action ChannelOp ChannelRes)} {log : List (T × ChannelOp × ChannelRes)}
      {st st' : State Mailbox Point T} {t : T} {m : Mode Point} (hrun : LoggedRun n q st₀ history log st)
      (hstep : StepBy (code n q) t m st st')
      (hkeep : IsElsewhere (st.mode t) m → ∀ u a, InCall (st.mode u) a →
        st'.shared.heap.get a = st.shared.heap.get a) :
      LoggedRun n q st₀ (history ++ ((action n st.shared.heap (st.mode t) m).map (t, ·)).toList)
        (log ++ ((operation n st'.shared.heap (st.mode t) m).map (t, ·)).toList) st'
  | wakeup {history : List (T × Action ChannelOp ChannelRes)} {log : List (T × ChannelOp × ChannelRes)}
      {st : State Mailbox Point T} (hrun : LoggedRun n q st₀ history log st) (W : T → Bool) :
      LoggedRun n q st₀ history log { st with mode := wake W st.mode }

end Records

/-- The messages that `enqueue` took, … -/
def sentIn (log : List (T × ChannelOp × ChannelRes)) : List (Array Byte) :=
  log.filterMap fun
    | (_, .send msg, .sent status) => if status = 0 then some msg else none
    | _ => none

/-- … and those that `dequeue` returned. -/
def receivedIn (log : List (T × ChannelOp × ChannelRes)) : List (Option (Array Byte)) :=
  log.filterMap fun
    | (_, _, .received msg) => some msg
    | _ => none

/-- The operation that the call of a thread has still to make. -/
def asked (n : Nat) : Mode Point → Option ChannelOp
  | .running (.sendLock msg) | .running (.sendEnqueue msg) => some (.send (msg.extract 0 n))
  | .running .recvLock | .running .recvTest | .running .recvWait | .running .recvDequeue => some .recv
  | .asleep _ | .woken _ => some .recv
  | _ => none

/-- What the call of a thread will return, once it has made its operation. -/
def answer (h : Heap Content) : Mode Point → Option ChannelRes
  | .running (.sendTest status) | .running (.sendSignal status) => some (.sent status)
  | .running (.sendUnlock status) | .running (.sendReturn status) => some (.sent status)
  | .running (.recvUnlock msg) | .running (.recvReturn msg) => some (.received (messageAt h msg))
  | _ => none

/-- The calls of `t` ask for its operations in the log, and for the one still to be made; they have
returned what came of these operations, but for what is still to be returned. -/
structure Answered [DecidableEq T] (n : Nat) (h : Heap Content) (m : Mode Point) (t : T)
    (history : List (T × Action ChannelOp ChannelRes)) (log : List (T × ChannelOp × ChannelRes)) : Prop where
  ops : Linear.calls t history = opsOf t log ++ (asked n m).toList
  results : resultsOf t log = returns t history ++ (answer h m).toList

/-! ## What the records say -/

section Steps

variable {h : Heap Content} {used : List Addr} {m : Mode Point} {s : Status ChannelOp ChannelRes}
  {mb : Mailbox} {st st' : State Mailbox Point T} {t : T}

/-- Where a thread is with its call on the channel, it is with that of the mailbox. -/
theorem Matches.call (hm : Matches n h used m s) : asked n m = s.op ∧ answer h m = s.res := by
  cases m with
  | asleep p =>
      cases hm
      exact ⟨rfl, rfl⟩
  | woken p =>
      cases hm
      exact ⟨rfl, rfl⟩
  | running p =>
      cases p with
      | recvUnlock msg | recvReturn msg =>
          obtain ⟨a, b, rfl, rfl, hlive, -⟩ := hm
          refine ⟨rfl, ?_⟩
          rw [answer, messageAt_live hlive, Status.res]
      | stopped e => exact hm.elim
      | _ =>
          cases hm
          exact ⟨rfl, rfl⟩

variable [DecidableEq T]

theorem Matches.answered {history : List (T × Action ChannelOp ChannelRes)}
    {log : List (T × ChannelOp × ChannelRes)} (hm : Matches n h used m s)
    (hk : Atomic.Keeps history log t s) : Answered n h m t history log := by
  obtain ⟨hasked, hanswer⟩ := hm.call
  obtain ⟨hops, hresults⟩ := hk.pending
  exact ⟨hasked ▸ hops, hanswer ▸ hresults⟩

omit [DecidableEq T] in
/-- A step that makes no operation adds nothing to the records of the mailbox, … -/
theorem records_none {m' : Mailbox} {m₁ m₂ : Mode Point} (hop : operation n h m₁ m₂ = none)
    (hsent : m'.sent = mb.sent) (hreceived : m'.received = mb.received) :
    m'.sent = mb.sent ++ sentIn ((operation n h m₁ m₂).map (t, ·)).toList
      ∧ m'.received = mb.received ++ receivedIn ((operation n h m₁ m₂).map (t, ·)).toList := by
  rw [hop, hsent, hreceived]
  exact ⟨(List.append_nil _).symm, (List.append_nil _).symm⟩

omit [DecidableEq T] in
/-- … and one that makes an operation adds what the log gets. -/
theorem act_records {m' : Mailbox} {p p' : Point} {R : Mailbox → Point → Mailbox → Prop}
    (hcode : code n q p = .act R) (hR : R mb p' m') :
    m'.sent = mb.sent ++ sentIn ((operation n m'.heap (.running p) (.running p')).map (t, ·)).toList
      ∧ m'.received = mb.received
        ++ receivedIn ((operation n m'.heap (.running p) (.running p')).map (t, ·)).toList := by
  cases p with
  | sendEnqueue msg =>
      cases hcode
      obtain ⟨ok, hcall⟩ := hR
      rw [calls] at hcall
      split at hcall
      · obtain ⟨rfl, rfl⟩ := hcall
        rename_i status h _
        by_cases hstatus : status = 0
        · simp [recordSent, operation, sentIn, receivedIn, hstatus]
        · simp [recordSent, operation, sentIn, receivedIn, hstatus]
      · obtain ⟨rfl, rfl⟩ := hcall
        exact records_none rfl rfl rfl
  | recvDequeue =>
      cases hcode
      rw [calls] at hR
      split at hR
      · obtain ⟨rfl, rfl⟩ := hR
        simp [recordReceived, operation, sentIn, receivedIn]
      · obtain ⟨rfl, rfl⟩ := hR
        exact records_none rfl rfl rfl
  | recvTest =>
      cases hcode
      rw [calls] at hR
      split at hR
      · obtain ⟨rfl, rfl⟩ := hR
        exact records_none rfl rfl rfl
      · obtain ⟨rfl, rfl⟩ := hR
        exact records_none rfl rfl rfl
  | out =>
      cases hcode
      cases hR <;> exact records_none rfl rfl rfl
  | sendTest | sendReturn | recvReturn =>
      cases hcode
      obtain ⟨-, rfl⟩ := hR
      exact records_none rfl rfl rfl
  | stopped e =>
      cases hcode
      exact hR.elim
  | _ => cases hcode

theorem step_records (hs : (outline n q).Sound st) (hstep : StepBy (code n q) t m st st') :
    st'.shared.sent = st.shared.sent
        ++ sentIn ((operation n st'.shared.heap (st.mode t) m).map (t, ·)).toList
      ∧ st'.shared.received = st.shared.received
        ++ receivedIn ((operation n st'.shared.heap (st.mode t) m).map (t, ·)).toList := by
  rcases step_cases hs hstep with ⟨_, hp, hlock, hshared⟩ | ⟨p, p', R, hp, rfl, hcode, hR⟩
  · rw [hp, hshared]
    cases hlock <;> exact records_none rfl rfl rfl
  · rw [hp]
    exact act_records hcode hR

end Steps

/-! ## Delivery -/

section Runs

variable [DecidableEq T] {st₀ st : State Mailbox Point T}
  {history : List (T × Action ChannelOp ChannelRes)} {log : List (T × ChannelOp × ChannelRes)}

omit [DecidableEq T] in
theorem sentIn_append (log log' : List (T × ChannelOp × ChannelRes)) :
    sentIn (log ++ log') = sentIn log ++ sentIn log' := List.filterMap_append

omit [DecidableEq T] in
theorem receivedIn_append (log log' : List (T × ChannelOp × ChannelRes)) :
    receivedIn (log ++ log') = receivedIn log ++ receivedIn log' := List.filterMap_append

/-- A logged run is a run, … -/
theorem LoggedRun.reachable (hrun : LoggedRun n q st₀ history log st) : Reachable (code n q) st₀ st := by
  induction hrun with
  | refl => exact .refl
  | step _ hstep _ ih => exact ih.tail hstep.step
  | wakeup _ W ih => exact ih.tail (.spurious W)

/-- … its log is that of a channel, … -/
theorem LoggedRun.logs (hstart : Start n q st₀) (hrun : LoggedRun n q st₀ history log st) :
    ∃ a, AsChannel n q st a ∧ Atomic.Logs Channel [] history a log := by
  induction hrun with
  | refl => exact ⟨_, hstart.asChannel, Atomic.logs_start⟩
  | step _ hstep hkeep ih =>
      obtain ⟨a, hsim, hlogs⟩ := ih
      obtain ⟨a', hmove, hsim'⟩ := asChannel_stepBy hsim hstep hkeep
      exact ⟨a', hsim', hlogs.step hmove⟩
  | wakeup _ W ih =>
      obtain ⟨a, hsim, hlogs⟩ := ih
      exact ⟨a, hsim.wake W, hlogs⟩

/-- … and the mailbox's records are those of the log. -/
theorem LoggedRun.records (hstart : Start n q st₀) (hrun : LoggedRun n q st₀ history log st) :
    st.shared.sent = sentIn log ∧ st.shared.received = receivedIn log := by
  induction hrun with
  | refl => exact ⟨hstart.sent, hstart.received⟩
  | step hrun hstep _ ih =>
      obtain ⟨hsent, hreceived⟩ := step_records (sound_of_start hstart hrun.reachable) hstep
      rw [sentIn_append, receivedIn_append, ← ih.1, ← ih.2]
      exact ⟨hsent, hreceived⟩
  | wakeup _ _ ih => exact ih

/-- The calls of each thread return what came of its operations. -/
theorem LoggedRun.answered (hstart : Start n q st₀) (hrun : LoggedRun n q st₀ history log st) (t : T) :
    Answered n st.shared.heap (st.mode t) t history log := by
  obtain ⟨a, hsim, hlogs⟩ := hrun.logs hstart
  obtain ⟨items, -, -, hmatches⟩ := hsim.shows
  exact (hmatches t).answered (hlogs.keeps t)

/-- What a thread was given by `recv_msg`, is in the log. -/
theorem mem_receivedIn {m : Mode Point} {h : Heap Content} {t : T} {msg : Option (Array Byte)}
    (ha : Answered n h m t history log) (hmem : (t, .ret (.received msg)) ∈ history) :
    msg ∈ receivedIn log := by
  have hreturned : ChannelRes.received msg ∈ Linear.returns t history :=
    List.mem_filterMap.mpr ⟨_, hmem, if_pos rfl⟩
  have hresult : ChannelRes.received msg ∈ resultsOf t log := by
    rw [ha.results]
    exact List.mem_append_left _ hreturned
  obtain ⟨⟨u, op, res⟩, hlog, hres⟩ := List.mem_filterMap.mp hresult
  split at hres
  · cases hres
    exact List.mem_filterMap.mpr ⟨_, hlog, rfl⟩
  · cases hres

/-- **Delivery**: at every moment of every run the messages that calls of `recv_msg` got, in the order
in which they were dequeued, followed by what is queued, are those of the calls of `send_msg` that
returned 0 or will, in the order in which they were enqueued.  For what the log says came of an
operation, is what its call returns: of each thread in the order of its calls.  No call of `recv_msg`
returns NULL, and none stops at a fault. -/
theorem mailbox_delivers (hstart : Start n q st₀) (hrun : LoggedRun n q st₀ history log st) :
    (∃ queued, Represents st.shared.heap q queued
        ∧ receivedIn log ++ queued.map some = (sentIn log).map some)
      ∧ (st.shared.sent = sentIn log ∧ st.shared.received = receivedIn log)
      ∧ (∀ t, Answered n st.shared.heap (st.mode t) t history log)
      ∧ (∀ t, (t, .ret (.received none)) ∉ history ∧ st.mode t ≠ .running (.recvReturn none))
      ∧ ∀ t e, st.mode t ≠ .running (.stopped e) := by
  have hs := sound_of_start hstart hrun.reachable
  obtain ⟨hsent, hreceived⟩ := hrun.records hstart
  obtain ⟨queued, hqueued, hdelivers⟩ := queued_of_reachable hstart hrun.reachable
  rw [hsent, hreceived] at hdelivers
  refine ⟨⟨queued, hqueued, hdelivers⟩, ⟨hsent, hreceived⟩, hrun.answered hstart, ?_, ?_⟩
  · intro t
    refine ⟨fun hmem => ?_, fun hp => hs.pre t _ hp rfl⟩
    have hnone : none ∈ (sentIn log).map some := by
      rw [← hdelivers]
      exact List.mem_append_left _ (mem_receivedIn (hrun.answered hstart t) hmem)
    obtain ⟨msg, -, hmsg⟩ := List.mem_map.mp hnone
    cases hmsg
  · intro t e hp
    exact hs.pre t _ hp

end Runs

/-- The receiver calls first, and the sender has the lock first. -/
theorem mailbox_delivers_one : ∃ history log, ∃ st : State Mailbox Point Bool,
    LoggedRun 1 0 (newMailbox Bool 1) history log st
      ∧ history = [(false, .call .recv), (true, .call (.send #[7])), (true, .ret (.sent 0)),
          (false, .ret (.received (some #[7])))]
      ∧ resultsOf true log = Linear.returns true history ++ []
      ∧ resultsOf false log = Linear.returns false history ++ []
      ∧ ∃ queued, Represents st.shared.heap 0 queued
        ∧ receivedIn log ++ queued.map some = (sentIn log).map some := by
  have hrun : LoggedRun 1 0 (newMailbox Bool 1) [] [] (newMailbox Bool 1) := .refl
  have hrun := hrun.step (t := false) (.act rfl rfl Begins.recv) fun h => nomatch h.2
  have hrun := hrun.step (t := true) (.act rfl rfl (Begins.send #[7] (Nat.le_refl 1))) fun h => nomatch h.2
  have hrun := hrun.step (t := true) (.lock rfl rfl rfl) fun h => nomatch h.2
  have hrun := hrun.step (t := true) (.act rfl rfl ⟨(true, true), rfl, rfl⟩) fun h => nomatch h.2
  have hrun := hrun.step (t := true) (.act rfl rfl ⟨rfl, rfl⟩) fun h => nomatch h.2
  have hsignal : code 1 0 (.sendSignal 0) = .signal (.sendUnlock 0) := rfl
  have hrun := hrun.step (t := true)
    (.signal rfl hsignal (fun _ => true) fun ⟨u, p, hu⟩ => ⟨u, p, rfl, hu⟩) fun h => nomatch h.2
  have hrun := hrun.step (t := true) (.unlock rfl rfl rfl) fun h => nomatch h.2
  have hrun := hrun.step (t := true) (.act rfl rfl ⟨rfl, rfl⟩) fun h => nomatch h.1
  have hrun := hrun.step (t := false) (.lock rfl rfl rfl) fun h => nomatch h.2
  have hrun := hrun.step (t := false) (.act rfl rfl ⟨rfl, rfl⟩) fun h => nomatch h.2
  have hrun := hrun.step (t := false) (.act rfl rfl ⟨rfl, rfl⟩) fun h => nomatch h.2
  have hrun := hrun.step (t := false) (.unlock rfl rfl rfl) fun h => nomatch h.2
  have hrun := hrun.step (t := false) (.act rfl rfl ⟨rfl, rfl⟩) fun h => nomatch h.1
  have hdelivers := mailbox_delivers (newMailbox_start Bool 1) hrun
  exact ⟨_, _, _, hrun, rfl, (hdelivers.2.2.1 true).results, (hdelivers.2.2.1 false).results, hdelivers.1⟩

end AeadPerf.Bench
