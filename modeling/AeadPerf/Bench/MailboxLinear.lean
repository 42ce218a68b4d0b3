/-
# `Bench.MailboxLinear` — the mailbox as a channel

To its callers a mailbox is a channel of messages.  The channel as such, without threads:

    send    appends the message and answers 0, or does nothing and answers -1
    recv    takes the first message, and there must be one

A call of `send_msg` takes place when `enqueue` returns, and a call of `recv_msg` when `dequeue` does.
So the mailbox is simulated by the atomic channel, and whatever threads see of it, in any order of
their steps, they could see of a channel that does one operation at a time, each between its call and
its return (`mailbox_linearizable`).

What a receiver sees of a message are the bytes at the pointer when `recv_msg` returns it.  Until then
nobody else has the pointer; the runs here are those in which nobody writes to the buffer before.
-/
import AeadPerf.Lib.Linear
import AeadPerf.Bench.MailboxOwns

namespace AeadPerf.Bench

open Words HeapProg Monitor Linear

/-! ## The channel -/

inductive ChannelOp where
  | send (msg : Array Byte)
  | recv
  deriving DecidableEq, Repr

inductive ChannelRes where
  | sent (status : Int)
  | received (msg : Option (Array Byte))
  deriving DecidableEq, Repr

/-- A channel that holds a list of messages. -/
inductive Channel : List (Array Byte) → ChannelOp → ChannelRes → List (Array Byte) → Prop where
  | sent (msg : Array Byte) (l : List (Array Byte)) : Channel l (.send msg) (.sent 0) (l ++ [msg])
  | notSent (msg : Array Byte) (l : List (Array Byte)) : Channel l (.send msg) (.sent (-1)) l
  | received (msg : Array Byte) (l : List (Array Byte)) : Channel (msg :: l) .recv (.received (some msg)) l

/-! ## What can be seen of the mailbox -/

/-- The call or the return that takes a thread from one point to the next. -/
def action (n : Nat) (h : Heap Content) : Mode Point → Mode Point → Option (Action ChannelOp ChannelRes)
  | .running .out, .running (.sendLock msg) => some (.call (.send (msg.extract 0 n)))
  | .running .out, .running .recvLock => some (.call .recv)
  | .running (.sendReturn status), _ => some (.ret (.sent status))
  | .running (.recvReturn msg), _ => some (.ret (.received (messageAt h msg)))
  | _, _ => none

/-- The operation on the queue that a step makes, and what came of it; `h` is the heap after it. -/
def operation (n : Nat) (h : Heap Content) : Mode Point → Mode Point → Option (ChannelOp × ChannelRes)
  | .running (.sendEnqueue msg), .running (.sendTest status) => some (.send (msg.extract 0 n), .sent status)
  | .running .recvDequeue, .running (.recvUnlock msg) => some (.recv, .received (messageAt h msg))
  | _, _ => none

/-- A call of `recv_msg` has the buffer and has not returned it. -/
def InCall (m : Mode Point) (a : Addr) : Prop :=
  m = .running (.recvUnlock (some a)) ∨ m = .running (.recvReturn (some a))

variable {T : Type} [DecidableEq T] {n : Nat} {q : Addr}

/-- A step and what can be seen of it; what happens elsewhere keeps the buffers not yet returned. -/
inductive SeenStep (n : Nat) (q : Addr) : State Mailbox Point T →
    Option (T × Action ChannelOp ChannelRes) → State Mailbox Point T → Prop where
  | step {st st' : State Mailbox Point T} {t : T} {m : Mode Point} (hstep : StepBy (code n q) t m st st')
      (hkeep : IsElsewhere (st.mode t) m → ∀ u a, InCall (st.mode u) a →
        st'.shared.heap.get a = st.shared.heap.get a) :
      SeenStep n q st ((action n st.shared.heap (st.mode t) m).map (t, ·)) st'
  | wakeup {st : State Mailbox Point T} (W : T → Bool) :
      SeenStep n q st none { st with mode := wake W st.mode }

/-! ## Where the threads are -/

/-- Where a thread in that mode is with its call on the channel, if the queue has the cells `used`. -/
def Matches (n : Nat) (h : Heap Content) (used : List Addr) : Mode Point → Status ChannelOp ChannelRes → Prop
  | .running .out, s => s = .idle
  | .running (.sendLock msg), s | .running (.sendEnqueue msg), s => s = .pending (.send (msg.extract 0 n))
  | .running (.sendTest status), s | .running (.sendSignal status), s
  | .running (.sendUnlock status), s | .running (.sendReturn status), s => s = .done (.sent status)
  | .running .recvLock, s | .running .recvTest, s | .running .recvWait, s | .running .recvDequeue, s
  | .asleep _, s | .woken _, s => s = .pending .recv
  | .running (.recvUnlock msg), s | .running (.recvReturn msg), s =>
      ∃ a b, msg = some a ∧ s = .done (.received (some b)) ∧ h.Live a (.bytes b) ∧ a ∉ used
  | .running (.stopped _), _ => False

section Matches

variable {h h' : Heap Content} {used used' : List Addr} {m : Mode Point} {s : Status ChannelOp ChannelRes}
  {items items' : List Item} {p p' : Point}

theorem Matches.keep (hm : Matches n h used m s)
    (hkeep : ∀ a, InCall m a → ∀ c, h.Live a c → a ∉ used → h'.Live a c ∧ a ∉ used') :
    Matches n h' used' m s := by
  cases m with
  | asleep p => exact hm
  | woken p => exact hm
  | running p =>
      cases p with
      | recvUnlock msg =>
          obtain ⟨a, b, rfl, hs, hlive, hused⟩ := hm
          exact ⟨a, b, rfl, hs, hkeep a (Or.inl rfl) _ hlive hused⟩
      | recvReturn msg =>
          obtain ⟨a, b, rfl, hs, hlive, hused⟩ := hm
          exact ⟨a, b, rfl, hs, hkeep a (Or.inr rfl) _ hlive hused⟩
      | _ => exact hm

/-- Whether a thread is asleep or woken is the same. -/
theorem Matches.woken {m' : Mode Point} (hm : Matches n h used m s) (hmode : m' = m ∨ m' = m.wake) :
    Matches n h used m' s := by
  rcases hmode with rfl | rfl
  · exact hm
  · cases m with
    | asleep p => exact hm
    | _ => exact hm

/-- The steps that are not on the lock move the channel. -/
theorem Does.moves (hd : Does n q h items p p' h' items')
    (hm : Matches n h (cells q items) (.running p) s) :
    ∃ s', Matches n h' (cells q items') (.running p') s'
      ∧ Move Channel (items.map Item.bytes) s (action n h (.running p) (.running p'))
          (operation n h' (.running p) (.running p')) (items'.map Item.bytes) s' := by
  cases hd with
  | send msg =>
      cases hm
      exact ⟨_, rfl, .call _⟩
  | recv =>
      cases hm
      exact ⟨_, rfl, .call _⟩
  | @enqueued msg _ it hbytes hh hx =>
      cases hm
      refine ⟨_, rfl, .commit ?_⟩
      rw [List.map_append, List.map_singleton, hbytes]
      exact Channel.sent _ _
  | notEnqueued hh hsame =>
      cases hm
      exact ⟨_, rfl, .commit (Channel.notSent _ _)⟩
  | succeeded status => exact ⟨s, hm, .stay s⟩
  | failed status => exact ⟨s, hm, .stay s⟩
  | sent status =>
      cases hm
      exact ⟨_, rfl, .ret _⟩
  | foundEmpty => exact ⟨s, hm, .stay s⟩
  | foundSome => exact ⟨s, hm, .stay s⟩
  | @dequeued it rest _ hitems hh hjob hx =>
      cases hm
      subst hitems
      have hused : it.job ∉ cells q items' := fun hmem =>
        (List.nodup_append.mp hx.nodup).2.2 _ hmem _ (List.mem_singleton_self _) rfl
      refine ⟨_, ⟨it.job, it.bytes, rfl, rfl, hjob, hused⟩, ?_⟩
      rw [operation, messageAt_live hjob]
      exact .commit (Channel.received _ _)
  | received msg =>
      obtain ⟨a, b, rfl, rfl, hlive, -⟩ := hm
      refine ⟨_, rfl, ?_⟩
      rw [action, messageAt_live hlive]
      exact .ret _

end Matches

/-! ## The simulation -/

/-- The channel holds what is queued, and each thread is as far with its call. -/
structure AsChannel (n : Nat) (q : Addr) (st : State Mailbox Point T)
    (a : Atomic T ChannelOp ChannelRes (List (Array Byte))) : Prop where
  sound : (outline n q).Sound st
  shows : ∃ items, Holds st.shared.heap q n items ∧ a.value = items.map Item.bytes
    ∧ ∀ t, Matches n st.shared.heap (cells q items) (st.mode t) (a.status t)

section Simulation

variable {st₀ st st' : State Mailbox Point T} {a : Atomic T ChannelOp ChannelRes (List (Array Byte))}
  {items : List Item} {t : T} {m : Mode Point} {s : Status ChannelOp ChannelRes}

/-- Any step inside a call moves the channel. -/
theorem step_moves (hs : (outline n q).Sound st) (hh : Holds st.shared.heap q n items)
    (hstep : StepBy (code n q) t m st st') (hcall : ¬ IsElsewhere (st.mode t) m)
    (hm : Matches n st.shared.heap (cells q items) (st.mode t) s) :
    ∃ items' s', Holds st'.shared.heap q n items'
      ∧ Exchange st.shared.heap st'.shared.heap (cells q items) (cells q items' ++ handed m)
      ∧ Matches n st'.shared.heap (cells q items') m s'
      ∧ Move Channel (items.map Item.bytes) s (action n st.shared.heap (st.mode t) m)
          (operation n st'.shared.heap (st.mode t) m) (items'.map Item.bytes) s' := by
  rcases step_cases hs hstep with ⟨_, hp, hlock, hshared⟩ | ⟨p, p', R, hp, rfl, hcode, hR⟩
  · rw [hp] at hm ⊢
    rw [hshared]
    cases hlock <;> exact ⟨items, s, hh, hh.idle, hm, .stay s⟩
  · rw [hp] at hm hcall ⊢
    obtain ⟨items', hd⟩ := does_of_act hcode hh (hs.pre t _ hp) hR hcall
    obtain ⟨hh', hx⟩ := hd.exchange hh
    obtain ⟨s', hm', hmove⟩ := hd.moves hm
    exact ⟨items', s', hh', hx, hm', hmove⟩

/-- What happens elsewhere does not. -/
theorem asChannel_elsewhere (hsim : AsChannel n q st a) (hstep : StepBy (code n q) t m st st')
    (helse : IsElsewhere (st.mode t) m)
    (hkeep : ∀ u b, InCall (st.mode u) b → st'.shared.heap.get b = st.shared.heap.get b) :
    AsChannel n q st' a := by
  obtain ⟨items, hh, hvalue, hmatches⟩ := hsim.shows
  refine ⟨hsim.sound.step hstep.step, items, ?_, hvalue, ?_⟩
  · obtain ⟨ht, rfl⟩ := helse
    rcases step_cases hsim.sound hstep with ⟨_, hp, hlock, -⟩ | ⟨p, p', R, hp, hp', hcode, hR⟩
    · cases ht.symm.trans hp
      cases hlock
    · cases ht.symm.trans hp
      cases hp'
      cases hcode
      generalize st'.shared = m' at hR ⊢
      cases hR with
      | elsewhere h hkeep' => exact hh.elsewhere hkeep'
  · intro u
    have hmode : st'.mode u = st.mode u ∨ st'.mode u = (st.mode u).wake := by
      rcases eq_or_ne u t with rfl | hu
      · exact Or.inl (hstep.mode_self.trans (helse.2.trans helse.1.symm))
      · exact hstep.mode_other hu
    refine ((hmatches u).keep ?_).woken hmode
    intro b hb c hc hused
    exact ⟨(hkeep u b hb).trans hc, hused⟩

/-- The atomic channel simulates each step of a thread, … -/
theorem asChannel_stepBy (hsim : AsChannel n q st a) (hstep : StepBy (code n q) t m st st')
    (hkeep : IsElsewhere (st.mode t) m → ∀ u b, InCall (st.mode u) b →
      st'.shared.heap.get b = st.shared.heap.get b) :
    ∃ a', Atomic.Step Channel a ((action n st.shared.heap (st.mode t) m).map (t, ·))
        ((operation n st'.shared.heap (st.mode t) m).map (t, ·)) a'
      ∧ AsChannel n q st' a' := by
  by_cases helse : IsElsewhere (st.mode t) m
  · have hsim' := asChannel_elsewhere hsim hstep helse (hkeep helse)
    rw [helse.1, helse.2]
    exact ⟨a, .stay a, hsim'⟩
  · obtain ⟨items, hh, hvalue, hmatches⟩ := hsim.shows
    obtain ⟨items', s', hh', hx, hm', hmove⟩ := step_moves hsim.sound hh hstep helse (hmatches t)
    rw [← hvalue] at hmove
    refine ⟨_, .move hmove, hsim.sound.step hstep.step, items', hh', rfl, ?_⟩
    intro u
    rcases eq_or_ne u t with rfl | hu
    · rw [hstep.mode_self]
      simpa only [Function.update_self] using hm'
    · simp only [Function.update_of_ne hu]
      refine ((hmatches u).keep ?_).woken (hstep.mode_other hu)
      intro b _ c hc hused
      refine ⟨hx.keeps hc hused, fun hmem => ?_⟩
      exact hx.disjoint ⟨c, hc⟩ hused (List.mem_append_left _ hmem)

omit [DecidableEq T] in
/-- … and a wakeup does not concern it. -/
theorem AsChannel.wake (hsim : AsChannel n q st a) (W : T → Bool) :
    AsChannel n q { st with mode := Monitor.wake W st.mode } a := by
  obtain ⟨items, hh, hvalue, hmatches⟩ := hsim.shows
  refine ⟨hsim.sound.wake W, items, hh, hvalue, ?_⟩
  intro u
  exact (hmatches u).woken (wake_or W st.mode u)

theorem asChannel_step {label : Option (T × Action ChannelOp ChannelRes)} (hsim : AsChannel n q st a)
    (hstep : SeenStep n q st label st') :
    ∃ a', (∃ entry, Atomic.Step Channel a label entry a') ∧ AsChannel n q st' a' := by
  cases hstep with
  | step hstep hkeep =>
      obtain ⟨a', hmove, hsim'⟩ := asChannel_stepBy hsim hstep hkeep
      exact ⟨a', ⟨_, hmove⟩, hsim'⟩
  | wakeup W => exact ⟨a, ⟨none, .stay a⟩, hsim.wake W⟩

omit [DecidableEq T] in
/-- A mailbox is an empty channel when it starts. -/
theorem Start.asChannel (hstart : Start n q st₀) :
    AsChannel n q st₀ (Atomic.start T ChannelOp ChannelRes []) := by
  have hs := hstart.sound
  obtain ⟨items, hd⟩ := hs.inv
  -- nothing has been sent yet
  have hitems : items = [] := by
    have hcount := congrArg List.length hd.sent
    rw [hstart.sent, hstart.received] at hcount
    exact List.eq_nil_of_length_eq_zero (by simpa using hcount.symm)
  subst hitems
  refine ⟨hs, [], hd.holds, rfl, ?_⟩
  intro t
  rw [hstart.mode t]
  rfl

/-- **The mailbox is a channel**: of any run of any number of threads, whatever was called and returned
is linearizable.  There is one order of the operations in which a channel, doing one after the other,
gives all the results returned, and in which each operation takes place between its call and its
return. -/
theorem mailbox_linearizable {history : List (T × Action ChannelOp ChannelRes)} (hstart : Start n q st₀)
    (hrun : History (SeenStep n q) st₀ history st) : Linearizable Channel [] history := by
  have hsim : ∀ (st : State Mailbox Point T) a label st', AsChannel n q st a → SeenStep n q st label st' →
      ∃ a', (∃ entry, Atomic.Step Channel a label entry a') ∧ AsChannel n q st' a' :=
    fun _ _ _ _ => asChannel_step
  exact linearizable_of_simulation hsim hstart.asChannel hrun

end Simulation

/-- The receiver calls first, and is woken when the sender has sent. -/
theorem mailbox_linearizable_woken : Linearizable Channel []
    [(false, .call .recv), (true, .call (.send #[7])), (true, .ret (.sent 0))] := by
  have hrun : History (SeenStep 1 0) (newMailbox Bool 1) [] (newMailbox Bool 1) := .refl
  have hrun := hrun.tail (.step (t := false) (.act rfl rfl Begins.recv) fun h => nomatch h.2)
  have hrun := hrun.tail (.step (t := false) (.lock rfl rfl rfl) fun h => nomatch h.2)
  have hrun := hrun.tail (.step (t := false) (.act rfl rfl ⟨rfl, rfl⟩) fun h => nomatch h.2)
  have hrun := hrun.tail (.step (t := false) (.wait rfl rfl rfl) fun h => nomatch h.2)
  have hrun := hrun.tail (.step (t := true) (.act rfl rfl (Begins.send #[7] (Nat.le_refl 1)))
    fun h => nomatch h.2)
  have hrun := hrun.tail (.step (t := true) (.lock rfl rfl rfl) fun h => nomatch h.2)
  have hrun := hrun.tail (.step (t := true) (.act rfl rfl ⟨(true, true), rfl, rfl⟩) fun h => nomatch h.2)
  have hrun := hrun.tail (.step (t := true) (.act rfl rfl ⟨rfl, rfl⟩) fun h => nomatch h.2)
  have hsignal : code 1 0 (.sendSignal 0) = .signal (.sendUnlock 0) := rfl
  have hrun := hrun.tail (.step (t := true)
    (.signal rfl hsignal (fun _ => true) fun ⟨u, p, hu⟩ => ⟨u, p, rfl, hu⟩) fun h => nomatch h.2)
  have hrun := hrun.tail (.step (t := true) (.unlock rfl rfl rfl) fun h => nomatch h.2)
  have hrun := hrun.tail (.step (t := true) (.act rfl rfl ⟨rfl, rfl⟩) fun h => nomatch h.1)
  exact mailbox_linearizable (newMailbox_start Bool 1) hrun

end AeadPerf.Bench
