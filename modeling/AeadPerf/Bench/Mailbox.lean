/-
# `Bench.Mailbox` — `mailbox.h`

A thread is outside, or at a point of `send_msg` or of `recv_msg`:

    send_msg                                      recv_msg
    sendLock      pthread_mutex_lock              recvLock      pthread_mutex_lock
    sendEnqueue   status = enqueue(q, msg)        recvTest      while(empty(q))
    sendTest      if(status == 0)                 recvWait        pthread_cond_wait
    sendSignal      pthread_cond_signal           recvDequeue   msg = dequeue(q)
    sendUnlock    pthread_mutex_unlock            recvUnlock    pthread_mutex_unlock
    sendReturn    return status                   recvReturn    return msg

The mutex and the condition variable are those of `Lib.Monitor`; the calls on the queue are
the functions of `Bench.Queue`, on the heap all threads share.  If one stopped at a fault the
thread would be at `stopped`.  Outside, a thread may do what it likes to the cells that the
queue does not use.

Each call on the queue is one step, although the code takes several.  This is sound for what
threads see of each other: a thread makes these calls only between lock and unlock, two
threads are never there at once (`locked_unique`), and what others do meanwhile is without the
lock and so does not touch the cells of the queue (`Effect.keeps`).  In the middle of such a
call the queue may be as no state here shows it.

Two lists record a run.  `sent` gets a message when its `enqueue` returns 0, and `received` what
the pointer points to that `dequeue` returns.  At every moment the first is the second followed
by what is queued (`queued_of_reachable`); what the calls return is in `Bench.MailboxDelivers`.
-/
import AeadPerf.Lib.Monitor
import AeadPerf.Bench.QueueFifo

namespace AeadPerf.Bench

open Words HeapProg Monitor

/-! ## The code -/

/-- `init_mail_box`: the mailbox's queue, and what it returns. -/
def initMailBox (ok : Bool) (msgsize : Nat) : Prog Content (Ptr × Int) := do
  let q ← newQueue ok msgsize
  match q with
  | some _ => pure (q, 0)
  | none => pure (q, -1)

/-- Where a thread is. -/
inductive Point where
  | out
  | sendLock (msg : Array Byte)
  | sendEnqueue (msg : Array Byte)
  | sendTest (status : Int)
  | sendSignal (status : Int)
  | sendUnlock (status : Int)
  | sendReturn (status : Int)
  | recvLock
  | recvTest
  | recvWait
  | recvDequeue
  | recvUnlock (msg : Ptr)
  | recvReturn (msg : Ptr)
  | stopped (e : Fault)
  deriving DecidableEq, Repr

/-- What the threads share, and the record of the run. -/
structure Mailbox where
  heap : Heap Content
  sent : List (Array Byte)
  received : List (Option (Array Byte))

/-- The bytes of the message that `p` points to. -/
def messageAt (h : Heap Content) (p : Ptr) : Option (Array Byte) :=
  p.bind fun a =>
    match h.get a with
    | some (.live (.bytes b)) => some b
    | _ => none

def recordSent (n : Nat) (msg : Array Byte) (status : Int) (m : Mailbox) : Mailbox :=
  if status = 0 then { m with sent := m.sent ++ [msg.extract 0 n] } else m

def recordReceived (msg : Ptr) (m : Mailbox) : Mailbox :=
  { m with received := m.received ++ [messageAt m.heap msg] }

/-- A call on the queue: the thread goes on with what it returns. -/
def calls {α : Type} (x : Prog Content α) (next : α → Point) (record : α → Mailbox → Mailbox)
    (m : Mailbox) (p' : Point) (m' : Mailbox) : Prop :=
  match x m.heap with
  | .ok (r, h) => p' = next r ∧ m' = record r { m with heap := h }
  | .error e => p' = .stopped e ∧ m' = m

/-- On to the point `p`. -/
def goTo (p : Point) (m : Mailbox) (p' : Point) (m' : Mailbox) : Prop := p' = p ∧ m' = m

/-- The cells that the queue at `q` uses: what its pointers lead to. -/
inductive Uses (h : Heap Content) (q : Addr) : Addr → Prop where
  | queue : Uses h q q
  | head {s : Queue} {a : Addr} (hq : h.Live q (.queue s)) (hhead : s.head = some a) : Uses h q a
  | next {a b : Addr} {nd : Node} (ha : Uses h q a) (hnode : h.Live a (.node nd))
      (hnext : nd.next = some b) : Uses h q b
  | job {a b : Addr} {nd : Node} (ha : Uses h q a) (hnode : h.Live a (.node nd))
      (hjob : nd.job = some b) : Uses h q b

/-- Outside: a call of `send_msg` or of `recv_msg` begins, or something happens elsewhere. -/
inductive Begins (n : Nat) (q : Addr) (m : Mailbox) : Point → Mailbox → Prop where
  | send (msg : Array Byte) (hfits : n ≤ msg.size) : Begins n q m (.sendLock msg) m
  | recv : Begins n q m .recvLock m
  | elsewhere (h : Heap Content) (hkeep : ∀ a, Uses m.heap q a → h.get a = m.heap.get a) :
      Begins n q m .out { m with heap := h }

/-- `send_msg` and `recv_msg`, on the mailbox with the queue at `q` for messages of `n`
bytes. -/
def code (n : Nat) (q : Addr) : Point → Op Mailbox Point
  | .out => .act (Begins n q)
  | .sendLock msg => .lock (.sendEnqueue msg)
  | .sendEnqueue msg => .act fun m p' m' =>
      ∃ ok, calls (enqueue ok (some q) msg) .sendTest (recordSent n msg) m p' m'
  | .sendTest status => .act (goTo (if status = 0 then .sendSignal status else .sendUnlock status))
  | .sendSignal status => .signal (.sendUnlock status)
  | .sendUnlock status => .unlock (.sendReturn status)
  | .sendReturn _ => .act (goTo .out)
  | .recvLock => .lock .recvTest
  | .recvTest => .act (calls (isEmpty (some q)) (fun b => if b then .recvWait else .recvDequeue)
      fun _ m => m)
  | .recvWait => .wait .recvTest
  | .recvDequeue => .act (calls (dequeue (some q)) .recvUnlock recordReceived)
  | .recvUnlock msg => .unlock (.recvReturn msg)
  | .recvReturn _ => .act (goTo .out)
  | .stopped _ => .act fun _ _ _ => False

/-- A mailbox after `init_mail_box`, with all threads outside. -/
structure Start {T : Type} (n : Nat) (q : Addr) (st : State Mailbox Point T) : Prop where
  init : ∃ h₀, initMailBox true n h₀ = .ok ((some q, 0), st.shared.heap)
  sent : st.shared.sent = []
  received : st.shared.received = []
  owner : st.owner = none
  mode : ∀ t, st.mode t = .running .out

/-! ## What the operations are -/

section Inversion

variable {n : Nat} {q : Addr} {p next : Point}

theorem code_lock (hcode : code n q p = .lock next) :
    (∃ msg, p = .sendLock msg ∧ next = .sendEnqueue msg) ∨ (p = .recvLock ∧ next = .recvTest) := by
  cases p with
  | sendLock msg => cases hcode; exact Or.inl ⟨msg, rfl, rfl⟩
  | recvLock => cases hcode; exact Or.inr ⟨rfl, rfl⟩
  | _ => cases hcode

theorem code_unlock (hcode : code n q p = .unlock next) :
    (∃ status, p = .sendUnlock status ∧ next = .sendReturn status)
      ∨ (∃ msg, p = .recvUnlock msg ∧ next = .recvReturn msg) := by
  cases p with
  | sendUnlock status => cases hcode; exact Or.inl ⟨status, rfl, rfl⟩
  | recvUnlock msg => cases hcode; exact Or.inr ⟨msg, rfl, rfl⟩
  | _ => cases hcode

theorem code_wait (hcode : code n q p = .wait next) : p = .recvWait ∧ next = .recvTest := by
  cases p with
  | recvWait => cases hcode; exact ⟨rfl, rfl⟩
  | _ => cases hcode

theorem code_signal (hcode : code n q p = .signal next) :
    ∃ status, p = .sendSignal status ∧ next = .sendUnlock status := by
  cases p with
  | sendSignal status => cases hcode; exact ⟨status, rfl, rfl⟩
  | _ => cases hcode

end Inversion

/-! ## The proof outline -/

/-- The points between `pthread_mutex_lock` and `pthread_mutex_unlock`. -/
def Point.Locked : Point → Prop
  | .sendEnqueue _ | .sendTest _ | .sendSignal _ | .sendUnlock _ => True
  | .recvTest | .recvWait | .recvDequeue | .recvUnlock _ => True
  | _ => False

/-- The points between two calls. -/
def Point.Between : Point → Prop
  | .out | .sendReturn _ | .recvReturn _ => True
  | _ => False

/-- What is true at a point. -/
def Point.Pre (n : Nat) (q : Addr) : Point → Mailbox → Prop
  | .sendLock msg, _ | .sendEnqueue msg, _ => n ≤ msg.size
  | .recvWait, m => Holds m.heap q n []
  | .recvDequeue, m => ∃ it items, Holds m.heap q n (it :: items)
  | .recvUnlock msg, _ | .recvReturn msg, _ => msg ≠ none
  | .stopped _, _ => False
  | _, _ => True

/-- The queue holds `items`, and these are what was sent and not received. -/
structure Delivers (n : Nat) (q : Addr) (m : Mailbox) (items : List Item) : Prop where
  holds : Holds m.heap q n items
  sent : m.sent.map some = m.received ++ items.map fun it => some it.bytes

/-- What the steps of a thread do that are not on the lock, where the queue holds `items`. -/
inductive Effect (n : Nat) (q : Addr) (m : Mailbox) (items : List Item) :
    Point → Point → Mailbox → Prop where
  | between {p p' : Point} {m' : Mailbox} (hp : p.Between) (hp' : ¬ p'.Locked)
      (hpre : ∀ m₁, p'.Pre n q m₁)
      (hkeep : ∀ its, Holds m.heap q n its → Holds m'.heap q n its)
      (hsent : m'.sent = m.sent) (hreceived : m'.received = m.received) : Effect n q m items p p' m'
  | enqueued {msg : Array Byte} {it : Item} {h : Heap Content} (hbytes : it.bytes = msg.extract 0 n)
      (hh : Holds h q n (items ++ [it])) :
      Effect n q m items (.sendEnqueue msg) (.sendTest 0)
        { m with heap := h, sent := m.sent ++ [msg.extract 0 n] }
  | notEnqueued {msg : Array Byte} {h : Heap Content} (hh : Holds h q n items) :
      Effect n q m items (.sendEnqueue msg) (.sendTest (-1)) { m with heap := h }
  | succeeded : Effect n q m items (.sendTest 0) (.sendSignal 0) m
  | failed {status : Int} (hstatus : status ≠ 0) :
      Effect n q m items (.sendTest status) (.sendUnlock status) m
  | foundEmpty (hitems : items = []) : Effect n q m items .recvTest .recvWait m
  | foundSome {it : Item} {rest : List Item} (hitems : items = it :: rest) :
      Effect n q m items .recvTest .recvDequeue m
  | dequeued {it : Item} {rest : List Item} {h : Heap Content} (hitems : items = it :: rest)
      (hh : Holds h q n rest) :
      Effect n q m items .recvDequeue (.recvUnlock (some it.job))
        { m with heap := h, received := m.received ++ [some it.bytes] }

section Effects

variable {n : Nat} {q : Addr} {m m' : Mailbox} {items : List Item} {p p' : Point}

theorem calls_of_wp {α : Type} {x : Prog Content α} {next : α → Point}
    {record : α → Mailbox → Mailbox} {Q : α → Heap Content → Prop}
    (hx : wp x m.heap Q fun _ => False) (hcall : calls x next record m p' m') :
    ∃ r h, Q r h ∧ p' = next r ∧ m' = record r { m with heap := h } := by
  obtain ⟨r, h, hrun, hQ⟩ := wp_ok.mp hx
  rw [calls, hrun] at hcall
  exact ⟨r, h, hQ, hcall⟩

/-- The queue uses a list that it has a pointer to. -/
theorem uses_of_segment {its : List Item} (hfirst : ∀ b, jobs.link its none = some b → Uses m.heap q b)
    (hsegment : jobs.Segment m.heap its none) {a : Addr} (ha : a ∈ jobs.footprint its) :
    Uses m.heap q a := by
  induction its with
  | nil => cases ha
  | cons it its ih =>
      obtain ⟨hnode, -, htail⟩ := hsegment
      have hit : Uses m.heap q it.node := hfirst it.node rfl
      rw [Shape.footprint_cons, List.mem_append] at ha
      rcases ha with ha | ha
      · rcases List.mem_pair.mp ha with rfl | rfl
        · exact hit
        · exact hit.job hnode rfl
      · exact ih (fun b hb => hit.next hnode hb) htail ha

/-- What an intact queue consists of, it uses. -/
theorem Holds.uses (hh : Holds m.heap q n items) {a : Addr} (ha : a ∈ q :: jobs.footprint items) :
    Uses m.heap q a := by
  rcases List.mem_cons.mp ha with rfl | ha
  · exact Uses.queue
  · exact uses_of_segment (fun b hb => Uses.head hh.queue hb) hh.chain ha

/-- What happens elsewhere does not concern the queue. -/
theorem Holds.elsewhere (hh : Holds m.heap q n items) {h : Heap Content}
    (hkeep : ∀ a, Uses m.heap q a → h.get a = m.heap.get a) : Holds h q n items := by
  refine hh.frame ?_
  intro a ha c hc
  exact (hkeep a (hh.uses ha)).trans hc

theorem messageAt_live {h : Heap Content} {a : Addr} {b : Array Byte} (hl : h.Live a (.bytes b)) :
    messageAt h (some a) = some b := by
  simp only [messageAt, Option.bind_some, show h.get a = some (.live (.bytes b)) from hl]

theorem effect_goTo {r : Point} (hp : p.Between) (hr : ¬ r.Locked) (hpre : ∀ m₁, r.Pre n q m₁)
    (hgo : goTo r m p' m') : Effect n q m items p p' m' := by
  obtain ⟨rfl, rfl⟩ := hgo
  exact Effect.between hp hr hpre (fun _ h => h) rfl rfl

/-- A step has one of these effects. -/
theorem effect_of_act {R : Mailbox → Point → Mailbox → Prop} (hcode : code n q p = .act R)
    (hh : Holds m.heap q n items) (hpre : p.Pre n q m) (hR : R m p' m') :
    Effect n q m items p p' m' := by
  cases p with
  | out =>
      cases hcode
      cases hR with
      | send msg hfits =>
          exact Effect.between trivial id (fun _ => hfits) (fun _ h => h) rfl rfl
      | recv => exact Effect.between trivial id (fun _ => trivial) (fun _ h => h) rfl rfl
      | elsewhere h hkeep =>
          exact Effect.between trivial id (fun _ => trivial) (fun _ h' => h'.elsewhere hkeep) rfl rfl
  | sendEnqueue msg =>
      cases hcode
      obtain ⟨ok, hcall⟩ := hR
      by_cases hok : ok = (true, true)
      · subst hok
        obtain ⟨r, h, ⟨rfl, it, hbytes, hh'⟩, rfl, rfl⟩ := calls_of_wp (enqueue_holds hh hpre) hcall
        exact Effect.enqueued hbytes hh'
      · obtain ⟨r, h, ⟨rfl, hh', -⟩, rfl, rfl⟩ := calls_of_wp (enqueue_fails hh hok msg) hcall
        exact Effect.notEnqueued hh'
  | sendTest status =>
      cases hcode
      obtain ⟨rfl, rfl⟩ := hR
      by_cases hstatus : status = 0
      · subst hstatus
        exact Effect.succeeded
      · rw [if_neg hstatus]
        exact Effect.failed hstatus
  | sendReturn status =>
      cases hcode
      exact effect_goTo (r := .out) trivial id (fun _ => trivial) hR
  | recvTest =>
      cases hcode
      obtain ⟨b, h, ⟨rfl, rfl⟩, rfl, rfl⟩ := calls_of_wp (isEmpty_eq hh) hR
      cases items with
      | nil => exact Effect.foundEmpty rfl
      | cons it rest => exact Effect.foundSome rfl
  | recvDequeue =>
      cases hcode
      obtain ⟨it, rest, hsome⟩ := hpre
      obtain ⟨r, h, ⟨rfl, hh', hjob⟩, rfl, rfl⟩ := calls_of_wp (dequeue_holds hsome) hR
      rw [recordReceived, messageAt_live hjob]
      exact Effect.dequeued (hh.unique hsome) hh'
  | recvReturn msg =>
      cases hcode
      exact effect_goTo (r := .out) trivial id (fun _ => trivial) hR
  | stopped e => exact hpre.elim
  | _ => cases hcode

/-- The effect on the messages. -/
theorem Effect.delivers (he : Effect n q m items p p' m') (hd : Delivers n q m items) :
    ∃ items', Delivers n q m' items' := by
  cases he with
  | between _ _ _ hkeep hsent hreceived =>
      refine ⟨items, hkeep items hd.holds, ?_⟩
      rw [hsent, hreceived]
      exact hd.sent
  | @enqueued msg it h hbytes hh =>
      refine ⟨items ++ [it], hh, ?_⟩
      simp only [List.map_append, hd.sent, List.append_assoc, List.map_singleton, hbytes]
  | notEnqueued hh => exact ⟨items, hh, hd.sent⟩
  | succeeded => exact ⟨items, hd⟩
  | failed _ => exact ⟨items, hd⟩
  | foundEmpty _ => exact ⟨items, hd⟩
  | foundSome _ => exact ⟨items, hd⟩
  | @dequeued it rest h hitems hh =>
      refine ⟨rest, hh, ?_⟩
      simp only [hd.sent, hitems, List.map_cons, List.append_assoc, List.singleton_append]

/-- … on where the thread is, … -/
theorem Effect.locked_iff (he : Effect n q m items p p' m') : p'.Locked ↔ p.Locked := by
  cases he with
  | @between p p' m' hp hp' =>
      refine ⟨fun h => absurd h hp', fun h => ?_⟩
      cases p with
      | out => exact h.elim
      | sendReturn => exact h.elim
      | recvReturn => exact h.elim
      | _ => exact hp.elim
  | _ => exact Iff.rfl

/-- … and on what is true there. -/
theorem Effect.pre (he : Effect n q m items p p' m') (hh : Holds m.heap q n items) : p'.Pre n q m' := by
  cases he with
  | between _ _ hpre => exact hpre m'
  | enqueued _ _ => trivial
  | notEnqueued _ => trivial
  | succeeded => trivial
  | failed _ => trivial
  | foundEmpty hitems =>
      subst hitems
      exact hh
  | @foundSome it rest hitems => exact ⟨it, rest, hitems ▸ hh⟩
  | dequeued _ _ => exact Option.some_ne_none _

/-- Without the lock, a thread does nothing to the queue. -/
theorem Effect.keeps {its : List Item} (he : Effect n q m items p p' m') (hp : ¬ p.Locked)
    (hh : Holds m.heap q n its) : Holds m'.heap q n its := by
  cases he with
  | between _ _ _ hkeep => exact hkeep its hh
  | _ => exact absurd trivial hp

theorem Point.Pre.stable (m' : Mailbox) (hp : ¬ p.Locked) (hpre : p.Pre n q m) : p.Pre n q m' := by
  cases p with
  | recvWait => exact absurd trivial hp
  | recvDequeue => exact absurd trivial hp
  | _ => exact hpre

theorem Point.Pre.keep (hkeep : ∀ its, Holds m.heap q n its → Holds m'.heap q n its)
    (hpre : p.Pre n q m) : p.Pre n q m' := by
  cases p with
  | recvWait => exact hkeep [] hpre
  | recvDequeue =>
      obtain ⟨it, rest, hh⟩ := hpre
      exact ⟨it, rest, hkeep _ hh⟩
  | _ => exact hpre

end Effects

/-- The mailbox keeps what it promises. -/
def outline (n : Nat) (q : Addr) : Outline (code n q) where
  holds := Point.Locked
  inv m := ∃ items, Delivers n q m items
  pre := Point.Pre n q
  lock hcode := by
    rcases code_lock hcode with ⟨msg, rfl, rfl⟩ | ⟨rfl, rfl⟩
    · exact ⟨id, trivial, fun _ _ hpre => hpre⟩
    · exact ⟨id, trivial, fun _ _ _ => trivial⟩
  unlock hcode := by
    rcases code_unlock hcode with ⟨status, rfl, rfl⟩ | ⟨msg, rfl, rfl⟩
    · exact ⟨trivial, id, fun _ _ _ => trivial⟩
    · exact ⟨trivial, id, fun _ _ hpre => hpre⟩
  wait hcode := by
    obtain ⟨rfl, rfl⟩ := code_wait hcode
    exact ⟨trivial, trivial, fun _ _ => trivial⟩
  signal hcode := by
    obtain ⟨status, rfl, rfl⟩ := code_signal hcode
    exact ⟨Iff.rfl, fun _ _ _ => trivial⟩
  act hcode hinv hpre hR := by
    obtain ⟨items, hd⟩ := hinv
    have he := effect_of_act hcode hd.holds hpre hR
    exact ⟨he.locked_iff, he.delivers hd, he.pre hd.holds⟩
  stable m' hp hpre := hpre.stable m' hp
  noInterference hcode hp hinv hpre hR _ _ hr := by
    obtain ⟨items, hd⟩ := hinv
    have he := effect_of_act hcode hd.holds hpre hR
    exact hr.keep fun its hh => he.keeps hp hh

/-! ## Delivery -/

section Runs

variable {T : Type} {n : Nat} {q : Addr} {st₀ st : State Mailbox Point T}

/-- The mailbox is as the outline says when it starts, … -/
theorem Start.sound (hstart : Start n q st₀) : (outline n q).Sound st₀ where
  inv := by
    obtain ⟨h₀, hinit⟩ := hstart.init
    have hwp : wp (initMailBox true n) h₀
        (fun r h => ∃ q, r = (some q, 0) ∧ Holds h q n []) fun _ => False := by
      refine wp_bind (wp_mono ?_ newQueue_holds)
      rintro p h ⟨q, rfl, hh⟩
      exact wp_pure ⟨q, rfl, hh⟩
    obtain ⟨r, h, hrun, q', rfl, hh⟩ := wp_ok.mp hwp
    rw [hinit] at hrun
    cases hrun
    refine ⟨[], hh, ?_⟩
    rw [hstart.sent, hstart.received]
    rfl
  owner t := by simp [hstart.owner, hstart.mode, outline, Point.Locked]
  pre t p hp := by
    cases (hstart.mode t).symm.trans hp
    trivial
  waiting t p hp := by
    rcases hp with hp | hp <;> cases (hstart.mode t).symm.trans hp

/-- … and at every moment after. -/
theorem sound_of_start [DecidableEq T] (hstart : Start n q st₀) (hr : Reachable (code n q) st₀ st) :
    (outline n q).Sound st :=
  Outline.sound_of_reachable hstart.sound hr

/-- Two threads are never between lock and unlock at once. -/
theorem locked_unique [DecidableEq T] (hstart : Start n q st₀) (hr : Reachable (code n q) st₀ st)
    {t u : T} {p r : Point} (hp : st.mode t = .running p) (hu : st.mode u = .running r)
    (hlocked : p.Locked) (hlocked' : r.Locked) : t = u :=
  (sound_of_start hstart hr).holds_unique hp hu hlocked hlocked'

/-- At every moment of every run, what was received followed by what is queued is what was
sent. -/
theorem queued_of_reachable [DecidableEq T] (hstart : Start n q st₀)
    (hr : Reachable (code n q) st₀ st) :
    ∃ queued, Represents st.shared.heap q queued
      ∧ st.shared.received ++ queued.map some = st.shared.sent.map some := by
  obtain ⟨items, hd⟩ := (sound_of_start hstart hr).inv
  refine ⟨_, hd.holds.represents, ?_⟩
  rw [hd.sent, List.map_map]
  rfl

end Runs

/-- The mailbox that `init_mail_box` makes where there is nothing else. -/
def newMailbox (T : Type) (n : Nat) : State Mailbox Point T where
  shared.heap := (Heap.empty.alloc (.queue ⟨0, 0, none, none⟩)).set 0 (.queue ⟨0, n, none, none⟩)
  shared.sent := []
  shared.received := []
  owner := none
  mode _ := .running .out

theorem newMailbox_start (T : Type) (n : Nat) : Start n 0 (newMailbox T n) where
  init := ⟨Heap.empty, rfl⟩
  sent := rfl
  received := rfl
  owner := rfl
  mode _ := rfl

end AeadPerf.Bench
