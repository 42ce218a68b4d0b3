/-
# `Bench.MailboxOwns` — whose memory it is, while threads run

The comment on `recv_msg` says that what it returns must be freed.  Of the cells of the heap some are
the mailbox's, and some the threads have: to these `dequeue` adds the buffer that it returns.

    in send_msg and recv_msg    the mailbox's cells, and what is handed over
    elsewhere                   the cells that the threads have: used, freed, or allocated

An `OwningRun` is a run in which the threads keep to the second line.  Such a run is a run of
`Bench.Mailbox`, so whatever is proved of those applies; the mailbox leaves the cells that the threads
have as they are, each of them can be freed, and no memory is lost (`mailbox_owns`).

Inside a call on the queue a node is for a moment neither the queue's nor the threads': `enqueue` has
it before it is linked, `dequeue` after it is unlinked.  The states here are those in which no thread
is inside such a call.
-/
import AeadPerf.Lib.Progress
import AeadPerf.Bench.MailboxEnd
import AeadPerf.Bench.QueueOwns

namespace AeadPerf.Bench

open Words HeapProg Monitor

/-! ## Runs that keep to their own -/

/-- The buffer that a step hands over: `dequeue` has returned it. -/
def handed : Mode Point → List Addr
  | .running (.recvUnlock (some a)) => [a]
  | _ => []

/-- What happens elsewhere. -/
def IsElsewhere (before after : Mode Point) : Prop := before = .running .out ∧ after = .running .out

/-- A run in which what happens elsewhere keeps to the cells that the threads have: those of `has₀`
at first. -/
inductive OwningRun {T : Type} [DecidableEq T] (n : Nat) (q : Addr) (has₀ : List Addr)
    (st₀ : State Mailbox Point T) : List Addr → State Mailbox Point T → Prop where
  | refl : OwningRun n q has₀ st₀ has₀ st₀
  | call {has : List Addr} {st st' : State Mailbox Point T} {t : T} {m : Mode Point}
      (hrun : OwningRun n q has₀ st₀ has st) (hstep : StepBy (code n q) t m st st')
      (hcall : ¬ IsElsewhere (st.mode t) m) : OwningRun n q has₀ st₀ (has ++ handed m) st'
  | elsewhere {has has' : List Addr} {st : State Mailbox Point T} {t : T} {h : Heap Content}
      (hrun : OwningRun n q has₀ st₀ has st) (ht : st.mode t = .running .out)
      (hx : Exchange st.shared.heap h has has') :
      OwningRun n q has₀ st₀ has' { st with shared := { st.shared with heap := h } }
  | wakeup {has : List Addr} {st : State Mailbox Point T} (hrun : OwningRun n q has₀ st₀ has st)
      (W : T → Bool) : OwningRun n q has₀ st₀ has { st with mode := wake W st.mode }

/-! ## The mailbox's steps -/

section Steps

variable {n : Nat} {q : Addr} {m m' : Mailbox} {items : List Item} {p p' : Point}

/-- Most steps hand nothing over, … -/
theorem exchange_none {h h' : Heap Content} {old new : List Addr} (hx : Exchange h h' old new) :
    Exchange h h' old (new ++ []) := by
  rwa [List.append_nil]

/-- … and leave the heap alone. -/
theorem Holds.idle {h : Heap Content} (hh : Holds h q n items) :
    Exchange h h (cells q items) (cells q items ++ []) :=
  exchange_none (hh.exchange_refl fun _ _ => Iff.rfl)

/-- The steps inside the calls that are not on the lock: from a heap where the queue holds `items` to
one where it holds others, or the same. -/
inductive Does (n : Nat) (q : Addr) (h : Heap Content) (items : List Item) :
    Point → Point → Heap Content → List Item → Prop where
  | send (msg : Array Byte) : Does n q h items .out (.sendLock msg) h items
  | recv : Does n q h items .out .recvLock h items
  | enqueued {msg : Array Byte} {h' : Heap Content} {it : Item} (hbytes : it.bytes = msg.extract 0 n)
      (hh : Holds h' q n (items ++ [it])) (hx : Exchange h h' (cells q items) (cells q (items ++ [it]))) :
      Does n q h items (.sendEnqueue msg) (.sendTest 0) h' (items ++ [it])
  | notEnqueued {msg : Array Byte} {h' : Heap Content} (hh : Holds h' q n items) (hsame : SameLive h h') :
      Does n q h items (.sendEnqueue msg) (.sendTest (-1)) h' items
  | succeeded (status : Int) : Does n q h items (.sendTest status) (.sendSignal status) h items
  | failed (status : Int) : Does n q h items (.sendTest status) (.sendUnlock status) h items
  | sent (status : Int) : Does n q h items (.sendReturn status) .out h items
  | foundEmpty : Does n q h items .recvTest .recvWait h items
  | foundSome : Does n q h items .recvTest .recvDequeue h items
  | dequeued {it : Item} {rest : List Item} {h' : Heap Content} (hitems : items = it :: rest)
      (hh : Holds h' q n rest) (hjob : h'.Live it.job (.bytes it.bytes))
      (hx : Exchange h h' (cells q items) (cells q rest ++ [it.job])) :
      Does n q h items .recvDequeue (.recvUnlock (some it.job)) h' rest
  | received (msg : Ptr) : Does n q h items (.recvReturn msg) .out h items

theorem does_of_act {R : Mailbox → Point → Mailbox → Prop} (hcode : code n q p = .act R)
    (hh : Holds m.heap q n items) (hpre : p.Pre n q m) (hR : R m p' m')
    (hcall : ¬ IsElsewhere (.running p) (.running p')) :
    ∃ items', Does n q m.heap items p p' m'.heap items' := by
  cases p with
  | out =>
      cases hcode
      cases hR with
      | send msg hfits => exact ⟨items, .send msg⟩
      | recv => exact ⟨items, .recv⟩
      | elsewhere h hkeep => exact absurd ⟨rfl, rfl⟩ hcall
  | sendEnqueue msg =>
      cases hcode
      obtain ⟨ok, hcalls⟩ := hR
      by_cases hok : ok = (true, true)
      · subst hok
        obtain ⟨r, h, ⟨rfl, it, hbytes, hh', hx⟩, rfl, rfl⟩ := calls_of_wp (enqueue_exchange hh hpre) hcalls
        exact ⟨_, .enqueued hbytes hh' hx⟩
      · obtain ⟨r, h, ⟨rfl, hh', hsame⟩, rfl, rfl⟩ := calls_of_wp (enqueue_fails hh hok msg) hcalls
        exact ⟨items, .notEnqueued hh' hsame⟩
  | sendTest status =>
      cases hcode
      obtain ⟨rfl, rfl⟩ := hR
      refine ⟨items, ?_⟩
      split
      · exact .succeeded status
      · exact .failed status
  | sendReturn status =>
      cases hcode
      obtain ⟨rfl, rfl⟩ := hR
      exact ⟨items, .sent status⟩
  | recvTest =>
      cases hcode
      obtain ⟨b, h, ⟨rfl, rfl⟩, rfl, rfl⟩ := calls_of_wp (isEmpty_eq hh) hR
      refine ⟨items, ?_⟩
      split
      · exact .foundEmpty
      · exact .foundSome
  | recvDequeue =>
      cases hcode
      obtain ⟨it, rest, hsome⟩ := hpre
      obtain rfl := hh.unique hsome
      obtain ⟨r, h, ⟨rfl, hh', hjob, hx⟩, rfl, rfl⟩ := calls_of_wp (dequeue_exchange hh) hR
      exact ⟨rest, .dequeued rfl hh' hjob hx⟩
  | recvReturn msg =>
      cases hcode
      obtain ⟨rfl, rfl⟩ := hR
      exact ⟨items, .received msg⟩
  | stopped e => exact hpre.elim
  | _ => cases hcode

/-- Such a step exchanges the queue's cells for those that it has then, and the buffer handed over. -/
theorem Does.exchange {h h' : Heap Content} {items' : List Item} (hd : Does n q h items p p' h' items')
    (hh : Holds h q n items) :
    Holds h' q n items' ∧ Exchange h h' (cells q items) (cells q items' ++ handed (.running p')) := by
  cases hd with
  | enqueued _ hh' hx => exact ⟨hh', exchange_none hx⟩
  | notEnqueued hh' hsame => exact ⟨hh', exchange_none (hh.exchange_refl hsame)⟩
  | dequeued _ hh' _ hx => exact ⟨hh', hx⟩
  | _ => exact ⟨hh, hh.idle⟩

end Steps

section Runs

variable {T : Type} [DecidableEq T] {n : Nat} {q : Addr} {st₀ st st' : State Mailbox Point T}
  {items : List Item} {t : T} {m : Mode Point} {has₀ has : List Addr} {h₀ : Heap Content}

/-- The steps on the lock and on the condition variable. -/
inductive OnLock : Mode Point → Mode Point → Prop where
  | sendLock (msg : Array Byte) : OnLock (.running (.sendLock msg)) (.running (.sendEnqueue msg))
  | sendSignal (status : Int) : OnLock (.running (.sendSignal status)) (.running (.sendUnlock status))
  | sendUnlock (status : Int) : OnLock (.running (.sendUnlock status)) (.running (.sendReturn status))
  | recvLock : OnLock (.running .recvLock) (.running .recvTest)
  | recvWait : OnLock (.running .recvWait) (.asleep .recvTest)
  | recvWoken : OnLock (.woken .recvTest) (.running .recvTest)
  | recvUnlock (msg : Ptr) : OnLock (.running (.recvUnlock msg)) (.running (.recvReturn msg))

/-- A step of a thread is one of these, or one on what the threads share. -/
theorem step_cases (hs : (outline n q).Sound st) (hstep : StepBy (code n q) t m st st') :
    (∃ before, st.mode t = before ∧ OnLock before m ∧ st'.shared = st.shared)
      ∨ ∃ p p' R, st.mode t = .running p ∧ m = .running p' ∧ code n q p = .act R
        ∧ R st.shared p' st'.shared := by
  cases hstep with
  | lock hp hcode _ =>
      rcases code_lock hcode with ⟨msg, rfl, rfl⟩ | ⟨rfl, rfl⟩
      · exact Or.inl ⟨_, hp, .sendLock msg, rfl⟩
      · exact Or.inl ⟨_, hp, .recvLock, rfl⟩
  | unlock hp hcode _ =>
      rcases code_unlock hcode with ⟨status, rfl, rfl⟩ | ⟨msg, rfl, rfl⟩
      · exact Or.inl ⟨_, hp, .sendUnlock status, rfl⟩
      · exact Or.inl ⟨_, hp, .recvUnlock msg, rfl⟩
  | wait hp hcode _ =>
      obtain ⟨rfl, rfl⟩ := code_wait hcode
      exact Or.inl ⟨_, hp, .recvWait, rfl⟩
  | relock hp _ =>
      obtain ⟨r, hcode⟩ := hs.waiting t _ (Or.inr hp)
      obtain ⟨rfl, rfl⟩ := code_wait hcode
      exact Or.inl ⟨_, hp, .recvWoken, rfl⟩
  | signal hp hcode _ _ =>
      obtain ⟨status, rfl, rfl⟩ := code_signal hcode
      exact Or.inl ⟨_, hp, .sendSignal status, rfl⟩
  | act hp hcode hR => exact Or.inr ⟨_, _, _, hp, rfl, hcode, hR⟩

/-- The same of any step of a thread. -/
theorem step_exchange (hs : (outline n q).Sound st) (hh : Holds st.shared.heap q n items)
    (hstep : StepBy (code n q) t m st st') (hcall : ¬ IsElsewhere (st.mode t) m) :
    ∃ items', Holds st'.shared.heap q n items'
      ∧ Exchange st.shared.heap st'.shared.heap (cells q items) (cells q items' ++ handed m) := by
  rcases step_cases hs hstep with ⟨_, -, hlock, hshared⟩ | ⟨p, p', R, hp, rfl, hcode, hR⟩
  · have hhanded : handed m = [] := by cases hlock <;> rfl
    rw [hshared, hhanded]
    exact ⟨items, hh, hh.idle⟩
  · rw [hp] at hcall
    obtain ⟨items', hd⟩ := does_of_act hcode hh (hs.pre t _ hp) hR hcall
    exact ⟨items', hd.exchange hh⟩

/-- What happens elsewhere keeps off the queue. -/
theorem elsewhere_exchange {h h' : Heap Content} {has' : List Addr} (hh : Holds h q n items)
    (hx₀ : Exchange h₀ h has₀ (cells q items ++ has)) (hx : Exchange h h' has has') :
    (∀ a ∈ cells q items, h'.get a = h.get a)
      ∧ Exchange h h' (cells q items ++ has) (cells q items ++ has') := by
  obtain ⟨hnodup, -, hdisjoint⟩ := List.nodup_append.mp hx₀.nodup
  have hapart : ∀ a ∈ cells q items, a ∉ has := fun a ha hmem => hdisjoint a ha a hmem rfl
  refine ⟨?_, hx.frame_left hnodup (fun a ha => hh.live ha) hapart⟩
  intro a ha
  obtain ⟨c, hc⟩ := hh.live ha
  exact (hx.keeps hc (hapart a ha)).trans hc.symm

/-- It is a step of the program. -/
theorem elsewhere_step {h : Heap Content} (ht : st.mode t = .running .out)
    (hkeep : ∀ a, Uses st.shared.heap q a → h.get a = st.shared.heap.get a) :
    Step (code n q) st { st with shared := { st.shared with heap := h } } := by
  have hstep : Step (code n q) st _ := .act ht rfl (Begins.elsewhere h hkeep)
  rwa [State.move, ← ht, Function.update_eq_self] at hstep

/-- Such a run is a run, and the memory is the mailbox's or what the threads have. -/
theorem OwningRun.owns (hstart : Start n q st₀) (hh₀ : Holds st₀.shared.heap q n [])
    (hx₀ : Exchange h₀ st₀.shared.heap has₀ (cells q [] ++ has₀)) (hrun : OwningRun n q has₀ st₀ has st) :
    Reachable (code n q) st₀ st ∧ ∃ items, Holds st.shared.heap q n items
      ∧ Exchange h₀ st.shared.heap has₀ (cells q items ++ has) := by
  induction hrun with
  | refl => exact ⟨.refl, [], hh₀, hx₀⟩
  | call _ hstep hcall ih =>
      obtain ⟨hr, items, hh, hx⟩ := ih
      obtain ⟨items', hh', hx'⟩ := step_exchange (sound_of_start hstart hr) hh hstep hcall
      obtain ⟨-, hnodup, hdisjoint⟩ := List.nodup_append.mp hx.nodup
      refine ⟨hr.tail hstep.step, items', hh', ?_⟩
      refine (hx.trans (hx'.frame hnodup ?_ ?_)).perm ?_
      · intro a ha
        exact hx.live a (List.mem_append_right _ ha)
      · intro a ha hmem
        exact hdisjoint a hmem a ha rfl
      · rw [List.append_assoc]
        exact List.Perm.append_left _ List.perm_append_comm
  | elsewhere _ ht hx' ih =>
      obtain ⟨hr, items, hh, hx⟩ := ih
      obtain ⟨hkeep, hframe⟩ := elsewhere_exchange hh hx hx'
      have huses : ∀ a, Uses _ q a → _ := fun a ha => hkeep a (hh.uses_iff.mp ha)
      exact ⟨hr.tail (elsewhere_step ht huses), items, hh.elsewhere huses, hx.trans hframe⟩
  | wakeup _ W ih =>
      obtain ⟨hr, items, hh, hx⟩ := ih
      exact ⟨hr.tail (.spurious W), items, hh, hx⟩

/-- **Whose memory it is**: a program whose threads keep to the cells that they have is a run of the
mailbox.  Whenever no thread is inside a call on the queue, the live cells are those that were there and
not the threads', what the queue uses, and what the threads have, each once.  Nothing that the mailbox
does next changes what they have, any of it can be freed, and if at most one message is unread
`destroy_mail_box` by itself leaves just this. -/
theorem mailbox_owns (hstart : Start n q st₀) (hinit : initMailBox true n h₀ = .ok ((some q, 0), st₀.shared.heap))
    (hnodup : has₀.Nodup) (hlive : ∀ a ∈ has₀, ∃ c, h₀.Live a c) (hrun : OwningRun n q has₀ st₀ has st) :
    Reachable (code n q) st₀ st
      ∧ (∃ used, (∀ a, a ∈ used ↔ Uses st.shared.heap q a)
        ∧ Exchange h₀ st.shared.heap has₀ (used ++ has))
      ∧ (∀ t m st', StepBy (code n q) t m st st' → ¬ IsElsewhere (st.mode t) m →
        ∀ a ∈ has, st'.shared.heap.get a = st.shared.heap.get a)
      ∧ (∀ a ∈ has, ∃ h', free (some a) st.shared.heap = .ok ((), h')
        ∧ Exchange st.shared.heap h' has (has.erase a))
      ∧ (st.shared.sent.length ≤ st.shared.received.length + 1 →
        ∃ fuel h', destroyMailBox fuel (some (some q)) st.shared.heap = .ok ((), h')
          ∧ Exchange h₀ h' has₀ has) := by
  have hwp : wp (initMailBox true n) h₀ (fun r h => ∃ q, r = (some q, 0) ∧ Holds h q n []
      ∧ Exchange h₀ h [] (cells q [])) fun _ => False := by
    refine wp_bind (wp_mono ?_ (wp_and newQueue_holds newQueue_exchange))
    rintro p h ⟨⟨q, rfl, hh⟩, q', hq', hx⟩
    cases hq'
    exact wp_pure ⟨q, rfl, hh, hx⟩
  obtain ⟨r, h, hrun₀, q', rfl, hh₀, hx₀⟩ := wp_ok.mp hwp
  cases hinit.symm.trans hrun₀
  have hframe₀ := hx₀.frame hnodup hlive fun _ _ => List.not_mem_nil
  obtain ⟨hr, items, hh, hx⟩ := hrun.owns hstart hh₀ hframe₀
  obtain ⟨-, hnodup', hdisjoint⟩ := List.nodup_append.mp hx.nodup
  have hlive' : ∀ a ∈ has, ∃ c, st.shared.heap.Live a c := fun a ha =>
    hx.live a (List.mem_append_right _ ha)
  have hapart : ∀ a ∈ has, a ∉ cells q items := fun a ha hmem => hdisjoint a hmem a ha rfl
  have hs := sound_of_start hstart hr
  refine ⟨hr, ⟨cells q items, fun a => hh.uses_iff.symm, hx⟩, ?_, ?_, ?_⟩
  · intro t m st' hstep hcall a ha
    obtain ⟨items', -, hx'⟩ := step_exchange hs hh hstep hcall
    obtain ⟨c, hc⟩ := hlive' a ha
    exact (hx'.keeps hc (hapart a ha)).trans hc.symm
  · intro a ha
    obtain ⟨_, h', hfree, hx'⟩ := wp_ok.mp (Exchange.of_free hnodup' hlive' ha)
    exact ⟨h', hfree, hx'⟩
  · intro hunread
    obtain ⟨items', hd⟩ := hs.inv
    obtain rfl := hh.unique hd.holds
    have hcount := congrArg List.length hd.sent
    rw [List.length_map, List.length_append, List.length_map] at hcount
    obtain ⟨fuel, h', hfree, hfrees⟩ := (freesQueue_iff hh).mpr (by omega)
    exact ⟨fuel, h', hfree, hx.trans ((Exchange.of_frees hfrees).frame hnodup' hlive' hapart)⟩

end Runs

/-- One thread sends a message; the other receives it, and frees it. -/
theorem mailbox_owns_freed : ∃ st : State Mailbox Point Bool,
    st.shared.received = [some #[7]] ∧ Reachable (code 1 0) (newMailbox Bool 1) st
      ∧ ∃ fuel h', destroyMailBox fuel (some (some 0)) st.shared.heap = .ok ((), h')
        ∧ Exchange Heap.empty h' [] [] := by
  have hrun : OwningRun 1 0 [] (newMailbox Bool 1) [] (newMailbox Bool 1) := .refl
  have hrun := hrun.call (t := true) (.act rfl rfl (Begins.send #[7] (Nat.le_refl 1))) fun h => nomatch h.2
  have hrun := hrun.call (t := true) (.lock rfl rfl rfl) fun h => nomatch h.2
  have hrun := hrun.call (t := true) (.act rfl rfl ⟨(true, true), rfl, rfl⟩) fun h => nomatch h.2
  have hrun := hrun.call (t := true) (.act rfl rfl ⟨rfl, rfl⟩) fun h => nomatch h.2
  have hsignal : code 1 0 (.sendSignal 0) = .signal (.sendUnlock 0) := rfl
  have hrun := hrun.call (t := true) (.signal rfl hsignal (fun _ => true) fun ⟨u, p, hu⟩ => ⟨u, p, rfl, hu⟩)
    fun h => nomatch h.2
  have hrun := hrun.call (t := true) (.unlock rfl rfl rfl) fun h => nomatch h.2
  have hrun := hrun.call (t := false) (.act rfl rfl Begins.recv) fun h => nomatch h.2
  have hrun := hrun.call (t := false) (.lock rfl rfl rfl) fun h => nomatch h.2
  have hrun := hrun.call (t := false) (.act rfl rfl ⟨rfl, rfl⟩) fun h => nomatch h.2
  have hrun := hrun.call (t := false) (.act rfl rfl ⟨rfl, rfl⟩) fun h => nomatch h.2
  have hrun := hrun.call (t := false) (.unlock rfl rfl rfl) fun h => nomatch h.2
  have hrun := hrun.call (t := false) (.act rfl rfl ⟨rfl, rfl⟩) fun h => nomatch h.1
  have hinit : initMailBox true 1 Heap.empty = .ok ((some 0, 0), (newMailbox Bool 1).shared.heap) := rfl
  have howns := mailbox_owns (newMailbox_start Bool 1) hinit List.nodup_nil
    (fun _ ha => absurd ha List.not_mem_nil) hrun
  -- the message is now what the threads have
  obtain ⟨h', -, hfree⟩ := howns.2.2.2.1 2 (List.mem_singleton_self 2)
  have hrun := hrun.elsewhere (t := false) rfl hfree
  have howns := mailbox_owns (newMailbox_start Bool 1) hinit List.nodup_nil
    (fun _ ha => absurd ha List.not_mem_nil) hrun
  exact ⟨_, rfl, howns.1, howns.2.2.2.2 (Nat.le_succ 1)⟩

end AeadPerf.Bench
