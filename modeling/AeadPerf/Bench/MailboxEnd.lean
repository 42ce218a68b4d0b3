/-
# `Bench.MailboxEnd` — destroying a mailbox

`destroy_mail_box` is `free_queue` of the mailbox's queue.  What the queue holds at the end of a run
is what was sent and not received, so after `Bench.QueueFree` it depends on their number alone
whether the mailbox can be destroyed:

    none or one unread     the queue, its node and its job are freed, and nothing else
    two or more            the second pass of the loop in `free_nodes` reads a freed node

however the threads have run (`mailbox_destroyed`).  It takes no lock.  So this is about moments at
which no thread is inside a call on the queue, as it is in every state here, and about a
`destroy_mail_box` that runs to its end before another thread moves.
-/
import AeadPerf.Bench.Mailbox
import AeadPerf.Bench.QueueFree

namespace AeadPerf.Bench

open Words HeapProg Monitor

/-- `destroy_mail_box`: `none` for a null mailbox, else the pointer to its queue. -/
def destroyMailBox (fuel : Nat) (mbox : Option Ptr) : Prog Content Unit := do
  match mbox with
  | none => pure ()
  | some q => freeQueue fuel q

/-! ## What the queue uses -/

section Uses

variable {m : Mailbox} {q a : Addr} {n : Nat} {items : List Item}

/-- A cell of the list is a node or its job, and holds what it should. -/
theorem Holds.cell (hh : Holds m.heap q n items) (ha : a ∈ jobs.footprint items) :
    ∃ init it rest, items = init ++ it :: rest ∧ m.heap.Live it.node (.node ⟨some it.job, jobs.link rest none⟩)
      ∧ m.heap.Live it.job (.bytes it.bytes) ∧ (a = it.node ∨ a = it.job) := by
  obtain ⟨it, hit, howned⟩ := List.mem_flatMap.mp ha
  obtain ⟨init, rest, rfl⟩ := List.append_of_mem hit
  obtain ⟨hnode, hjob, -⟩ := ((Shape.segment_append init (it :: rest)).mp hh.chain).2
  exact ⟨init, it, rest, rfl, hnode, hjob _ (List.mem_singleton_self _), List.mem_pair.mp howned⟩

/-- What a node of the queue points to, is in the queue. -/
theorem Holds.node (hh : Holds m.heap q n items) (ha : a ∈ q :: jobs.footprint items) {nd : Node}
    (hnode : m.heap.Live a (.node nd)) :
    ∃ init it rest, items = init ++ it :: rest ∧ nd = ⟨some it.job, jobs.link rest none⟩ := by
  rcases List.mem_cons.mp ha with rfl | ha
  · cases hh.queue.symm.trans hnode
  · obtain ⟨init, it, rest, hitems, hlive, hjob, rfl | rfl⟩ := hh.cell ha
    · cases hlive.symm.trans hnode
      exact ⟨init, it, rest, hitems, rfl⟩
    · cases hjob.symm.trans hnode

theorem mem_footprint_node {it : Item} (hit : it ∈ items) : it.node ∈ jobs.footprint items :=
  List.mem_flatMap.mpr ⟨it, hit, List.mem_cons_self⟩

theorem mem_footprint_job {it : Item} (hit : it ∈ items) : it.job ∈ jobs.footprint items :=
  List.mem_flatMap.mpr ⟨it, hit, List.mem_cons_of_mem _ List.mem_cons_self⟩

theorem mem_of_link {rest : List Item} {b : Addr} (hlink : jobs.link rest none = some b) :
    b ∈ jobs.footprint rest := by
  cases rest with
  | nil => cases hlink
  | cons it rest =>
      cases hlink
      exact mem_footprint_node List.mem_cons_self

/-- What the queue uses is what it consists of. -/
theorem Holds.uses_iff (hh : Holds m.heap q n items) : Uses m.heap q a ↔ a ∈ q :: jobs.footprint items := by
  refine ⟨fun huses => ?_, hh.uses⟩
  induction huses with
  | queue => exact List.mem_cons_self
  | head hq hhead =>
      cases hh.queue.symm.trans hq
      exact List.mem_cons_of_mem q (mem_of_link hhead)
  | next _ hnode hnext ih =>
      obtain ⟨init, it, rest, rfl, rfl⟩ := hh.node ih hnode
      refine List.mem_cons_of_mem q ?_
      rw [Shape.footprint_append, Shape.footprint_cons]
      exact List.mem_append_right _ (List.mem_append_right _ (mem_of_link hnext))
  | job _ hnode hjob ih =>
      obtain ⟨init, it, rest, rfl, rfl⟩ := hh.node ih hnode
      cases hjob
      exact List.mem_cons_of_mem q (mem_footprint_job (List.mem_append_right _ List.mem_cons_self))

end Uses

section Runs

variable {T : Type} {n : Nat} {q : Addr} {st₀ st : State Mailbox Point T}

/-- **Destroying a mailbox**: in every run, whenever no thread is inside a call on the queue,
`destroy_mail_box` by itself ends and frees what the queue uses and nothing else if at most one
message is unread, and reads a freed node if two or more are. -/
theorem mailbox_destroyed [DecidableEq T] (hstart : Start n q st₀) (hr : Reachable (code n q) st₀ st) :
    (st.shared.sent.length ≤ st.shared.received.length + 1 →
      ∃ fuel h' cells, destroyMailBox fuel (some (some q)) st.shared.heap = .ok ((), h')
        ∧ FreesExactly st.shared.heap h' cells ∧ ∀ a, a ∈ cells ↔ Uses st.shared.heap q a)
    ∧ (st.shared.received.length + 1 < st.shared.sent.length →
      ∃ a, Uses st.shared.heap q a ∧ ∀ fuel,
        destroyMailBox (fuel + 2) (some (some q)) st.shared.heap = .error (.useAfterFree a)) := by
  obtain ⟨items, hd⟩ := (sound_of_start hstart hr).inv
  have hcount := congrArg List.length hd.sent
  rw [List.length_map, List.length_append, List.length_map] at hcount
  constructor
  · intro hunread
    obtain ⟨fuel, h', hrun, hfrees⟩ := (freesQueue_iff hd.holds).mpr (by omega)
    exact ⟨fuel, h', _, hrun, hfrees, fun a => hd.holds.uses_iff.symm⟩
  · intro hunread
    match items, hd with
    | it :: it' :: items, hd =>
        exact ⟨it.node, hd.holds.uses (List.mem_cons_of_mem q (mem_footprint_node List.mem_cons_self)),
          freeQueue_useAfterFree hd.holds⟩
    | [_], _ | [], _ => simp only [List.length_cons, List.length_nil] at hcount; omega

end Runs

/-- A message is sent, and nobody reads it. -/
theorem mailbox_destroyed_unread : ∃ st : State Mailbox Point Bool,
    Reachable (code 1 0) (newMailbox Bool 1) st
      ∧ st.shared.sent = [#[7]] ∧ st.shared.received = [] ∧ st.mode true = .running .out
      ∧ ∃ fuel h' cells, destroyMailBox fuel (some (some 0)) st.shared.heap = .ok ((), h')
        ∧ FreesExactly st.shared.heap h' cells ∧ ∀ a, a ∈ cells ↔ Uses st.shared.heap 0 a := by
  obtain ⟨st, hr, hsent, hreceived, hout⟩ : ∃ st, Reachable (code 1 0) (newMailbox Bool 1) st
      ∧ st.shared.sent = [#[7]] ∧ st.shared.received = [] ∧ st.mode true = .running .out := by
    refine ⟨?st, ?run, ?sent, ?received, ?out⟩
    case run =>
      refine .head (Step.act (t := true) rfl rfl (Begins.send #[7] (Nat.le_refl 1))) ?_
      refine .head (Step.lock (t := true) rfl rfl rfl) ?_
      refine .head (Step.act (t := true) rfl rfl ⟨(true, true), rfl, rfl⟩) ?_
      refine .head (Step.act (t := true) rfl rfl ⟨rfl, rfl⟩) ?_
      have hsignal : code 1 0 (.sendSignal 0) = .signal (.sendUnlock 0) := rfl
      refine .head (Step.signal (t := true) rfl hsignal (fun _ => false) ?_) ?_
      · rintro ⟨u, p, hu⟩
        cases u <;> cases hu
      refine .head (Step.unlock (t := true) rfl rfl rfl) ?_
      refine .head (Step.act (t := true) rfl rfl ⟨rfl, rfl⟩) ?_
      exact .refl
    case sent => rfl
    case received => rfl
    case out => rfl
  have hunread : st.shared.sent.length ≤ st.shared.received.length + 1 := by
    rw [hsent, hreceived]
    exact Nat.le_refl 1
  exact ⟨st, hr, hsent, hreceived, hout, (mailbox_destroyed (newMailbox_start Bool 1) hr).1 hunread⟩

end AeadPerf.Bench
