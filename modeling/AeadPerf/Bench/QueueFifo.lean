/-
# `Bench.QueueFifo` — the queue is a FIFO

The abstract queue is a list of byte strings (`fifoCall` of `Bench.QueueRuns`).  The
concrete one has three records of its length:

    q_size    a number
    head      the chain of `next` pointers that starts there
    tail      the last node of that chain, or anything if there is none

`QueueState` says that the three agree, in terms of the heap alone; `Represents` forgets
the addresses.  Along any calls on a new queue, with any of its `malloc`s failing, every
state is such a state and every reply is the abstract one (`newQueue_simulates_fifo`).
-/
import AeadPerf.Bench.QueueRuns

namespace AeadPerf.Bench

open Words HeapProg

/-! ## The concrete queue -/

/-- From `p` on, the `next` pointers lead through the nodes of `items`, in order, to
NULL; each node has its job, with its bytes. -/
def Chain (h : Heap Content) : Ptr → List Item → Prop
  | p, [] => p = none
  | p, it :: items => p = some it.node ∧ h.Live it.job (.bytes it.bytes)
      ∧ ∃ next, h.Live it.node (.node ⟨some it.job, next⟩) ∧ Chain h next items

/-- The structure `s` at `q` holds `items`: its three records of them agree. -/
structure QueueState (h : Heap Content) (q : Addr) (s : Queue) (items : List Item) : Prop where
  live : h.Live q (.queue s)
  chain : Chain h s.head items
  acyclic : (items.map Item.node).Nodup
  size : s.qSize = items.length
  tail : 0 < s.qSize → s.tail = (items.map Item.node).getLast?

/-- The queue at `q` is in order and holds the jobs `l`. -/
def Represents (h : Heap Content) (q : Addr) (l : List (Array Byte)) : Prop :=
  ∃ s items, QueueState h q s items ∧ items.map Item.bytes = l

/-- The heap determines a chain. -/
theorem Chain.unique {h : Heap Content} {p : Ptr} {items items' : List Item} (hc : Chain h p items)
    (hc' : Chain h p items') : items = items' := by
  induction items generalizing p items' with
  | nil =>
      cases items' with
      | nil => rfl
      | cons it' items' => cases hc.symm.trans hc'.1
  | cons it items ih =>
      cases items' with
      | nil => cases hc'.symm.trans hc.1
      | cons it' items' =>
          obtain ⟨hp, hjob, next, hnode, hrest⟩ := hc
          obtain ⟨hp', hjob', next', hnode', hrest'⟩ := hc'
          have haddr : it.node = it'.node := Option.some.inj (hp.symm.trans hp')
          rw [← haddr] at hnode'
          obtain ⟨hptr, rfl⟩ := Node.mk.inj (Content.node.inj (hnode.inj hnode'))
          have hjobs : it.job = it'.job := Option.some.inj hptr
          rw [← hjobs] at hjob'
          have hbytes : it.bytes = it'.bytes := Content.bytes.inj (hjob.inj hjob')
          have hit : it = it' := by
            cases it
            cases it'
            cases haddr
            cases hjobs
            cases hbytes
            rfl
          rw [hit, ih hrest hrest']

theorem Represents.unique {h : Heap Content} {q : Addr} {l l' : List (Array Byte)}
    (hr : Represents h q l) (hr' : Represents h q l') : l = l' := by
  obtain ⟨s, items, hs, rfl⟩ := hr
  obtain ⟨s', items', hs', rfl⟩ := hr'
  obtain rfl := Content.queue.inj (hs.live.inj hs'.live)
  rw [hs.chain.unique hs'.chain]

section Invariant

variable {h : Heap Content} {q : Addr} {n : Nat} {items : List Item}

theorem chain_of_segment (hs : jobs.Segment h items none) : Chain h (jobs.link items none) items := by
  induction items with
  | nil => rfl
  | cons it items ih =>
      obtain ⟨hnode, hrest, htail⟩ := hs
      exact ⟨rfl, hrest _ (List.mem_singleton_self _), _, hnode, ih htail⟩

theorem nodup_nodes (hnodup : (jobs.footprint items).Nodup) : (items.map Item.node).Nodup := by
  induction items with
  | nil => exact List.nodup_nil
  | cons it items ih =>
      rw [Shape.footprint_cons, List.nodup_append] at hnodup
      obtain ⟨-, hrest, hdisjoint⟩ := hnodup
      refine List.nodup_cons.mpr ⟨?_, ih hrest⟩
      intro hmem
      obtain ⟨it', hit', heq⟩ := List.mem_map.mp hmem
      have hown : it'.node ∈ jobs.footprint items :=
        List.mem_flatMap.mpr ⟨it', hit', List.mem_cons_self⟩
      exact hdisjoint it.node List.mem_cons_self it'.node hown heq.symm

/-- The invariant of the runs says that the records agree. -/
theorem Holds.queueState (hh : Holds h q n items) :
    QueueState h q ⟨items.length, n, jobs.link items none, lastNode items⟩ items where
  live := hh.queue
  chain := chain_of_segment hh.chain
  acyclic := nodup_nodes (List.nodup_cons.mp hh.nodup).2
  size := rfl
  tail _ := List.getLast?_map.symm

theorem Holds.represents (hh : Holds h q n items) : Represents h q (items.map Item.bytes) :=
  ⟨_, items, hh.queueState, rfl⟩

/-- The heap determines the items. -/
theorem Holds.unique {items' : List Item} (hh : Holds h q n items) (hh' : Holds h q n items') :
    items = items' := by
  have hheads : jobs.link items none = jobs.link items' none :=
    congrArg Queue.head (Content.queue.inj (hh.queue.inj hh'.queue))
  have hchain : Chain h (jobs.link items none) items' := hheads ▸ hh'.queueState.chain
  exact hh.queueState.chain.unique hchain

end Invariant

/-! ## The simulation -/

/-- From the heap `h`, in which the queue at `q` should hold `l`, the calls return, and the
FIFO on `l` accounts for each of them. -/
def Simulates {n : Nat} (q : Addr) : List (Call n) → Heap Content → List (Array Byte) → Prop
  | [], h, l => Represents h q l
  | call :: calls, h, l => Represents h q l ∧ ∃ reply h', call.run (some q) h = .ok (reply, h')
      ∧ Shows h' reply (fifoCall l call).1
      ∧ (reply = .status (-1) → SameLive h h')
      ∧ Simulates q calls h' (fifoCall l call).2

theorem simulates_of_holds {n : Nat} {q : Addr} (calls : List (Call n)) {h : Heap Content}
    {items : List Item} (hh : Holds h q n items) :
    Simulates q calls h (items.map Item.bytes) := by
  induction calls generalizing h items with
  | nil => exact hh.represents
  | cons call calls ih =>
      obtain ⟨reply, h', hrun, items', hh', hbytes, hshows, hfailed⟩ := wp_ok.mp (call_simulates hh call)
      refine ⟨hh.represents, reply, h', hrun, hshows, hfailed, ?_⟩
      rw [← hbytes]
      exact ih hh'

/-- **The queue refines a FIFO**: whatever the size of the jobs, the calls and the calls of
`malloc` that fail. -/
theorem newQueue_simulates_fifo (h₀ : Heap Content) (n : Nat) (calls : List (Call n)) :
    ∃ q h, newQueue true n h₀ = .ok (some q, h) ∧ Simulates q calls h [] := by
  obtain ⟨p, h, hrun, q, rfl, hh⟩ := wp_ok.mp (newQueue_holds (h := h₀) (n := n))
  exact ⟨q, h, hrun, simulates_of_holds calls hh⟩

end AeadPerf.Bench
