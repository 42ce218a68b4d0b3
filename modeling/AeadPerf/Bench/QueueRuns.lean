/-
# `Bench.QueueRuns` — what holds after any calls on a queue

`Holds h q n items` is the invariant: the queue at `q` holds the jobs `items`, in nodes
linked from `head` to `tail`, `q_size` of them, with no cell used twice.

    newQueue     starts it, with no items          (`newQueue_holds`)
    enqueue      appends an item, or fails and
                 leaves the live cells as they are (`enqueue_holds`, `enqueue_fails`)
    dequeue      takes the first item, if any      (`dequeue_holds`, `dequeue_empty`)

None of them stops at a fault.  On the list of the jobs' bytes a call is one line
(`fifoCall`), and it answers to its caller what that line answers (`call_simulates`).  So
every sequence of calls on a new queue ends, in a state with the invariant
(`session_holds`).
-/
import AeadPerf.Bench.Queue

namespace AeadPerf.Bench

open Words HeapProg
open Shape (segment_append link_append footprint_append footprint_cons)

/-! ## The abstract queue -/

/-- What a call tells its caller. -/
inductive Answer where
  | status (r : Int)
  | job (bytes : Option (Array Byte))
  | flag (b : Bool)
  deriving DecidableEq, Repr

/-- A call on a list of jobs of `n` bytes. -/
def fifoCall {n : Nat} (l : List (Array Byte)) : Call n → Answer × List (Array Byte)
  | .enqueue job _ ok =>
      if ok = (true, true) then (.status 0, l ++ [job.extract 0 n]) else (.status (-1), l)
  | .dequeue => (.job l.head?, l.tail)
  | .isEmpty => (.flag l.isEmpty, l)

/-- What a reply tells in a heap: for a pointer, the bytes it points to. -/
def Shows (h : Heap Content) : Reply → Answer → Prop
  | .status r, .status r' => r = r'
  | .job none, .job none => True
  | .job (some a), .job (some b) => h.Live a (.bytes b)
  | .flag b, .flag b' => b = b'
  | _, _ => False

/-! ## The invariant -/

/-- A queued job: its node, its buffer and the bytes in it. -/
structure Item where
  node : Addr
  job : Addr
  bytes : Array Byte
  deriving DecidableEq, Repr

/-- Items on the heap. -/
def jobs : Shape Item Content where
  addr := Item.node
  node it next := .node ⟨some it.job, next⟩
  rest it := [(it.job, .bytes it.bytes)]

/-- The node that `tail` points to. -/
def lastNode (items : List Item) : Ptr := items.getLast?.map Item.node

/-- The queue at `q`, for jobs of `n` bytes, holds `items`. -/
structure Holds (h : Heap Content) (q : Addr) (n : Nat) (items : List Item) : Prop where
  queue : h.Live q (.queue ⟨items.length, n, jobs.link items none, lastNode items⟩)
  chain : jobs.Segment h items none
  nodup : (q :: jobs.footprint items).Nodup
  sizes : ∀ it ∈ items, it.bytes.size = n

/-- The live cells of `h` are those of `h'`. -/
def SameLive (h h' : Heap Content) : Prop := ∀ a c, h'.Live a c ↔ h.Live a c

theorem footprint_single (it : Item) : jobs.footprint [it] = [it.node, it.job] := rfl

section Specs

variable {h : Heap Content} {q : Addr} {n : Nat} {items : List Item} {E : Fault → Prop}

/-- The invariant carries over to a heap that keeps the queue's cells. -/
theorem Holds.frame (hh : Holds h q n items) {h' : Heap Content}
    (hkeep : ∀ a ∈ q :: jobs.footprint items, ∀ c, h.Live a c → h'.Live a c) : Holds h' q n items where
  queue := hkeep q List.mem_cons_self _ hh.queue
  chain := hh.chain.frame fun a ha => hkeep a (List.mem_cons_of_mem _ ha)
  nodup := hh.nodup
  sizes := hh.sizes

/-- The queue's cells are live. -/
theorem Holds.live (hh : Holds h q n items) {a : Addr} (ha : a ∈ q :: jobs.footprint items) :
    ∃ c, h.Live a c := by
  rcases List.mem_cons.mp ha with rfl | ha
  · exact ⟨_, hh.queue⟩
  · exact hh.chain.live ha

/-! ## `new_queue` and `new_node` -/

theorem newQueue_holds :
    wp (newQueue true n) h (fun p h' => ∃ q, p = some q ∧ Holds h' q n []) E := by
  refine wp_bind (wp_malloc_true ?_)
  intro q h₁ _ h₁u
  have hqueue : h₁.Live q (queueView.inj ⟨0, 0, none, none⟩) := h₁u.here
  refine wp_bind (wp_store hqueue fun h₂ h₂u => wp_pure ?_)
  exact ⟨q, rfl, h₂u.here, trivial, List.nodup_singleton q, fun it hit => absurd hit List.not_mem_nil⟩

/-- A new node, with its copy of the job, in two new cells. -/
theorem newNode_ok {job : Array Byte} (hfits : n ≤ job.size) :
    wp (newNode (true, true) n job) h (fun p h' => ∃ a j, p = some a ∧ h.get a = none ∧ h.get j = none
      ∧ a ≠ j ∧ h'.Live a (.node ⟨some j, none⟩) ∧ h'.Live j (.bytes (job.extract 0 n))
      ∧ ∀ b, b ≠ a → b ≠ j → h'.get b = h.get b) E := by
  refine wp_bind (wp_malloc_true ?_)
  intro a h₁ ha h₁u
  refine wp_bind (wp_malloc_true ?_)
  intro j h₂ hj h₂u
  have haj : a ≠ j := by
    rintro rfl
    rw [h₁u.here] at hj
    cases hj
  have hj₀ : h.get j = none := (h₁u.frame j haj.symm).symm.trans hj
  have hnode₂ : h₂.Live a (nodeView.inj ⟨none, none⟩) := h₂u.live h₁u.here haj
  refine wp_bind (wp_update hnode₂ ?_)
  intro h₃ h₃u
  have hnode₃ : h₃.Live a (nodeView.inj ⟨some j, none⟩) := h₃u.here
  refine wp_bind (wp_load hnode₃ ?_)
  refine wp_bind (wp_update hnode₃ ?_)
  intro h₄ h₄u
  have hnode₄ : h₄.Live a (nodeView.inj ⟨some j, none⟩) := h₄u.here
  refine wp_bind (wp_load hnode₄ ?_)
  have hbytes₄ : h₄.Live j (bytesView.inj (Array.replicate n 0)) :=
    h₄u.live (h₃u.live h₂u.here haj.symm) haj.symm
  rw [copyJob, if_pos hfits]
  refine wp_bind (wp_store hbytes₄ fun h₅ h₅u => wp_pure ?_)
  refine ⟨a, j, rfl, ha, hj₀, haj, h₅u.live h₄u.here haj, h₅u.here, fun b hba hbj => ?_⟩
  rw [h₅u.frame b hbj, h₄u.frame b hba, h₃u.frame b hba, h₂u.frame b hbj, h₁u.frame b hba]

/-- No node: what was allocated for it is freed again. -/
theorem newNode_fails {ok : Bool × Bool} (hok : ok ≠ (true, true)) (job : Array Byte) :
    wp (newNode ok n job) h (fun p h' => p = none ∧ SameLive h h') E := by
  obtain ⟨ok₁, ok₂⟩ := ok
  cases ok₁ with
  | false =>
      exact wp_bind (wp_malloc_false (wp_pure ⟨rfl, fun a c => Iff.rfl⟩))
  | true =>
      cases ok₂ with
      | true => exact absurd rfl hok
      | false =>
          refine wp_bind (wp_malloc_true ?_)
          intro a h₁ ha h₁u
          refine wp_bind (wp_malloc_false ?_)
          have hnode : h₁.Live a (nodeView.inj ⟨none, none⟩) := h₁u.here
          refine wp_bind (wp_update hnode ?_)
          intro h₂ h₂u
          have hnode₂ : h₂.Live a (nodeView.inj ⟨none, none⟩) := h₂u.here
          refine wp_bind (wp_load hnode₂ ?_)
          refine wp_bind (wp_free h₂u.here fun h₃ h₃u => wp_pure ⟨rfl, fun b c => ?_⟩)
          by_cases hba : b = a
          · subst hba
            simp [Heap.Live, h₃u.here, ha]
          · rw [Heap.Live, Heap.Live, h₃u.frame b hba, h₂u.frame b hba, h₁u.frame b hba]

/-! ## `enqueue` and `dequeue` -/

/-- The new node `it` is linked behind the last one. -/
theorem linkLast_links (hh : Holds h q n items) (it : Item)
    (hnode : h.Live it.node (.node ⟨some it.job, none⟩)) (hjob : h.Live it.job (.bytes it.bytes))
    (hnew : ∀ a ∈ q :: jobs.footprint items, a ≠ it.node ∧ a ≠ it.job) :
    wp (linkLast (some q) (some it.node)) h (fun _ h' =>
      h'.Live q (.queue ⟨items.length, n, jobs.link (items ++ [it]) none, lastNode items⟩)
        ∧ jobs.Segment h' (items ++ [it]) none) E := by
  have hq := hnew q List.mem_cons_self
  refine wp_bind (wp_load hh.queue ?_)
  rcases List.eq_nil_or_concat' items with rfl | ⟨init, last, rfl⟩
  · refine wp_if_pos rfl (wp_update hh.queue fun h₁ h₁u => ⟨h₁u.here, ?_, ?_, trivial⟩)
    · exact h₁u.live hnode hq.1.symm
    · intro p hp
      obtain rfl : p = (it.job, Content.bytes it.bytes) := List.mem_singleton.mp hp
      exact h₁u.live hjob hq.2.symm
  · have htail : lastNode (init ++ [last]) = some last.node := by simp [lastNode]
    have hlast := (segment_append init [last]).mp hh.chain
    have hlive : h.Live last.node (nodeView.inj ⟨some last.job, none⟩) := hlast.2.1
    have hmem : last.node ∈ jobs.footprint (init ++ [last]) := by
      rw [footprint_append, footprint_single]
      exact List.mem_append_right _ List.mem_cons_self
    have hlastq : q ≠ last.node := fun heq => (List.nodup_cons.mp hh.nodup).1 (heq ▸ hmem)
    have hlastnew := hnew last.node (List.mem_cons_of_mem _ hmem)
    rw [htail]
    refine wp_if_neg (by simp) (wp_update hlive fun h₁ h₁u => ⟨?_, ?_⟩)
    · have hq₁ := h₁u.live hh.queue hlastq
      rw [link_append, htail] at hq₁
      rw [link_append, link_append]
      exact hq₁
    · refine (segment_append _ _).mpr ⟨hh.chain.relink (List.nodup_cons.mp hh.nodup).2 h₁u, ?_, ?_, trivial⟩
      · exact h₁u.live hnode hlastnew.1.symm
      · intro p hp
        obtain rfl : p = (it.job, Content.bytes it.bytes) := List.mem_singleton.mp hp
        exact h₁u.live hjob hlastnew.2.symm

/-- `enqueue` appends the job's first `n` bytes … -/
theorem enqueue_holds (hh : Holds h q n items) {job : Array Byte} (hfits : n ≤ job.size) :
    wp (enqueue (true, true) (some q) job) h (fun r h' => r = 0 ∧ ∃ it,
      it.bytes = job.extract 0 n ∧ Holds h' q n (items ++ [it])) E := by
  refine wp_bind (wp_load hh.queue ?_)
  refine wp_bind (wp_mono ?_ (newNode_ok hfits))
  rintro p h₁ ⟨a, j, rfl, ha, hj, haj, hnode, hbytes, hframe⟩
  have hnew : ∀ b ∈ q :: jobs.footprint items, b ≠ a ∧ b ≠ j := by
    intro b hb
    obtain ⟨c, hc⟩ := hh.live hb
    constructor
    · rintro rfl
      cases ha.symm.trans hc
    · rintro rfl
      cases hj.symm.trans hc
  have hh₁ : Holds h₁ q n items :=
    hh.frame fun b hb c hc => (hframe b (hnew b hb).1 (hnew b hb).2).trans hc
  let it : Item := ⟨a, j, job.extract 0 n⟩
  refine wp_bind (wp_mono ?_ (linkLast_links hh₁ it hnode hbytes hnew))
  rintro - h₂ ⟨hqueue₂, hchain₂⟩
  refine wp_bind (wp_update hqueue₂ ?_)
  intro h₃ h₃u
  have hqueue₃ : h₃.Live q (queueView.inj ⟨items.length, n, jobs.link (items ++ [it]) none, some a⟩) :=
    h₃u.here
  refine wp_bind (wp_update hqueue₃ fun h₄ h₄u => wp_pure ⟨rfl, it, rfl, ?_⟩)
  have hnodup : (q :: jobs.footprint (items ++ [it])).Nodup := by
    rw [footprint_append, footprint_single, ← List.cons_append]
    refine List.nodup_append.mpr ⟨hh.nodup, by simp [it, haj], fun b hb b' hb' => ?_⟩
    rcases List.mem_pair.mp hb' with rfl | rfl
    · exact (hnew b hb).1
    · exact (hnew b hb).2
  refine ⟨?_, hchain₂.frame fun b hb c hc => ?_, hnodup, fun it' hit' => ?_⟩
  · have hlength : (items ++ [it]).length = items.length + 1 := List.length_append
    have hlast : lastNode (items ++ [it]) = some a := by simp [lastNode, it]
    rw [hlength, hlast]
    exact h₄u.here
  · have hbq : b ≠ q := fun heq => (List.nodup_cons.mp hnodup).1 (heq ▸ hb)
    exact h₄u.live (h₃u.live hc hbq) hbq
  · rcases List.mem_append.mp hit' with hit' | hit'
    · exact hh.sizes it' hit'
    · obtain rfl : it' = it := List.mem_singleton.mp hit'
      simp [it, hfits]

/-- … or leaves the queue as it is. -/
theorem enqueue_fails (hh : Holds h q n items) {ok : Bool × Bool} (hok : ok ≠ (true, true))
    (job : Array Byte) :
    wp (enqueue ok (some q) job) h (fun r h' => r = -1 ∧ Holds h' q n items ∧ SameLive h h') E := by
  refine wp_bind (wp_load hh.queue ?_)
  refine wp_bind (wp_mono ?_ (newNode_fails hok job))
  rintro p h₁ ⟨rfl, hsame⟩
  exact wp_pure ⟨rfl, hh.frame fun a _ c hc => (hsame a c).mpr hc, hsame⟩

/-- The first node is taken out of the list. -/
theorem unlinkFirst_unlinks {it : Item} (hh : Holds h q n (it :: items)) :
    wp (unlinkFirst (some q) (some it.node)) h (fun _ h' => h.Update q
      (.live (.queue ⟨items.length + 1, n, jobs.link items none, lastNode items⟩)) h') E := by
  refine wp_bind (wp_load hh.queue ?_)
  cases items with
  | nil => exact wp_if_pos rfl (wp_update hh.queue fun h₁ h₁u => h₁u)
  | cons it' items =>
      have hnode : h.Live it.node (nodeView.inj ⟨some it.job, some it'.node⟩) := hh.chain.1
      refine wp_if_neg (by simp) (wp_bind (wp_load hnode (wp_update hh.queue ?_)))
      intro h₁ h₁u
      have hlast : lastNode (it :: it' :: items) = lastNode (it' :: items) := by
        simp [lastNode, List.getLast?_cons_cons]
      rw [← hlast]
      exact h₁u

/-- `dequeue` takes the first item, whose buffer is the caller's now. -/
theorem dequeue_holds {it : Item} (hh : Holds h q n (it :: items)) :
    wp (dequeue (some q)) h (fun p h' => p = some it.job ∧ Holds h' q n items
      ∧ h'.Live it.job (.bytes it.bytes)) E := by
  obtain ⟨hqnot, hnodup⟩ := List.nodup_cons.mp hh.nodup
  rw [footprint_cons, List.mem_append, not_or] at hqnot
  rw [footprint_cons, List.nodup_append] at hnodup
  obtain ⟨hown, hrest, hdisjoint⟩ := hnodup
  have hqnode : it.node ≠ q := fun heq => hqnot.1 (heq ▸ List.mem_cons_self)
  have hqjob : it.job ≠ q := fun heq => hqnot.1 (heq ▸ List.mem_cons_of_mem _ List.mem_cons_self)
  have hpair : [it.node, it.job].Nodup := hown
  have hjobnode : it.job ≠ it.node := fun heq => by simp [heq] at hpair
  obtain ⟨hnode, hjob, hchain⟩ := hh.chain
  refine wp_bind (wp_load hh.queue ?_)
  refine wp_bind (wp_mono ?_ (unlinkFirst_unlinks hh))
  intro _ h₁ h₁u
  have hqueue₁ : h₁.Live q (queueView.inj ⟨items.length + 1, n, jobs.link items none, lastNode items⟩) :=
    h₁u.here
  refine wp_bind (wp_update hqueue₁ ?_)
  intro h₂ h₂u
  have hnode₂ : h₂.Live it.node (nodeView.inj ⟨some it.job, jobs.link items none⟩) :=
    h₂u.live (h₁u.live hnode hqnode) hqnode
  refine wp_bind (wp_load hnode₂ ?_)
  refine wp_bind (wp_free hnode₂ fun h₃ h₃u => wp_pure ⟨rfl, ⟨?_, ?_, ?_, ?_⟩, ?_⟩)
  · exact h₃u.live h₂u.here hqnode.symm
  · refine hchain.frame ?_
    intro a ha c hc
    have haq : a ≠ q := fun heq => hqnot.2 (heq ▸ ha)
    have hanode : a ≠ it.node := (hdisjoint _ List.mem_cons_self a ha).symm
    exact h₃u.live (h₂u.live (h₁u.live hc haq) haq) hanode
  · exact List.nodup_cons.mpr ⟨hqnot.2, hrest⟩
  · exact fun it' hit' => hh.sizes it' (List.mem_cons_of_mem _ hit')
  · have hjob₀ : h.Live it.job (.bytes it.bytes) := hjob _ (List.mem_singleton_self _)
    exact h₃u.live (h₂u.live (h₁u.live hjob₀ hqjob) hqjob) hjobnode

/-- `dequeue` on the empty queue returns NULL and changes nothing. -/
theorem dequeue_empty (hh : Holds h q n []) :
    wp (dequeue (some q)) h (fun p h' => p = none ∧ h' = h) E :=
  wp_bind (wp_load hh.queue (wp_pure ⟨rfl, rfl⟩))

theorem isEmpty_eq (hh : Holds h q n items) :
    wp (isEmpty (some q)) h (fun b h' => b = items.isEmpty ∧ h' = h) E := by
  refine wp_bind (wp_load hh.queue (wp_pure ⟨?_, rfl⟩))
  cases items <;> rfl

/-! ## Any number of calls -/

/-- One call: the reply and the next state are the abstract ones; where it fails, nothing
has changed. -/
theorem call_simulates (hh : Holds h q n items) (call : Call n) :
    wp (call.run (some q)) h (fun reply h' => ∃ items', Holds h' q n items'
      ∧ items'.map Item.bytes = (fifoCall (items.map Item.bytes) call).2
      ∧ Shows h' reply (fifoCall (items.map Item.bytes) call).1
      ∧ (reply = .status (-1) → SameLive h h')) E := by
  cases call with
  | enqueue job hfits ok =>
      by_cases hok : ok = (true, true)
      · subst hok
        refine wp_bind (wp_mono ?_ (enqueue_holds hh hfits))
        rintro r h' ⟨rfl, it, hbytes, hh'⟩
        refine wp_pure ⟨_, hh', ?_, ?_, ?_⟩
        · rw [List.map_append, List.map_singleton, hbytes]
          rfl
        · exact rfl
        · intro hfailed
          cases hfailed
      · refine wp_bind (wp_mono ?_ (enqueue_fails hh hok job))
        rintro r h' ⟨rfl, hh', hsame⟩
        refine wp_pure ⟨_, hh', ?_, ?_, fun _ => hsame⟩
        · rw [fifoCall, if_neg hok]
        · rw [fifoCall, if_neg hok]
          exact rfl
  | dequeue =>
      cases items with
      | nil =>
          refine wp_bind (wp_mono ?_ (dequeue_empty hh))
          rintro p h' ⟨rfl, rfl⟩
          refine wp_pure ⟨_, hh, rfl, trivial, ?_⟩
          intro hfailed
          cases hfailed
      | cons it items =>
          refine wp_bind (wp_mono ?_ (dequeue_holds hh))
          rintro p h' ⟨rfl, hh', hjob⟩
          refine wp_pure ⟨_, hh', rfl, hjob, ?_⟩
          intro hfailed
          cases hfailed
  | isEmpty =>
      refine wp_bind (wp_mono ?_ (isEmpty_eq hh))
      rintro b h' ⟨rfl, rfl⟩
      refine wp_pure ⟨_, hh, rfl, List.isEmpty_map.symm, ?_⟩
      intro hfailed
      cases hfailed

/-- What any number of calls preserves. -/
theorem runCalls_holds (hh : Holds h q n items) (calls : List (Call n)) :
    wp (runCalls (some q) calls) h (fun _ h' => ∃ items', Holds h' q n items') E := by
  induction calls generalizing h items with
  | nil => exact wp_pure ⟨items, hh⟩
  | cons call calls ih =>
      refine wp_bind (wp_mono ?_ (call_simulates hh call))
      rintro reply h₁ ⟨items₁, hh₁, -⟩
      refine wp_bind (wp_mono ?_ (ih hh₁))
      rintro replies h₂ hh₂
      exact wp_pure hh₂

/-- **Every sequence of calls on a new queue** ends, in a state with the invariant. -/
theorem session_holds (calls : List (Call n)) :
    wp (session n calls) h (fun r h' => ∃ q items, r.1 = some q ∧ Holds h' q n items) E := by
  refine wp_bind (wp_mono ?_ newQueue_holds)
  rintro p h₁ ⟨q, rfl, hh₁⟩
  refine wp_bind (wp_mono ?_ (runCalls_holds hh₁ calls))
  rintro replies h₂ ⟨items, hh₂⟩
  exact wp_pure ⟨q, items, rfl, hh₂⟩

end Specs

end AeadPerf.Bench
