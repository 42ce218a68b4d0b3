/-
# `Bench.QueueOwns` — whose memory is it

The queue has its structure, its nodes and the buffers of the jobs in it.  In terms of
`Exchange` of `Lib.Exchange`, with `fp` for the nodes and buffers of the items:

    newQueue      []               for   q
    enqueue       q, fp items      for   q, fp items with two new cells
    dequeue       q, fp items      for   q, fp of the rest, and the buffer it returns
    free_queue    q, fp items      for   nothing          (if it ends without a fault)

A buffer that `dequeue` has returned is the caller's: no later call touches it, or returns it
again.  So in the last heap of a session all replies are still right, and the live cells are
those from before, the queue's own and the buffers returned (`session_owns`).  `free_queue`,
where it is right, leaves the buffers returned and nothing else.
-/
import AeadPerf.Lib.Exchange
import AeadPerf.Bench.QueueFree

namespace AeadPerf.Bench

open Words HeapProg
open Shape (footprint_append footprint_cons)

/-! ## What is returned -/

/-- The buffer that a reply hands over. -/
def Reply.buffers : Reply → List Addr
  | .job (some a) => [a]
  | _ => []

/-- Calls on a list of jobs: what they answer, and what is left. -/
def fifoCalls {n : Nat} : List (Array Byte) → List (Call n) → List Answer × List (Array Byte)
  | l, [] => ([], l)
  | l, call :: calls =>
      let next := fifoCall l call
      let rest := fifoCalls next.2 calls
      (next.1 :: rest.1, rest.2)

/-- A reply stays right while the buffer it hands over does. -/
theorem Shows.keep {h h' : Heap Content} {reply : Reply} {answer : Answer}
    (hshows : Shows h reply answer) (hkeep : ∀ a ∈ reply.buffers, ∀ c, h.Live a c → h'.Live a c) :
    Shows h' reply answer := by
  cases reply with
  | status r =>
      cases answer with
      | status r' => exact hshows
      | _ => exact hshows.elim
  | flag b =>
      cases answer with
      | flag b' => exact hshows
      | _ => exact hshows.elim
  | job p =>
      cases answer with
      | job bytes =>
          cases p with
          | none =>
              cases bytes with
              | none => trivial
              | some b => exact hshows.elim
          | some a =>
              cases bytes with
              | none => exact hshows.elim
              | some b => exact hkeep a (List.mem_singleton_self a) _ hshows
      | _ => cases p <;> exact hshows.elim

/-! ## The operations -/

section Specs

variable {h : Heap Content} {q : Addr} {n : Nat} {items : List Item}

/-- The cells of the queue. -/
def cells (q : Addr) (items : List Item) : List Addr := q :: jobs.footprint items

theorem newQueue_exchange : wp (newQueue true n) h
    (fun p h' => ∃ q, p = some q ∧ Exchange h h' [] (cells q [])) fun _ => False := by
  refine wp_bind (wp_malloc_true ?_)
  intro q h₁ hq h₁u
  have hqueue : h₁.Live q (queueView.inj ⟨0, 0, none, none⟩) := h₁u.here
  refine wp_bind (wp_store hqueue fun h₂ h₂u => wp_pure ⟨q, rfl, ?_⟩)
  refine ⟨List.nodup_singleton q, ?_, ?_, ?_, ?_⟩
  · intro a ha
    cases List.mem_singleton.mp ha
    exact ⟨_, h₂u.here⟩
  · intro a ha _ c hc
    cases List.mem_singleton.mp ha
    cases hq.symm.trans hc
  · intro a ha
    exact absurd ha List.not_mem_nil
  · intro a _ ha c
    have haq : a ≠ q := fun heq => ha (heq ▸ List.mem_singleton_self q)
    rw [Heap.Live, Heap.Live, h₂u.frame a haq, h₁u.frame a haq]

/-- `linkLast` writes to the queue's own cells. -/
theorem linkLast_frame (hh : Holds h q n items) (a : Addr) {E : Fault → Prop} :
    wp (linkLast (some q) (some a)) h
      (fun _ h' => ∀ b, b ∉ cells q items → h'.get b = h.get b) E := by
  refine wp_bind (wp_load hh.queue ?_)
  rcases List.eq_nil_or_concat' items with rfl | ⟨init, last, rfl⟩
  · refine wp_if_pos rfl (wp_update hh.queue ?_)
    intro h₁ h₁u b hb
    exact h₁u.frame b fun heq => hb (heq ▸ List.mem_cons_self)
  · have htail : lastNode (init ++ [last]) = some last.node := by simp [lastNode]
    have hlive : h.Live last.node (nodeView.inj ⟨some last.job, none⟩) :=
      ((Shape.segment_append init [last]).mp hh.chain).2.1
    rw [htail]
    refine wp_if_neg (by simp) (wp_update hlive ?_)
    intro h₁ h₁u b hb
    refine h₁u.frame b ?_
    rintro rfl
    refine hb (List.mem_cons_of_mem _ ?_)
    rw [footprint_append, footprint_single]
    exact List.mem_append_right _ List.mem_cons_self

/-- What `enqueue` writes to: two new cells, which are the last node and its job, and the
queue's own. -/
theorem enqueue_frame (hh : Holds h q n items) {job : Array Byte} (hfits : n ≤ job.size) :
    wp (enqueue (true, true) (some q) job) h (fun _ h' => ∃ a j next s, h.get a = none
      ∧ h.get j = none ∧ h'.Live q (.queue s) ∧ s.tail = some a
      ∧ h'.Live a (.node ⟨some j, next⟩)
      ∧ ∀ b, b ∉ cells q items → b ≠ a → b ≠ j → h'.get b = h.get b) fun _ => False := by
  refine wp_bind (wp_load hh.queue ?_)
  refine wp_bind (wp_mono ?_ (newNode_ok hfits))
  rintro p h₁ ⟨a, j, rfl, ha, hj, haj, hnode, hbytes, hframe⟩
  have hnew : ∀ b ∈ cells q items, b ≠ a ∧ b ≠ j := by
    intro b hb
    obtain ⟨c, hc⟩ := hh.live hb
    constructor
    · rintro rfl
      cases ha.symm.trans hc
    · rintro rfl
      cases hj.symm.trans hc
  have hh₁ : Holds h₁ q n items :=
    hh.frame fun b hb c hc => (hframe b (hnew b hb).1 (hnew b hb).2).trans hc
  let it : Item := ⟨a, j, job.extract 0 n⟩
  refine wp_bind (wp_mono ?_ (wp_and (linkLast_links hh₁ it hnode hbytes hnew) (linkLast_frame hh₁ a)))
  rintro - h₂ ⟨⟨hqueue₂, -⟩, hframe₂⟩
  refine wp_bind (wp_update hqueue₂ ?_)
  intro h₃ h₃u
  have hqueue₃ : h₃.Live q (queueView.inj ⟨items.length, n, jobs.link (items ++ [it]) none, some a⟩) :=
    h₃u.here
  have haq : a ≠ q := (hnew q List.mem_cons_self).1.symm
  have hnode₂ : h₂.Live a (.node ⟨some j, none⟩) :=
    (hframe₂ a fun hmem => (hnew a hmem).1 rfl).trans hnode
  refine wp_bind (wp_update hqueue₃ fun h₄ h₄u => wp_pure ⟨a, j, none, _, ha, hj, h₄u.here, rfl, ?_, ?_⟩)
  · exact h₄u.live (h₃u.live hnode₂ haq) haq
  · intro b hb hba hbj
    have hbq : b ≠ q := fun heq => hb (heq ▸ List.mem_cons_self)
    rw [h₄u.frame b hbq, h₃u.frame b hbq, hframe₂ b hb, hframe b hba hbj]

theorem enqueue_exchange (hh : Holds h q n items) {job : Array Byte} (hfits : n ≤ job.size) :
    wp (enqueue (true, true) (some q) job) h (fun r h' => r = 0 ∧ ∃ it, it.bytes = job.extract 0 n
      ∧ Holds h' q n (items ++ [it]) ∧ Exchange h h' (cells q items) (cells q (items ++ [it])))
      fun _ => False := by
  refine wp_mono ?_ (wp_and (enqueue_holds hh hfits) (enqueue_frame hh hfits))
  rintro r h' ⟨⟨rfl, it, hbytes, hh'⟩, a, j, next, s, ha, hj, hqueue, htail, hnode, hframe⟩
  refine ⟨rfl, it, hbytes, hh', ?_⟩
  -- the new cells are those of `it`: `tail` leads to its node, and the node to its job
  obtain rfl : a = it.node := by
    rw [← Content.queue.inj (hh'.queue.inj hqueue), lastNode, List.getLast?_concat] at htail
    exact (Option.some.inj htail).symm
  obtain rfl : j = it.job := by
    have hlast := ((Shape.segment_append items [it]).mp hh'.chain).2.1
    have hjob := congrArg Node.job (Content.node.inj (hnode.inj hlast))
    exact Option.some.inj hjob
  have hcells : ∀ b, b ∈ cells q (items ++ [it]) ↔ b ∈ cells q items ∨ b = it.node ∨ b = it.job := by
    intro b
    simp only [cells, footprint_append, footprint_single, List.mem_cons, List.mem_append,
      List.not_mem_nil, or_false, or_assoc]
  refine ⟨hh'.nodup, fun b hb => hh'.live hb, ?_, ?_, ?_⟩
  · intro b hb hold c hc
    rcases (hcells b).mp hb with hb | rfl | rfl
    · exact hold hb
    · cases ha.symm.trans hc
    · cases hj.symm.trans hc
  · intro b hb hnot
    exact absurd ((hcells b).mpr (Or.inl hb)) hnot
  · intro b hold hnot c
    rw [hcells, not_or, not_or] at hnot
    rw [Heap.Live, Heap.Live, hframe b hold hnot.2.1 hnot.2.2]

/-- Calls that change nothing. -/
theorem Holds.exchange_refl (hh : Holds h q n items) {h' : Heap Content} (hsame : SameLive h h') :
    Exchange h h' (cells q items) (cells q items) :=
  Exchange.refl hh.nodup (fun _ ha => hh.live ha) hsame

/-- `dequeue` writes to `q`, and frees the first node. -/
theorem dequeue_frame {it : Item} (hh : Holds h q n (it :: items)) :
    wp (dequeue (some q)) h (fun _ h' => h'.get it.node = some .freed
      ∧ ∀ b, b ≠ q → b ≠ it.node → h'.get b = h.get b) fun _ => False := by
  have hnodeq : it.node ≠ q := by
    intro heq
    refine (List.nodup_cons.mp hh.nodup).1 ?_
    rw [← heq]
    exact List.mem_cons_self
  obtain ⟨hnode, -, -⟩ := hh.chain
  refine wp_bind (wp_load hh.queue ?_)
  refine wp_bind (wp_mono ?_ (unlinkFirst_unlinks hh))
  intro _ h₁ h₁u
  have hqueue₁ : h₁.Live q (queueView.inj ⟨items.length + 1, n, jobs.link items none, lastNode items⟩) :=
    h₁u.here
  refine wp_bind (wp_update hqueue₁ ?_)
  intro h₂ h₂u
  have hnode₂ : h₂.Live it.node (nodeView.inj ⟨some it.job, jobs.link items none⟩) :=
    h₂u.live (h₁u.live hnode hnodeq) hnodeq
  refine wp_bind (wp_load hnode₂ ?_)
  refine wp_bind (wp_free hnode₂ fun h₃ h₃u => wp_pure ⟨h₃u.here, ?_⟩)
  intro b hbq hbnode
  rw [h₃u.frame b hbnode, h₂u.frame b hbq, h₁u.frame b hbq]

theorem dequeue_exchange {it : Item} (hh : Holds h q n (it :: items)) :
    wp (dequeue (some q)) h (fun p h' => p = some it.job ∧ Holds h' q n items
      ∧ h'.Live it.job (.bytes it.bytes)
      ∧ Exchange h h' (cells q (it :: items)) (cells q items ++ [it.job])) fun _ => False := by
  refine wp_mono ?_ (wp_and (dequeue_holds hh) (dequeue_frame hh))
  rintro p h' ⟨⟨rfl, hh', hjob⟩, hfreed, hframe⟩
  refine ⟨rfl, hh', hjob, ?_⟩
  have hperm : (cells q (it :: items)).Perm (it.node :: (cells q items ++ [it.job])) := by
    rw [cells, footprint_cons, cells]
    refine (List.Perm.swap it.node q _).trans (List.Perm.cons it.node ?_)
    exact (List.Perm.swap it.job q _).trans (List.perm_append_singleton it.job _).symm
  have hnodup := hperm.nodup_iff.mp hh.nodup
  have hcells : ∀ b, b ∈ cells q (it :: items) ↔ b = it.node ∨ b ∈ cells q items ++ [it.job] := by
    intro b
    rw [hperm.mem_iff, List.mem_cons]
  refine ⟨(List.nodup_cons.mp hnodup).2, ?_, ?_, ?_, ?_⟩
  · intro b hb
    rcases List.mem_append.mp hb with hb | hb
    · exact hh'.live hb
    · cases List.mem_singleton.mp hb
      exact ⟨_, hjob⟩
  · intro b hb hold
    exact absurd ((hcells b).mpr (Or.inr hb)) hold
  · intro b hb hnot c hc
    rcases (hcells b).mp hb with rfl | hb
    · cases hfreed.symm.trans hc
    · exact hnot hb
  · intro b hold hnot c
    have hbq : b ≠ q := fun heq => hold (heq ▸ List.mem_cons_self)
    have hbnode : b ≠ it.node := fun heq => hold ((hcells b).mpr (Or.inl heq))
    rw [Heap.Live, Heap.Live, hframe b hbq hbnode]

/-! ## Any number of calls -/

/-- What one call does. -/
theorem call_exchange (hh : Holds h q n items) (call : Call n) :
    wp (call.run (some q)) h (fun reply h' => ∃ items', Holds h' q n items'
      ∧ items'.map Item.bytes = (fifoCall (items.map Item.bytes) call).2
      ∧ Shows h' reply (fifoCall (items.map Item.bytes) call).1
      ∧ Exchange h h' (cells q items) (cells q items' ++ reply.buffers)) fun _ => False := by
  cases call with
  | enqueue job hfits ok =>
      by_cases hok : ok = (true, true)
      · subst hok
        refine wp_bind (wp_mono ?_ (enqueue_exchange hh hfits))
        rintro r h' ⟨rfl, it, hbytes, hh', hx⟩
        refine wp_pure ⟨_, hh', ?_, rfl, ?_⟩
        · rw [List.map_append, List.map_singleton, hbytes]
          rfl
        · simpa only [Reply.buffers, List.append_nil] using hx
      · refine wp_bind (wp_mono ?_ (enqueue_fails hh hok job))
        rintro r h' ⟨rfl, hh', hsame⟩
        refine wp_pure ⟨_, hh', ?_, ?_, ?_⟩
        · rw [fifoCall, if_neg hok]
        · rw [fifoCall, if_neg hok]
          exact rfl
        · simpa only [Reply.buffers, List.append_nil] using hh.exchange_refl hsame
  | dequeue =>
      cases items with
      | nil =>
          refine wp_bind (wp_mono ?_ (dequeue_empty hh))
          rintro p h' ⟨rfl, rfl⟩
          exact wp_pure ⟨_, hh, rfl, trivial, hh.exchange_refl fun _ _ => Iff.rfl⟩
      | cons it items =>
          refine wp_bind (wp_mono ?_ (dequeue_exchange hh))
          rintro p h' ⟨rfl, hh', hjob, hx⟩
          exact wp_pure ⟨_, hh', rfl, hjob, hx⟩
  | isEmpty =>
      refine wp_bind (wp_mono ?_ (isEmpty_eq hh))
      rintro b h' ⟨rfl, rfl⟩
      refine wp_pure ⟨_, hh, rfl, List.isEmpty_map.symm, ?_⟩
      simpa only [Reply.buffers, List.append_nil] using hh.exchange_refl fun _ _ => Iff.rfl

/-- The calls, and in the heap after them all their replies. -/
theorem runCalls_exchange (hh : Holds h q n items) (calls : List (Call n)) :
    wp (runCalls (some q) calls) h (fun replies h' => ∃ items', Holds h' q n items'
      ∧ items'.map Item.bytes = (fifoCalls (items.map Item.bytes) calls).2
      ∧ List.Forall₂ (Shows h') replies (fifoCalls (items.map Item.bytes) calls).1
      ∧ Exchange h h' (cells q items) (cells q items' ++ replies.flatMap Reply.buffers))
      fun _ => False := by
  induction calls generalizing h items with
  | nil =>
      refine wp_pure ⟨items, hh, rfl, List.Forall₂.nil, ?_⟩
      rw [List.flatMap_nil, List.append_nil]
      exact hh.exchange_refl fun _ _ => Iff.rfl
  | cons call calls ih =>
      refine wp_bind (wp_mono ?_ (call_exchange hh call))
      rintro reply h₁ ⟨items₁, hh₁, hbytes₁, hshows₁, hx₁⟩
      refine wp_bind (wp_mono ?_ (ih hh₁))
      rintro replies h₂ ⟨items₂, hh₂, hbytes₂, hshows₂, hx₂⟩
      rw [hbytes₁] at hbytes₂ hshows₂
      -- the later calls run beside the buffer that this one has returned
      have hlive : ∀ a ∈ reply.buffers, ∃ c, h₁.Live a c := fun a ha =>
        hx₁.live a (List.mem_append_right _ ha)
      obtain ⟨-, hnodup, hdisjoint⟩ := List.nodup_append.mp hx₁.nodup
      have hapart : ∀ a ∈ reply.buffers, a ∉ cells q items₁ := fun a ha hcell =>
        hdisjoint a hcell a ha rfl
      refine wp_pure ⟨items₂, hh₂, hbytes₂, List.Forall₂.cons ?_ hshows₂, ?_⟩
      · exact hshows₁.keep fun a ha c hc => hx₂.keeps hc (hapart a ha)
      · refine (hx₁.trans (hx₂.frame hnodup hlive hapart)).perm ?_
        rw [List.flatMap_cons, List.append_assoc]
        exact List.Perm.append_left _ List.perm_append_comm

/-- **Whose memory it is**: after any calls on a new queue, on any heap and with any of the
`malloc`s failing, the session has allocated and not freed the cells of the queue and the
buffers it has returned, each once, and every other live cell is as before.  All replies are
still right, with their buffers as they are now.  If at most one job is queued `free_queue`
leaves the buffers returned, and nothing else that the session has allocated. -/
theorem session_owns (h₀ : Heap Content) (n : Nat) (calls : List (Call n)) :
    ∃ q replies h items, session n calls h₀ = .ok ((some q, replies), h) ∧ Holds h q n items
      ∧ items.map Item.bytes = (fifoCalls [] calls).2
      ∧ List.Forall₂ (Shows h) replies (fifoCalls [] calls).1
      ∧ Exchange h₀ h [] (cells q items ++ replies.flatMap Reply.buffers)
      ∧ (items.length ≤ 1 → ∃ fuel h', freeQueue fuel (some q) h = .ok ((), h')
          ∧ Exchange h₀ h' [] (replies.flatMap Reply.buffers)) := by
  have hwp : wp (session n calls) h₀ (fun r h => ∃ q items, r.1 = some q ∧ Holds h q n items
      ∧ items.map Item.bytes = (fifoCalls [] calls).2
      ∧ List.Forall₂ (Shows h) r.2 (fifoCalls [] calls).1
      ∧ Exchange h₀ h [] (cells q items ++ r.2.flatMap Reply.buffers)) fun _ => False := by
    refine wp_bind (wp_mono ?_ (wp_and newQueue_holds newQueue_exchange))
    rintro p h₁ ⟨⟨q, rfl, hh₁⟩, q', hq', hx₁⟩
    cases hq'
    refine wp_bind (wp_mono ?_ (runCalls_exchange hh₁ calls))
    rintro replies h₂ ⟨items, hh₂, hbytes, hshows, hx₂⟩
    exact wp_pure ⟨q, items, rfl, hh₂, hbytes, hshows, hx₁.trans hx₂⟩
  obtain ⟨⟨p, replies⟩, h, hrun, q, items, hp, hh, hbytes, hshows, hx⟩ := wp_ok.mp hwp
  obtain rfl : p = some q := hp
  refine ⟨q, replies, h, items, hrun, hh, hbytes, hshows, hx, ?_⟩
  intro hone
  obtain ⟨fuel, h', hfree, hf⟩ := (freesQueue_iff hh).mpr hone
  refine ⟨fuel, h', hfree, hx.trans ?_⟩
  obtain ⟨-, hnodup, hdisjoint⟩ := List.nodup_append.mp hx.nodup
  exact (Exchange.of_frees hf).frame hnodup (fun a ha => hx.live a (List.mem_append_right _ ha))
    fun a ha hcell => hdisjoint a hcell a ha rfl

end Specs

end AeadPerf.Bench
