/-
# `Bench.QueueFree` — what `free_queue` frees

`free_nodes` reads `n = q->head` once, before its loop, and then in every pass

    q->head = n->next;  free_node(n);

of the same `n`.  One pass is right (`freePass_frees`), and the loop ends after it if
the list has one node.  With two or more the next pass reads `n->next` in a freed node
(`freeQueue_useAfterFree`).  So `free_queue` frees the queue, its nodes and its jobs
exactly if at most one job is queued, whatever the calls before it were
(`session_freesQueue_iff`).
-/
import AeadPerf.Bench.QueueRuns

namespace AeadPerf.Bench

open Words HeapProg
open Shape (footprint_cons footprint_nil)

variable {h : Heap Content} {q : Addr} {n : Nat} {items : List Item} {it it' : Item}

theorem freeNode_frees {E : Fault → Prop} {a j : Addr} {next : Ptr} {c : Content} (hja : j ≠ a)
    (hnode : h.Live a (.node ⟨some j, next⟩)) (hjob : h.Live j c) :
    wp (freeNode (some a)) h (fun _ h' => FreesExactly h h' [a, j]) E := by
  have hview : h.Live a (nodeView.inj ⟨some j, next⟩) := hnode
  refine wp_bind (wp_load hview ?_)
  refine wp_bind (wp_free hjob ?_)
  intro h₁ h₁u
  refine wp_free (h₁u.live hnode hja.symm) ?_
  intro h₂ h₂u
  exact ((FreesExactly.single h₁u).trans (FreesExactly.single h₂u)).perm (List.Perm.swap a j [])

/-- One pass of the loop: the first item is freed, and `head` is moved on. -/
theorem freePass_frees {E : Fault → Prop} (hh : Holds h q n (it :: items)) :
    wp (freePass (some q) (some it.node)) h (fun again h' => again = !items.isEmpty ∧ ∃ h₁,
      h.Update q (.live (.queue ⟨items.length + 1, n, jobs.link items none, lastNode (it :: items)⟩)) h₁
        ∧ FreesExactly h₁ h' (jobs.owned it)) E := by
  obtain ⟨hqnot, hnodup⟩ := List.nodup_cons.mp hh.nodup
  rw [footprint_cons, List.mem_append, not_or] at hqnot
  rw [footprint_cons, List.nodup_append] at hnodup
  have hpair : [it.node, it.job].Nodup := hnodup.1
  have hqpair : q ∉ [it.node, it.job] := hqnot.1
  simp only [List.nodup_cons, List.mem_cons, List.not_mem_nil, or_false, not_or] at hpair hqpair
  have hnode : h.Live it.node (nodeView.inj ⟨some it.job, jobs.link items none⟩) := hh.chain.1
  have hjob : h.Live it.job (.bytes it.bytes) := hh.chain.2.1 _ (List.mem_singleton_self _)
  refine wp_bind (wp_load hnode ?_)
  refine wp_bind (wp_update hh.queue ?_)
  intro h₁ h₁u
  have hnode₁ := h₁u.live hnode (Ne.symm hqpair.1)
  have hjob₁ := h₁u.live hjob (Ne.symm hqpair.2)
  refine wp_bind (wp_mono ?_ (freeNode_frees (Ne.symm hpair.1) hnode₁ hjob₁))
  intro _ h₂ hf
  have hqueue : h₂.Live q (queueView.inj
      ⟨items.length + 1, n, jobs.link items none, lastNode (it :: items)⟩) :=
    (hf.frame q hqnot.1).trans h₁u.here
  refine wp_bind (wp_load hqueue (wp_pure ⟨?_, h₁, h₁u, hf⟩))
  cases items with
  | nil => rfl
  | cons it' items => rfl

/-- The empty queue: only the structure is freed. -/
theorem freeQueue_nil {E : Fault → Prop} (hh : Holds h q n []) (fuel : Nat) :
    wp (freeQueue fuel (some q)) h (fun _ h' => FreesExactly h h' (q :: jobs.footprint [])) E := by
  refine wp_bind (wp_bind (wp_load hh.queue (wp_if_neg (by simp) (wp_pure ?_))))
  exact wp_free hh.queue fun h₁ h₁u => FreesExactly.single h₁u

/-- One job: one pass, then the structure. -/
theorem freeQueue_single {E : Fault → Prop} (hh : Holds h q n [it]) (fuel : Nat) :
    wp (freeQueue (fuel + 1) (some q)) h
      (fun _ h' => FreesExactly h h' (q :: jobs.footprint [it])) E := by
  refine wp_bind (wp_bind (wp_load hh.queue (wp_if_pos (by simp) ?_)))
  refine wp_bind (wp_load hh.queue ?_)
  refine wp_doWhile (wp_mono ?_ (freePass_frees hh))
  rintro again h₂ ⟨rfl, h₁, h₁u, hf⟩
  have hqnot : q ∉ jobs.owned it := (List.nodup_cons.mp hh.nodup).1
  have hqueue : h₂.Live q _ := (hf.frame q hqnot).trans h₁u.here
  refine wp_free hqueue ?_
  intro h₃ h₃u
  have hall := (hf.trans (FreesExactly.single h₃u)).perm (List.perm_append_singleton q _)
  exact FreesExactly.after_write h₁u hall List.mem_cons_self

/-- Two jobs or more: the second pass of the loop reads the node that the first has freed. -/
theorem freeQueue_useAfterFree (hh : Holds h q n (it :: it' :: items)) (fuel : Nat) :
    freeQueue (fuel + 2) (some q) h = .error (.useAfterFree it.node) := by
  refine wp_error.mp (wp_bind (wp_bind (wp_load hh.queue (wp_if_pos (by simp) ?_))))
  refine wp_bind (wp_load hh.queue ?_)
  refine wp_doWhile (wp_mono ?_ (freePass_frees hh))
  rintro again h₂ ⟨rfl, h₁, -, hf⟩
  exact wp_doWhile (wp_bind (wp_load_freed (hf.get_eq_freed List.mem_cons_self) rfl))

theorem freeQueue_faults (hh : Holds h q n (it :: it' :: items)) (fuel : Nat) :
    ∃ e, freeQueue fuel (some q) h = .error e := by
  match fuel with
  | 0 =>
      refine ⟨.outOfFuel, wp_error.mp (wp_bind (wp_bind (wp_load hh.queue (wp_if_pos (by simp) ?_))))⟩
      exact wp_bind (wp_load hh.queue (wp_doWhile_zero rfl))
  | 1 =>
      refine ⟨.outOfFuel, wp_error.mp (wp_bind (wp_bind (wp_load hh.queue (wp_if_pos (by simp) ?_))))⟩
      refine wp_bind (wp_load hh.queue ?_)
      refine wp_doWhile (wp_mono ?_ (freePass_frees hh))
      rintro again h₂ ⟨rfl, -⟩
      simp only [List.isEmpty_cons, Bool.not_false, if_true]
      exact wp_doWhile_zero rfl
  | fuel + 2 => exact ⟨_, freeQueue_useAfterFree hh fuel⟩

/-! ## `free_queue` -/

/-- `free_queue` ends, and frees the structure, the nodes and the jobs, each once, and
nothing else. -/
def FreesQueue (h : Heap Content) (q : Addr) (items : List Item) : Prop :=
  ∃ fuel h', freeQueue fuel (some q) h = .ok ((), h')
    ∧ FreesExactly h h' (q :: jobs.footprint items)

theorem freesQueue_iff (hh : Holds h q n items) : FreesQueue h q items ↔ items.length ≤ 1 := by
  match items, hh with
  | [], hh =>
      obtain ⟨u, h', hrun, hf⟩ := wp_ok.mp (freeQueue_nil hh 0)
      exact iff_of_true ⟨0, h', hrun, hf⟩ (Nat.zero_le 1)
  | [it], hh =>
      obtain ⟨u, h', hrun, hf⟩ := wp_ok.mp (freeQueue_single hh 0)
      exact iff_of_true ⟨1, h', hrun, hf⟩ le_rfl
  | it :: it' :: items, hh =>
      refine iff_of_false ?_ (by simp)
      rintro ⟨fuel, h', hrun, -⟩
      obtain ⟨e, he⟩ := freeQueue_faults hh fuel
      rw [he] at hrun
      cases hrun

/-- **Freeing a queue**: after any calls on a new queue, on any heap, `free_queue` is
right if and only if at most one job is queued. -/
theorem session_freesQueue_iff (h₀ : Heap Content) (n : Nat) (calls : List (Call n)) :
    ∃ q replies h items, session n calls h₀ = .ok ((some q, replies), h) ∧ Holds h q n items
      ∧ (FreesQueue h q items ↔ items.length ≤ 1) := by
  obtain ⟨⟨p, replies⟩, h, hrun, q, items, hp, hh⟩ := wp_ok.mp (session_holds (h := h₀) calls)
  obtain rfl : p = some q := hp
  exact ⟨q, replies, h, items, hrun, hh, freesQueue_iff hh⟩

/-- Two jobs of one byte. -/
def twoJobs : List (Call 1) :=
  [.enqueue #[0] (by decide) (true, true), .enqueue #[1] (by decide) (true, true)]

theorem not_freesQueue_twoJobs :
    ∃ q replies h items, session 1 twoJobs Heap.empty = .ok ((some q, replies), h)
      ∧ Holds h q 1 items ∧ ¬ FreesQueue h q items := by
  have hrun : wp (session 1 twoJobs) Heap.empty
      (fun r h => ∃ q it it', r.1 = some q ∧ Holds h q 1 [it, it']) (fun _ => False) := by
    refine wp_bind (wp_mono ?_ newQueue_holds)
    rintro p h₁ ⟨q, rfl, hh₁⟩
    refine wp_bind (wp_bind (wp_bind (wp_mono ?_ (enqueue_holds hh₁ (by decide)))))
    rintro r h₂ ⟨-, it, -, hh₂⟩
    refine wp_pure (wp_bind (wp_bind (wp_bind (wp_mono ?_ (enqueue_holds hh₂ (by decide))))))
    rintro r h₃ ⟨-, it', -, hh₃⟩
    exact wp_pure (wp_bind (wp_pure (wp_pure (wp_pure (wp_pure ⟨q, it, it', rfl, hh₃⟩)))))
  obtain ⟨⟨p, replies⟩, h, heq, q, it, it', hp, hh⟩ := wp_ok.mp hrun
  obtain rfl : p = some q := hp
  refine ⟨q, replies, h, [it, it'], heq, hh, fun hf => ?_⟩
  exact absurd ((freesQueue_iff hh).mp hf) (by simp)

end AeadPerf.Bench
