/-
# `Bench.Queue` — the linked job queue of `queue.c`

The queue structure, its nodes and the copies of the jobs are cells of one heap
(`Lib.Heap`).  `q_size` counts live nodes, each an allocation of its own, so it stays
below the size of memory and is a `Nat` here; `n_size` is the size of a job.  The three
function pointers of the structure are set by `new_queue` and by nobody else, and are
left out.  Whether a `malloc` succeeds is an argument.

What `malloc` leaves in a structure is overwritten before it is read; it stands here as
zeros and NULLs.
-/
import AeadPerf.Lib.Heap
import AeadPerf.Lib.Words

namespace AeadPerf.Bench

open Words HeapProg

/-! ## The code -/

/-- `struct node`. -/
structure Node where
  job : Ptr
  next : Ptr
  deriving DecidableEq, Repr

/-- `struct queue`. -/
structure Queue where
  qSize : Nat
  nSize : Nat
  head : Ptr
  tail : Ptr
  deriving DecidableEq, Repr

/-- What a cell holds: a node, the copy of a job, or a queue. -/
inductive Content where
  | node (n : Node)
  | bytes (b : Array Byte)
  | queue (q : Queue)
  deriving DecidableEq, Repr

def nodeView : View Content Node where
  inj := .node
  proj | .node n => some n | _ => none
  proj_inj _ := rfl

def bytesView : View Content (Array Byte) where
  inj := .bytes
  proj | .bytes b => some b | _ => none
  proj_inj _ := rfl

def queueView : View Content Queue where
  inj := .queue
  proj | .queue q => some q | _ => none
  proj_inj _ := rfl

/-- `memcpy(dst, job, memsize)`. -/
def copyJob (dst : Ptr) (job : Array Byte) (memsize : Nat) : Prog Content Unit :=
  if memsize ≤ job.size then store bytesView dst (job.extract 0 memsize) else throw .overread

/-- `new_node`; `ok` says which of its two calls of `malloc` succeed. -/
def newNode (ok : Bool × Bool) (memsize : Nat) (job : Array Byte) : Prog Content Ptr := do
  let n ← malloc ok.1 (.node ⟨none, none⟩)
  match n with
  | none => pure n
  | some _ =>
      let j ← malloc ok.2 (.bytes (Array.replicate memsize 0))
      update nodeView n fun s => { s with job := j }
      match (← load nodeView n).job with
      | none =>
          free n
          pure none
      | some _ =>
          update nodeView n fun s => { s with next := none }
          copyJob (← load nodeView n).job job memsize
          pure n

/-- `free_node`: the node goes only where it has a job. -/
def freeNode (n : Ptr) : Prog Content Unit := do
  match n with
  | none => pure ()
  | some _ =>
      match (← load nodeView n).job with
      | none => pure ()
      | some j =>
          free (some j)
          free n

/-- The body and the test of the loop of `free_nodes`; the loop does not assign to `n`. -/
def freePass (q n : Ptr) : Prog Content Bool := do
  let next := (← load nodeView n).next
  update queueView q fun s => { s with head := next }
  freeNode n
  pure (← load queueView q).head.isSome

/-- `free_nodes`. -/
def freeNodes (fuel : Nat) (q : Ptr) : Prog Content Unit := do
  let n := (← load queueView q).head
  doWhile (freePass q n) fuel

/-- `new_queue`. -/
def newQueue (ok : Bool) (memsize : Nat) : Prog Content Ptr := do
  let q ← malloc ok (.queue ⟨0, 0, none, none⟩)
  match q with
  | none => pure q
  | some _ =>
      store queueView q { head := none, tail := none, nSize := memsize, qSize := 0 }
      pure q

/-- `if(q->q_size > 0) free_nodes(q);` -/
def freeRemaining (fuel : Nat) (q : Ptr) : Prog Content Unit := do
  if (← load queueView q).qSize > 0 then freeNodes fuel q else pure ()

/-- `free_queue`. -/
def freeQueue (fuel : Nat) (q : Ptr) : Prog Content Unit := do
  match q with
  | none => pure ()
  | some _ =>
      freeRemaining fuel q
      free q

/-- `if(q->q_size == 0) q->head = n; else q->tail->next = n;` -/
def linkLast (q n : Ptr) : Prog Content Unit := do
  let s ← load queueView q
  if s.qSize = 0 then update queueView q fun s => { s with head := n }
  else update nodeView s.tail fun s => { s with next := n }

/-- `enqueue`. -/
def enqueue (ok : Bool × Bool) (q : Ptr) (job : Array Byte) : Prog Content Int := do
  let n ← newNode ok (← load queueView q).nSize job
  match n with
  | none => pure (-1)
  | some _ =>
      linkLast q n
      update queueView q fun s => { s with tail := n }
      update queueView q fun s => { s with qSize := s.qSize + 1 }
      pure 0

/-- `if(q->q_size == 1) q->head = q->tail = NULL; else q->head = n->next;` -/
def unlinkFirst (q n : Ptr) : Prog Content Unit := do
  let s ← load queueView q
  if s.qSize = 1 then update queueView q fun s => { s with head := none, tail := none }
  else do
    let next := (← load nodeView n).next
    update queueView q fun s => { s with head := next }

/-- `dequeue`. -/
def dequeue (q : Ptr) : Prog Content Ptr := do
  let n := (← load queueView q).head
  match n with
  | none => pure n
  | some _ =>
      unlinkFirst q n
      update queueView q fun s => { s with qSize := s.qSize - 1 }
      let job := (← load nodeView n).job
      free n
      pure job

/-- `is_empty`. -/
def isEmpty (q : Ptr) : Prog Content Bool := do
  pure ((← load queueView q).qSize == 0)

/-! ## Calls -/

/-- A call on a queue of jobs of `n` bytes; the caller's buffer has that many. -/
inductive Call (n : Nat) where
  | enqueue (job : Array Byte) (fits : n ≤ job.size) (ok : Bool × Bool)
  | dequeue
  | isEmpty

/-- What a call returns. -/
inductive Reply where
  | status (r : Int)
  | job (p : Ptr)
  | flag (b : Bool)
  deriving DecidableEq, Repr

def Call.run {n : Nat} (q : Ptr) : Call n → Prog Content Reply
  | .enqueue job _ ok => do pure (.status (← Bench.enqueue ok q job))
  | .dequeue => do pure (.job (← Bench.dequeue q))
  | .isEmpty => do pure (.flag (← Bench.isEmpty q))

def runCalls {n : Nat} (q : Ptr) : List (Call n) → Prog Content (List Reply)
  | [] => pure []
  | call :: calls => do
      let reply ← call.run q
      let replies ← runCalls q calls
      pure (reply :: replies)

/-- Calls on a new queue: the queue and the replies. -/
def session (n : Nat) (calls : List (Call n)) : Prog Content (Ptr × List Reply) := do
  let q ← newQueue true n
  let replies ← runCalls q calls
  pure (q, replies)

end AeadPerf.Bench
