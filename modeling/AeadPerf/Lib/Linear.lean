/-
# `Lib.Linear` — shared objects, and when a history of them is linearizable

Threads call the operations of one object at the same time.  A history lists the calls and the
returns in the order in which they happened.  It is `Linearizable` if the operations can be put in
an order, the log, so that one after the other they give the results returned, and so that each
takes place between its call and its return: at every moment, what has returned is in the part of
the log that has taken place by then, and what is in this part has been called.  So an operation
that returned before another was called stands before it.

The atomic object (`Atomic`) does what each operation does in one step somewhere between call and
return, and enters it in the log (`Atomic.Logs.step`); so its histories are linearizable
(`Atomic.linearizable`), and those of whatever it simulates (`linearizable_of_simulation`).
-/
import Mathlib.Data.List.Infix
import Mathlib.Logic.Function.Basic

namespace Linear

variable {T Op Res Q S L : Type}

/-! ## Histories -/

/-- What can be seen of a thread. -/
inductive Action (Op Res : Type) where
  | call (op : Op)
  | ret (res : Res)
  deriving DecidableEq, Repr

/-- An object: what an operation may answer in a state, and the state after it. -/
abbrev Object (Q Op Res : Type) := Q → Op → Res → Q → Prop

/-- The operations of the log, one after the other. -/
inductive Legal (obj : Object Q Op Res) (v₀ : Q) : List (T × Op × Res) → Q → Prop where
  | nil : Legal obj v₀ [] v₀
  | snoc {log : List (T × Op × Res)} {v v' : Q} {t : T} {op : Op} {res : Res}
      (hlog : Legal obj v₀ log v) (hop : obj v op res v') : Legal obj v₀ (log ++ [(t, op, res)]) v'

section Threads

variable [DecidableEq T]

/-- The operations that `t` has called, … -/
def calls (t : T) (history : List (T × Action Op Res)) : List Op :=
  history.filterMap fun
    | (u, .call op) => if u = t then some op else none
    | _ => none

/-- … and the results that it has got. -/
def returns (t : T) (history : List (T × Action Op Res)) : List Res :=
  history.filterMap fun
    | (u, .ret res) => if u = t then some res else none
    | _ => none

/-- The operations of `t` in the log, … -/
def opsOf (t : T) (log : List (T × Op × Res)) : List Op :=
  log.filterMap fun e => if e.1 = t then some e.2.1 else none

/-- … and their results. -/
def resultsOf (t : T) (log : List (T × Op × Res)) : List Res :=
  log.filterMap fun e => if e.1 = t then some e.2.2 else none

/-- What has returned is in the log, and what is in the log has been called. -/
def Between (history : List (T × Action Op Res)) (log : List (T × Op × Res)) : Prop :=
  ∀ t, returns t history <+: resultsOf t log ∧ opsOf t log <+: calls t history

/-- There is a log with the same results, in which every operation is between its call and its
return. -/
def Linearizable (obj : Object Q Op Res) (v₀ : Q) (history : List (T × Action Op Res)) : Prop :=
  ∃ log v, Legal obj v₀ log v ∧ Between history log
    ∧ ∀ past, past <+: history → ∃ done, done <+: log ∧ Between past done

end Threads

/-- A history of a system: the labels of the steps that have one, each with its thread. -/
inductive History (step : S → Option (T × L) → S → Prop) (s₀ : S) : List (T × L) → S → Prop where
  | refl : History step s₀ [] s₀
  | tail {history : List (T × L)} {s s' : S} {label : Option (T × L)}
      (hrun : History step s₀ history s) (hstep : step s label s') :
      History step s₀ (history ++ label.toList) s'

/-- What simulates each step has the same histories. -/
theorem History.simulate {S' : Type} {step : S → Option (T × L) → S → Prop}
    {step' : S' → Option (T × L) → S' → Prop} {rel : S → S' → Prop}
    (hsim : ∀ s a label s', rel s a → step s label s' → ∃ a', step' a label a' ∧ rel s' a')
    {s₀ s : S} {a₀ : S'} {history : List (T × L)} (h₀ : rel s₀ a₀) (hrun : History step s₀ history s) :
    ∃ a, History step' a₀ history a ∧ rel s a := by
  induction hrun with
  | refl => exact ⟨a₀, .refl, h₀⟩
  | tail _ hstep ih =>
      obtain ⟨a, hrun, hrel⟩ := ih
      obtain ⟨a', hstep', hrel'⟩ := hsim _ a _ _ hrel hstep
      exact ⟨a', hrun.tail hstep', hrel'⟩

/-! ## The atomic object -/

/-- Where a thread is: in no call, in one that has not taken place yet, or in one that has. -/
inductive Status (Op Res : Type) where
  | idle
  | pending (op : Op)
  | done (res : Res)

/-- The operation that has still to take place, … -/
def Status.op : Status Op Res → Option Op
  | .pending op => some op
  | _ => none

/-- … and the result that has still to be returned. -/
def Status.res : Status Op Res → Option Res
  | .done res => some res
  | _ => none

/-- One step of one thread, from a state of the object to another: what can be seen of it, and the
operation that it makes. -/
inductive Move (obj : Object Q Op Res) (v : Q) : Status Op Res → Option (Action Op Res) →
    Option (Op × Res) → Q → Status Op Res → Prop where
  | call (op : Op) : Move obj v .idle (some (.call op)) none v (.pending op)
  | commit {op : Op} {res : Res} {v' : Q} (hop : obj v op res v') :
      Move obj v (.pending op) none (some (op, res)) v' (.done res)
  | ret (res : Res) : Move obj v (.done res) (some (.ret res)) none v .idle
  | stay (status : Status Op Res) : Move obj v status none none v status

/-- The object, and where the threads are. -/
structure Atomic (T Op Res Q : Type) where
  value : Q
  status : T → Status Op Res

namespace Atomic

/-- Nobody has called. -/
def start (T Op Res : Type) (v₀ : Q) : Atomic T Op Res Q := ⟨v₀, fun _ => .idle⟩

variable [DecidableEq T]

/-- One thread moves, or nothing happens. -/
inductive Step (obj : Object Q Op Res) : Atomic T Op Res Q → Option (T × Action Op Res) →
    Option (T × Op × Res) → Atomic T Op Res Q → Prop where
  | stay (a : Atomic T Op Res Q) : Step obj a none none a
  | move {a : Atomic T Op Res Q} {t : T} {action : Option (Action Op Res)} {entry : Option (Op × Res)}
      {v : Q} {status : Status Op Res} (hmove : Move obj a.value (a.status t) action entry v status) :
      Step obj a (action.map (t, ·)) (entry.map (t, ·)) ⟨v, Function.update a.status t status⟩

/-- The log is as far as the thread is. -/
def Keeps (history : List (T × Action Op Res)) (log : List (T × Op × Res)) (t : T) : Status Op Res → Prop
  | .idle => returns t history = resultsOf t log ∧ calls t history = opsOf t log
  | .pending op => returns t history = resultsOf t log ∧ calls t history = opsOf t log ++ [op]
  | .done res => returns t history ++ [res] = resultsOf t log ∧ calls t history = opsOf t log

section Keeps

variable {history : List (T × Action Op Res)} {log : List (T × Op × Res)} {t u : T} {status : Status Op Res}

theorem Keeps.between (hk : Keeps history log t status) :
    returns t history <+: resultsOf t log ∧ opsOf t log <+: calls t history := by
  cases status with
  | idle => exact ⟨hk.1 ▸ List.prefix_rfl, hk.2 ▸ List.prefix_rfl⟩
  | pending op => exact ⟨hk.1 ▸ List.prefix_rfl, hk.2 ▸ List.prefix_append _ _⟩
  | done res => exact ⟨hk.1 ▸ List.prefix_append _ _, hk.2 ▸ List.prefix_rfl⟩

/-- What has been called is in the log, but for the operation that is pending, and what is in the log
has been returned, but for the result of the one that is done. -/
theorem Keeps.pending (hk : Keeps history log t status) :
    calls t history = opsOf t log ++ status.op.toList
      ∧ resultsOf t log = returns t history ++ status.res.toList := by
  cases status with
  | idle => exact ⟨hk.2.trans (List.append_nil _).symm, hk.1.symm.trans (List.append_nil _).symm⟩
  | pending op => exact ⟨hk.2, hk.1.symm.trans (List.append_nil _).symm⟩
  | done res => exact ⟨hk.2.trans (List.append_nil _).symm, hk.1.symm⟩

/-- Nothing of `t` is added by an action of another thread, … -/
theorem Keeps.action_ne (hk : Keeps history log t status) (hne : u ≠ t) (action : Action Op Res) :
    Keeps (history ++ [(u, action)]) log t status := by
  have hreturns : returns t (history ++ [(u, action)]) = returns t history := by
    cases action <;> simp [returns, hne]
  have hcalls : calls t (history ++ [(u, action)]) = calls t history := by
    cases action <;> simp [calls, hne]
  cases status <;> simpa only [Keeps, hreturns, hcalls] using hk

/-- … or by its entry in the log. -/
theorem Keeps.entry_ne (hk : Keeps history log t status) (hne : u ≠ t) (op : Op) (res : Res) :
    Keeps history (log ++ [(u, op, res)]) t status := by
  have hresults : resultsOf t (log ++ [(u, op, res)]) = resultsOf t log := by simp [resultsOf, hne]
  have hops : opsOf t (log ++ [(u, op, res)]) = opsOf t log := by simp [opsOf, hne]
  cases status <;> simpa only [Keeps, hresults, hops] using hk

theorem Keeps.call (hk : Keeps history log t .idle) (op : Op) :
    Keeps (history ++ [(t, .call op)]) log t (.pending op) := by
  refine ⟨?_, ?_⟩
  · simpa [returns] using hk.1
  · rw [← hk.2]
    simp [calls]

theorem Keeps.commit {op : Op} (hk : Keeps history log t (.pending op)) (res : Res) :
    Keeps history (log ++ [(t, op, res)]) t (.done res) := by
  refine ⟨?_, ?_⟩
  · rw [hk.1]
    simp [resultsOf]
  · rw [hk.2]
    simp [opsOf]

theorem Keeps.ret {res : Res} (hk : Keeps history log t (.done res)) :
    Keeps (history ++ [(t, .ret res)]) log t .idle := by
  refine ⟨?_, ?_⟩
  · rw [← hk.1]
    simp [returns]
  · rw [← hk.2]
    simp [calls]

end Keeps

/-- A log of a run so far. -/
structure Logs (obj : Object Q Op Res) (v₀ : Q) (history : List (T × Action Op Res))
    (a : Atomic T Op Res Q) (log : List (T × Op × Res)) : Prop where
  legal : Legal obj v₀ log a.value
  keeps : ∀ t, Keeps history log t (a.status t)
  within : ∀ past, past <+: history → ∃ done, done <+: log ∧ Between past done

section Logs

variable {obj : Object Q Op Res} {v₀ v : Q} {history : List (T × Action Op Res)} {a : Atomic T Op Res Q}
  {log : List (T × Op × Res)} {t : T} {status : Status Op Res}

theorem Logs.between (hl : Logs obj v₀ history a log) : Between history log :=
  fun t => (hl.keeps t).between

/-- The thread `t` acts. -/
theorem Logs.act (hl : Logs obj v₀ history a log) {action : Action Op Res}
    (ht : Keeps (history ++ [(t, action)]) log t status) :
    Logs obj v₀ (history ++ [(t, action)]) ⟨a.value, Function.update a.status t status⟩ log := by
  have hkeeps : ∀ u, Keeps (history ++ [(t, action)]) log u (Function.update a.status t status u) := by
    intro u
    rcases eq_or_ne u t with rfl | hu
    · rwa [Function.update_self]
    · rw [Function.update_of_ne hu]
      exact (hl.keeps u).action_ne hu.symm action
  refine ⟨hl.legal, hkeeps, ?_⟩
  intro past hpast
  rcases List.prefix_concat_iff.mp hpast with rfl | hpast
  · exact ⟨log, List.prefix_rfl, fun u => (hkeeps u).between⟩
  · exact hl.within past hpast

/-- The operation of `t` takes place. -/
theorem Logs.commit (hl : Logs obj v₀ history a log) {op : Op} {res : Res} (ht : a.status t = .pending op)
    (hop : obj a.value op res v) :
    Logs obj v₀ history ⟨v, Function.update a.status t (.done res)⟩ (log ++ [(t, op, res)]) := by
  have hkeeps : ∀ u, Keeps history (log ++ [(t, op, res)]) u (Function.update a.status t (.done res) u) := by
    intro u
    rcases eq_or_ne u t with rfl | hu
    · rw [Function.update_self]
      exact Keeps.commit (ht ▸ hl.keeps u) res
    · rw [Function.update_of_ne hu]
      exact (hl.keeps u).entry_ne hu.symm op res
  refine ⟨hl.legal.snoc hop, hkeeps, ?_⟩
  intro past hpast
  obtain ⟨done, hdone, hbetween⟩ := hl.within past hpast
  exact ⟨done, hdone.trans (List.prefix_append _ _), hbetween⟩

/-- Nobody has called, and nothing has taken place. -/
theorem logs_start : Logs obj v₀ [] (start T Op Res v₀) [] where
  legal := .nil
  keeps t := ⟨rfl, rfl⟩
  within past hpast := by
    cases List.prefix_nil.mp hpast
    exact ⟨[], List.prefix_rfl, fun t => ⟨List.prefix_rfl, List.prefix_rfl⟩⟩

/-- What one step adds. -/
theorem Logs.step {a' : Atomic T Op Res Q} {label : Option (T × Action Op Res)}
    {entry : Option (T × Op × Res)} (hl : Logs obj v₀ history a log) (hstep : Step obj a label entry a') :
    Logs obj v₀ (history ++ label.toList) a' (log ++ entry.toList) := by
  cases hstep with
  | stay => simpa using hl
  | @move t action entry v status hmove =>
      have ht := hl.keeps t
      generalize hstatus : a.status t = before at hmove ht
      cases hmove with
      | call op => simpa using hl.act (ht.call op)
      | commit hop => simpa using hl.commit hstatus hop
      | ret res => simpa using hl.act ht.ret
      | stay =>
          rw [← hstatus, Function.update_eq_self]
          simpa using hl

end Logs

/-- **The histories of the atomic object are linearizable.** -/
theorem linearizable {obj : Object Q Op Res} {v₀ : Q} {history : List (T × Action Op Res)}
    {a : Atomic T Op Res Q}
    (hrun : History (fun a label a' => ∃ entry, Step obj a label entry a') (start T Op Res v₀) history a) :
    Linearizable obj v₀ history := by
  have hlogs : ∃ log, Logs obj v₀ history a log := by
    induction hrun with
    | refl => exact ⟨[], logs_start⟩
    | tail _ hstep ih =>
        obtain ⟨log, hl⟩ := ih
        obtain ⟨entry, hstep⟩ := hstep
        exact ⟨_, hl.step hstep⟩
  obtain ⟨log, hl⟩ := hlogs
  exact ⟨log, a.value, hl.legal, hl.between, hl.within⟩

end Atomic

/-- **What the atomic object simulates has linearizable histories.** -/
theorem linearizable_of_simulation [DecidableEq T] {obj : Object Q Op Res} {v₀ : Q}
    {step : S → Option (T × Action Op Res) → S → Prop} {rel : S → Atomic T Op Res Q → Prop}
    (hsim : ∀ s a label s', rel s a → step s label s' →
      ∃ a', (∃ entry, Atomic.Step obj a label entry a') ∧ rel s' a')
    {s₀ s : S} {history : List (T × Action Op Res)} (h₀ : rel s₀ (Atomic.start T Op Res v₀))
    (hrun : History step s₀ history s) : Linearizable obj v₀ history := by
  obtain ⟨a, hrun', -⟩ := hrun.simulate hsim h₀
  exact Atomic.linearizable hrun'

end Linear
