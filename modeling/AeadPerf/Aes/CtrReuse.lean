/-
# `Aes.CtrReuse` — counter blocks over a run of calls

Calls that hand one counter buffer on use its blocks one after the other.  Seen
from the counter a run is a list of blocks begun, each *whole*, and followed by
an increment, or the *rest* of a message, and not:

    message of n bytes      n / 16 whole blocks, then a rest if n % 16 > 0
    blocksOf ms             true for a whole block, false for a rest, in order
    handedBlocks            the counter blocks handed to AES along such a list

`runCalls_handed` says that this is what `runCalls` does.  Distinct counter
blocks are then a question about that list and the number in bytes 1 to 16 of
the buffer: a rest is followed by its own counter block, and of two increments in
a row one leaves the block as it was (`handedNum`), so three blocks never go well
and two only where the first is whole and its increment carries out of byte 16.
-/
import AeadPerf.Aes.CtrMode

namespace AeadPerf.Aes

open Words Checked KeyStream

/-! ## The blocks of a run -/

/-- The blocks a message begins: `true` for a whole one, `false` for the rest. -/
def blocks (m : Message) : List Bool :=
  List.replicate (m.len / 16) true ++ if m.len % 16 = 0 then [] else [false]

/-- The blocks of a sequence of messages. -/
def blocksOf (ms : List Message) : List Bool := ms.flatMap blocks

/-- The buffer after a block. -/
def advance (counter : Array Byte) (whole : Bool) : Array Byte :=
  if whole then bump counter else counter

/-- The counter blocks handed over for a list of blocks. -/
def handedBlocks : List Bool → Array Byte → List Block
  | [], _ => []
  | whole :: blocks, counter => front counter :: handedBlocks blocks (advance counter whole)

theorem handedBlocks_append (bs bs' : List Bool) (counter : Array Byte) :
    handedBlocks (bs ++ bs') counter
      = handedBlocks bs counter ++ handedBlocks bs' (bs.foldl advance counter) := by
  induction bs generalizing counter with
  | nil => rfl
  | cons b bs ih => rw [List.cons_append, handedBlocks, ih, handedBlocks]; rfl

theorem foldl_advance_replicate (k : Nat) (counter : Array Byte) :
    (List.replicate k true).foldl advance counter = bump^[k] counter := by
  induction k generalizing counter with
  | zero => rfl
  | succ k ih => rw [List.replicate_succ, List.foldl_cons, ih, Function.iterate_succ_apply]; rfl

theorem handedBlocks_replicate (k : Nat) (counter : Array Byte) :
    handedBlocks (List.replicate k true) counter
      = (List.range k).map fun j => front (bump^[j] counter) := by
  induction k with
  | zero => rfl
  | succ k ih =>
      rw [List.replicate_succ', handedBlocks_append, ih, foldl_advance_replicate, List.range_succ,
        List.map_append]
      rfl

/-- What a call does to the state, by blocks. -/
theorem finalState_eq_blocks (o : ByteOrder) (keySchedule : KeySchedule) (m : Message) (s : CtrState) :
    finalState (ctrGen o keySchedule) CtrState.used s m.len
      = ⟨(blocks m).foldl advance s.counter, s.handed ++ handedBlocks (blocks m) s.counter⟩ := by
  rw [ctrGen_finalState, blocks, List.foldl_append, handedBlocks_append,
    foldl_advance_replicate, handedBlocks_replicate]
  by_cases hrest : m.len % 16 = 0
  · rw [if_pos hrest, show (m.len + 15) / 16 = m.len / 16 by omega, List.foldl_nil, handedBlocks,
      List.append_nil]
  · rw [if_neg hrest, show (m.len + 15) / 16 = m.len / 16 + 1 by omega, List.range_succ,
      List.map_append]
    rfl

theorem size_foldl_advance (bs : List Bool) (counter : Array Byte) :
    (bs.foldl advance counter).size = counter.size := by
  induction bs generalizing counter with
  | nil => rfl
  | cons b bs ih =>
      rw [List.foldl_cons, ih]
      cases b with
      | false => rfl
      | true => exact size_bump counter

section Run

variable (o : ByteOrder) (keySchedule : KeySchedule)

/-- **The counter blocks of a run** with room for its increments. -/
theorem runCalls_handed (ms : List Message) (s : CtrState)
    (hroom : ∀ m ∈ ms, Room s.counter m.length) :
    ∃ c, runCalls o keySchedule ms s =
      .ok (c, ⟨(blocksOf ms).foldl advance s.counter,
        s.handed ++ handedBlocks (blocksOf ms) s.counter⟩) := by
  induction ms generalizing s with
  | nil => exact ⟨#[], by simp [runCalls, blocksOf, handedBlocks]⟩
  | cons m ms ih =>
      have hcall := ctrCall_eq o keySchedule (hroom m List.mem_cons_self)
      rw [finalState_eq_blocks] at hcall
      obtain ⟨c, hrest⟩ := ih ⟨(blocks m).foldl advance s.counter,
          s.handed ++ handedBlocks (blocks m) s.counter⟩ (by
        intro m' hm'
        simpa only [Room, size_foldl_advance] using hroom m' (List.mem_cons_of_mem m hm'))
      refine ⟨(ctrGen o keySchedule).encrypt s m.text ++ c, ?_⟩
      simp only [runCalls, hcall, ok_bind, hrest, pure_eq_ok, blocksOf, List.flatMap_cons,
        List.foldl_append, handedBlocks_append, List.append_assoc]

/-- A run that needs an increment faults on a buffer of 16 bytes. -/
theorem runCalls_outOfRange (ms : List Message) (s : CtrState) (hsize : s.counter.size = 16)
    (hwhole : ∃ m ∈ ms, 16 ≤ m.len) :
    runCalls o keySchedule ms s = .error (.outOfRange 16 16) := by
  induction ms generalizing s with
  | nil =>
      obtain ⟨m, hm, -⟩ := hwhole
      cases hm
  | cons m ms ih =>
      rcases Nat.lt_or_ge m.len 16 with hlt | hge
      · have hroom : Room s.counter m.length := by
          refine .inr ⟨by omega, ?_⟩
          rw [Message.len] at hlt
          omega
        have hcall := ctrCall_eq o keySchedule hroom
        rw [finalState_eq_blocks] at hcall
        have hrest := ih ⟨(blocks m).foldl advance s.counter,
          s.handed ++ handedBlocks (blocks m) s.counter⟩ (by rwa [size_foldl_advance]) (by
            obtain ⟨m', hm', hlen⟩ := hwhole
            rcases List.mem_cons.mp hm' with rfl | hm'
            · omega
            · exact ⟨m', hm', hlen⟩)
        simp only [runCalls, hcall, ok_bind, hrest, error_bind]
      · simp only [runCalls, ctrCall, ctrEncrypt_outOfRange o keySchedule hsize hge, error_bind]

end Run

/-! ## Distinct blocks -/

/-- One increment gives a new block exactly where it carries out of byte 16. -/
theorem front_bump_ne_iff {counter : Array Byte} (h : 17 ≤ counter.size) :
    front counter ≠ front (bump counter) ↔ window counter 1 16 % 256 = 255 := by
  have h₀ := blockNum_front_bump h 0
  have h₁ := blockNum_front_bump h 1
  rw [← handedNum_one_ne_iff (window_lt counter 1 16), ← h₀, ← h₁, blockNum_injective.ne_iff]
  rfl

/-- Where it does, the next one does not. -/
theorem front_bump_bump {counter : Array Byte} (h : 17 ≤ counter.size)
    (hcarry : window counter 1 16 % 256 = 255) :
    front (bump counter) = front (bump (bump counter)) := by
  have h₁ := blockNum_front_bump h 1
  have h₂ := blockNum_front_bump h 2
  rw [handedNum_two_eq hcarry, ← h₁] at h₂
  exact blockNum_injective h₂.symm

/-- Blocks along a list that are pairwise distinct: at most one, or a whole one
whose increment carries and one more. -/
theorem nodup_handedBlocks_iff (bs : List Bool) {counter : Array Byte}
    (hroom : 17 ≤ counter.size ∨ true ∉ bs) :
    (handedBlocks bs counter).Nodup ↔
      bs.length ≤ 1 ∨ (∃ b, bs = [true, b]) ∧ window counter 1 16 % 256 = 255 := by
  match bs with
  | [] => simp [handedBlocks]
  | [b] => simp [handedBlocks]
  | false :: b :: bs => simp [handedBlocks, advance]
  | [true, b] =>
      have h17 : 17 ≤ counter.size := hroom.resolve_right (by simp)
      simpa [handedBlocks, advance] using front_bump_ne_iff h17
  | true :: false :: b :: bs => simp [handedBlocks, advance]
  | true :: true :: b :: bs =>
      have h17 : 17 ≤ counter.size := hroom.resolve_right (by simp)
      -- of the three blocks the first two or the last two are equal
      by_cases hcarry : window counter 1 16 % 256 = 255
      · simp [handedBlocks, advance, front_bump_bump h17 hcarry]
      · have heq : front counter = front (bump counter) := by
          by_contra hne
          exact hcarry ((front_bump_ne_iff h17).mp hne)
        simp [handedBlocks, advance, heq]

/-! ## Runs without reuse -/

section Reuse

variable (o : ByteOrder) (keySchedule : KeySchedule)

/-- The calls end, and no counter block was handed to AES twice. -/
def NoReuse (counter : Array Byte) (ms : List Message) : Prop :=
  ∃ c s, runCalls o keySchedule ms (.fresh counter) = .ok (c, s) ∧ s.handed.Nodup

/-- Where a run does not repeat a block: its increments have room, and it uses at
most one block, or two of which the first is whole and `counter[16]` is `0xff`. -/
def NoReuseAt (counter : Array Byte) (ms : List Message) : Prop :=
  (17 ≤ counter.size ∨ ∀ m ∈ ms, m.len < 16) ∧
    ((blocksOf ms).length ≤ 1
      ∨ (∃ b, blocksOf ms = [true, b]) ∧ window counter 1 16 % 256 = 255)

/-- Messages shorter than a block have no whole blocks. -/
theorem true_notMem_blocksOf {ms : List Message} (h : ∀ m ∈ ms, m.len < 16) : true ∉ blocksOf ms := by
  rw [blocksOf, List.mem_flatMap]
  rintro ⟨m, hm, htrue⟩
  have hzero : m.len / 16 = 0 := by
    have := h m hm
    omega
  rw [blocks, hzero] at htrue
  split at htrue <;> simp at htrue

theorem room_of_fits {counter : Array Byte} {ms : List Message} (hsize : 16 ≤ counter.size)
    (hfits : 17 ≤ counter.size ∨ ∀ m ∈ ms, m.len < 16) : ∀ m ∈ ms, Room counter m.length := by
  intro m hm
  refine hfits.imp id fun h => ⟨hsize, ?_⟩
  have hlt := h m hm
  rw [Message.len] at hlt
  omega

/-- Where the run ends, it is the list of its blocks that decides. -/
theorem noReuse_iff_nodup {counter : Array Byte} {ms : List Message}
    (hroom : ∀ m ∈ ms, Room counter m.length) :
    NoReuse o keySchedule counter ms ↔ (handedBlocks (blocksOf ms) counter).Nodup := by
  obtain ⟨c, hrun⟩ := runCalls_handed o keySchedule ms (.fresh counter) hroom
  constructor
  · rintro ⟨c', s, hrun', hs⟩
    rw [hrun, Except.ok.injEq, Prod.mk.injEq] at hrun'
    rw [← hrun'.2] at hs
    exact hs
  · intro hs
    exact ⟨c, _, hrun, hs⟩

/-- **Runs that do not reuse a counter block**, over any number of calls. -/
theorem runCalls_noReuse_iff {counter : Array Byte} (hsize : 16 ≤ counter.size) (ms : List Message) :
    NoReuse o keySchedule counter ms ↔ NoReuseAt counter ms := by
  by_cases hfits : 17 ≤ counter.size ∨ ∀ m ∈ ms, m.len < 16
  · rw [noReuse_iff_nodup o keySchedule (room_of_fits hsize hfits), NoReuseAt, and_iff_right hfits]
    exact nodup_handedBlocks_iff (blocksOf ms) (hfits.imp id true_notMem_blocksOf)
  · have hfault : runCalls o keySchedule ms (.fresh counter) = .error (.outOfRange 16 16) := by
      simp only [not_or, not_forall, Nat.not_le, Nat.not_lt] at hfits
      obtain ⟨hlt, m, hm, hlen⟩ := hfits
      exact runCalls_outOfRange o keySchedule ms (.fresh counter)
        (show counter.size = 16 by omega) ⟨m, hm, hlen⟩
    constructor
    · rintro ⟨c, s, hrun, -⟩
      rw [hfault] at hrun
      cases hrun
    · intro h
      exact absurd h.1 hfits

end Reuse

/-- A call of one block and a call of one byte, from a buffer whose last byte is full. -/
theorem runCalls_noReuse_two_calls :
    let calls := [Message.zeros ⟨16, by decide⟩ (by decide), Message.zeros ⟨1, by decide⟩ (by decide)]
    NoReuseAt carryCounter calls ∧ NoReuse .little (Vector.replicate 60 0) carryCounter calls := by
  intro calls
  have hcond : NoReuseAt carryCounter calls :=
    ⟨.inl (by decide), .inr ⟨⟨false, by decide⟩, by decide⟩⟩
  exact ⟨hcond, (runCalls_noReuse_iff .little (Vector.replicate 60 0) (by decide) calls).mpr hcond⟩

/-- One message of two blocks: both are encrypted with the initial counter block. -/
theorem not_noReuse_sampleCounter :
    ¬ NoReuse .little (Vector.replicate 60 0) sampleCounter
      [Message.zeros ⟨32, by decide⟩ (by decide)] := by
  have h17 : 17 ≤ sampleCounter.size := by decide
  rw [noReuse_iff_nodup .little _ (fun _ _ => .inl h17), nodup_handedBlocks_iff _ (.inl h17)]
  decide

end AeadPerf.Aes
