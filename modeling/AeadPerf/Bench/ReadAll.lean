/-
# `Bench.ReadAll` — `read_all` and files that are too short

`read_all` of `_tmp/bench.c` is the loop of `write_all` with `read(fd, data + readin,
to_read)` in it.  Here the position in the buffer moves on with the count, so what is read
ends up where it belongs.  But at the end of the file `read` returns 0, the counts stay as
they are, and the next call is the same one:

    len ≤ size of the file     after `len + 1` calls at most, `len` bytes are read
    shorter, and an error      the error ends the loop
    shorter, and no error      the loop does not end

So a call does what it should exactly if the file has `len` bytes or some `read` fails
(`readAll_reads_iff`).
-/
import Mathlib.Data.Stream.Init
import AeadPerf.Bench.Transfer

namespace AeadPerf.Bench

open Words Checked

/-! ## The code -/

/-- The buffer, and the file offset of the descriptor. -/
structure ReadState where
  data : Array Byte
  offset : Nat
  deriving DecidableEq, Repr

/-- `ret = read(fd, data + readin, to_read)`: the next `ret` bytes of the file go to the
buffer, from `readin` on. -/
def read (file : Array Byte) (toRead readin : Int) (ret : Option Nat) (s : ReadState) :
    Run ReadState :=
  if 0 ≤ readin ∧ readin.toNat + sizeT toRead ≤ s.data.size then
    .ok {
      data := s.data.mapIdx fun i b =>
        if readin.toNat ≤ i ∧ i < readin.toNat + ret.getD 0
        then file.getD (s.offset + (i - readin.toNat)) 0 else b
      offset := s.offset + ret.getD 0 }
  else .error (.outOfRange (readin + sizeT toRead) s.data.size)

/-- `read_all`, on a file that has just been opened. -/
def readAll (file data : Array Byte) (len : Int) (rets : List (Option Nat)) :
    Run (Option ReadState) :=
  transferLoop (read file) len rets len 0 ⟨data, 0⟩

/-! ## What `read` may return -/

/-- The results of some calls of `read`, where the first asks for `n` bytes, each of the
next for what is left, and the file has `avail` bytes from its offset on: a call that does
not fail returns some of the bytes, or 0 where there are none.  After the loop has ended
there are no calls, and the rest of the list is not looked at. -/
inductive ReadResults : Nat → Nat → List (Option Nat) → Prop where
  | nil {avail n : Nat} : ReadResults avail n []
  | error {avail n : Nat} {rets : List (Option Nat)} : ReadResults avail n (none :: rets)
  | all {avail n : Nat} {rets : List (Option Nat)} (hle : n ≤ avail) :
      ReadResults avail n (some n :: rets)
  | short {avail n r : Nat} {rets : List (Option Nat)} (hpos : 0 < r) (hlt : r < n) (hle : r ≤ avail)
      (hrest : ReadResults (avail - r) (n - r) rets) : ReadResults avail n (some r :: rets)
  | eof {n : Nat} {rets : List (Option Nat)} (hpos : 0 < n) (hrest : ReadResults 0 n rets) :
      ReadResults 0 n (some 0 :: rets)

/-- What `read_all` should do, with the results `rets` of `read`, one after the other. -/
structure ReadsAll (file : Array Byte) (len : CInt) (rets : Stream' (Option Nat)) : Prop where
  /-- No call asks for bytes behind the buffer, in a buffer of `len` bytes. -/
  inside : ∀ data : Array Byte, data.size = len.val.toNat → ∀ m,
    ∃ r, readAll file data len.val (rets.take m) = .ok r
  /-- It returns. -/
  returns : ∀ data : Array Byte, len.val.toNat ≤ data.size →
    ∃ m s, readAll file data len.val (rets.take m) = .ok (some s)
  /-- If no call fails, the buffer begins as the file does. -/
  content : ∀ data : Array Byte, len.val.toNat ≤ data.size → ∀ m s,
    readAll file data len.val (rets.take m) = .ok (some s) → none ∉ rets.take m →
    ∀ i < min len.val.toNat file.size, s.data[i]? = file[i]?

/-! ## What is read -/

/-- After `t` bytes. -/
def ReadState.after (file data : Array Byte) (t : Nat) : ReadState where
  data := data.mapIdx fun i b => if i < t then file.getD i 0 else b
  offset := t

section Loop

variable {file data : Array Byte} {len : Int} {avail n : Nat} {rets : List (Option Nat)}

theorem read_eq {done : Nat} (ret : Option Nat) (hmax : (n : Int) ≤ intMax) (hdata : done + n ≤ data.size) :
    read file n done ret (.after file data done) = .ok (.after file data (done + ret.getD 0)) := by
  have hsize : (ReadState.after file data done).data.size = data.size := by simp [ReadState.after]
  have hinside : 0 ≤ (done : Int) ∧ (done : Int).toNat + sizeT n ≤ (ReadState.after file data done).data.size := by
    rw [hsize, sizeT_of_nat hmax]
    exact ⟨Int.natCast_nonneg done, hdata⟩
  rw [read, if_pos hinside]
  refine congrArg Except.ok (congrArg₂ ReadState.mk ?_ rfl)
  simp only [ReadState.after, Int.toNat_natCast, Array.mapIdx_mapIdx]
  refine Array.mapIdx_eq_mapIdx_iff.mpr ?_
  intro i _
  simp only [Function.comp_apply]
  rcases Nat.lt_or_ge i done with hi | hi
  · have hnot : ¬ done ≤ i := by omega
    have hlt : i < done + ret.getD 0 := by omega
    simp only [hnot, hi, hlt, false_and, if_false, if_true]
  · have hnot : ¬ i < done := by omega
    have hoff : done + (i - done) = i := by omega
    simp only [hi, hnot, hoff, true_and, if_false]

section Call

variable {done : Nat} (hmax : len ≤ intMax) (hlen : (done : Int) + n = len) (hdata : done + n ≤ data.size)

include hmax hlen hdata

theorem readLoop_error :
    ∃ s, transferLoop (read file) len (none :: rets) n done (.after file data done) = .ok (some s) :=
  ⟨_, transferLoop_error (read_eq none (by omega) hdata)⟩

theorem readLoop_last :
    transferLoop (read file) len (some n :: rets) n done (.after file data done)
      = .ok (some (.after file data (done + n))) :=
  transferLoop_last hmax hlen (read_eq (some n) (by omega) hdata)

theorem readLoop_short {r : Nat} (hlt : r < n) :
    transferLoop (read file) len (some r :: rets) n done (.after file data done)
      = transferLoop (read file) len rets (n - r : Nat) (done + r : Nat) (.after file data (done + r)) :=
  transferLoop_short hlt hmax hlen (read_eq (some r) (by omega) hdata)

end Call

/-- Where the loop ends without an error, all is read; at no call does it stop at a fault. -/
theorem transferLoop_read (hr : ReadResults avail n rets) (hmax : len ≤ intMax) (done : Nat)
    (hlen : (done : Int) + n = len) (hdata : done + n ≤ data.size) :
    ∃ r, transferLoop (read file) len rets n done (.after file data done) = .ok r
      ∧ (none ∉ rets → ∀ s, r = some s → s = .after file data (done + n)) := by
  induction hr generalizing done with
  | nil =>
      refine ⟨none, rfl, ?_⟩
      intro _ s hs
      cases hs
  | error =>
      obtain ⟨s, hs⟩ := readLoop_error hmax hlen hdata
      refine ⟨some s, hs, ?_⟩
      intro hnone
      exact absurd List.mem_cons_self hnone
  | all =>
      refine ⟨_, readLoop_last hmax hlen hdata, ?_⟩
      intro _ s hs
      exact (Option.some.inj hs).symm
  | @short avail n r rets hpos hlt hle hrest ih =>
      obtain ⟨o, hrun, ho⟩ := ih (done + r) (by omega) (by omega)
      refine ⟨o, (readLoop_short hmax hlen hdata hlt).trans hrun, ?_⟩
      intro hnone s hs
      have hdone : done + r + (n - r) = done + n := by omega
      rw [ho (fun h => hnone (List.mem_cons_of_mem _ h)) s hs, hdone]
  | eof hpos hrest ih =>
      obtain ⟨o, hrun, ho⟩ := ih done hlen hdata
      refine ⟨o, (readLoop_short hmax hlen hdata hpos).trans hrun, ?_⟩
      intro hnone s hs
      exact ho (fun h => hnone (List.mem_cons_of_mem _ h)) s hs

/-- If the file has the bytes, each call but the last brings one at least. -/
theorem transferLoop_read_returns (hr : ReadResults avail n rets) (hmax : len ≤ intMax) (done : Nat)
    (hlen : (done : Int) + n = len) (hdata : done + n ≤ data.size) (havail : n ≤ avail)
    (hcalls : n < rets.length) :
    ∃ s, transferLoop (read file) len rets n done (.after file data done) = .ok (some s) := by
  induction hr generalizing done with
  | nil => cases hcalls
  | error => exact readLoop_error hmax hlen hdata
  | all => exact ⟨_, readLoop_last hmax hlen hdata⟩
  | @short avail n r rets hpos hlt hle hrest ih =>
      rw [readLoop_short hmax hlen hdata hlt]
      rw [List.length_cons] at hcalls
      exact ih (done + r) (by omega) (by omega) (by omega) (by omega)
  | eof hpos hrest ih => exact absurd havail (by omega)

/-- An error ends the loop. -/
theorem transferLoop_read_error (hr : ReadResults avail n rets) (hmax : len ≤ intMax) (done : Nat)
    (hlen : (done : Int) + n = len) (hdata : done + n ≤ data.size) (herror : none ∈ rets) :
    ∃ s, transferLoop (read file) len rets n done (.after file data done) = .ok (some s) := by
  induction hr generalizing done with
  | nil => cases herror
  | error => exact readLoop_error hmax hlen hdata
  | all => exact ⟨_, readLoop_last hmax hlen hdata⟩
  | @short avail n r rets hpos hlt hle hrest ih =>
      rw [readLoop_short hmax hlen hdata hlt]
      have hrest' : none ∈ rets := by simpa using herror
      exact ih (done + r) (by omega) (by omega) hrest'
  | @eof n rets hpos hrest ih =>
      rw [readLoop_short hmax hlen hdata hpos]
      have hrest' : none ∈ rets := by simpa using herror
      exact ih done hlen hdata hrest'

/-- Without the bytes and without an error it does not end. -/
theorem transferLoop_read_runs (hr : ReadResults avail n rets) (hmax : len ≤ intMax) (done : Nat)
    (hlen : (done : Int) + n = len) (hdata : done + n ≤ data.size) (havail : avail < n)
    (hnone : none ∉ rets) :
    transferLoop (read file) len rets n done (.after file data done) = .ok none := by
  induction hr generalizing done with
  | nil => rfl
  | error => exact absurd List.mem_cons_self hnone
  | all hle => exact absurd havail (by omega)
  | @short avail n r rets hpos hlt hle hrest ih =>
      rw [readLoop_short hmax hlen hdata hlt]
      exact ih (done + r) (by omega) (by omega) (by omega) fun h => hnone (List.mem_cons_of_mem _ h)
  | eof hpos hrest ih =>
      rw [readLoop_short hmax hlen hdata hpos]
      exact ih done hlen hdata hpos fun h => hnone (List.mem_cons_of_mem _ h)

end Loop

/-! ## When it does what it should -/

theorem ReadState.after_zero (file data : Array Byte) : ReadState.after file data 0 = ⟨data, 0⟩ := by
  refine congrArg₂ ReadState.mk (Array.mapIdx_eq_iff.mpr ?_) rfl
  intro i
  simp

theorem ReadState.getElem?_after {file data : Array Byte} {t i : Nat} (hi : i < t) (hdata : i < data.size)
    (hfile : i < file.size) : (ReadState.after file data t).data[i]? = file[i]? := by
  simp [ReadState.after, hi, hdata, hfile]

/-- The results of a call are among those of the first calls, for some number of them. -/
theorem mem_iff_exists_mem_take {α : Type} {a : α} {s : Stream' α} : a ∈ s ↔ ∃ m, a ∈ s.take m := by
  constructor
  · rintro ⟨k, hk⟩
    refine ⟨k + 1, List.mem_iff_getElem?.mpr ⟨k, ?_⟩⟩
    rw [Stream'.getElem?_take (Nat.lt_succ_self k)]
    exact congrArg some hk.symm
  · rintro ⟨m, hm⟩
    obtain ⟨k, hk, hget⟩ := List.mem_iff_getElem.mp hm
    rw [Stream'.take_get] at hget
    exact Stream'.mem_of_get_eq hget.symm

section Condition

variable {file : Array Byte} {len : CInt} {rets : Stream' (Option Nat)}

theorem readAll_eq (hlen : 0 ≤ len.val) (data : Array Byte) (m : Nat) :
    readAll file data len.val (rets.take m)
      = transferLoop (read file) len.val (rets.take m) len.val.toNat (0 : Nat) (.after file data 0) := by
  rw [ReadState.after_zero, Int.toNat_of_nonneg hlen]
  rfl

/-- A call in a buffer of `len` bytes at least stops at no fault, and what it leaves without
an error is the beginning of the file. -/
theorem readAll_ok (hlen : 0 ≤ len.val) (hr : ∀ m, ReadResults file.size len.val.toNat (rets.take m))
    {data : Array Byte} (hdata : len.val.toNat ≤ data.size) (m : Nat) :
    ∃ r, readAll file data len.val (rets.take m) = .ok r
      ∧ (none ∉ rets.take m → ∀ s, r = some s → s = .after file data len.val.toNat) := by
  obtain ⟨r, hok, hdone⟩ := transferLoop_read (hr m) len.property.2 0 (by omega) (by omega : 0 + len.val.toNat ≤ data.size)
  rw [Nat.zero_add] at hdone
  exact ⟨r, (readAll_eq hlen data m).trans hok, hdone⟩

/-- It returns exactly if the file is long enough or an error comes. -/
theorem readAll_returns_iff (hlen : 0 ≤ len.val)
    (hr : ∀ m, ReadResults file.size len.val.toNat (rets.take m))
    {data : Array Byte} (hdata : len.val.toNat ≤ data.size) :
    (∃ m s, readAll file data len.val (rets.take m) = .ok (some s))
      ↔ len.val.toNat ≤ file.size ∨ none ∈ rets := by
  have hmax : len.val ≤ intMax := len.property.2
  have hnat : ((0 : Nat) : Int) + (len.val.toNat : Nat) = len.val := by omega
  have hdata' : 0 + len.val.toNat ≤ data.size := by omega
  constructor
  · rintro ⟨m, s, hs⟩
    by_contra hcond
    obtain ⟨hshort, hnone⟩ := not_or.mp hcond
    have hnone' : none ∉ rets.take m := fun h => hnone (mem_iff_exists_mem_take.mpr ⟨m, h⟩)
    have hruns : readAll file data len.val (rets.take m) = .ok none :=
      (readAll_eq hlen data m).trans
        (transferLoop_read_runs (hr m) hmax 0 hnat hdata' (Nat.lt_of_not_le hshort) hnone')
    cases hs.symm.trans hruns
  · rintro (hlong | herror)
    · have hcalls : len.val.toNat < (rets.take (len.val.toNat + 1)).length := by
        rw [Stream'.length_take]
        exact Nat.lt_succ_self _
      obtain ⟨s, hs⟩ := transferLoop_read_returns (hr _) hmax 0 hnat hdata' hlong hcalls
      exact ⟨_, s, (readAll_eq hlen data _).trans hs⟩
    · obtain ⟨m, hm⟩ := mem_iff_exists_mem_take.mp herror
      obtain ⟨s, hs⟩ := transferLoop_read_error (hr _) hmax 0 hnat hdata' hm
      exact ⟨_, s, (readAll_eq hlen data _).trans hs⟩

/-- **What `read_all` reads** is right exactly if the file is long enough or an error comes. -/
theorem readAll_reads_iff (hlen : 0 ≤ len.val)
    (hr : ∀ m, ReadResults file.size len.val.toNat (rets.take m)) :
    ReadsAll file len rets ↔ len.val.toNat ≤ file.size ∨ none ∈ rets := by
  constructor
  · intro h
    let data : Array Byte := Array.replicate len.val.toNat 0
    have hdata : len.val.toNat ≤ data.size := by simp [data]
    exact (readAll_returns_iff hlen hr hdata).mp (h.returns data hdata)
  · intro hcond
    refine ⟨?_, ?_, ?_⟩
    · intro data hdata m
      obtain ⟨r, hok, -⟩ := readAll_ok hlen hr hdata.ge m
      exact ⟨r, hok⟩
    · intro data hdata
      exact (readAll_returns_iff hlen hr hdata).mpr hcond
    · intro data hdata m s hs hnone i hi
      obtain ⟨r, hok, hdone⟩ := readAll_ok hlen hr hdata m
      cases hok.symm.trans hs
      rw [hdone hnone s rfl]
      exact ReadState.getElem?_after (by omega) (by omega) (by omega)

/-- Two short reads of one byte are enough for two bytes. -/
theorem readAll_reads_two : ReadsAll #[0x68, 0x69] ⟨2, by decide⟩ (Stream'.const (some 1)) := by
  refine (readAll_reads_iff (by decide) ?_).mpr (Or.inl (by decide))
  rintro (- | - | m)
  · exact .nil
  · exact .short Nat.one_pos Nat.one_lt_two (Nat.le_succ 1) .nil
  · exact .short Nat.one_pos Nat.one_lt_two (Nat.le_succ 1) (.all le_rfl)

end Condition

/-- At the end of the file each further call returns 0. -/
theorem ReadResults.eof_forever {n : Nat} (hpos : 0 < n) (m : Nat) :
    ReadResults 0 n ((Stream'.const (some 0)).take m) := by
  induction m with
  | zero => exact .nil
  | succ m ih => exact .eof hpos ih

/-- Three bytes are asked for, of a file of two. -/
theorem not_readAll_reads :
    (∀ m, ReadResults 2 3 ((Stream'.cons (some 2) (Stream'.const (some 0))).take m))
      ∧ ¬ ReadsAll #[0x68, 0x69] ⟨3, by decide⟩ (Stream'.cons (some 2) (Stream'.const (some 0))) := by
  have hr : ∀ m, ReadResults 2 3 ((Stream'.cons (some 2) (Stream'.const (some 0))).take m) := by
    intro m
    cases m with
    | zero => exact .nil
    | succ m => exact .short Nat.two_pos (by decide) le_rfl (.eof_forever Nat.one_pos m)
  refine ⟨hr, ?_⟩
  intro h
  have hiff := @readAll_returns_iff #[0x68, 0x69] ⟨3, by decide⟩ _ (by decide) hr #[0, 0, 0] (by decide)
  rcases hiff.mp (h.returns #[0, 0, 0] (by decide)) with hlong | ⟨k, hk⟩
  · revert hlong
    decide
  · cases k <;> cases hk

end AeadPerf.Bench
