/-
# `Bench.Transfer` — `write_all` and short writes

`write_all` of `_tmp/bench.c` calls `write` until `len` bytes are written.  It keeps two
counts, and passes the same buffer each time:

    do {
      ret = write(fd, data, to_write);
      if(ret < 0) break;
      written += ret;  to_write -= ret;
    } while(written < len);

What the calls return is given, as the list of their results (`WriteResults`: any positive
counts up to what is asked for, then everything that is left or an error).  After a short
write the next call sends the beginning of the buffer again.  So what is accepted is a
prefix of the buffer exactly if each chunk, at its place in the buffer, repeats the
beginning of the buffer (`writeAll_sends_iff`); whatever is in the buffer, this is so for
one chunk at most (`writeAll_sends_all_iff`).
-/
import Mathlib.Algebra.Order.BigOperators.Group.List
import Mathlib.Data.List.ReduceOption
import AeadPerf.Lib.Checked
import AeadPerf.Lib.Words

namespace AeadPerf.Bench

open Words Checked

/-! ## The code -/

/-- An `int` argument where a `size_t` is expected. -/
def sizeT (z : Int) : Nat := (z % 2 ^ 64).toNat

/-- `do { ret = …; if(ret < 0) break; done += ret; left -= ret; } while(done < len);`

The results `ret` of the call are given, with `none` for an error; there is no outcome if
they do not suffice. -/
def transferLoop {σ : Type} (call : Int → Int → Option Nat → σ → Run σ) (len : Int) :
    List (Option Nat) → Int → Int → σ → Run (Option σ)
  | [], _, _, _ => .ok none
  | ret :: rets, left, done, s => do
      let s ← call left done ret s
      match ret with
      | none => .ok (some s)
      | some r => do
          let done ← int (done + r)
          let left ← int (left - r)
          if done < len then transferLoop call len rets left done s else .ok (some s)

/-- `ret = write(fd, data, to_write)`: of the buffer, the first `ret` bytes go to those that
the descriptor has accepted. -/
def write (data : Array Byte) (toWrite _written : Int) (ret : Option Nat) (accepted : List Byte) :
    Run (List Byte) :=
  if sizeT toWrite ≤ data.size then .ok (accepted ++ data.toList.take (ret.getD 0))
  else .error (.outOfRange (sizeT toWrite) data.size)

/-- `write_all`: the bytes that the descriptor has accepted. -/
def writeAll (data : Array Byte) (len : Int) (rets : List (Option Nat)) : Run (Option (List Byte)) :=
  transferLoop (write data) len rets len 0 []

/-! ## What `write` may return -/

/-- The results of the calls of `write`, where the first asks for `n` bytes and each of the
next for what is left: a call that does not fail accepts some of them, if there are any. -/
inductive WriteResults : Nat → List (Option Nat) → Prop where
  | error {n : Nat} : WriteResults n [none]
  | all {n : Nat} : WriteResults n [some n]
  | short {n r : Nat} {rets : List (Option Nat)} (hpos : 0 < r) (hlt : r < n)
      (hrest : WriteResults (n - r) rets) : WriteResults n (some r :: rets)

/-- The sizes of the chunks that are accepted. -/
def chunks (rets : List (Option Nat)) : List Nat := rets.reduceOption

/-- `write_all` returns, what is accepted is a prefix of `data[0..len)`, and is all of it if
no call fails. -/
def Sends (data : Array Byte) (len : CInt) (rets : List (Option Nat)) : Prop :=
  ∃ accepted, writeAll data len.val rets = .ok (some accepted)
    ∧ accepted <+: data.toList.take len.val.toNat
    ∧ (none ∉ rets → accepted = data.toList.take len.val.toNat)

/-- The `r` bytes at `s` are those that the buffer begins with. -/
def Repeats (data : Array Byte) (s r : Nat) : Prop := ∀ j < r, data[s + j]? = data[j]?

instance instDecidableRepeats (data : Array Byte) (s r : Nat) : Decidable (Repeats data s r) :=
  inferInstanceAs (Decidable (∀ j < r, data[s + j]? = data[j]?))

namespace WriteResults

variable {n : Nat} {rets : List (Option Nat)}

theorem sum_le (hr : WriteResults n rets) : (chunks rets).sum ≤ n := by
  induction hr with
  | error => exact Nat.zero_le _
  | all => exact Nat.le_refl _
  | @short n r rets hpos hlt hrest ih =>
      have hsum : (chunks (some r :: rets)).sum = r + (chunks rets).sum := rfl
      omega

theorem sum_eq (hr : WriteResults n rets) (hnone : none ∉ rets) : (chunks rets).sum = n := by
  induction hr with
  | error => exact absurd (List.mem_singleton_self _) hnone
  | all => rfl
  | @short n r rets hpos hlt hrest ih =>
      have hsum : (chunks (some r :: rets)).sum = r + (chunks rets).sum := rfl
      have hrest' := ih fun h => hnone (List.mem_cons_of_mem _ h)
      omega

theorem le_of_mem (hr : WriteResults n rets) {r : Nat} (hmem : r ∈ chunks rets) : r ≤ n :=
  (List.le_sum_of_mem hmem).trans hr.sum_le

/-- A call that accepts bytes accepts one at least. -/
theorem pos_of_chunks (hr : WriteResults n rets) (hn : 0 < n) {r : Nat} {rs : List Nat}
    (hchunks : chunks rets = r :: rs) : 0 < r := by
  cases hr with
  | error => cases hchunks
  | all =>
      cases hchunks
      exact hn
  | short hpos _ _ =>
      cases hchunks
      exact hpos

end WriteResults

/-! ## The loop -/

theorem sizeT_of_nat {n : Nat} (hmax : (n : Int) ≤ intMax) : sizeT n = n := by
  unfold sizeT
  simp only [intMax] at hmax
  omega

section Loop

variable {σ : Type} {call : Int → Int → Option Nat → σ → Run σ} {len : Int} {n done : Nat} {s s' : σ}
  {rets : List (Option Nat)}

/-- The loop ends with an error, … -/
theorem transferLoop_error (hcall : call n done none s = .ok s') :
    transferLoop call len (none :: rets) n done s = .ok (some s') := by
  rw [transferLoop, hcall]
  rfl

/-- … with the last of the bytes, … -/
theorem transferLoop_last (hmax : len ≤ intMax) (hlen : (done : Int) + n = len)
    (hcall : call n done (some n) s = .ok s') :
    transferLoop call len (some n :: rets) n done s = .ok (some s') := by
  have hdone : int ((done : Int) + n) = .ok len := by
    rw [hlen]
    exact int_ok_of_nonneg (by omega) hmax
  have hleft : int ((n : Int) - n) = .ok 0 := by
    rw [Int.sub_self]
    exact int_ok_of_nonneg le_rfl (by simp [intMax])
  simp only [transferLoop, hcall, ok_bind, hdone, hleft, if_neg (Int.lt_irrefl len)]

/-- … and goes on after fewer. -/
theorem transferLoop_short {r : Nat} (hlt : r < n) (hmax : len ≤ intMax)
    (hlen : (done : Int) + n = len) (hcall : call n done (some r) s = .ok s') :
    transferLoop call len (some r :: rets) n done s
      = transferLoop call len rets (n - r : Nat) (done + r : Nat) s' := by
  have hdone : int ((done : Int) + r) = .ok ((done + r : Nat) : Int) := by
    rw [← Int.natCast_add]
    exact int_ok_of_nonneg (by omega) (by omega)
  have hleft : int ((n : Int) - r) = .ok ((n - r : Nat) : Int) := by
    rw [← Int.ofNat_sub hlt.le]
    exact int_ok_of_nonneg (by omega) (by omega)
  have hagain : ((done + r : Nat) : Int) < len := by omega
  simp only [transferLoop, hcall, ok_bind, hdone, hleft, if_pos hagain]

end Loop

/-! ## What is sent -/

/-- The accepted bytes: for each chunk, the beginning of the buffer. -/
def sentBytes (data : Array Byte) (rets : List (Option Nat)) : List Byte :=
  (chunks rets).flatMap fun r => data.toList.take r

theorem write_eq {data : Array Byte} {n : Nat} {written : Int} {accepted : List Byte}
    (ret : Option Nat) (hmax : (n : Int) ≤ intMax) (hdata : n ≤ data.size) :
    write data n written ret accepted = .ok (accepted ++ data.toList.take (ret.getD 0)) := by
  rw [write, sizeT_of_nat hmax, if_pos hdata]

/-- What the loop does with any results. -/
theorem transferLoop_write {data : Array Byte} {len : Int} {n : Nat} {rets : List (Option Nat)}
    (hr : WriteResults n rets) (hmax : len ≤ intMax) (done : Nat) (hlen : (done : Int) + n = len)
    (hdata : n ≤ data.size) (accepted : List Byte) :
    transferLoop (write data) len rets n done accepted = .ok (some (accepted ++ sentBytes data rets)) := by
  induction hr generalizing done accepted with
  | @error n =>
      rw [transferLoop_error (write_eq none (by omega) hdata)]
      rfl
  | @all n =>
      rw [transferLoop_last hmax hlen (write_eq (some n) (by omega) hdata)]
      simp [sentBytes, chunks]
  | @short n r rets hpos hlt hrest ih =>
      rw [transferLoop_short hlt hmax hlen (write_eq (some r) (by omega) hdata),
        ih (done + r) (by omega) (by omega), List.append_assoc]
      rfl

/-- `write_all` returns, whatever `write` returns. -/
theorem writeAll_eq {data : Array Byte} {len : CInt} {rets : List (Option Nat)} (hlen : 0 ≤ len.val)
    (hdata : len.val.toNat ≤ data.size) (hr : WriteResults len.val.toNat rets) :
    writeAll data len.val rets = .ok (some (sentBytes data rets)) := by
  have hnat : ((len.val.toNat : Nat) : Int) = len.val := Int.toNat_of_nonneg hlen
  have hloop := transferLoop_write hr len.property.2 0 (by omega) hdata []
  rw [hnat] at hloop
  exact hloop

/-! ## When it is what should be sent -/

theorem append_prefix_iff {α : Type} {l₁ l₂ l : List α} :
    l₁ ++ l₂ <+: l ↔ l₁ <+: l ∧ l₂ <+: l.drop l₁.length := by
  constructor
  · rintro ⟨t, rfl⟩
    refine ⟨⟨l₂ ++ t, (List.append_assoc _ _ _).symm⟩, t, ?_⟩
    rw [List.append_assoc, List.drop_left]
  · rintro ⟨⟨t, rfl⟩, h⟩
    rw [List.drop_left] at h
    exact (List.prefix_append_right_inj l₁).mpr h

theorem take_prefix_iff {data : Array Byte} {s r : Nat} (hr : r ≤ data.size) :
    data.toList.take r <+: data.toList.drop s ↔ Repeats data s r := by
  have hlength : (data.toList.take r).length = r := by simp [hr]
  have hbegin : ∀ j (hj : j < (data.toList.take r).length), some (data.toList.take r)[j] = data[j]? := by
    intro j hj
    rw [List.getElem_take, Array.getElem_toList, Array.getElem?_eq_getElem (by omega)]
  have hplace : ∀ j, (data.toList.drop s)[j]? = data[s + j]? := by
    intro j
    rw [List.getElem?_drop, Array.getElem?_toList]
  rw [List.prefix_iff_getElem?]
  constructor
  · intro h j hj
    rw [← hplace j, h j (hlength.symm ▸ hj), hbegin]
  · intro h j hj
    rw [hplace j, hbegin j hj]
    exact h j (hlength ▸ hj)

/-- Chunk after chunk. -/
theorem flatMap_take_prefix_iff {data : Array Byte} {rs : List Nat} (hrs : ∀ r ∈ rs, r ≤ data.size) (s : Nat) :
    (rs.flatMap fun r => data.toList.take r) <+: data.toList.drop s
      ↔ ∀ pre r post, rs = pre ++ r :: post → Repeats data (s + pre.sum) r := by
  induction rs generalizing s with
  | nil =>
      refine ⟨?_, fun _ => List.nil_prefix⟩
      intro _ pre r post h
      cases pre <;> cases h
  | cons r rs ih =>
      have hr : r ≤ data.size := hrs r List.mem_cons_self
      have hlength : (data.toList.take r).length = r := by simp [hr]
      rw [List.flatMap_cons, append_prefix_iff, take_prefix_iff hr, hlength, List.drop_drop,
        ih fun r' h => hrs r' (List.mem_cons_of_mem _ h)]
      constructor
      · rintro ⟨hfirst, hrest⟩ pre r' post h
        cases pre with
        | nil =>
            cases h
            exact hfirst
        | cons p pre =>
            cases h
            have := hrest pre r' post rfl
            rwa [Nat.add_assoc] at this
      · intro h
        refine ⟨h [] r rs rfl, ?_⟩
        intro pre r' post hrs'
        have := h (r :: pre) r' post (by rw [hrs', List.cons_append])
        rwa [List.sum_cons, ← Nat.add_assoc] at this

section Condition

variable {data : Array Byte} {len : CInt} {rets : List (Option Nat)}

/-- **What `write_all` sends** is right exactly if each chunk repeats, at its place, what the
buffer begins with. -/
theorem writeAll_sends_iff (hlen : 0 ≤ len.val) (hdata : len.val.toNat ≤ data.size)
    (hr : WriteResults len.val.toNat rets) :
    Sends data len rets
      ↔ ∀ pre r post, chunks rets = pre ++ r :: post → Repeats data pre.sum r := by
  have hsizes : ∀ r ∈ chunks rets, r ≤ data.size := fun r hmem => (hr.le_of_mem hmem).trans hdata
  have hprefix := flatMap_take_prefix_iff hsizes 0
  simp only [List.drop_zero, Nat.zero_add] at hprefix
  have hlength : (sentBytes data rets).length = (chunks rets).sum := by
    rw [sentBytes, List.length_flatMap]
    refine congrArg List.sum ((List.map_congr_left ?_).trans (List.map_id _))
    intro r hmem
    simp [hsizes r hmem]
  rw [← hprefix]
  constructor
  · rintro ⟨accepted, hrun, hpre, -⟩
    cases (writeAll_eq hlen hdata hr).symm.trans hrun
    exact hpre.trans (List.take_prefix _ _)
  · intro h
    refine ⟨_, writeAll_eq hlen hdata hr, List.prefix_take_iff.mpr ⟨h, hlength.trans_le hr.sum_le⟩, ?_⟩
    intro hnone
    refine List.IsPrefix.eq_of_length (List.prefix_take_iff.mpr ⟨h, hlength.trans_le hr.sum_le⟩) ?_
    rw [hlength, hr.sum_eq hnone, List.length_take, Array.length_toList, Nat.min_eq_left hdata]

/-- A buffer of two equal bytes survives two short writes. -/
theorem writeAll_sends_equal : Sends #[5, 5] ⟨2, by decide⟩ [some 1, some 1] := by
  let two : CInt := ⟨2, by decide⟩
  have hr : WriteResults two.val.toNat [some 1, some 1] := .short Nat.one_pos Nat.one_lt_two .all
  refine (writeAll_sends_iff (by decide) (by decide) hr).mpr ?_
  intro pre r post h
  rcases pre with - | ⟨p, - | ⟨p', pre⟩⟩
  · cases h
    decide
  · cases h
    decide
  · cases pre <;> cases h

/-- Two short writes of one byte send the first byte twice. -/
theorem not_writeAll_sends : WriteResults 2 [some 1, some 1]
    ∧ ¬ Sends #[0, 1] ⟨2, by decide⟩ [some 1, some 1] := by
  refine ⟨.short Nat.one_pos Nat.one_lt_two .all, ?_⟩
  rintro ⟨accepted, hrun, hpre, -⟩
  have htwice : writeAll #[0, 1] 2 [some 1, some 1] = .ok (some [0, 0]) := rfl
  cases htwice.symm.trans hrun
  revert hpre
  decide

/-- Whatever is in the buffer, it is right if and only if one call at most accepts bytes. -/
theorem writeAll_sends_all_iff (hlen : 0 ≤ len.val) (hr : WriteResults len.val.toNat rets) :
    (∀ data : Array Byte, len.val.toNat ≤ data.size → Sends data len rets) ↔ (chunks rets).length ≤ 1 := by
  constructor
  · intro hall
    cases hr with
    | error => exact Nat.zero_le _
    | all => exact Nat.le_refl _
    | @short _ r rets hpos hlt hrest =>
        -- the second chunk would have to begin as the buffer does
        let data : Array Byte := (1 :: List.replicate (len.val.toNat - 1) 0).toArray
        have hsize : data.size = len.val.toNat := by simp [data]; omega
        have hsends := hall data hsize.ge
        rw [writeAll_sends_iff hlen hsize.ge (.short hpos hlt hrest)] at hsends
        cases hchunks : chunks rets with
        | nil => exact (congrArg (fun rs => rs.length + 1) hchunks).le
        | cons r' rs =>
            have hpos' : 0 < r' := hrest.pos_of_chunks (by omega) hchunks
            have hrepeat := hsends [r] r' rs (congrArg (r :: ·) hchunks) 0 hpos'
            obtain ⟨k, rfl⟩ : ∃ k, r = k + 1 := ⟨r - 1, by omega⟩
            have hk : k < len.val.toNat - 1 := by omega
            simp [data, hk] at hrepeat
  · intro hone data hdata
    refine (writeAll_sends_iff hlen hdata hr).mpr ?_
    intro pre r post h
    rw [h, List.length_append, List.length_cons] at hone
    have hpre : pre = [] := List.length_eq_zero_iff.mp (by omega)
    rw [hpre]
    intro j hj
    rw [List.sum_nil, Nat.zero_add]

end Condition

end AeadPerf.Bench
