/-
# `Lib.Exchange` — who has which cells of the heap

`Exchange h h' old new` says what a piece of code did to the live cells of the heap: it had
the cells `old`, and in their place it leaves the cells `new`; those of them that it had not
before were not live before, and every other live cell is as it was.  Such statements
compose (`trans`), and hold beside cells that the code knows nothing of (`frame`).  If the
code starts with no cells, `new` is all that it has allocated and not freed.
-/
import AeadPerf.Lib.Heap

namespace HeapProg

variable {C α : Type}

/-! ## Two facts of one run -/

theorem wp_and {x : Prog C α} {h : Heap C} {Q Q' : α → Heap C → Prop}
    (hx : wp x h Q fun _ => False) (hx' : wp x h Q' fun _ => False) {E : Fault → Prop} :
    wp x h (fun a h' => Q a h' ∧ Q' a h') E := by
  obtain ⟨a, h', hrun, hQ⟩ := wp_ok.mp hx
  obtain ⟨a', h'', hrun', hQ'⟩ := wp_ok.mp hx'
  cases hrun.symm.trans hrun'
  rw [wp, hrun]
  exact ⟨hQ, hQ'⟩

/-! ## Exchanges -/

/-- The live cells `old` of the heap were exchanged for `new`. -/
structure Exchange (h h' : Heap C) (old new : List Addr) : Prop where
  nodup : new.Nodup
  /-- The new ones are live, … -/
  live : ∀ a ∈ new, ∃ c, h'.Live a c
  /-- … and unless they were there already, they come from nowhere. -/
  fresh : ∀ a ∈ new, a ∉ old → ∀ c, ¬ h.Live a c
  /-- What was not kept of the old ones is freed. -/
  gone : ∀ a ∈ old, a ∉ new → ∀ c, ¬ h'.Live a c
  kept : ∀ a, a ∉ old → a ∉ new → ∀ c, h'.Live a c ↔ h.Live a c

namespace Exchange

variable {h h₁ h' : Heap C} {old mid new rest : List Addr}

/-- The live cells of the heap stay as they are. -/
theorem refl (hnodup : old.Nodup) (hlive : ∀ a ∈ old, ∃ c, h.Live a c)
    (hsame : ∀ a c, h'.Live a c ↔ h.Live a c) : Exchange h h' old old where
  nodup := hnodup
  live a ha := by
    obtain ⟨c, hc⟩ := hlive a ha
    exact ⟨c, (hsame a c).mpr hc⟩
  fresh a ha hnot := absurd ha hnot
  gone a ha hnot := absurd ha hnot
  kept a _ _ c := hsame a c

theorem trans (hx : Exchange h h₁ old mid) (hx' : Exchange h₁ h' mid new) :
    Exchange h h' old new where
  nodup := hx'.nodup
  live := hx'.live
  fresh a ha hold c hc := by
    by_cases hmid : a ∈ mid
    · exact hx.fresh a hmid hold c hc
    · exact hx'.fresh a ha hmid c ((hx.kept a hold hmid c).mpr hc)
  gone a ha hnew c hc := by
    by_cases hmid : a ∈ mid
    · exact hx'.gone a hmid hnew c hc
    · exact hx.gone a ha hmid c ((hx'.kept a hmid hnew c).mp hc)
  kept a hold hnew c := by
    by_cases hmid : a ∈ mid
    · exact iff_of_false (hx'.gone a hmid hnew c) (hx.fresh a hmid hold c)
    · exact (hx'.kept a hmid hnew c).trans (hx.kept a hold hmid c)

/-- Cells the code does not have are not among those it leaves. -/
theorem disjoint (hx : Exchange h h' old new) {a : Addr} (ha : ∃ c, h.Live a c) (hold : a ∉ old) :
    a ∉ new := by
  obtain ⟨c, hc⟩ := ha
  intro hnew
  exact hx.fresh a hnew hold c hc

/-- Live cells that the code does not have stay as they are. -/
theorem keeps (hx : Exchange h h' old new) {a : Addr} {c : C} (hc : h.Live a c) (hold : a ∉ old) :
    h'.Live a c :=
  (hx.kept a hold (hx.disjoint ⟨c, hc⟩ hold) c).mpr hc

/-- Beside other live cells. -/
theorem frame (hx : Exchange h h' old new) (hnodup : rest.Nodup)
    (hlive : ∀ a ∈ rest, ∃ c, h.Live a c) (hrest : ∀ a ∈ rest, a ∉ old) :
    Exchange h h' (old ++ rest) (new ++ rest) where
  nodup := by
    refine List.nodup_append.mpr ⟨hx.nodup, hnodup, ?_⟩
    rintro a ha b hb rfl
    exact hx.disjoint (hlive a hb) (hrest a hb) ha
  live a ha := by
    rcases List.mem_append.mp ha with ha | ha
    · exact hx.live a ha
    · obtain ⟨c, hc⟩ := hlive a ha
      exact ⟨c, hx.keeps hc (hrest a ha)⟩
  fresh a ha hnot := by
    rw [List.mem_append, not_or] at hnot
    rcases List.mem_append.mp ha with ha | ha
    · exact hx.fresh a ha hnot.1
    · exact absurd ha hnot.2
  gone a ha hnot := by
    rw [List.mem_append, not_or] at hnot
    rcases List.mem_append.mp ha with ha | ha
    · exact hx.gone a ha hnot.1
    · exact absurd ha hnot.2
  kept a hold hnew := by
    rw [List.mem_append, not_or] at hold hnew
    exact hx.kept a hold.1 hnew.1

/-- The order in which the cells are listed does not matter. -/
theorem perm (hx : Exchange h h' old new) {new' : List Addr} (hp : new.Perm new') :
    Exchange h h' old new' where
  nodup := hp.nodup_iff.mp hx.nodup
  live a ha := hx.live a (hp.mem_iff.mpr ha)
  fresh a ha := hx.fresh a (hp.mem_iff.mpr ha)
  gone a ha hnot := hx.gone a ha fun hnew => hnot (hp.mem_iff.mp hnew)
  kept a hold hnot := hx.kept a hold fun hnew => hnot (hp.mem_iff.mp hnew)

theorem perm_old (hx : Exchange h h' old new) {old' : List Addr} (hp : old.Perm old') :
    Exchange h h' old' new where
  nodup := hx.nodup
  live := hx.live
  fresh a ha hnot := hx.fresh a ha fun hold => hnot (hp.mem_iff.mp hold)
  gone a ha := hx.gone a (hp.mem_iff.mpr ha)
  kept a hnot := hx.kept a fun hold => hnot (hp.mem_iff.mp hold)

/-- The frame on the other side. -/
theorem frame_left (hx : Exchange h h' old new) (hnodup : rest.Nodup)
    (hlive : ∀ a ∈ rest, ∃ c, h.Live a c) (hrest : ∀ a ∈ rest, a ∉ old) :
    Exchange h h' (rest ++ old) (rest ++ new) :=
  ((hx.frame hnodup hlive hrest).perm List.perm_append_comm).perm_old List.perm_append_comm

/-- Frees leave nothing. -/
theorem of_frees (hf : FreesExactly h h' old) : Exchange h h' old [] where
  nodup := List.nodup_nil
  live a ha := absurd ha List.not_mem_nil
  fresh a ha := absurd ha List.not_mem_nil
  gone a ha _ c hc := by cases (hf.get_eq_freed ha).symm.trans hc
  kept a hold _ c := by rw [Heap.Live, Heap.Live, hf.frame a hold]

/-- One of the cells can be freed, and leaves the others. -/
theorem of_free (hnodup : old.Nodup) (hlive : ∀ a ∈ old, ∃ c, h.Live a c) {a : Addr} (ha : a ∈ old) :
    wp (free (some a)) h (fun _ h' => Exchange h h' old (old.erase a)) fun _ => False := by
  obtain ⟨c, hc⟩ := hlive a ha
  refine wp_free hc ?_
  intro h' hu
  refine ⟨hnodup.erase a, ?_, ?_, ?_, ?_⟩
  · intro b hb
    obtain ⟨hne, hb⟩ := hnodup.mem_erase_iff.mp hb
    obtain ⟨d, hd⟩ := hlive b hb
    exact ⟨d, hu.live hd hne⟩
  · intro b hb hnot
    exact absurd (List.mem_of_mem_erase hb) hnot
  · intro b hb hnot d hd
    obtain rfl : b = a := by
      by_contra hne
      exact hnot (hnodup.mem_erase_iff.mpr ⟨hne, hb⟩)
    cases hu.here.symm.trans hd
  · intro b hb _ d
    have hne : b ≠ a := fun heq => hb (heq ▸ ha)
    rw [Heap.Live, Heap.Live, hu.frame b hne]

end Exchange

end HeapProg
