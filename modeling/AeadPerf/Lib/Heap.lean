/-
# `Lib.Heap` — programs over an explicit heap

`malloc`, `free` and access through pointers, for C programs whose structures live on
the heap.  An allocation has an identity that is never used again, so a pointer that
outlives its allocation is recognised.  A cell is live with a content or freed, and
the heap logs the frees in order; that nothing is in the log twice, and that the log
holds exactly the freed cells, is part of the type.  A program (`Prog`) transforms the
heap and returns a value, or stops at a fault:

    null               access through NULL
    wild a             access to what was never allocated
    useAfterFree a     access to a freed cell
    doubleFree a       free of a freed cell
    mistyped a         access to a live cell of another type
    overread           a copy from beyond the end of a caller's buffer
    outOfFuel          a loop that has not ended after the given number of passes

Cells of different types share one heap; a `View` says which contents are of a type.

A `Segment` is a part of a singly linked list: each item owns a node, whose link leads
to the next item, and perhaps further cells.  `Segment.frame` says that writes
elsewhere keep it, `segment_append` cuts it.  `FreesExactly` says of two heaps that
one is the other after each of some cells was freed, once, and nothing else happened.
-/
import Mathlib.Data.List.Nodup
import Mathlib.Data.List.Perm.Basic

namespace HeapProg

/-! ## Heaps -/

/-- The identity of an allocation. -/
abbrev Addr := Nat

/-- A pointer; `none` is NULL. -/
abbrev Ptr := Option Addr

inductive Cell (C : Type) where
  | live (content : C)
  | freed
  deriving DecidableEq, Repr

/-- A write, which leaves a freed cell as it is. -/
def Cell.write {C : Type} (c : C) : Cell C → Cell C
  | .live _ => .live c
  | .freed => .freed

/-- What an update of `a` to the given cell adds to the log. -/
def Cell.logged {C : Type} (a : Addr) : Cell C → List Addr
  | .live _ => []
  | .freed => [a]

/-- The cells, by identity, and the identities freed, in order. -/
structure Heap (C : Type) where
  cells : List (Cell C)
  log : List Addr
  nodup : log.Nodup
  mem_log : ∀ a, a ∈ log ↔ cells[a]? = some .freed

namespace Heap

variable {C : Type} (h : Heap C)

def empty : Heap C where
  cells := []
  log := []
  nodup := List.nodup_nil
  mem_log := by simp

def get (a : Addr) : Option (Cell C) := h.cells[a]?

/-- The cell `a` is live and holds `c`. -/
def Live (a : Addr) (c : C) : Prop := h.get a = some (.live c)

/-- The identity of the next allocation. -/
def fresh : Addr := h.cells.length

def alloc (c : C) : Heap C where
  cells := h.cells ++ [.live c]
  log := h.log
  nodup := h.nodup
  mem_log := by
    intro a
    rw [h.mem_log, List.getElem?_append]
    split
    · rfl
    · rename_i hge
      rw [List.getElem?_eq_none (Nat.le_of_not_lt hge)]
      rcases Nat.eq_zero_or_pos (a - h.cells.length) with hzero | hpos
      · simp [hzero]
      · rw [List.getElem?_eq_none (by simp; omega)]

/-- The heap with `c` in the cell `a`, if that is live. -/
def set (a : Addr) (c : C) : Heap C where
  cells := h.cells.modify a (Cell.write c)
  log := h.log
  nodup := h.nodup
  mem_log := by
    intro b
    rw [h.mem_log, List.getElem?_modify]
    cases h.cells[b]? with
    | none => simp
    | some cell =>
        cases cell with
        | live c' => split <;> simp [Cell.write]
        | freed => split <;> simp [Cell.write]

/-- The heap after a free of the live cell `a`. -/
def kill (a : Addr) (hl : ∃ c, h.Live a c) : Heap C where
  cells := h.cells.set a .freed
  log := h.log ++ [a]
  nodup := by
    obtain ⟨c, hc⟩ := hl
    refine List.nodup_append.mpr ⟨h.nodup, List.nodup_singleton a, ?_⟩
    intro b hb b' hb' hbb
    obtain rfl : b' = a := List.mem_singleton.mp hb'
    obtain rfl : b = b' := hbb
    have hfreed := (h.mem_log b).mp hb
    rw [show h.cells[b]? = some (.live c) from hc] at hfreed
    cases hfreed
  mem_log := by
    obtain ⟨c, hc⟩ := hl
    have hlt : a < h.cells.length := (List.getElem?_eq_some_iff.mp hc).1
    intro b
    rw [List.mem_append, h.mem_log, List.mem_singleton, List.getElem?_set]
    split
    · rename_i hab
      subst hab
      simp [hlt]
    · rename_i hab
      simp [Ne.symm hab]

/-! ### What one step does -/

/-- `h'` is `h` with `cell` at `a`; the log has grown if the cell is a freed one. -/
structure Update (a : Addr) (cell : Cell C) (h' : Heap C) : Prop where
  here : h'.get a = some cell
  frame : ∀ b, b ≠ a → h'.get b = h.get b
  log : h'.log = h.log ++ cell.logged a

theorem update_alloc (c : C) : h.Update h.fresh (.live c) (h.alloc c) where
  here := by simp [get, alloc, fresh]
  frame b hb := by
    simp only [get, alloc, fresh] at *
    rcases Nat.lt_or_gt_of_ne hb with hlt | hgt
    · rw [List.getElem?_append_left hlt]
    · rw [List.getElem?_eq_none (by simp; omega), List.getElem?_eq_none (by omega)]
  log := (List.append_nil _).symm

variable {h}

theorem update_set {a : Addr} {c' : C} (hl : h.Live a c') (c : C) :
    h.Update a (.live c) (h.set a c) where
  here := by
    simp only [get, set, List.getElem?_modify_eq]
    rw [show h.cells[a]? = some (.live c') from hl]
    rfl
  frame b hb := by simp [get, set, Ne.symm hb]
  log := (List.append_nil _).symm

theorem update_kill {a : Addr} {c : C} (hl : h.Live a c) : h.Update a .freed (h.kill a ⟨c, hl⟩) where
  here := ((h.kill a ⟨c, hl⟩).mem_log a).mp (List.mem_append_right _ (List.mem_singleton_self a))
  frame b hb := by simp [get, kill, Ne.symm hb]
  log := rfl

theorem Live.inj {a : Addr} {c c' : C} (hc : h.Live a c) (hc' : h.Live a c') : c = c' :=
  Cell.live.inj (Option.some.inj (hc.symm.trans hc'))

theorem get_fresh : h.get h.fresh = none := List.getElem?_eq_none (Nat.le_refl _)

/-- A live cell stays as it is through an update of another. -/
theorem Update.live {a b : Addr} {cell : Cell C} {c : C} {h' : Heap C} (hu : h.Update a cell h')
    (hc : h.Live b c) (hb : b ≠ a) : h'.Live b c := (hu.frame b hb).trans hc

end Heap

/-! ## Programs -/

/-- Why a program stops before its end. -/
inductive Fault where
  | null
  | wild (a : Addr)
  | useAfterFree (a : Addr)
  | doubleFree (a : Addr)
  | mistyped (a : Addr)
  | overread
  | outOfFuel
  deriving DecidableEq, Repr

abbrev Prog (C : Type) := StateT (Heap C) (Except Fault)

/-- The contents that are of type `T`. -/
structure View (C T : Type) where
  inj : T → C
  proj : C → Option T
  proj_inj : ∀ t, proj (inj t) = some t

section Programs

variable {C T α β : Type}

/-- `*p`, as a value of type `T`. -/
def load (v : View C T) (p : Ptr) : Prog C T := fun h =>
  match p with
  | none => .error .null
  | some a =>
      match h.get a with
      | none => .error (.wild a)
      | some .freed => .error (.useAfterFree a)
      | some (.live c) =>
          match v.proj c with
          | none => .error (.mistyped a)
          | some t => .ok (t, h)

/-- `*p = t`. -/
def store (v : View C T) (p : Ptr) (t : T) : Prog C Unit := do
  let _ ← load v p
  modify fun h => p.elim h fun a => h.set a (v.inj t)

/-- An assignment to fields of `*p`. -/
def update (v : View C T) (p : Ptr) (f : T → T) : Prog C Unit := do
  let t ← load v p
  store v p (f t)

/-- `malloc`, which fails unless `ok`; `c` is what the memory holds at first. -/
def malloc (ok : Bool) (c : C) : Prog C Ptr := fun h =>
  if ok then .ok (some h.fresh, h.alloc c) else .ok (none, h)

/-- `free(p)`. -/
def free (p : Ptr) : Prog C Unit := fun h =>
  match p with
  | none => .ok ((), h)
  | some a =>
      match hc : h.get a with
      | none => .error (.wild a)
      | some .freed => .error (.doubleFree a)
      | some (.live c) => .ok ((), h.kill a ⟨c, hc⟩)

/-- `do body while(test)`, where `body` ends with the test, for `fuel` passes at most. -/
def doWhile (body : Prog C Bool) : Nat → Prog C Unit
  | 0 => throw .outOfFuel
  | fuel + 1 => do
      if ← body then doWhile body fuel else pure ()

/-! ### Postconditions -/

/-- From `h` the program `x` returns with `Q`, or stops at a fault with `E`. -/
def wp (x : Prog C α) (h : Heap C) (Q : α → Heap C → Prop) (E : Fault → Prop) : Prop :=
  match x h with
  | .ok (a, h') => Q a h'
  | .error e => E e

variable {x : Prog C α} {f : α → Prog C β} {h : Heap C} {E : Fault → Prop}

theorem wp_ok {Q : α → Heap C → Prop} :
    wp x h Q (fun _ => False) ↔ ∃ a h', x h = .ok (a, h') ∧ Q a h' := by
  unfold wp
  constructor
  · intro hx
    split at hx
    · rename_i a h' heq
      exact ⟨a, h', heq, hx⟩
    · exact hx.elim
  · rintro ⟨a, h', heq, hQ⟩
    rw [heq]
    exact hQ

theorem wp_error {e : Fault} : wp x h (fun _ _ => False) (· = e) ↔ x h = .error e := by
  unfold wp
  constructor
  · intro hx
    split at hx
    · exact hx.elim
    · rename_i e' heq
      rw [heq, hx]
  · intro hx
    rw [hx]

theorem wp_mono {Q Q' : α → Heap C → Prop} (hQ : ∀ a h', Q a h' → Q' a h') (hx : wp x h Q E) :
    wp x h Q' E := by
  unfold wp at *
  split at hx
  · exact hQ _ _ hx
  · exact hx

theorem wp_bind {Q : β → Heap C → Prop} (hx : wp x h (fun a h' => wp (f a) h' Q E) E) :
    wp (x >>= f) h Q E := by
  have hrun : (x >>= f) h = (x h).bind fun r => f r.1 r.2 := rfl
  unfold wp at *
  rw [hrun]
  cases hx' : x h with
  | ok r => rw [hx'] at hx; exact hx
  | error e => rw [hx'] at hx; exact hx

theorem wp_pure {a : α} {Q : α → Heap C → Prop} (hQ : Q a h) : wp (pure a : Prog C α) h Q E := hQ

theorem wp_if_pos {c : Prop} [Decidable c] {y : Prog C α} {Q : α → Heap C → Prop} (hc : c)
    (hx : wp x h Q E) : wp (if c then x else y) h Q E := by
  rwa [if_pos hc]

theorem wp_if_neg {c : Prop} [Decidable c] {y : Prog C α} {Q : α → Heap C → Prop} (hc : ¬ c)
    (hx : wp x h Q E) : wp (if c then y else x) h Q E := by
  rwa [if_neg hc]

section Access

variable {v : View C T} {a : Addr} {t : T}

theorem wp_load {Q : T → Heap C → Prop} (hl : h.Live a (v.inj t)) (hQ : Q t h) :
    wp (load v (some a)) h Q E := by
  have hrun : load v (some a) h = .ok (t, h) := by
    simp only [load, show h.get a = some (.live (v.inj t)) from hl, v.proj_inj]
  rw [wp, hrun]
  exact hQ

theorem wp_load_freed {Q : T → Heap C → Prop} (hl : h.get a = some .freed) (hE : E (.useAfterFree a)) :
    wp (load v (some a)) h Q E := by
  have hrun : load v (some a) h = .error (.useAfterFree a) := by
    simp only [load, hl]
  rw [wp, hrun]
  exact hE

theorem wp_store {t' : T} {Q : Unit → Heap C → Prop} (hl : h.Live a (v.inj t'))
    (hQ : ∀ h', h.Update a (.live (v.inj t)) h' → Q () h') : wp (store v (some a) t) h Q E :=
  wp_bind (wp_load hl (hQ _ (Heap.update_set hl _)))

theorem wp_update {g : T → T} {Q : Unit → Heap C → Prop} (hl : h.Live a (v.inj t))
    (hQ : ∀ h', h.Update a (.live (v.inj (g t))) h' → Q () h') : wp (update v (some a) g) h Q E :=
  wp_bind (wp_load hl (wp_store hl hQ))

theorem wp_malloc_true {c : C} {Q : Ptr → Heap C → Prop}
    (hQ : ∀ b h', h.get b = none → h.Update b (.live c) h' → Q (some b) h') :
    wp (malloc true c) h Q E :=
  hQ _ _ Heap.get_fresh (h.update_alloc c)

theorem wp_malloc_false {c : C} {Q : Ptr → Heap C → Prop} (hQ : Q none h) :
    wp (malloc false c) h Q E := hQ

theorem wp_free {c : C} {Q : Unit → Heap C → Prop} (hl : h.Live a c)
    (hQ : ∀ h', h.Update a .freed h' → Q () h') : wp (free (some a)) h Q E := by
  have hrun : free (some a) h = .ok ((), h.kill a ⟨c, hl⟩) := by
    simp only [free]
    split
    · rename_i hc
      rw [hl] at hc
      cases hc
    · rename_i hc
      rw [hl] at hc
      cases hc
    · rfl
  rw [wp, hrun]
  exact hQ _ (Heap.update_kill hl)

end Access

theorem wp_doWhile_zero {body : Prog C Bool} {Q : Unit → Heap C → Prop} (hE : E .outOfFuel) :
    wp (doWhile body 0) h Q E := hE

/-- One pass of a loop, then the rest of it. -/
theorem wp_doWhile {body : Prog C Bool} {fuel : Nat} {Q : Unit → Heap C → Prop}
    (hbody : wp body h (fun again h' => if again then wp (doWhile body fuel) h' Q E else Q () h') E) :
    wp (doWhile body (fuel + 1)) h Q E := by
  refine wp_bind (wp_mono ?_ hbody)
  intro again h' hQ
  cases again with
  | true => exact hQ
  | false => exact hQ

end Programs

/-! ## Linked segments -/

/-- How an item of a linked list lies on the heap: in a node, which holds the link, and
in further cells. -/
structure Shape (I C : Type) where
  addr : I → Addr
  node : I → Ptr → C
  rest : I → List (Addr × C)

namespace Shape

variable {I C : Type} (sh : Shape I C)

/-- The pointer to a list of items that is followed by `r`. -/
def link : List I → Ptr → Ptr
  | [], r => r
  | it :: _, _ => some (sh.addr it)

/-- The addresses of an item. -/
def owned (it : I) : List Addr := sh.addr it :: (sh.rest it).map Prod.fst

/-- The addresses of a list of items. -/
def footprint (items : List I) : List Addr := items.flatMap sh.owned

/-- The items lie on the heap, each linked to the next and the last one to `r`. -/
def Segment (h : Heap C) : List I → Ptr → Prop
  | [], _ => True
  | it :: items, r =>
      h.Live (sh.addr it) (sh.node it (sh.link items r))
        ∧ (∀ p ∈ sh.rest it, h.Live p.1 p.2) ∧ Segment h items r

variable {sh} {h h' : Heap C} {r : Ptr}

@[simp] theorem footprint_nil : sh.footprint [] = [] := rfl

@[simp] theorem footprint_cons (it : I) (items : List I) :
    sh.footprint (it :: items) = sh.owned it ++ sh.footprint items := List.flatMap_cons

@[simp] theorem footprint_append (xs ys : List I) :
    sh.footprint (xs ++ ys) = sh.footprint xs ++ sh.footprint ys := List.flatMap_append

theorem link_append (xs ys : List I) : sh.link (xs ++ ys) r = sh.link xs (sh.link ys r) := by
  cases xs with
  | nil => rfl
  | cons x xs => rfl

/-- A segment stays while its own cells stay. -/
theorem Segment.frame {items : List I} (hs : sh.Segment h items r)
    (hkeep : ∀ a ∈ sh.footprint items, ∀ c, h.Live a c → h'.Live a c) : sh.Segment h' items r := by
  induction items with
  | nil => trivial
  | cons it items ih =>
      obtain ⟨hnode, hrest, htail⟩ := hs
      have hown : ∀ a ∈ sh.owned it, ∀ c, h.Live a c → h'.Live a c := fun a ha =>
        hkeep a (by simp [ha])
      refine ⟨hown _ List.mem_cons_self _ hnode, ?_, ih htail fun a ha => hkeep a (by simp [ha])⟩
      intro p hp
      exact hown _ (List.mem_cons_of_mem _ (List.mem_map_of_mem hp)) _ (hrest p hp)

theorem segment_append (xs ys : List I) :
    sh.Segment h (xs ++ ys) r ↔ sh.Segment h xs (sh.link ys r) ∧ sh.Segment h ys r := by
  induction xs with
  | nil => simp [Segment]
  | cons x xs ih =>
      simp only [List.cons_append, Segment, link_append, ih, and_assoc]

/-- Another link in the last node. -/
theorem Segment.relink {init : List I} {last : I} {r' : Ptr} (hs : sh.Segment h (init ++ [last]) r)
    (hnodup : (sh.footprint (init ++ [last])).Nodup)
    (hu : h.Update (sh.addr last) (.live (sh.node last r')) h') :
    sh.Segment h' (init ++ [last]) r' := by
  obtain ⟨hinit, hnode, hrest, -⟩ := (segment_append init [last]).mp hs
  rw [footprint_append, List.nodup_append, footprint_cons, footprint_nil, List.append_nil] at hnodup
  obtain ⟨-, hlast, hdisjoint⟩ := hnodup
  refine (segment_append init [last]).mpr ⟨hinit.frame ?_, hu.here, ?_, trivial⟩
  · intro a ha c hc
    exact hu.live hc (hdisjoint a ha _ List.mem_cons_self)
  · intro p hp
    refine hu.live (hrest p hp) ?_
    intro heq
    exact (List.nodup_cons.mp hlast).1 (heq ▸ List.mem_map_of_mem hp)

/-- Every address of a segment is that of a live cell. -/
theorem Segment.live {items : List I} (hs : sh.Segment h items r) {a : Addr}
    (ha : a ∈ sh.footprint items) : ∃ c, h.Live a c := by
  induction items with
  | nil => simp at ha
  | cons it items ih =>
      obtain ⟨hnode, hrest, htail⟩ := hs
      rw [footprint_cons, List.mem_append] at ha
      rcases ha with ha | ha
      · rcases List.mem_cons.mp ha with rfl | ha
        · exact ⟨_, hnode⟩
        · obtain ⟨p, hp, rfl⟩ := List.mem_map.mp ha
          exact ⟨_, hrest p hp⟩
      · exact ih htail ha

end Shape

/-! ## Frees -/

/-- `h'` is `h` after each of the cells `as` was freed, once, and no other; no other
cell has changed. -/
structure FreesExactly {C : Type} (h h' : Heap C) (as : List Addr) : Prop where
  log : ∃ freed, h'.log = h.log ++ freed ∧ freed.Perm as
  frame : ∀ a, a ∉ as → h'.get a = h.get a

namespace FreesExactly

variable {C : Type} {h h₁ h' : Heap C} {as bs : List Addr}

theorem single {a : Addr} (hu : h.Update a .freed h') : FreesExactly h h' [a] where
  log := ⟨[a], hu.log, List.Perm.refl _⟩
  frame b hb := hu.frame b fun heq => hb (heq ▸ List.mem_singleton_self a)

/-- Frees one after the other. -/
theorem trans (hf : FreesExactly h h₁ as) (hf' : FreesExactly h₁ h' bs) :
    FreesExactly h h' (as ++ bs) where
  log := by
    obtain ⟨freed, hlog, hperm⟩ := hf.log
    obtain ⟨freed', hlog', hperm'⟩ := hf'.log
    exact ⟨freed ++ freed', by rw [hlog', hlog, List.append_assoc], hperm.append hperm'⟩
  frame b hb := by
    rw [List.mem_append, not_or] at hb
    rw [hf'.frame b hb.2, hf.frame b hb.1]

theorem perm (hf : FreesExactly h h' as) (hp : as.Perm bs) : FreesExactly h h' bs where
  log := by
    obtain ⟨freed, hlog, hperm⟩ := hf.log
    exact ⟨freed, hlog, hperm.trans hp⟩
  frame b hb := hf.frame b fun hb' => hb (hp.mem_iff.mp hb')

/-- A write before the frees does not show, if the cell is freed too. -/
theorem after_write {a : Addr} {c : C} (hu : h.Update a (.live c) h₁) (hf : FreesExactly h₁ h' as)
    (ha : a ∈ as) : FreesExactly h h' as where
  log := by
    obtain ⟨freed, hlog, hperm⟩ := hf.log
    have hsame : h₁.log = h.log := hu.log.trans (List.append_nil _)
    exact ⟨freed, by rw [hlog, hsame], hperm⟩
  frame b hb := by
    rw [hf.frame b hb, hu.frame b fun heq => hb (heq ▸ ha)]

/-- No cell is freed twice: the list has no repetition, … -/
theorem nodup (hf : FreesExactly h h' as) : as.Nodup := by
  obtain ⟨freed, hlog, hperm⟩ := hf.log
  have hnodup := h'.nodup
  rw [hlog] at hnodup
  exact hperm.nodup_iff.mp (List.nodup_append.mp hnodup).2.1

/-- … and every cell in it is a freed one. -/
theorem get_eq_freed (hf : FreesExactly h h' as) {a : Addr} (ha : a ∈ as) :
    h'.get a = some .freed := by
  obtain ⟨freed, hlog, hperm⟩ := hf.log
  refine (h'.mem_log a).mp ?_
  rw [hlog]
  exact List.mem_append_right _ (hperm.mem_iff.mpr ha)

end FreesExactly

end HeapProg
