/-
# A queue in cells that are allocated and freed

A singly linked list with a pointer to its first and to its last cell.  An operation that follows
a pointer to a cell that is not live has no result.  A memory represents a list when the cells
reached from the head hold it, in order, and are all that is live; then `push` appends, whatever
fresh address the allocator gives, `pop` takes from the front, and a loop that frees cell by cell
leaves nothing live.
-/
import Mathlib.Data.List.Nodup
import Mathlib.Logic.Function.Basic

namespace Lib

variable {α : Type*}

structure Cell (α : Type*) where
  val : α
  next : Option Nat

/-- The live cells by their addresses, and the two pointers. -/
structure LinkedQueue (α : Type*) where
  mem : Nat → Option (Cell α)
  head : Option Nat
  tail : Option Nat

namespace LinkedQueue

def empty : LinkedQueue α := ⟨fun _ => none, none, none⟩

/-- A new last cell, at the address `p`. -/
def push (q : LinkedQueue α) (p : Nat) (x : α) : Option (LinkedQueue α) :=
  let mem := Function.update q.mem p (some ⟨x, none⟩)
  match q.head with
  | none => some ⟨mem, some p, some p⟩
  | some _ =>
    match q.tail with
    | none => none
    | some b =>
      match mem b with
      | none => none
      | some c => some { q with
          mem := Function.update mem b (some { c with next := some p }), tail := some p }

/-- The first value, and the queue without its cell. -/
def pop (q : LinkedQueue α) : Option (Option α × LinkedQueue α) :=
  match q.head with
  | none => some (none, q)
  | some p =>
    match q.mem p with
    | none => none
    | some c => some (some c.val,
        ⟨Function.update q.mem p none, c.next, if c.next = none then none else q.tail⟩)

/-- Frees the cell at `p`, and gives what it points to. -/
def free (mem : Nat → Option (Cell α)) (p : Nat) : Option (Option Nat × (Nat → Option (Cell α))) :=
  (mem p).map fun c => (c.next, Function.update mem p none)

/-! ## 1. Lists in memory -/

/-- From `p` on, the cells at `ps` hold `xs`, and the last one points to `last`. -/
def Chain (mem : Nat → Option (Cell α)) (last : Option Nat) : Option Nat → List Nat → List α → Prop
  | p, [], [] => p = last
  | p, a :: ps, x :: xs => p = some a ∧ ∃ next, mem a = some ⟨x, next⟩ ∧ Chain mem last next ps xs
  | _, _, _ => False

variable {mem mem' : Nat → Option (Cell α)} {p last : Option Nat} {a b : Nat} {ps : List Nat}
  {x : α} {xs : List α}

theorem Chain.length_eq (h : Chain mem last p ps xs) : ps.length = xs.length := by
  induction ps generalizing p xs with
  | nil =>
    cases xs with
    | nil => rfl
    | cons => exact h.elim
  | cons a ps ih =>
    cases xs with
    | nil => exact h.elim
    | cons x xs =>
      obtain ⟨-, next, -, h⟩ := h
      rw [List.length_cons, List.length_cons, ih h]

/-- What is written elsewhere does not matter. -/
theorem Chain.congr (h : Chain mem last p ps xs) (hmem : ∀ a ∈ ps, mem' a = mem a) :
    Chain mem' last p ps xs := by
  induction ps generalizing p xs with
  | nil =>
    cases xs with
    | nil => exact h
    | cons => exact h.elim
  | cons a ps ih =>
    cases xs with
    | nil => exact h.elim
    | cons x xs =>
      obtain ⟨hp, next, ha, h⟩ := h
      refine ⟨hp, next, by rw [hmem a List.mem_cons_self, ha], ih h fun b hb => ?_⟩
      exact hmem b (List.mem_cons_of_mem _ hb)

/-- The last cell, when there is one, and the cells before it. -/
theorem Chain.snoc (h : Chain mem last p (ps ++ [b]) xs) :
    ∃ ys y, xs = ys ++ [y] ∧ mem b = some ⟨y, last⟩ ∧ Chain mem (some b) p ps ys := by
  induction ps generalizing p xs with
  | nil =>
    cases xs with
    | nil => exact h.elim
    | cons x xs =>
      obtain ⟨hp, next, hb, h⟩ := h
      cases xs with
      | nil =>
        obtain rfl : next = last := h
        exact ⟨[], x, rfl, hb, hp⟩
      | cons => exact h.elim
  | cons a ps ih =>
    cases xs with
    | nil => exact h.elim
    | cons x xs =>
      obtain ⟨hp, next, ha, h⟩ := h
      obtain ⟨ys, y, rfl, hb, h⟩ := ih h
      exact ⟨x :: ys, y, rfl, hb, hp, next, ha, h⟩

/-- One more cell behind the last one. -/
theorem Chain.append (h : Chain mem (some a) p ps xs) (ha : mem a = some ⟨x, last⟩) :
    Chain mem last p (ps ++ [a]) (xs ++ [x]) := by
  induction ps generalizing p xs with
  | nil =>
    cases xs with
    | nil => exact ⟨h, last, ha, rfl⟩
    | cons => exact h.elim
  | cons b ps ih =>
    cases xs with
    | nil => exact h.elim
    | cons y ys =>
      obtain ⟨hp, next, hb, h⟩ := h
      exact ⟨hp, next, hb, ih h⟩

/-! ## 2. Queues -/

/-- The queue holds `xs`, in cells that are all that is live. -/
def Rep (q : LinkedQueue α) (xs : List α) : Prop :=
  ∃ ps, ps.Nodup ∧ Chain q.mem none q.head ps xs ∧ q.tail = ps.getLast? ∧
    ∀ a, q.mem a ≠ none ↔ a ∈ ps

variable {q : LinkedQueue α}

theorem rep_empty : (empty : LinkedQueue α).Rep [] :=
  ⟨[], List.nodup_nil, rfl, rfl, by simp [empty]⟩

/-- The head tells whether there is something. -/
theorem Rep.head_eq_none (h : q.Rep xs) : q.head = none ↔ xs = [] := by
  obtain ⟨ps, -, hc, -⟩ := h
  cases ps with
  | nil =>
    cases xs with
    | nil => exact iff_of_true hc rfl
    | cons => exact hc.elim
  | cons a ps =>
    cases xs with
    | nil => exact hc.elim
    | cons x xs => simp [hc.1]

/-- **Pushing** appends. -/
theorem Rep.push (h : q.Rep xs) (ha : q.mem a = none) (x : α) :
    ∃ q', q.push a x = some q' ∧ q'.Rep (xs ++ [x]) := by
  obtain ⟨ps, hnd, hc, htail, hlive⟩ := h
  have hfresh : a ∉ ps := fun hm => (hlive a).mpr hm ha
  rcases List.eq_nil_or_concat ps with rfl | ⟨ps, b, rfl⟩
  · obtain rfl : xs = [] := List.eq_nil_of_length_eq_zero hc.length_eq.symm
    refine ⟨_, by rw [LinkedQueue.push, show q.head = none from hc], [a], by simp, ?_, rfl,
      fun c => ?_⟩
    · exact ⟨rfl, none, Function.update_self .., rfl⟩
    · have := hlive c
      by_cases hca : c = a <;> simp_all
  · rw [List.concat_eq_append] at *
    obtain ⟨ys, y, rfl, hb, hc⟩ := hc.snoc
    have hne : b ≠ a := by
      rintro rfl
      exact hfresh (by simp)
    have hbps : b ∉ ps := by
      have := List.disjoint_of_nodup_append hnd
      exact fun hm => this hm (by simp)
    have hhead : ∃ p, q.head = some p := by
      cases ps with
      | nil =>
        cases ys with
        | nil => exact ⟨b, hc⟩
        | cons => exact hc.elim
      | cons c ps =>
        cases ys with
        | nil => exact hc.elim
        | cons z ys => exact ⟨c, hc.1⟩
    obtain ⟨p, hp⟩ := hhead
    have htail' : q.tail = some b := by rw [htail, List.getLast?_concat]
    have hpush : q.push a x = some ⟨Function.update (Function.update q.mem a (some ⟨x, none⟩)) b
        (some ⟨y, some a⟩), q.head, some a⟩ := by
      simp only [LinkedQueue.push, hp, htail', Function.update_of_ne hne, hb]
    refine ⟨_, hpush, (ps ++ [b]) ++ [a], ?_, ?_, ?_, fun c => ?_⟩
    · exact List.nodup_append.mpr ⟨hnd, by simp, fun c hc d hd => by
        rintro rfl
        exact hfresh (List.mem_singleton.mp hd ▸ hc)⟩
    · refine Chain.append ?_ (by simp [hne.symm])
      refine Chain.append (hc.congr fun c hcm => ?_) (Function.update_self ..)
      have h1 : c ≠ b := fun h => hbps (h ▸ hcm)
      have h2 : c ≠ a := fun h => hfresh (h ▸ List.mem_append_left _ hcm)
      simp [h1, h2]
    · rw [List.getLast?_concat]
    · have hl := hlive c
      by_cases hcb : c = b
      · simp [hcb]
      · by_cases hca : c = a <;> simp_all

/-- **Popping** takes from the front. -/
theorem Rep.pop_cons (h : q.Rep (x :: xs)) : ∃ q', q.pop = some (some x, q') ∧ q'.Rep xs := by
  obtain ⟨ps, hnd, hc, htail, hlive⟩ := h
  cases ps with
  | nil => exact hc.elim
  | cons a ps =>
    obtain ⟨hhead, next, ha, hc⟩ := hc
    obtain ⟨haps, hnd⟩ := List.nodup_cons.mp hnd
    have hpop : q.pop = some (some x, ⟨Function.update q.mem a none, next,
        if next = none then none else q.tail⟩) := by
      simp only [LinkedQueue.pop, hhead, ha]
    refine ⟨_, hpop, ps, hnd, ?_, ?_, fun c => ?_⟩
    · refine hc.congr fun c hcm => Function.update_of_ne ?_ ..
      rintro rfl
      exact haps hcm
    · cases ps with
      | nil =>
        cases xs with
        | nil => exact if_pos hc
        | cons => exact hc.elim
      | cons b ps =>
        cases xs with
        | nil => exact hc.elim
        | cons y ys =>
          dsimp only
          rw [if_neg (by simp [hc.1]), htail, List.getLast?_cons_cons]
    · have hl := hlive c
      by_cases hca : c = a
      · subst hca
        simp [haps]
      · simp_all

theorem Rep.pop_nil (h : q.Rep ([] : List α)) : q.pop = some (none, q) := by
  rw [LinkedQueue.pop, h.head_eq_none.mpr rfl]

/-! ## 3. Freeing the cells -/

/-- From `p` on there are `n` cells, and nothing else is live. -/
def Live (mem : Nat → Option (Cell α)) (p : Option Nat) (n : Nat) : Prop :=
  ∃ ps xs, ps.length = n ∧ ps.Nodup ∧ Chain mem none p ps xs ∧ ∀ a, mem a ≠ none ↔ a ∈ ps

theorem Rep.live (h : q.Rep xs) : Live q.mem q.head xs.length := by
  obtain ⟨ps, hnd, hc, -, hlive⟩ := h
  exact ⟨ps, xs, hc.length_eq, hnd, hc, hlive⟩

/-- **A loop that frees the cells** comes to one cell less. -/
theorem Live.free {n : Nat} (h : Live mem (some a) n) :
    ∃ next mem' m, LinkedQueue.free mem a = some (next, mem') ∧ Live mem' next m ∧ n = m + 1 := by
  obtain ⟨ps, xs, hlen, hnd, hc, hlive⟩ := h
  cases ps with
  | nil =>
    cases xs with
    | nil => cases hc
    | cons => exact hc.elim
  | cons b ps =>
    cases xs with
    | nil => exact hc.elim
    | cons x xs =>
      obtain ⟨hab, next, hb, hc⟩ := hc
      obtain rfl : a = b := Option.some.inj hab
      obtain ⟨haps, hnd⟩ := List.nodup_cons.mp hnd
      refine ⟨next, Function.update mem a none, ps.length, by rw [LinkedQueue.free, hb]; rfl,
        ⟨ps, xs, rfl, hnd, hc.congr fun c hcm => Function.update_of_ne ?_ .., fun c => ?_⟩,
        by simpa using hlen.symm⟩
      · rintro rfl
        exact haps hcm
      · have hl := hlive c
        by_cases hca : c = a
        · subst hca
          simp [haps]
        · simp_all

/-- At its end nothing is live. -/
theorem Live.done {n : Nat} (h : Live mem none n) : mem = fun _ => none := by
  obtain ⟨ps, xs, -, -, hc, hlive⟩ := h
  cases ps with
  | nil =>
    funext a
    by_contra ha
    exact absurd ((hlive a).mp ha) (by simp)
  | cons b ps =>
    cases xs with
    | nil => exact hc.elim
    | cons => cases hc.1

end LinkedQueue

end Lib
