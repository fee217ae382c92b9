/-
# Moves in a tree

A place in a tree is the list of the names from the root, and a move stays, goes up or goes down to
a name; up from the root is the root.  Any sequence of moves comes to the same as a `Route`, some
levels up and then some names down, wherever it starts (`foldl_go`).  So what a sequence of moves can
reach from a place is read off its route, without the place.
-/
import Mathlib.Data.List.Basic

inductive Move (α : Type*)
  | stay
  | up
  | down (x : α)

/-- First `climb` levels up, then along the names. -/
@[ext] structure Route (α : Type*) where
  climb : Nat
  names : List α

namespace Move

variable {α : Type*}

def go (p : List α) : Move α → List α
  | .stay => p
  | .up => p.dropLast
  | .down x => p ++ [x]

end Move

namespace Route

variable {α : Type*}

/-! ## 1. The route of a sequence of moves -/

/-- One more move at the end. -/
def add (r : Route α) : Move α → Route α
  | .stay => r
  | .up =>
    match r.names with
    | [] => ⟨r.climb + 1, []⟩
    | x :: xs => ⟨r.climb, (x :: xs).dropLast⟩
  | .down x => ⟨r.climb, r.names ++ [x]⟩

def ofMoves (ms : List (Move α)) : Route α := ms.foldl add ⟨0, []⟩

/-- Where the route leads from a place. -/
def follow (r : Route α) (base : List α) : List α := base.take (base.length - r.climb) ++ r.names

theorem follow_add (r : Route α) (m : Move α) (base : List α) :
    (r.add m).follow base = Move.go (r.follow base) m := by
  obtain ⟨k, ns⟩ := r
  cases m with
  | stay => rfl
  | up =>
    cases ns with
    | nil =>
      simp only [add, follow, Move.go, List.append_nil]
      rw [List.dropLast_eq_take, List.take_take, List.length_take]
      congr 1
      omega
    | cons x xs =>
      simp only [add, follow, Move.go]
      rw [List.dropLast_append_of_ne_nil (List.cons_ne_nil x xs)]
  | down x => simp only [add, follow, Move.go, List.append_assoc]

/-- **Any moves are a route.** -/
theorem foldl_go (ms : List (Move α)) (base : List α) :
    ms.foldl Move.go base = (ofMoves ms).follow base := by
  have hfrom : ∀ (r : Route α), ms.foldl Move.go (r.follow base) = (ms.foldl add r).follow base := by
    induction ms with
    | nil => exact fun _ => rfl
    | cons m ms ih =>
      intro r
      rw [List.foldl_cons, List.foldl_cons, ← follow_add, ih]
  have hstart : (⟨0, []⟩ : Route α).follow base = base := by simp [follow]
  rw [ofMoves, ← hfrom, hstart]

/-! ## 2. Where it leads -/

/-- **Below the start**: the route comes back down along the names it went up by. -/
theorem follow_eq_append_iff (r : Route α) (base below : List α) :
    r.follow base = base ++ below ↔ r.names = base.drop (base.length - r.climb) ++ below := by
  have hcut : base ++ below
      = base.take (base.length - r.climb) ++ (base.drop (base.length - r.climb) ++ below) := by
    rw [← List.append_assoc, List.take_append_drop]
  rw [follow, hcut, List.append_cancel_left_eq]

/-- A route that does not climb. -/
theorem drop_of_climb_zero {r : Route α} (h : r.climb = 0) (base : List α) :
    base.drop (base.length - r.climb) = [] := by
  rw [h, Nat.sub_zero, List.drop_length]

end Route
