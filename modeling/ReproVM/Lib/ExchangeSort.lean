/-
# The exchange sort

The double loop `for i, for j > i, if (a[i] > a[j]) swap`, over any order given by a Boolean
`gt`.  The inner loop carries the least element seen so far to position `i`; read on lists, the
outer loop then recurses on what is left.  The result is a sorted permutation, so it is the same
for every order of the input (`exchangeSort_eq_of_perm`).
-/
import Mathlib.Data.List.Perm.Basic

namespace Lib

section ExchangeSort

variable {α : Type*} (gt : α → α → Bool)

/-- The inner loop with `x` at position `i` and the later positions in the list: the element
that ends at `i`, and the later positions after the swaps. -/
def exchangePass (x : α) : List α → α × List α
  | [] => (x, [])
  | y :: ys =>
    if gt x y then
      let r := exchangePass y ys
      (r.1, x :: r.2)
    else
      let r := exchangePass x ys
      (r.1, y :: r.2)

@[simp] theorem exchangePass_length (x : α) (l : List α) :
    (exchangePass gt x l).2.length = l.length := by
  induction l generalizing x with
  | nil => rfl
  | cons y ys ih =>
    rw [exchangePass]
    split <;> simp [ih]

/-- The outer loop; `n` counts its passes. -/
def exchangeSortLoop : Nat → List α → List α
  | 0, l => l
  | _, [] => []
  | n + 1, x :: xs =>
    let r := exchangePass gt x xs
    r.1 :: exchangeSortLoop n r.2

def exchangeSort (l : List α) : List α := exchangeSortLoop gt l.length l

variable {gt}

theorem exchangePass_perm (x : α) (l : List α) :
    ((exchangePass gt x l).1 :: (exchangePass gt x l).2).Perm (x :: l) := by
  induction l generalizing x with
  | nil => exact List.Perm.refl _
  | cons y ys ih =>
    rw [exchangePass]
    split
    · exact (List.Perm.swap _ _ _).trans ((ih y).cons x)
    · exact (List.Perm.swap _ _ _).trans (((ih x).cons y).trans (List.Perm.swap _ _ _))

theorem exchangeSortLoop_perm (n : Nat) (l : List α) : (exchangeSortLoop gt n l).Perm l := by
  induction n generalizing l with
  | zero => exact List.Perm.refl _
  | succ n ih =>
    cases l with
    | nil => exact List.Perm.refl _
    | cons x xs => exact ((ih _).cons _).trans (exchangePass_perm x xs)

theorem exchangeSort_perm (l : List α) : (exchangeSort gt l).Perm l :=
  exchangeSortLoop_perm _ l

@[simp] theorem exchangeSort_length (l : List α) : (exchangeSort gt l).length = l.length :=
  (exchangeSort_perm l).length_eq

/-- What `gt` must be for the result to be sorted: the strict part of a total preorder. -/
structure TotalGt (gt : α → α → Bool) : Prop where
  asymm : ∀ {a b}, gt a b = true → gt b a = false
  trans : ∀ {a b c}, gt a b = false → gt b c = false → gt a c = false

/-- The pass leaves at `i` an element that no later one is below. -/
theorem exchangePass_least (hgt : TotalGt gt) (x : α) (l : List α) :
    gt (exchangePass gt x l).1 x = false ∧
      ∀ y ∈ (exchangePass gt x l).2, gt (exchangePass gt x l).1 y = false := by
  have hirrefl : ∀ a, gt a a = false := fun a => by
    cases h : gt a a with
    | false => rfl
    | true => exact (hgt.asymm h).symm.trans h |>.symm
  induction l generalizing x with
  | nil => exact ⟨hirrefl x, by simp [exchangePass]⟩
  | cons y ys ih =>
    rw [exchangePass]
    split
    · rename_i hxy
      obtain ⟨h1, h2⟩ := ih y
      have hx := hgt.trans h1 (hgt.asymm hxy)
      refine ⟨hx, fun z hz => ?_⟩
      rcases List.mem_cons.mp hz with rfl | hz
      · exact hx
      · exact h2 z hz
    · rename_i hxy
      obtain ⟨h1, h2⟩ := ih x
      refine ⟨h1, fun z hz => ?_⟩
      rcases List.mem_cons.mp hz with rfl | hz
      · exact hgt.trans h1 (by simpa using hxy)
      · exact h2 z hz

theorem exchangeSortLoop_sorted (hgt : TotalGt gt) :
    ∀ (n : Nat) (l : List α), l.length ≤ n →
      (exchangeSortLoop gt n l).Pairwise fun a b => gt a b = false := by
  intro n
  induction n with
  | zero =>
    intro l hl
    rw [List.length_eq_zero_iff.mp (Nat.le_zero.mp hl)]
    exact List.Pairwise.nil
  | succ n ih =>
    intro l hl
    cases l with
    | nil => exact List.Pairwise.nil
    | cons x xs =>
      refine List.Pairwise.cons (fun y hy => ?_) (ih _ (by simpa using hl))
      exact (exchangePass_least hgt x xs).2 y ((exchangeSortLoop_perm n _).mem_iff.mp hy)

theorem exchangeSort_sorted (hgt : TotalGt gt) (l : List α) :
    (exchangeSort gt l).Pairwise fun a b => gt a b = false :=
  exchangeSortLoop_sorted hgt _ l (Nat.le_refl _)

/-- **The order of the input does not matter**, when only equal elements tie. -/
theorem exchangeSort_eq_of_perm (hgt : TotalGt gt)
    (hanti : ∀ a b, gt a b = false → gt b a = false → a = b) {l l' : List α} (h : l.Perm l') :
    exchangeSort gt l = exchangeSort gt l' :=
  List.Perm.eq_of_pairwise (fun a b _ _ => hanti a b) (exchangeSort_sorted hgt l)
    (exchangeSort_sorted hgt l')
    ((exchangeSort_perm l).trans (h.trans (exchangeSort_perm l').symm))

end ExchangeSort

end Lib
