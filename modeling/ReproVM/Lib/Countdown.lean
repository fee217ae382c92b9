/-
# Counting down to zero

A counter for every key, and a queue that a key joins when its counter reaches zero.  `release`
runs down a list of keys, one decrement for each entry.  Keys may repeat in the list: the
counters are lowered by the number of occurrences (`release_counter`), and a key joins the queue
once, exactly if its counter crosses zero on the way (`count_released`).
-/
import Mathlib.Data.List.Count
import Mathlib.Data.List.Nodup
import Mathlib.Logic.Function.Basic

namespace Lib

variable {ι : Type*} [DecidableEq ι]

def release (counter : ι → Int) (queue : List ι) : List ι → (ι → Int) × List ι
  | [] => (counter, queue)
  | x :: xs =>
    let counter := Function.update counter x (counter x - 1)
    if counter x = 0 then release counter (queue ++ [x]) xs else release counter queue xs

/-- The keys that join the queue, in order. -/
def released (counter : ι → Int) (xs : List ι) : List ι := (release counter [] xs).2

theorem release_queue (counter : ι → Int) (queue xs : List ι) :
    release counter queue xs = ((release counter [] xs).1, queue ++ released counter xs) := by
  induction xs generalizing counter queue with
  | nil => simp [release, released]
  | cons x xs ih =>
    rw [released, release, release]
    split
    · rw [ih _ (queue ++ [x]), ih _ ([] ++ [x])]
      simp
    · rw [ih _ queue]
      rfl

theorem release_counter (counter : ι → Int) (queue xs : List ι) (y : ι) :
    (release counter queue xs).1 y = counter y - xs.count y := by
  induction xs generalizing counter queue with
  | nil => simp [release]
  | cons x xs ih =>
    have hstep : (Function.update counter x (counter x - 1)) y - xs.count y
        = counter y - (x :: xs).count y := by
      by_cases h : y = x
      · subst h
        rw [Function.update_self, List.count_cons_self]
        push_cast
        omega
      · rw [Function.update_of_ne h, List.count_cons_of_ne (Ne.symm h)]
    rw [release]
    split
    · rw [ih, hstep]
    · rw [ih, hstep]

/-- **A key joins once, if its counter crosses zero.** -/
theorem count_released (counter : ι → Int) (xs : List ι) (y : ι) :
    (released counter xs).count y =
      if 0 < counter y ∧ counter y ≤ xs.count y then 1 else 0 := by
  induction xs generalizing counter with
  | nil =>
    rw [if_neg]
    · rfl
    · rw [List.count_nil]
      omega
  | cons x xs ih =>
    rw [released, release, Function.update_self]
    by_cases h : y = x
    · subst h
      rw [List.count_cons_self]
      split
      · rename_i hz
        rw [release_queue, List.nil_append, List.count_append, List.count_singleton_self, ih,
          Function.update_self, if_neg (by omega), if_pos (by omega)]
      · rename_i hz
        have := ih (Function.update counter y (counter y - 1))
        rw [Function.update_self] at this
        rw [← released, this]
        congr 1
        push_cast
        apply propext
        omega
    · rw [List.count_cons_of_ne (Ne.symm h)]
      have := ih (Function.update counter x (counter x - 1))
      rw [Function.update_of_ne h] at this
      split
      · rw [release_queue, List.nil_append, List.count_append,
          List.count_eq_zero_of_not_mem (by simpa using h), Nat.zero_add, this]
      · rw [← released, this]

theorem nodup_released (counter : ι → Int) (xs : List ι) : (released counter xs).Nodup := by
  rw [List.nodup_iff_count_le_one]
  intro y
  rw [count_released]
  split <;> omega

theorem mem_released {counter : ι → Int} {xs : List ι} {y : ι} :
    y ∈ released counter xs ↔ 0 < counter y ∧ counter y ≤ xs.count y := by
  rw [← List.count_pos_iff, count_released]
  split <;> simp_all

end Lib
