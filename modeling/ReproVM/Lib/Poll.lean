/-
# Polling with a time limit

An attempt that is made again after a pause, until a limit of time has gone by.  The time is counted
by the pauses, in a number that has to stay below a bound: a count that would reach it says nothing
about what follows (`none`).

`before k` is the state in which attempt number `k` is made, if all before it fail.  The loop does
what the first attempt does that succeeds, or else the last that there is time for
(`waitFor_attempt`), so a proof about it is a proof about single attempts.
-/
import Mathlib.Data.Nat.Find
import Mathlib.Tactic.Linarith
import Mathlib.Tactic.Ring

namespace Lib

variable {σ : Type*}

/-- How long to wait: the pauses, the limit, and the bound on the count, in one unit of time. -/
structure Patience where
  pause : Int
  limit : Int
  bound : Int
  pos : 0 < pause
  room : 0 < bound

namespace Patience

/-- The number of pauses there is time for. -/
def rounds (p : Patience) : Nat := ((p.limit + p.pause - 1) / p.pause).toNat

theorem rounds_le {p : Patience} {k : Nat} : p.rounds ≤ k ↔ p.limit ≤ k * p.pause := by
  have hlt : (p.limit + p.pause - 1) / p.pause < k + 1 ↔ p.limit + p.pause - 1 < (k + 1) * p.pause :=
    Int.ediv_lt_iff_lt_mul p.pos
  rw [rounds, Int.toNat_le, ← Int.lt_add_one_iff, hlt, add_mul]
  constructor <;> intro h <;> linarith

end Patience

/-- The loop, at attempt number `k`; `between` is what happens in a pause. -/
def waitFor (attempt : Nat → σ → σ × Bool) (between : Nat → σ → σ) (p : Patience) (k : Nat)
    (waited : Int) (s : σ) : Option (σ × Bool) :=
  match attempt k s with
  | (s, true) => some (s, true)
  | (s, false) =>
    if p.limit ≤ waited then some (s, false)
    else if p.bound ≤ waited + p.pause then none
    else waitFor attempt between p (k + 1) (waited + p.pause) (between k s)
termination_by (p.bound - waited).toNat
decreasing_by
  have := p.pos
  omega

/-- The state before attempt number `k`, when the ones before it have failed. -/
def before (attempt : Nat → σ → σ × Bool) (between : Nat → σ → σ) : Nat → σ → σ
  | 0, s => s
  | k + 1, s => between k (attempt k (before attempt between k s)).1

section WaitFor

variable {attempt : Nat → σ → σ × Bool} {between : Nat → σ → σ} {p : Patience} {s : σ} {k : Nat}

/-- What attempt number `k` finds and gives. -/
def nth (attempt : Nat → σ → σ × Bool) (between : Nat → σ → σ) (s : σ) (k : Nat) : σ × Bool :=
  attempt k (before attempt between k s)

/-- The loop reaches attempt number `k` where those before it fail and there is time. -/
theorem waitFor_reaches (hfail : ∀ i < k, (nth attempt between s i).2 = false) (hk : k ≤ p.rounds)
    (hbound : k * p.pause < p.bound) : waitFor attempt between p 0 0 s =
      waitFor attempt between p k (k * p.pause) (before attempt between k s) := by
  induction k with
  | zero => simp [before]
  | succ k ih =>
    have hpos := p.pos
    have hsucc : ((k + 1 : Nat) : Int) * p.pause = k * p.pause + p.pause := by push_cast; ring
    have htime : ¬ p.limit ≤ k * p.pause := fun h =>
      Nat.not_le_of_lt hk (Patience.rounds_le.mpr h)
    rw [hsucc] at hbound
    rw [ih (fun i hi => hfail i (Nat.lt_succ_of_lt hi)) (Nat.le_of_succ_le hk) (by linarith), waitFor]
    have hk' := hfail k (Nat.lt_succ_self k)
    unfold nth at hk'
    split
    · rename_i s' heq
      rw [heq] at hk'
      cases hk'
    · rename_i s' heq
      rw [if_neg htime, if_neg (by linarith), hsucc, before, heq]

/-- **The attempt that decides**: the first that succeeds, or the one after the last pause. -/
theorem waitFor_attempt (hfail : ∀ i < k, (nth attempt between s i).2 = false) (hk : k ≤ p.rounds)
    (hbound : k * p.pause < p.bound) (hlast : (nth attempt between s k).2 = true ∨ k = p.rounds) :
    waitFor attempt between p 0 0 s = some (nth attempt between s k) := by
  rw [waitFor_reaches hfail hk hbound, waitFor]
  change _ = some (attempt k (before attempt between k s))
  unfold nth at hlast
  split
  · rename_i s' heq
    rw [heq]
  · rename_i s' heq
    rw [heq] at hlast
    obtain rfl : k = p.rounds := hlast.resolve_left (by simp)
    rw [if_pos (Patience.rounds_le.mp (Nat.le_refl _)), heq]

/-- The count reaches its bound. -/
theorem waitFor_overflow (hfail : ∀ i ≤ k, (nth attempt between s i).2 = false) (hk : k < p.rounds)
    (hbound : k * p.pause < p.bound) (hover : p.bound ≤ k * p.pause + p.pause) :
    waitFor attempt between p 0 0 s = none := by
  rw [waitFor_reaches (fun i hi => hfail i (Nat.le_of_lt hi)) (Nat.le_of_lt hk) hbound, waitFor]
  have hk' := hfail k (Nat.le_refl k)
  unfold nth at hk'
  split
  · rename_i s' heq
    rw [heq] at hk'
    cases hk'
  · rw [if_neg fun h => Nat.not_le_of_lt hk (Patience.rounds_le.mpr h), if_pos hover]

/-- **All that can happen**: an attempt decides, or the count reaches its bound before one does. -/
theorem waitFor_cases (attempt : Nat → σ → σ × Bool) (between : Nat → σ → σ) (p : Patience) (s : σ) :
    (∃ k ≤ p.rounds, k * p.pause < p.bound ∧ (∀ i < k, (nth attempt between s i).2 = false) ∧
      ((nth attempt between s k).2 = true ∨ k = p.rounds) ∧
        waitFor attempt between p 0 0 s = some (nth attempt between s k)) ∨
      p.bound ≤ p.rounds * p.pause ∧ (∀ i ≤ p.rounds, i * p.pause < p.bound →
        (nth attempt between s i).2 = false) ∧ waitFor attempt between p 0 0 s = none := by
  let Stop := fun k : Nat =>
    (nth attempt between s k).2 = true ∨ p.rounds ≤ k ∨ p.bound ≤ k * p.pause + p.pause
  have hstop : ∃ k, Stop k := ⟨p.rounds, .inr (.inl (Nat.le_refl _))⟩
  classical
  obtain ⟨k, hk, hmin⟩ : ∃ k, Stop k ∧ ∀ i < k, ¬ Stop i :=
    ⟨Nat.find hstop, Nat.find_spec hstop, fun i hi => Nat.find_min hstop hi⟩
  have hpos := p.pos
  have hfail : ∀ i < k, (nth attempt between s i).2 = false := fun i hi =>
    Bool.eq_false_of_not_eq_true fun h => hmin i hi (.inl h)
  have hrounds : k ≤ p.rounds := Nat.le_of_not_lt fun h => hmin _ h (.inr (.inl (Nat.le_refl _)))
  have hbound : k * p.pause < p.bound := by
    cases k with
    | zero => simpa using p.room
    | succ k =>
      have hlt := not_le.mp fun h => hmin k (Nat.lt_succ_self k) (.inr (.inr h))
      push_cast
      linarith
  by_cases hdecide : (nth attempt between s k).2 = true ∨ k = p.rounds
  · exact .inl ⟨k, hrounds, hbound, hfail, hdecide, waitFor_attempt hfail hrounds hbound hdecide⟩
  · rw [not_or, Bool.not_eq_true] at hdecide
    obtain ⟨hk', hne⟩ := hdecide
    have hlt : k < p.rounds := Nat.lt_of_le_of_ne hrounds hne
    have hover : p.bound ≤ k * p.pause + p.pause := by
      rcases hk with h | h | h
      · rw [hk'] at h
        cases h
      · exact absurd hlt (Nat.not_lt_of_le h)
      · exact h
    have hall : ∀ i ≤ k, (nth attempt between s i).2 = false := fun i hi =>
      (Nat.lt_or_eq_of_le hi).elim (hfail i) fun h => h ▸ hk'
    refine .inr ⟨?_, fun i _ hi => hall i (Nat.le_of_not_lt fun h => ?_),
      waitFor_overflow hall hlt hbound hover⟩
    · have hmul : ((k + 1 : Nat) : Int) * p.pause ≤ p.rounds * p.pause :=
        Int.mul_le_mul_of_nonneg_right (Int.ofNat_le.mpr hlt) hpos.le
      push_cast at hmul
      linarith
    · have hmul : ((k + 1 : Nat) : Int) * p.pause ≤ i * p.pause :=
        Int.mul_le_mul_of_nonneg_right (Int.ofNat_le.mpr h) hpos.le
      push_cast at hmul
      linarith

end WaitFor

end Lib
