/-
# Runs of a labelled transition system

A step relation `step : σ → ε → σ → Prop` gives the runs from a state, with the list of their
labels in order.  What is proved of a system is proved of its runs by one of the rules here: an
invariant of the labels so far and the state (`Run.inv`), a property that steps keep
(`Run.preserve`), a measure that every step lowers (`Run.length_le`), a second system that follows
the steps, each by a run of its own (`Run.simulate`).
-/
import Mathlib.Data.List.Basic
import Mathlib.Tactic.TypeStar

namespace Lib

variable {σ σ' ε ε' : Type*} {step : σ → ε → σ → Prop}

section Fold

variable {f : σ → ε → Option σ} {s t u : σ} {e : ε} {xs ys : List ε}

/-- A step function on a list of labels, piece by piece. -/
theorem foldlM_cons_some (h : f s e = some t) (h' : xs.foldlM f t = some u) :
    (e :: xs).foldlM f s = some u := by
  rw [List.foldlM_cons, h]
  exact h'

theorem foldlM_append_some (h : xs.foldlM f s = some t) (h' : ys.foldlM f t = some u) :
    (xs ++ ys).foldlM f s = some u := by
  rw [List.foldlM_append, h]
  exact h'

end Fold

/-- The runs from `s`, by their last step. -/
inductive Run (step : σ → ε → σ → Prop) (s : σ) : List ε → σ → Prop
  | refl : Run step s [] s
  | snoc {tr : List ε} {t : σ} {e : ε} {u : σ} (hr : Run step s tr t) (hs : step t e u) :
      Run step s (tr ++ [e]) u

namespace Run

variable {s t u : σ} {e : ε} {tr tr' : List ε}

theorem single (h : step s e t) : Run step s [e] t := snoc refl h

theorem append (h : Run step s tr t) (h' : Run step t tr' u) : Run step s (tr ++ tr') u := by
  induction h' with
  | refl => rwa [List.append_nil]
  | snoc _ hs ih =>
    rw [← List.append_assoc]
    exact snoc ih hs

theorem cons (h : step s e t) (h' : Run step t tr u) : Run step s (e :: tr) u :=
  (single h).append h'

/-- The runs of a stronger step relation. -/
theorem imp {step' : σ → ε → σ → Prop} (hstep : ∀ s e t, step s e t → step' s e t)
    (h : Run step s tr t) : Run step' s tr t := by
  induction h with
  | refl => exact refl
  | snoc _ hs ih => exact snoc ih (hstep _ _ _ hs)

/-- A run stops at every place of its labels. -/
theorem split (h : Run step s (tr ++ tr') u) : ∃ t, Run step s tr t ∧ Run step t tr' u := by
  generalize hl : tr ++ tr' = l at h
  induction h generalizing tr' with
  | refl =>
    obtain ⟨rfl, rfl⟩ := List.append_eq_nil_iff.mp hl
    exact ⟨s, refl, refl⟩
  | @snoc l t e u hr hs ih =>
    rcases List.eq_nil_or_concat tr' with rfl | ⟨tr'', e', rfl⟩
    · rw [List.append_nil] at hl
      exact ⟨u, hl ▸ snoc hr hs, refl⟩
    · rw [List.concat_eq_append, ← List.append_assoc] at hl
      obtain ⟨h1, h2⟩ := List.append_inj' hl rfl
      obtain ⟨m, hm1, hm2⟩ := ih h1
      obtain rfl : e' = e := by simpa using h2
      exact ⟨m, hm1, by simpa using snoc hm2 hs⟩

/-- The step a run takes at a label, with the runs before and after it. -/
theorem split_step (h : Run step s (tr ++ e :: tr') u) :
    ∃ t t', Run step s tr t ∧ step t e t' ∧ Run step t' tr' u := by
  obtain ⟨t, h1, h2⟩ := split h
  rw [← List.singleton_append] at h2
  obtain ⟨t', h3, h4⟩ := split h2
  refine ⟨t, t', h1, ?_, h4⟩
  generalize hl : [e] = l at h3
  cases h3 with
  | refl => exact absurd hl (by simp)
  | @snoc l m e' _ hr hs =>
    have hlen := congrArg List.length hl
    obtain rfl : l = [] := List.eq_nil_of_length_eq_zero (by simpa using hlen.symm)
    obtain rfl : e = e' := by simpa using hl
    generalize hn : ([] : List ε) = nl at hr
    cases hr with
    | refl => exact hs
    | snoc => exact absurd hn (by simp)

/-- The run of a step function on a list of labels. -/
theorem of_foldlM {f : σ → ε → Option σ} (h : tr.foldlM f s = some t) :
    Run (fun s e t => f s e = some t) s tr t := by
  induction tr generalizing s with
  | nil =>
    obtain rfl : s = t := Option.some.inj h
    exact refl
  | cons e tr ih =>
    rw [List.foldlM_cons, Option.bind_eq_bind, Option.bind_eq_some_iff] at h
    obtain ⟨u, hu, h⟩ := h
    exact (ih h).cons hu

/-- **Invariants** of the labels so far and the state. -/
theorem inv {I : List ε → σ → Prop} (h0 : I [] s)
    (hstep : ∀ tr t e u, Run step s tr t → I tr t → step t e u → I (tr ++ [e]) u)
    (h : Run step s tr t) : I tr t := by
  induction h with
  | refl => exact h0
  | snoc hr hs ih => exact hstep _ _ _ _ hr ih hs

/-- What every step keeps, every run keeps. -/
theorem preserve {P : σ → Prop} (hstep : ∀ t e u, P t → step t e u → P u)
    (h : Run step s tr t) (h0 : P s) : P t :=
  inv (I := fun _ t => P t) h0 (fun _ t e u _ hp hs => hstep t e u hp hs) h

/-- **Length.**  Every step lowers the measure, but for those of `p`, which may raise it. -/
theorem length_le {μ : σ → Int} {p : ε → Bool} {k : Nat}
    (hstep : ∀ tr t e u, Run step s tr t → step t e u → μ u + 1 ≤ μ t + if p e then k else 0)
    (h : Run step s tr t) : tr.length + μ t ≤ μ s + k * tr.countP p := by
  induction h with
  | refl => simp
  | @snoc tr t e u hr hs ih =>
    have hu := hstep tr t e u hr hs
    rw [List.length_append, List.countP_append, List.countP_singleton]
    push_cast
    rw [Int.mul_add]
    split_ifs at hu ⊢ <;> simp <;> omega

/-- The runs of one part of the state. -/
theorem map {step' : σ' → ε → σ' → Prop} (f : σ → σ')
    (hstep : ∀ t e u, step t e u → step' (f t) e (f u)) (h : Run step s tr t) :
    Run step' (f s) tr (f t) := by
  induction h with
  | refl => exact refl
  | snoc _ hs ih => exact snoc ih (hstep _ _ _ hs)

/-- **Simulation.**  Another system follows each step by a run of its own. -/
theorem simulate {step' : σ' → ε' → σ' → Prop} {R : List ε → σ → σ' → Prop} {s' : σ'}
    (h0 : R [] s s')
    (hstep : ∀ tr t e u t', Run step s tr t → R tr t t' → step t e u →
      ∃ l u', Run step' t' l u' ∧ R (tr ++ [e]) u u')
    (h : Run step s tr t) : ∃ l t', Run step' s' l t' ∧ R tr t t' := by
  induction h with
  | refl => exact ⟨[], s', refl, h0⟩
  | snoc hr hs ih =>
    obtain ⟨l, t', hl, ht⟩ := ih
    obtain ⟨l', u', hl', hu⟩ := hstep _ _ _ _ _ hr ht hs
    exact ⟨_, u', hl.append hl', hu⟩

end Run

end Lib
