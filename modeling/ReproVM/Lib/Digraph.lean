/-
# Finite directed graphs

A graph is a relation `r`; `r a b` is an edge from `a` to `b`.  On a finite set closed under
edges, without cycles, recursion along the edges is well founded (`acc_of_acyclic`); a finite set
in which every vertex has an edge to another has a cycle (`exists_cycle`).  A list in which the
successors of a vertex come before it (`PostOrder`) holds all that can be reached from its
vertices, and none of them lies on a cycle.
-/
import Mathlib.Data.Set.Finite.Basic
import Mathlib.Logic.Relation
import Mathlib.Order.WellFounded

namespace Lib

open Relation

variable {α : Type*} {r : α → α → Prop}

/-! ## 1. Cycles -/

theorem acc_of_acyclic {S : Set α} (hfin : S.Finite) (hcl : ∀ x ∈ S, ∀ y, r x y → y ∈ S)
    (hac : ∀ x ∈ S, ¬ TransGen r x x) {x : α} (hx : x ∈ S) : Acc (fun b a => r a b) x := by
  have : Finite S := hfin
  let s : S → S → Prop := fun b a => TransGen r a.1 b.1
  have : IsTrans S s := ⟨fun _ _ _ hab hbc => hbc.trans hab⟩
  have : Std.Irrefl s := ⟨fun a h => hac a.1 a.2 h⟩
  have hwf : WellFounded s := Finite.wellFounded_of_trans_of_irrefl s
  have hall : ∀ z : S, Acc (fun b a => r a b) z.1 := by
    intro z
    induction z using hwf.induction with
    | _ a ih => exact Acc.intro _ fun b hb => ih ⟨b, hcl a.1 a.2 b hb⟩ (TransGen.single hb)
  exact hall ⟨x, hx⟩

theorem exists_cycle {S : Set α} (hfin : S.Finite) (hne : S.Nonempty)
    (hsucc : ∀ x ∈ S, ∃ y ∈ S, r x y) : ∃ x ∈ S, TransGen r x x := by
  by_contra hno
  let r' : α → α → Prop := fun x y => r x y ∧ y ∈ S
  have hle : r' ≤ r := fun _ _ h => h.1
  obtain ⟨x, hx⟩ := hne
  have hacc : Acc (fun b a => r' a b) x :=
    acc_of_acyclic hfin (fun _ _ _ h => h.2)
      (fun y hy h => hno ⟨y, hy, TransGen.mono hle _ _ h⟩) hx
  -- an accessible vertex of `S` has an accessible successor in `S`
  induction hacc with
  | intro a _ ih =>
    obtain ⟨y, hy, hay⟩ := hsucc a hx
    exact ih y ⟨hay, hy⟩ hy

/-- What is reached from a closed set is in it. -/
theorem closed_reach {S : Set α} (hcl : ∀ x ∈ S, ∀ y, r x y → y ∈ S) {x y : α} (hx : x ∈ S)
    (h : ReflTransGen r x y) : y ∈ S := by
  induction h with
  | refl => exact hx
  | tail _ hbc ih => exact hcl _ ih _ hbc

/-- A vertex from which a cycle can be reached. -/
def LeadsToCycle (r : α → α → Prop) (a : α) : Prop := ∃ c, ReflTransGen r a c ∧ TransGen r c c

/-- A cycle is reached through a successor. -/
theorem LeadsToCycle.succ {a : α} (h : LeadsToCycle r a) : ∃ b, r a b ∧ LeadsToCycle r b := by
  obtain ⟨c, hac, hcc⟩ := h
  rcases hac.cases_head with rfl | ⟨b, hab, hbc⟩
  · obtain ⟨b, hab, hba⟩ := TransGen.head'_iff.mp hcc
    exact ⟨b, hab, a, hba, hcc⟩
  · exact ⟨b, hab, c, hbc, hcc⟩

/-! ## 2. Post-orders -/

/-- Every successor of a vertex of the list stands before it. -/
inductive PostOrder (r : α → α → Prop) : List α → Prop
  | nil : PostOrder r []
  | snoc {l : List α} {a : α} (h : PostOrder r l) (ha : ∀ b, r a b → b ∈ l) :
      PostOrder r (l ++ [a])

namespace PostOrder

variable {l : List α} {a b : α}

/-- The successors of a vertex are among those before it. -/
theorem before (h : PostOrder r l) : ∀ {l₁ l₂ : List α}, l = l₁ ++ a :: l₂ → r a b → b ∈ l₁ := by
  induction h with
  | nil =>
    intro l₁ l₂ he
    exact absurd he.symm (by simp)
  | @snoc l c h hc ih =>
    intro l₁ l₂ he hab
    rcases List.eq_nil_or_concat l₂ with rfl | ⟨l₂, d, rfl⟩
    · obtain ⟨rfl, hca⟩ := List.append_inj' he rfl
      obtain rfl : c = a := by simpa using hca
      exact hc b hab
    · rw [List.concat_eq_append, ← List.cons_append, ← List.append_assoc] at he
      exact ih (List.append_inj' he rfl).1 hab

/-- What comes first is an order of its own. -/
theorem left {l₁ l₂ : List α} (h : PostOrder r (l₁ ++ l₂)) : PostOrder r l₁ := by
  induction l₂ using List.reverseRecOn with
  | nil => rwa [List.append_nil] at h
  | append_singleton l₂ a ih =>
    rw [← List.append_assoc] at h
    generalize hl : l₁ ++ l₂ ++ [a] = l at h
    cases h with
    | nil => exact absurd hl (by simp)
    | snoc h _ =>
      obtain ⟨rfl, -⟩ := List.append_inj' hl rfl
      exact ih h

theorem succ_mem (h : PostOrder r l) (ha : a ∈ l) (hab : r a b) : b ∈ l := by
  obtain ⟨l₁, l₂, rfl⟩ := List.append_of_mem ha
  exact List.mem_append_left _ (h.before rfl hab)

/-- All that is reached from the list is in it. -/
theorem reach_mem (h : PostOrder r l) (ha : a ∈ l) (hab : ReflTransGen r a b) : b ∈ l := by
  induction hab with
  | refl => exact ha
  | tail _ hbc ih => exact h.succ_mem ih hbc

/-- A vertex of the list reaches no cycle. -/
theorem not_leadsToCycle (h : PostOrder r l) (ha : a ∈ l) : ¬ LeadsToCycle r a := by
  induction h generalizing a with
  | nil => simp at ha
  | snoc _ hc ih =>
    rintro hcyc
    rcases List.mem_append.mp ha with ha | ha
    · exact ih ha hcyc
    · obtain rfl := List.mem_singleton.mp ha
      obtain ⟨b, hab, hb⟩ := hcyc.succ
      exact ih (hc b hab) hb

theorem acyclic (h : PostOrder r l) (ha : a ∈ l) : ¬ TransGen r a a := fun hc =>
  h.not_leadsToCycle ha ⟨a, .refl, hc⟩

/-- **Induction** from the vertices that one reaches to that vertex. -/
theorem induct {P : α → Prop} (h : PostOrder r l)
    (step : ∀ a ∈ l, (∀ b ∈ l, TransGen r a b → P b) → P a) : ∀ a ∈ l, P a := by
  induction h with
  | nil => simp
  | @snoc l c h hc ih =>
    have hl : ∀ a ∈ l, P a := ih fun a ha hb => by
      refine step a (List.mem_append_left _ ha) fun b _ hab => ?_
      exact hb b (h.reach_mem ha hab.to_reflTransGen) hab
    intro a ha
    rcases List.mem_append.mp ha with ha | ha
    · exact hl a ha
    · obtain rfl := List.mem_singleton.mp ha
      refine step a (by simp) fun b _ hab => ?_
      obtain ⟨d, had, hdb⟩ := TransGen.head'_iff.mp hab
      exact hl b (h.reach_mem (hc d had) hdb)

end PostOrder

end Lib
