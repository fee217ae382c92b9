/-
# The planning half of `main`: parse, collect, sort

The Kahn sort is there to find cycles, but the walk before it has to return first, and on a
cycle it does not: its guard looks at the tasks already appended, and a task is appended after
its dependencies.  So the sequence ends exactly if no task that the targets need lies on a cycle
and the array of the walk is not moved while it grows; and then `topo_sort` never reports a
cycle.
-/
import ReproVM.TopoSort

namespace ReproVM

open Bytes (ascii)
open Lib (PostOrder)
open Relation

variable {moves : Nat → Bool} {manifest : Bytes} {targets : List Bytes}

/-- A cycle among collected tasks is a cycle that the targets need. -/
theorem not_onCycle_of_postOrder {list : TaskList} {needed : List TaskPtr}
    (hpost : PostOrder (DependsOn list) needed) (hmem : ∀ t, t ∈ needed ↔ Needed list targets t)
    {t : TaskPtr} (ht : Needed list targets t) : ¬ OnCycle list t :=
  hpost.acyclic ((hmem t).mpr ht)

/-- What an array that was collected is sorted to. -/
theorem topoSort_of_postOrder {list : TaskList} (hl : WellLinked list) {needed : List TaskPtr}
    (hnd : needed.Nodup) (hpost : PostOrder (DependsOn list) needed) :
    ∃ r, topoSort list needed = .ok r ∧ ((list.map Task.name).Nodup →
      ∃ order, r = some order ∧ order.Perm needed ∧ PostOrder (DependsOn list) order) := by
  obtain ⟨s, hi, hq, hs⟩ := topoSort_total hl hnd
  refine ⟨_, hs, fun hn => ?_⟩
  have hlen : s.result.length = needed.length := by
    by_contra hne
    obtain ⟨x, hx, hc⟩ := hi.exists_cycle hn hnd hq hne
    exact hpost.acyclic hx (DependsWithin.onCycle hc)
  have hnodup : s.result.Nodup := by
    have := hi.nodup
    rwa [hq, List.append_nil] at this
  have hsub : s.result ⊆ needed := fun x hx => hi.sub x (List.mem_append_left _ hx)
  refine ⟨s.result, by rw [if_neg (by simp [hlen])],
    (hnodup.subperm hsub).perm_of_length_le (by omega), ?_⟩
  -- the dependencies of a collected task are collected
  have hord := hi.order hn
  generalize s.result = l at hord hsub
  induction hord with
  | nil => exact .nil
  | @snoc l a _ ha ih =>
    refine (ih fun x hx => hsub (List.mem_append_left _ hx)).snoc fun u hu => ha u ⟨hu, ?_⟩
    exact hpost.succ_mem (hsub (by simp)) hu

/-- **Where planning ends**: no task that is needed lies on a cycle, the array was not moved,
and what was collected is sorted. -/
theorem plan_ok {fuel : Nat} {p : Plan} (h : plan moves fuel manifest targets = .ok p) :
    ∃ needed, collectNeededTasks moves fuel (parseManifest manifest) targets = .ok needed ∧
      (p = .noTasks ∧ needed = [] ∨ needed ≠ [] ∧ ∃ r,
        topoSort (parseManifest manifest) needed = .ok r ∧
          p = r.elim .cycle .sorted) := by
  rw [plan] at h
  cases hc : collectNeededTasks moves fuel (parseManifest manifest) targets with
  | error e => simp [hc, bind, Except.bind] at h
  | ok needed =>
    refine ⟨needed, rfl, ?_⟩
    simp only [hc, bind, Except.bind] at h
    by_cases hne : needed = []
    · rw [if_pos hne] at h
      exact .inl ⟨(Except.ok.inj h).symm, hne⟩
    · rw [if_neg hne] at h
      refine .inr ⟨hne, ?_⟩
      cases ht : topoSort (parseManifest manifest) needed with
      | error e => simp [ht] at h
      | ok r =>
        refine ⟨r, rfl, ?_⟩
        simp only [ht] at h
        cases r with
        | none => exact (Except.ok.inj h).symm
        | some order => exact (Except.ok.inj h).symm

/-- The sorted array has the tasks that were collected, whatever the names. -/
theorem plan_sorted_perm {fuel : Nat} {order : List TaskPtr}
    (hp : plan moves fuel manifest targets = .ok (.sorted order)) :
    ∃ needed, collectNeededTasks moves fuel (parseManifest manifest) targets = .ok needed ∧
      order.Perm needed := by
  obtain ⟨needed, hc, ⟨h, -⟩ | ⟨-, r, hr, he⟩⟩ := plan_ok hp
  · cases h
  refine ⟨needed, hc, ?_⟩
  obtain ⟨hnd, -, -, -⟩ := collectNeededTasks_ok hc
  obtain ⟨s, hi, hq, hs⟩ := topoSort_total (parseManifest_wellLinked manifest) hnd
  obtain rfl := Except.ok.inj (hr.symm.trans hs)
  split at he
  · cases he
  · rename_i hlen
    obtain rfl : order = s.result := by simpa using he
    have hnodup := hi.nodup
    rw [hq, List.append_nil] at hnodup
    refine (hnodup.subperm fun x hx => hi.sub x (List.mem_append_left _ hx)).perm_of_length_le ?_
    omega

theorem plan_ok_acyclic {fuel : Nat} {p : Plan} (h : plan moves fuel manifest targets = .ok p)
    {t : TaskPtr} (ht : Needed (parseManifest manifest) targets t) :
    ¬ OnCycle (parseManifest manifest) t := by
  obtain ⟨needed, hc, -⟩ := plan_ok h
  obtain ⟨-, hpost, hmem, -⟩ := collectNeededTasks_ok hc
  exact not_onCycle_of_postOrder hpost hmem ht

/-- With distinct names `topo_sort` has no cycle left to report. -/
theorem plan_ok_ne_cycle {fuel : Nat} {p : Plan} (h : plan moves fuel manifest targets = .ok p)
    (hn : ((parseManifest manifest).map Task.name).Nodup) : p ≠ .cycle := by
  obtain ⟨needed, hc, hp⟩ := plan_ok h
  obtain ⟨hnd, hpost, -, -⟩ := collectNeededTasks_ok hc
  rcases hp with ⟨rfl, -⟩ | ⟨-, r, hr, rfl⟩
  · simp
  · obtain ⟨r', hr', hord⟩ := topoSort_of_postOrder (parseManifest_wellLinked manifest) hnd hpost
    obtain rfl : r = r' := Except.ok.inj (hr.symm.trans hr')
    obtain ⟨order, rfl, -, -⟩ := hord hn
    simp

/-- Where no needed task lies on a cycle and the array stays in place, planning ends. -/
theorem plan_total
    (hac : ∀ t, Needed (parseManifest manifest) targets t → ¬ OnCycle (parseManifest manifest) t)
    (hmv : ∀ k, 16 * 2 ^ k < {t | Needed (parseManifest manifest) targets t}.ncard →
      moves (16 * 2 ^ k) = false) :
    ∃ fuel p, plan moves fuel manifest targets = .ok p := by
  obtain ⟨f, hf⟩ := collectNeededTasks_total hac hmv
  obtain ⟨needed, hc⟩ := hf f (Nat.le_refl f)
  obtain ⟨hnd, hpost, -, -⟩ := collectNeededTasks_ok hc
  refine ⟨f, ?_⟩
  rw [plan]
  simp only [hc, bind, Except.bind]
  by_cases hne : needed = []
  · exact ⟨.noTasks, if_pos hne⟩
  · obtain ⟨r, hr, -⟩ := topoSort_of_postOrder (parseManifest_wellLinked manifest) hnd hpost
    rw [if_neg hne]
    simp only [hr]
    cases r with
    | none => exact ⟨.cycle, rfl⟩
    | some order => exact ⟨.sorted order, rfl⟩

/-- **Cycle handling.**  The sequence ends, and with distinct names reports a cycle exactly if a
needed task lies on one, if and only if no needed task lies on a cycle and every `realloc` that
the needed tasks take leaves the array where it is. -/
theorem cycle_handling_iff (moves : Nat → Bool) (manifest : Bytes) (targets : List Bytes) :
    ((∃ fuel p, plan moves fuel manifest targets = .ok p) ∧
      (((parseManifest manifest).map Task.name).Nodup →
        ((∃ fuel, plan moves fuel manifest targets = .ok .cycle) ↔
          ∃ t, Needed (parseManifest manifest) targets t ∧ OnCycle (parseManifest manifest) t))) ↔
      (∀ t, Needed (parseManifest manifest) targets t → ¬ OnCycle (parseManifest manifest) t) ∧
        ∀ k, 16 * 2 ^ k < {t | Needed (parseManifest manifest) targets t}.ncard →
          moves (16 * 2 ^ k) = false := by
  constructor
  · rintro ⟨⟨fuel, p, h⟩, -⟩
    obtain ⟨needed, hc, -⟩ := plan_ok h
    obtain ⟨hnd, hpost, hmem, hmv⟩ := collectNeededTasks_ok hc
    rw [← length_of_mem_iff hnd hmem]
    exact ⟨fun t ht => not_onCycle_of_postOrder hpost hmem ht, hmv⟩
  · rintro ⟨hac, hmv⟩
    refine ⟨plan_total hac hmv, fun hn => ⟨?_, ?_⟩⟩
    · rintro ⟨fuel, h⟩
      exact absurd rfl (plan_ok_ne_cycle h hn)
    · rintro ⟨t, ht, hc⟩
      exact absurd hc (hac t ht)

/-- A task that depends on itself: the sequence has no end, with an array that never moves. -/
theorem self_dependency_diverges :
    let manifest := ascii "task a \x7b\n  deps = a\n\x7d\n"
    ((parseManifest manifest).map Task.name).Nodup ∧
      (∃ t, Needed (parseManifest manifest) [] t ∧ OnCycle (parseManifest manifest) t) ∧
      ¬ ∃ fuel p, plan (fun _ => false) fuel manifest [] = .ok p := by
  intro manifest
  have hcycle : OnCycle (parseManifest manifest) 0 :=
    .single ⟨ascii "a", by decide, by decide⟩
  have hneeded : Needed (parseManifest manifest) [] 0 := ⟨0, by decide, .refl⟩
  refine ⟨by decide, ⟨0, hneeded, hcycle⟩, ?_⟩
  rintro ⟨fuel, p, h⟩
  exact plan_ok_acyclic h hneeded hcycle

end ReproVM
