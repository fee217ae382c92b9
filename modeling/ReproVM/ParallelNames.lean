/-
# The queue where names repeat

`worker_main` finds the count to lower by name: an entry `dep` of `t->dependents` lowers the count
of the first task of the subset that has the name of `dep`, and when that count reaches zero it is
`dep` that is pushed.  Where two tasks have a name, these need not be the same task.  Here names
are arbitrary: every count still pushes once at most, so when `remaining` is zero every count has
pushed, and a task of the subset was run if and only if its own count did not push another.
-/
import ReproVM.EdgeCounts
import ReproVM.ParallelReturn

namespace ReproVM

open Bytes (ascii)
open Lib (Run)

/-! ## 1. Counts and what they push -/

/-- What is asked of the arguments, whatever the names. -/
structure ParallelArgs.Linked (a : ParallelArgs) : Prop where
  linked : WellLinked a.list
  nodup : a.subset.Nodup
  lt : ∀ t ∈ a.subset, t < a.list.length

/-- The index of the count that an entry `x` of `dependents` lowers. -/
def slot (a : ParallelArgs) (x : TaskPtr) : Option Nat :=
  (nameOf a.list x).bind (findTaskIndex a.list a.subset)

variable {a : ParallelArgs} {s s' : ParallelState} {e : ParallelEvent} {tr : List ParallelEvent}
  {t x dep : TaskPtr} {i j : Nat} {R : List TaskPtr} {c : Nat → Int}

theorem slot_some (h : slot a x = some j) :
    ∃ i, a.subset[j]? = some i ∧ nameOf a.list i = nameOf a.list x := by
  obtain ⟨d, hd, hf⟩ := Option.bind_eq_some_iff.mp h
  obtain ⟨i, hi, hn⟩ := findTaskIndex_some hf
  exact ⟨i, hi, hn.trans hd.symm⟩

theorem slot_lt (h : slot a x = some j) : j < a.subset.length := by
  obtain ⟨i, hi, -⟩ := slot_some h
  exact (List.getElem?_eq_some_iff.mp hi).1

/-- A task of the subset has a name that is found there. -/
theorem slot_ne_none (ha : a.Linked) (hx : x ∈ a.subset) : slot a x ≠ none := by
  have hlt := ha.lt x hx
  have hname : nameOf a.list x = some a.list[x].name := by
    rw [nameOf, List.getElem?_eq_getElem hlt, Option.map_some]
  rw [slot, hname, Option.bind_some, findTaskIndex, Ne, List.findIdx?_eq_none_iff]
  intro h
  have := h x hx
  simp [hname] at this

/-- An entry of the `dependents` of a task whose name is in the subset waits for that name. -/
theorem pendingCount_ne_zero (ha : a.Linked) {u : TaskPtr} (hx : x ∈ dependentsOf a.list u)
    (hu : slot a u ≠ none) : pendingCount a x ≠ 0 := by
  have hpos : 0 < edgeCount a.list u x := by
    rw [← ha.linked]
    exact List.count_pos_iff.mpr hx
  obtain ⟨d, hd, hf⟩ := List.countP_pos_iff.mp hpos
  have hname : nameOf a.list u = some d := nameOf_of_findTask (by simpa using hf)
  rw [pendingCount, ← Nat.pos_iff_ne_zero, List.countP_pos_iff]
  refine ⟨d, hd, ?_⟩
  rw [slot, hname, Option.bind_some] at hu
  exact Option.isSome_iff_ne_none.mpr hu

/-- `R` holds what was pushed: every count that is down pushed one task, for itself or, at the
start, for the task whose count it is. -/
structure Released (a : ParallelArgs) (R : List TaskPtr) (c : Nat → Int) : Prop where
  nodup : R.Nodup
  origin : ∀ x ∈ R, ∃ j,
    (slot a x = some j ∨ a.subset[j]? = some x ∧ pendingCount a x = 0) ∧ c j ≤ 0
  length : R.length = ((Finset.range a.subset.length).filter fun j => c j ≤ 0).card

/-- What one entry of `dependents` does. -/
theorem releaseDependent_cases (s : ParallelState) (dep : TaskPtr) :
    slot a dep = none ∧ releaseDependent a s dep = s ∨
      ∃ i, slot a dep = some i ∧
        (releaseDependent a s dep).pendingDeps
          = Function.update s.pendingDeps i (s.pendingDeps i - 1) ∧
        (releaseDependent a s dep).ready =
          if s.pendingDeps i = 1 then s.ready ++ [dep] else s.ready := by
  rw [releaseDependent]
  cases h : slot a dep with
  | none =>
    rw [slot] at h
    rw [h]
    exact .inl ⟨rfl, rfl⟩
  | some i =>
    rw [slot] at h
    rw [h]
    refine .inr ⟨i, rfl, ?_⟩
    simp only [Function.update_self]
    by_cases h1 : s.pendingDeps i = 1
    · rw [if_pos (by omega), if_pos h1]
      exact ⟨rfl, rfl⟩
    · rw [if_neg (by omega), if_neg h1]
      exact ⟨rfl, rfl⟩

/-- The counts that are down, after one more reaches zero. -/
theorem filter_update_of_one (hi : i < a.subset.length) (h1 : c i = 1) :
    ((Finset.range a.subset.length).filter fun j => Function.update c i (c i - 1) j ≤ 0)
      = insert i ((Finset.range a.subset.length).filter fun j => c j ≤ 0) := by
  ext j
  by_cases hj : j = i
  · subst hj
    simp [h1, hi]
  · simp [hj]

/-- A count that does not reach zero was down, or is not. -/
theorem update_le_zero (h1 : c i ≠ 1) : Function.update c i (c i - 1) j ≤ 0 ↔ c j ≤ 0 := by
  by_cases hj : j = i
  · subst hj
    rw [Function.update_self]
    omega
  · rw [Function.update_of_ne hj]

theorem Released.release (h : Released a (R ++ s.ready) s.pendingDeps)
    (hdep : pendingCount a dep ≠ 0) :
    Released a (R ++ (releaseDependent a s dep).ready) (releaseDependent a s dep).pendingDeps := by
  rcases releaseDependent_cases (a := a) s dep with ⟨-, hs⟩ | ⟨i, hslot, hc, hr⟩
  · rwa [hs]
  rw [hc, hr]
  by_cases h1 : s.pendingDeps i = 1
  · rw [if_pos h1, ← List.append_assoc]
    -- `dep` was not pushed before: its count is still up
    have hnew : dep ∉ R ++ s.ready := by
      intro hmem
      obtain ⟨j, hj | ⟨-, h0⟩, hcj⟩ := h.origin dep hmem
      · obtain rfl : i = j := Option.some.inj (hslot.symm.trans hj)
        omega
      · exact hdep h0
    have hle : ∀ j, s.pendingDeps j ≤ 0 →
        Function.update s.pendingDeps i (s.pendingDeps i - 1) j ≤ 0 := by
      intro j hj
      by_cases hji : j = i
      · subst hji
        rw [Function.update_self]
        omega
      · rwa [Function.update_of_ne hji]
    refine ⟨?_, fun x hx => ?_, ?_⟩
    · rw [List.nodup_append]
      refine ⟨h.nodup, List.nodup_singleton dep, fun x hx y hy => ?_⟩
      rw [List.mem_singleton.mp hy]
      exact ne_of_mem_of_not_mem hx hnew
    · rcases List.mem_append.mp hx with hx | hx
      · obtain ⟨j, hj, hcj⟩ := h.origin x hx
        exact ⟨j, hj, hle j hcj⟩
      · rw [List.mem_singleton.mp hx]
        exact ⟨i, .inl hslot, by rw [Function.update_self]; omega⟩
    · rw [filter_update_of_one (slot_lt hslot) h1, Finset.card_insert_of_notMem (by simp [h1]),
        List.length_append, h.length, List.length_singleton]
  · rw [if_neg h1]
    refine ⟨h.nodup, fun x hx => ?_, ?_⟩
    · obtain ⟨j, hj, hcj⟩ := h.origin x hx
      exact ⟨j, hj, (update_le_zero h1).mpr hcj⟩
    · rw [h.length]
      simp only [update_le_zero h1]

theorem Released.fold {xs : List TaskPtr} (h : Released a (R ++ s.ready) s.pendingDeps)
    (hxs : ∀ x ∈ xs, pendingCount a x ≠ 0) :
    Released a (R ++ (xs.foldl (releaseDependent a) s).ready)
      (xs.foldl (releaseDependent a) s).pendingDeps := by
  induction xs generalizing s with
  | nil => exact h
  | cons x xs ih =>
    exact ih (h.release (hxs x List.mem_cons_self)) fun y hy => hxs y (List.mem_cons_of_mem _ hy)

theorem Released.named (h : Released a R c) (ha : a.Linked) (hx : x ∈ R) : slot a x ≠ none := by
  obtain ⟨j, hj | ⟨hj, -⟩, -⟩ := h.origin x hx
  · simp [hj]
  · exact slot_ne_none ha (List.mem_of_getElem? hj)

theorem parallelInit_pendingDeps (hi : i < a.subset.length) :
    (parallelInit a).pendingDeps i = pendingCount a a.subset[i] := by
  rw [parallelInit]
  simp only [List.getElem?_eq_getElem hi, Option.map_some, Option.getD_some]

/-- At the start the tasks that wait for nothing are pushed. -/
theorem released_init (ha : a.Linked) :
    Released a (parallelInit a).ready (parallelInit a).pendingDeps where
  nodup := ha.nodup.filter _
  origin x hx := by
    obtain ⟨hx, h0⟩ := List.mem_filter.mp hx
    have h0 : pendingCount a x = 0 := by simpa using h0
    obtain ⟨j, hj, rfl⟩ := List.getElem_of_mem hx
    refine ⟨j, .inr ⟨List.getElem?_eq_getElem hj, h0⟩, ?_⟩
    rw [parallelInit_pendingDeps hj, h0]
    exact Int.le_refl 0
  length := by
    have hset : ((Finset.range a.subset.length).filter fun j => (parallelInit a).pendingDeps j ≤ 0)
        = ((parallelInit a).ready.map a.subset.idxOf).toFinset := by
      ext j
      rw [Finset.mem_filter, Finset.mem_range, List.mem_toFinset, List.mem_map]
      constructor
      · rintro ⟨hj, h0⟩
        rw [parallelInit_pendingDeps hj] at h0
        refine ⟨a.subset[j], List.mem_filter.mpr ⟨List.getElem_mem hj, ?_⟩, ha.nodup.idxOf_getElem j hj⟩
        simp only [decide_eq_true_eq]
        omega
      · rintro ⟨x, hx, rfl⟩
        obtain ⟨hx, h0⟩ := List.mem_filter.mp hx
        have hj := List.idxOf_lt_length_of_mem hx
        refine ⟨hj, ?_⟩
        rw [parallelInit_pendingDeps hj, List.getElem_idxOf hj]
        simp only [decide_eq_true_eq] at h0
        omega
    have hnd : ((parallelInit a).ready.map a.subset.idxOf).Nodup :=
      (ha.nodup.filter _).map_on fun x hx y _ h =>
        (List.idxOf_inj (List.mem_of_mem_filter hx)).mp h
    rw [hset, List.toFinset_card_of_nodup hnd, List.length_map]

/-! ## 2. Every run -/

/-- What the queue and `remaining` are in every run. -/
structure ReleaseInv (a : ParallelArgs) (tr : List ParallelEvent) (s : ParallelState) : Prop where
  released : Released a (popped tr ++ s.ready) s.pendingDeps
  remaining :
    s.remaining + ((finished tr).length + (hashFailures tr).length : Nat) = a.subset.length

/-- The release of dependents looks at the counts and the queue only. -/
theorem foldl_releaseDependent_congr (xs : List TaskPtr) {s₀ : ParallelState}
    (hc : s₀.pendingDeps = s.pendingDeps) (hr : s₀.ready = s.ready) :
    (xs.foldl (releaseDependent a) s₀).pendingDeps = (xs.foldl (releaseDependent a) s).pendingDeps ∧
      (xs.foldl (releaseDependent a) s₀).ready = (xs.foldl (releaseDependent a) s).ready := by
  induction xs generalizing s₀ s with
  | nil => exact ⟨hc, hr⟩
  | cons x xs ih =>
    rw [List.foldl_cons, List.foldl_cons]
    rcases releaseDependent_cases (a := a) s₀ x with ⟨hn, h0⟩ | ⟨i, hi, hc0, hr0⟩ <;>
      rcases releaseDependent_cases (a := a) s x with ⟨hn', h1⟩ | ⟨j, hj, hc1, hr1⟩
    · rw [h0, h1]
      exact ih hc hr
    · rw [hn] at hj
      cases hj
    · rw [hn'] at hi
      cases hi
    · obtain rfl : i = j := Option.some.inj (hi.symm.trans hj)
      exact ih (by rw [hc0, hc1, hc]) (by rw [hr0, hr1, hc, hr])

/-- What a step does to the counts and to what was pushed. -/
theorem queue_step (hl : LockInv a tr s) (hs : ParallelStep a s e s') :
    popped (tr ++ [e]) ++ s'.ready = popped tr ++ s.ready ∧ s'.pendingDeps = s.pendingDeps ∧
        (∀ w u, e ≠ .done w u) ∨
      ∃ w u, e = .done w u ∧ (s.pc w).task = some u ∧
        popped (tr ++ [e]) ++ s'.ready =
          popped tr ++ ((dependentsOf a.list u).foldl (releaseDependent a) s).ready ∧
        s'.pendingDeps = ((dependentsOf a.list u).foldl (releaseDependent a) s).pendingDeps := by
  cases e with
  | done w u =>
    obtain ⟨hpc, rfl⟩ := parallelStep_iff.mp hs
    have hp : popped (tr ++ [ParallelEvent.done w u]) = popped tr := popped_same rfl
    have hc₀ : ({ (s.goto w .top).broadcast.setMu none with remaining := s.remaining - 1 } :
        ParallelState).pendingDeps = s.pendingDeps := rfl
    obtain ⟨hc, hr⟩ := foldl_releaseDependent_congr (a := a) (dependentsOf a.list u) hc₀ rfl
    exact .inr ⟨w, u, rfl, by rw [hpc]; rfl, by rw [hp, hr], hc⟩
  | pop w t =>
    obtain ⟨rest, hr, -, rfl⟩ := parallelStep_iff.mp hs
    refine .inl ⟨?_, rfl, by simp⟩
    rw [popped_append, hr, List.append_assoc]
    rfl
  | hashFailed w t =>
    obtain ⟨-, rfl⟩ := parallelStep_iff.mp hs
    refine .inl ⟨?_, rfl, by simp⟩
    rw [popped_append, List.append_assoc]
    rfl
  | _ =>
    obtain ⟨hr, hc, -⟩ := quiet_step hl (by trivial) hs
    refine .inl ⟨?_, hc, by simp⟩
    rw [popped_append, hr, List.append_assoc]
    rfl

/-- `remaining` is what the two sections that lower it have left. -/
theorem remaining_count_step (h : s.remaining +
      ((finished tr).length + (hashFailures tr).length : Nat) = a.subset.length)
    (hl : LockInv a tr s) (hs : ParallelStep a s e s') :
    s'.remaining + ((finished (tr ++ [e])).length + (hashFailures (tr ++ [e])).length : Nat)
      = a.subset.length := by
  rw [finished_append, hashFailures_append, List.length_append, List.length_append]
  cases e with
  | done w u =>
    obtain ⟨-, pd, rd, rfl⟩ := (parallelStep_iff.mp hs).done
    have h1 : (finished [.done w u]).length = 1 := rfl
    have h0 : (hashFailures [.done w u]).length = 0 := rfl
    push_cast [h1, h0] at h ⊢
    omega
  | pop w t =>
    obtain ⟨rest, hr, -, rfl⟩ := parallelStep_iff.mp hs
    exact h
  | hashFailed w t =>
    obtain ⟨-, rfl⟩ := parallelStep_iff.mp hs
    have h0 : (finished [.hashFailed w t]).length = 0 := rfl
    have h1 : (hashFailures [.hashFailed w t]).length = 1 := rfl
    push_cast [h1, h0] at h ⊢
    omega
  | _ =>
    obtain ⟨-, -, hrem, -⟩ := quiet_step hl (by trivial) hs
    rw [hrem]
    exact h

theorem releaseInv_init (ha : a.Linked) : ReleaseInv a [] (parallelInit a) where
  released := released_init ha
  remaining := by simp [parallelInit, finished, hashFailures]

theorem ReleaseInv.step (h : ReleaseInv a tr s) (ha : a.Linked) (hh : HoldInv tr s)
    (hl : LockInv a tr s) (hs : ParallelStep a s e s') : ReleaseInv a (tr ++ [e]) s' where
  released := by
    rcases queue_step hl hs with ⟨hr, hc, -⟩ | ⟨w, u, -, hu, hr, hc⟩
    · rw [hr, hc]
      exact h.released
    · rw [hr, hc]
      refine h.released.fold fun x hx => pendingCount_ne_zero ha hx (h.released.named ha ?_)
      exact List.mem_append_left _ (hh.held w u hu).1
  remaining := remaining_count_step h.remaining hl hs

theorem HoldInv.step (h : HoldInv tr s) (hl : LockInv a tr s)
    (hnd : (popped tr ++ s.ready).Nodup) (hs : ParallelStep a s e s') : HoldInv (tr ++ [e]) s' := by
  cases e with
  | pop w t => exact h.pop hnd hs
  | hashFailed w t => exact h.hashFailed hs
  | done w t => exact h.done hs
  | _ => exact h.quiet hl trivial hs

/-- Whatever the names, a task is held by one worker, and every count has pushed once at most. -/
theorem releases_run (ha : a.Linked) (h : Run (ParallelStep a) (parallelInit a) tr s) :
    HoldInv tr s ∧ ReleaseInv a tr s :=
  Run.inv (I := fun tr s => HoldInv tr s ∧ ReleaseInv a tr s) ⟨holdInv_init, releaseInv_init ha⟩
    (fun _ _ _ _ hr hi hs => ⟨hi.1.step (lockInv_run hr) hi.2.released.nodup hs,
      hi.2.step ha hi.1 (lockInv_run hr) hs⟩) h

/-- With nothing remaining every count has pushed, and all that was pushed is completed. -/
theorem all_pushed (hh : HoldInv tr s) (hi : ReleaseInv a tr s) (h0 : s.remaining = 0) :
    (completed tr).Perm (popped tr ++ s.ready) ∧ (∀ j < a.subset.length, s.pendingDeps j ≤ 0) ∧
      ∀ w, (s.pc w).task = none := by
  obtain ⟨hnd, hpop⟩ := hh.ended
  have hlen : (completed tr).length = a.subset.length := by
    have := hi.remaining
    rw [completed, List.length_append]
    omega
  have hcard : ((Finset.range a.subset.length).filter fun j => s.pendingDeps j ≤ 0).card
      ≤ a.subset.length := by
    simpa using Finset.card_filter_le (Finset.range a.subset.length) fun j => s.pendingDeps j ≤ 0
  have hperm : (completed tr).Perm (popped tr ++ s.ready) := by
    refine (hnd.subperm fun t ht => List.mem_append_left _ (hpop t ht)).perm_of_length_le ?_
    have := hi.released.length
    exact this.trans_le (hcard.trans_eq hlen.symm)
  refine ⟨hperm, fun j hj => ?_, fun w => Option.eq_none_iff_forall_ne_some.mpr fun t ht => ?_⟩
  · have hall : ((Finset.range a.subset.length).filter fun j => s.pendingDeps j ≤ 0)
        = Finset.range a.subset.length := by
      refine Finset.eq_of_subset_of_card_le (Finset.filter_subset _ _) ?_
      rw [← hi.released.length, ← hperm.length_eq, hlen, Finset.card_range]
    have hmem := Finset.mem_range.mpr hj
    rw [← hall] at hmem
    exact (Finset.mem_filter.mp hmem).2
  · obtain ⟨htp, h1, h2⟩ := hh.held w t ht
    rcases List.mem_append.mp (hperm.mem_iff.mpr (List.mem_append_left _ htp)) with h | h
    · exact h1 h
    · exact h2 h

/-! ## 3. The count of a task and the task it pushes -/

/-- In the section after `u`, an entry other than `t` brings the count of `t` to zero, and is
pushed for it. -/
def ParallelEvent.PushesOther (a : ParallelArgs) (t : TaskPtr) (s : ParallelState) :
    ParallelEvent → Prop
  | .done _ u => ∃ before dep after, dependentsOf a.list u = before ++ dep :: after ∧
      slot a dep = some (a.subset.idxOf t) ∧
      (before.foldl (releaseDependent a) s).pendingDeps (a.subset.idxOf t) = 1 ∧ dep ≠ t
  | _ => False

/-- A step that pushes no other task for the count of `t`. -/
def StepFor (a : ParallelArgs) (t : TaskPtr) (s : ParallelState) (e : ParallelEvent)
    (s' : ParallelState) : Prop :=
  ParallelStep a s e s' ∧ ¬ e.PushesOther a t s

/-- The count of `t`, once down, has pushed `t`. -/
def Kept (a : ParallelArgs) (t : TaskPtr) (R : List TaskPtr) (c : Nat → Int) : Prop :=
  c (a.subset.idxOf t) ≤ 0 → t ∈ R

/-- It has pushed another task, and `t` has no other count. -/
structure Lost (a : ParallelArgs) (t : TaskPtr) (R : List TaskPtr) (c : Nat → Int) : Prop where
  slot : slot a t = some (a.subset.idxOf t)
  down : c (a.subset.idxOf t) ≤ 0
  notMem : t ∉ R

theorem kept_release (h : Kept a t (R ++ s.ready) s.pendingDeps)
    (hself : slot a dep = some (a.subset.idxOf t) → s.pendingDeps (a.subset.idxOf t) = 1 → dep = t) :
    Kept a t (R ++ (releaseDependent a s dep).ready) (releaseDependent a s dep).pendingDeps := by
  rcases releaseDependent_cases (a := a) s dep with ⟨-, hs⟩ | ⟨i, hslot, hc, hr⟩
  · rwa [hs]
  intro h0
  rw [hc] at h0
  rw [hr]
  by_cases h1 : s.pendingDeps i = 1
  · rw [if_pos h1, ← List.append_assoc, List.mem_append]
    by_cases hi : a.subset.idxOf t = i
    · exact .inr (List.mem_singleton.mpr (hself (hi ▸ hslot) (hi ▸ h1)).symm)
    · rw [Function.update_of_ne hi] at h0
      exact .inl (h h0)
  · rw [if_neg h1]
    exact h ((update_le_zero h1).mp h0)

theorem Lost.release (h : Lost a t (R ++ s.ready) s.pendingDeps) :
    Lost a t (R ++ (releaseDependent a s dep).ready) (releaseDependent a s dep).pendingDeps := by
  rcases releaseDependent_cases (a := a) s dep with ⟨-, hs⟩ | ⟨i, hslot, hc, hr⟩
  · rwa [hs]
  have hdown := h.down
  by_cases h1 : s.pendingDeps i = 1
  · have hi : a.subset.idxOf t ≠ i := by
      rintro rfl
      omega
    have hdep : dep ≠ t := by
      rintro rfl
      exact hi (Option.some.inj (h.slot.symm.trans hslot))
    refine ⟨h.slot, by rw [hc, Function.update_of_ne hi]; exact hdown, ?_⟩
    rw [hr, if_pos h1, ← List.append_assoc, List.mem_append, List.mem_singleton, not_or]
    exact ⟨h.notMem, hdep.symm⟩
  · refine ⟨h.slot, by rw [hc]; exact (update_le_zero h1).mpr hdown, ?_⟩
    rw [hr, if_neg h1]
    exact h.notMem

/-- Pushing another task for the count of `t` loses `t`. -/
theorem lost_release (ha : a.Linked) (ht : t ∈ a.subset)
    (h : Released a (R ++ s.ready) s.pendingDeps) (hslot : slot a dep = some (a.subset.idxOf t))
    (h1 : s.pendingDeps (a.subset.idxOf t) = 1) (hdep : dep ≠ t) :
    Lost a t (R ++ (releaseDependent a s dep).ready) (releaseDependent a s dep).pendingDeps := by
  have hself : slot a t = some (a.subset.idxOf t) := by
    obtain ⟨u, hu, hn⟩ := slot_some hslot
    obtain rfl : u = t := by
      rw [List.getElem?_eq_getElem (List.idxOf_lt_length_of_mem ht), List.getElem_idxOf] at hu
      exact (Option.some.inj hu).symm
    rwa [slot, hn]
  have hnot : t ∉ R ++ s.ready := by
    intro hmem
    obtain ⟨j, hj, hcj⟩ := h.origin t hmem
    have : j = a.subset.idxOf t := by
      rcases hj with hj | ⟨hj, -⟩
      · exact Option.some.inj (hj.symm.trans hself)
      · exact (idxOf_of_getElem? ha.nodup hj).symm
    subst this
    omega
  rcases releaseDependent_cases (a := a) s dep with ⟨hn, -⟩ | ⟨i, hi, hc, hr⟩
  · rw [hn] at hslot
    cases hslot
  obtain rfl : a.subset.idxOf t = i := Option.some.inj (hslot.symm.trans hi)
  refine ⟨hself, by rw [hc, Function.update_self]; omega, ?_⟩
  rw [hr, if_pos h1, ← List.append_assoc, List.mem_append, List.mem_singleton, not_or]
  exact ⟨hnot, hdep.symm⟩

theorem Lost.fold {xs : List TaskPtr} (h : Lost a t (R ++ s.ready) s.pendingDeps) :
    Lost a t (R ++ (xs.foldl (releaseDependent a) s).ready)
      (xs.foldl (releaseDependent a) s).pendingDeps := by
  induction xs generalizing s with
  | nil => exact h
  | cons x xs ih => exact ih h.release

theorem kept_fold {xs : List TaskPtr} (h : Kept a t (R ++ s.ready) s.pendingDeps)
    (hself : ∀ before dep after, xs = before ++ dep :: after →
      slot a dep = some (a.subset.idxOf t) →
      (before.foldl (releaseDependent a) s).pendingDeps (a.subset.idxOf t) = 1 → dep = t) :
    Kept a t (R ++ (xs.foldl (releaseDependent a) s).ready)
      (xs.foldl (releaseDependent a) s).pendingDeps := by
  induction xs generalizing s with
  | nil => exact h
  | cons x xs ih =>
    refine ih (kept_release h (hself [] x xs rfl)) fun before dep after he => ?_
    exact hself (x :: before) dep after (by rw [he, List.cons_append])

theorem kept_step (hl : LockInv a tr s) (h : Kept a t (popped tr ++ s.ready) s.pendingDeps)
    (hs : StepFor a t s e s') : Kept a t (popped (tr ++ [e]) ++ s'.ready) s'.pendingDeps := by
  rcases queue_step hl hs.1 with ⟨hr, hc, -⟩ | ⟨w, u, rfl, -, hr, hc⟩
  · rwa [hr, hc]
  · rw [hr, hc]
    refine kept_fold h fun before dep after he hslot h1 => ?_
    by_contra hdep
    exact hs.2 ⟨before, dep, after, he, hslot, h1, hdep⟩

theorem Lost.step (hl : LockInv a tr s) (h : Lost a t (popped tr ++ s.ready) s.pendingDeps)
    (hs : ParallelStep a s e s') : Lost a t (popped (tr ++ [e]) ++ s'.ready) s'.pendingDeps := by
  rcases queue_step hl hs with ⟨hr, hc, -⟩ | ⟨w, u, -, -, hr, hc⟩
  · rwa [hr, hc]
  · rw [hr, hc]
    exact h.fold

theorem lost_of_pushesOther (ha : a.Linked) (hl : LockInv a tr s) (hh : HoldInv tr s)
    (h : ReleaseInv a tr s) (ht : t ∈ a.subset) (hs : ParallelStep a s e s')
    (hp : e.PushesOther a t s) : Lost a t (popped (tr ++ [e]) ++ s'.ready) s'.pendingDeps := by
  rcases queue_step hl hs with ⟨-, -, hne⟩ | ⟨w, u, rfl, hu, hr, hc⟩
  · cases e with
    | done w u => exact absurd rfl (hne w u)
    | _ => exact hp.elim
  · obtain ⟨before, dep, after, he, hslot, h1, hdep⟩ := hp
    have hnamed := h.released.named ha (List.mem_append_left _ (hh.held w u hu).1)
    have hbefore : Released a (popped tr ++ (before.foldl (releaseDependent a) s).ready)
        (before.foldl (releaseDependent a) s).pendingDeps :=
      h.released.fold fun x hx => pendingCount_ne_zero ha (by rw [he]; simp [hx]) hnamed
    rw [hr, hc, he, List.foldl_append, List.foldl_cons]
    exact (lost_release ha ht hbefore hslot h1 hdep).fold

/-- **Kept or lost.**  A run pushes no other task for the count of `t`, or it has lost `t`. -/
theorem kept_or_lost (ha : a.Linked) (ht : t ∈ a.subset)
    (h : Run (ParallelStep a) (parallelInit a) tr s) :
    Run (StepFor a t) (parallelInit a) tr s ∨ Lost a t (popped tr ++ s.ready) s.pendingDeps := by
  refine Run.inv (I := fun tr s => Run (StepFor a t) (parallelInit a) tr s ∨
    Lost a t (popped tr ++ s.ready) s.pendingDeps) (.inl .refl) ?_ h
  intro tr s e s' hr hi hs
  obtain ⟨hh, hrel⟩ := releases_run ha hr
  rcases hi with hi | hi
  · by_cases hp : e.PushesOther a t s
    · exact .inr (lost_of_pushesOther ha (lockInv_run hr) hh hrel ht hs hp)
    · exact .inl (hi.snoc ⟨hs, hp⟩)
  · exact .inr (hi.step (lockInv_run hr) hs)

theorem kept_run (ht : t ∈ a.subset) (h : Run (StepFor a t) (parallelInit a) tr s) :
    Kept a t (popped tr ++ s.ready) s.pendingDeps := by
  have hrun : ∀ {tr s}, Run (StepFor a t) (parallelInit a) tr s →
      Run (ParallelStep a) (parallelInit a) tr s := fun h => h.imp fun _ _ _ hs => hs.1
  refine Run.inv (I := fun tr s => Kept a t (popped tr ++ s.ready) s.pendingDeps) ?_
    (fun tr s s' e hr hi hs => kept_step (lockInv_run (hrun hr)) hi hs) h
  intro h0
  have hj := List.idxOf_lt_length_of_mem ht
  rw [parallelInit_pendingDeps hj, List.getElem_idxOf hj] at h0
  refine List.mem_filter.mpr ⟨ht, ?_⟩
  simp only [decide_eq_true_eq]
  omega

/-- With distinct names no count pushes another task. -/
theorem not_pushesOther_of_nodup (ha : a.Linked) (hn : (a.list.map Task.name).Nodup)
    (ht : t ∈ a.subset) : ¬ e.PushesOther a t s := by
  cases e with
  | done w u =>
    rintro ⟨before, dep, after, -, hslot, -, hdep⟩
    obtain ⟨v, hv, hname⟩ := slot_some hslot
    obtain rfl : v = t := by
      rw [List.getElem?_eq_getElem (List.idxOf_lt_length_of_mem ht), List.getElem_idxOf] at hv
      exact (Option.some.inj hv).symm
    exact hdep (nameOf_inj hn (ha.lt v ht) hname.symm)
  | _ => exact id

/-! ## 4. The return -/

/-- A status is written when its task is taken off the queue, or by the worker that holds it. -/
theorem status_step (hs : ParallelStep a s e s') : s'.status t = s.status t ∨
    (∃ w, e = .pop w t) ∨ ∃ w, (s.pc w).task = some t := by
  have hwrite : ∀ {w u pc st}, (s.pc w).task = some u →
      ((s.goto w pc).setStatus u st).status t = s.status t ∨ ∃ w, (s.pc w).task = some t := by
    intro w u pc st hu
    by_cases htu : t = u
    · exact .inr ⟨w, htu ▸ hu⟩
    · rw [setStatus_status, if_neg htu]
      exact .inl rfl
  rw [parallelStep_iff] at hs
  cases e with
  | spawn =>
    obtain ⟨i, -, -, rfl⟩ := hs
    exact .inl rfl
  | join =>
    obtain ⟨i, -, -, -, rfl⟩ := hs
    exact .inl rfl
  | mainLock =>
    obtain ⟨-, -, rfl⟩ := hs
    exact .inl rfl
  | mainBroadcast | failed w u | spurious w =>
    obtain ⟨-, rfl⟩ := hs
    exact .inl rfl
  | lock w =>
    obtain ⟨-, pc, -, rfl⟩ := hs
    exact .inl rfl
  | wait w | exit w | retry w =>
    obtain ⟨-, -, -, rfl⟩ := hs
    exact .inl rfl
  | pop w u =>
    obtain ⟨rest, -, -, rfl⟩ := hs
    by_cases htu : t = u
    · exact .inr (.inl ⟨w, by rw [htu]⟩)
    · refine .inl ?_
      dsimp only
      rw [setStatus_status, if_neg htu]
      rfl
  | hash w u ok | lookup w u ok | command w u ok | record w u ok =>
    cases ok with
    | true =>
      obtain ⟨hpc, rfl⟩ := hs
      first
        | exact .inl rfl
        | exact (hwrite (by rw [hpc]; rfl)).imp_right .inr
    | false =>
      obtain ⟨hpc, rfl⟩ := hs
      first
        | exact .inl rfl
        | exact (hwrite (by rw [hpc]; rfl)).imp_right .inr
  | hashFailed w u =>
    obtain ⟨-, rfl⟩ := hs
    exact .inl rfl
  | done w u =>
    obtain ⟨-, pd, rd, rfl⟩ := ParallelEvent.Spec.done hs
    exact .inl rfl

/-- A task that was not taken off the queue is pending. -/
theorem status_pending (ha : a.Linked) (h : Run (ParallelStep a) (parallelInit a) tr s)
    (ht : t ∉ popped tr) : s.status t = .pending := by
  refine Run.inv (I := fun tr s => ∀ t, t ∉ popped tr → s.status t = .pending)
    (fun _ _ => rfl) ?_ h t ht
  intro tr s e s' hr hi hs t ht
  obtain ⟨hh, -⟩ := releases_run ha hr
  rw [popped_append, List.mem_append, not_or] at ht
  rcases status_step (t := t) hs with h1 | ⟨w, rfl⟩ | ⟨w, hw⟩
  · rw [h1]
    exact hi t ht.1
  · exact absurd (by simp [popped]) ht.2
  · exact absurd (hh.held w t hw).1 ht.1

theorem returnInv_of_linked (ha : a.Linked) (h : Run (ParallelStep a) (parallelInit a) tr s) :
    ReturnInv tr s :=
  Run.inv returnInv_init (fun _ _ _ _ hr hi hs =>
    hi.step (fun h0 => (all_pushed (releases_run ha hr).1 (releases_run ha hr).2 h0).2.2)
      (lockInv_run hr) hs) h

theorem statusInv_of_linked (ha : a.Linked) (h : Run (ParallelStep a) (parallelInit a) tr s) :
    StatusInv tr s :=
  Run.inv statusInv_init (fun _ _ _ _ hr hi hs =>
    hi.step (releases_run ha hr).1 (lockInv_run hr) (releases_run ha hr).2.released.nodup hs) h

/-- **A return of 0.**  A task ended well if and only if no other task was pushed for its
count. -/
theorem good_iff_of_returns (ha : a.Linked) (hw : 0 < a.workers)
    (h : Run (ParallelStep a) (parallelInit a) tr s) (hr : ParallelReturns a s 0)
    (ht : t ∈ a.subset) : (s.status t).Good ↔ Run (StepFor a t) (parallelInit a) tr s := by
  have hne : a.subset ≠ [] := List.ne_nil_of_mem ht
  rw [ParallelReturns, if_neg hne] at hr
  obtain ⟨hm, hfailed⟩ := hr
  obtain ⟨hh, hrel⟩ := releases_run ha h
  have hi := returnInv_of_linked ha h
  have hrem : s.remaining = 0 := by
    have := hi.pc 0
    rwa [hi.joined _ hm 0 hw] at this
  obtain ⟨hperm, hdown, -⟩ := all_pushed hh hrel hrem
  have hno : hashFailures tr = [] := by
    refine List.eq_nil_iff_forall_not_mem.mpr fun u hu => ?_
    have hf := (flag_iff hi (not_failed_of_joined (lockInv_run h) hi hm)).mpr ⟨u, hu⟩
    simp [hf] at hfailed
  constructor
  · intro hgood
    refine (kept_or_lost ha ht h).resolve_right fun hlost => ?_
    have hp : t ∉ popped tr := fun hp => hlost.notMem (List.mem_append_left _ hp)
    rw [status_pending ha h hp] at hgood
    rcases hgood with hg | hg <;> exact absurd hg (by simp)
  · intro hrun
    have hmem := kept_run ht hrun (hdown _ (List.idxOf_lt_length_of_mem ht))
    rw [← hperm.mem_iff, completed, hno, List.append_nil] at hmem
    exact (statusInv_of_linked ha h).good t hmem

end ReproVM
